import Libcask.BoundedBuffer

/-! # Channels that are closed

`chan_close` empties the queue with `queue_clear`: it takes no lock, wakes nobody, and leaves the channel
open for further calls.  Here a task in its own code may call it at any time, between the calls of
`Channel.lean`.

* `closed_channel_fifo`: every message is still taken out once and in the order of the pushes, by a
  `chan_recv` or by a `chan_close`; a call of `chan_send` on an unbuffered channel returns only when its
  message has been.
* `closed_channel_wakeups`: no wake-up of a buffered channel is lost if nobody is inside `chan_send`
  when it is closed.
* `close_strands_sender`: a sender that waits for a free place is not woken by `chan_close`. -/

namespace Libcask

/-! ### `deque_clear` -/

namespace Deque

variable {α : Type} {d : Deque α}

/-- The loop of `deque_clear`, with the elements that it drops. -/
def clearLoop : ℕ → Deque α → Option (List α × Deque α)
  | 0, _ => none
  | passes + 1, d =>
      if d.isEmpty then some ([], d)
      else (clearLoop passes d.popFront.2).map fun r => (d.popFront.1.toList ++ r.1, r.2)

/-- `deque_clear`, `queue_clear`: there are no more nodes than were allocated. -/
def clear (d : Deque α) : Option (List α × Deque α) := clearLoop (d.raw.brk + 1) d

theorem clearLoop_eq {passes : ℕ} (hlen : d.toList.length < 2 ^ 32)
    (hpasses : d.toList.length < passes) :
    ∃ d', clearLoop passes d = some (d.toList, d') ∧ d'.toList = [] := by
  induction passes generalizing d with
  | zero => omega
  | succ passes ih =>
      unfold clearLoop
      cases hl : d.toList with
      | nil => exact ⟨d, if_pos ((isEmpty_iff hlen).mpr hl), hl⟩
      | cons e l =>
          have hne : d.isEmpty = false := by
            rw [Bool.eq_false_iff]
            intro hc
            cases hl.symm.trans ((isEmpty_iff hlen).mp hc)
          obtain ⟨he, hrest⟩ := popFront_eq hl hne
          rw [hl, List.length_cons] at hlen hpasses
          obtain ⟨d', hd', hnil⟩ := ih (d := d.popFront.2) (by rw [hrest]; omega) (by rw [hrest]; omega)
          refine ⟨d', ?_, hnil⟩
          rw [hne, hd', he, hrest]
          rfl

theorem clear_eq (hlen : d.toList.length < 2 ^ 32) :
    ∃ d', d.clear = some (d.toList, d') ∧ d'.toList = [] := by
  refine clearLoop_eq hlen ?_
  obtain ⟨ns, h⟩ := d.repr_toList
  have hle : ns.length ≤ d.raw.brk := Rings.length_le (h.rings.ok.nodup ()) h.lt_brk
  have heq : ns.length = d.toList.length := by
    have := congrArg List.length h.elms
    rwa [List.length_map, List.length_map] at this
  omega

end Deque

namespace Chan

/-! ### The channel with `chan_close` -/

section code
variable {L α : Type}

/-- `chan_close` in the task `me`, with the messages that it pops. -/
def chanClose (s : St L α) (me : Tid) : Option (St L α × List (Tid × Msg α)) :=
  s.msgs.clear.map fun (out, msgs) =>
    ({ s with msgs := msgs, popped := s.popped ++ out.map fun m => (me, m) }, out.map fun m => (me, m))

/-- The channel, and which of the popped messages were received and which were dropped. -/
structure CloseSt (L α : Type) where
  st : St L α
  received : List (Tid × Msg α)
  dropped : List (Tid × Msg α)

inductive CloseAct (α : Type) where
  | act (a : Act α)
  | close
deriving DecidableEq, Repr

def closeStep [ListOps L Head Tid] (x : CloseSt L α) : CloseAct α → Option (CloseSt L α)
  | .act a => (step x.st a).map fun s =>
      { x with st := s, received := x.received ++ s.popped.drop x.st.popped.length }
  | .close =>
      match x.st.current with
      | none => none
      | some me =>
          match x.st.ctl me with
          | .idle => (chanClose x.st me).map fun (s, out) => { x with st := s, dropped := x.dropped ++ out }
          | _ => none

/-- Tasks of one scheduler thread that use one channel, and close it at any time. -/
def closing (L α : Type) [ListOps L Head Tid] (nelems elemSize : ℕ) :
    TS (CloseSt L α) (CloseAct α) where
  init x := ∃ n, x = ⟨start nelems elemSize n, [], []⟩
  step := closeStep

/-- Nobody is inside `chan_buffer_send` when the channel is closed. -/
def closesIdle (x : CloseSt L α) : CloseAct α → Bool
  | .act _ => true
  | .close => (List.range x.st.created).all fun t => !(x.st.ctl t).inBufferSend

end code

variable {α : Type}

/-- What `chan_close` does to a queue that is not longer than the size can tell. -/
inductive Closed {L : Type} (s : St L α) (me : Tid) : St L α → List (Tid × Msg α) → Prop
  | mk {d : Deque (Msg α)} (hd : d.toList = []) :
      Closed s me { s with msgs := d, popped := s.popped ++ s.msgs.toList.map fun m => (me, m) }
        (s.msgs.toList.map fun m => (me, m))

theorem chanClose_closed {L : Type} {s : St L α} (hlen : s.msgs.toList.length < 2 ^ 32) (me : Tid) :
    ∃ s' out, chanClose s me = some (s', out) ∧ Closed s me s' out := by
  obtain ⟨d, hd, hnil⟩ := Deque.clear_eq hlen
  refine ⟨_, _, ?_, .mk hnil⟩
  rw [chanClose, hd]
  rfl

theorem Rest.close {s s' : VSt α} {me : Tid} {out : List (Tid × Msg α)} (hr : Rest s)
    (h : Closed s me s' out) : Rest s' := by
  cases h with
  | mk _ =>
      have hc := hr.core
      exact ⟨⟨hc.ok, hc.mutexWait, hc.current, hc.onWait, hc.waiting, hc.notMutex, hc.kind, hc.finished,
        hc.fresh⟩, hr.lock⟩

/-- A step of `chan_close`. -/
theorem close_cases {L : Type} [ListOps L Head Tid] {x x' : CloseSt L α}
    (hlen : x.st.msgs.toList.length < 2 ^ 32) (h : closeStep x .close = some x') :
    ∃ me s' out, Closed x.st me s' out ∧ x' = { x with st := s', dropped := x.dropped ++ out } := by
  unfold closeStep at h
  dsimp only at h
  split at h
  · cases h
  · rename_i me _
    split at h
    · obtain ⟨s', out, he, hc⟩ := chanClose_closed hlen me
      rw [he] at h
      exact ⟨me, s', out, hc, (Option.some.inj h).symm⟩
    · cases h

/-- What holds of a channel, and is kept by its steps, holds when it is closed at any time. -/
theorem closing_invariant {nelems elemSize : ℕ} {I : VSt α → Prop}
    {ok : CloseSt (View Head Tid) α → CloseAct α → Prop} (h0 : I (chanOpen nelems elemSize))
    (hlen : ∀ s, I s → s.msgs.toList.length < 2 ^ 32)
    (hquiet : ∀ s s', Core s → Core s' → Quiet s s' → I s → I s')
    (hblk : ∀ s a s₁ me p s', I s → I s₁ → Enter s a s₁ me p → Inside s₁ me p → Blk s₁ me p s' → I s')
    (hclose : ∀ x me s' out, Rest x.st → I x.st → ok x .close → Closed x.st me s' out → I s')
    {x : CloseSt (View Head Tid) α} (h : (closing (View Head Tid) α nelems elemSize).ReachVia ok x) :
    Rest x.st ∧ I x.st := by
  refine h.invariant (I := fun x => Rest x.st ∧ I x.st) ?_ ?_
  · rintro x ⟨n, rfl⟩
    have hstart : (system (View Head Tid) α nelems elemSize).Reachable (start nelems elemSize n) :=
      .init ⟨n, rfl⟩
    refine ⟨(Rest.start nelems elemSize n).1, invariant_of_blocks h0 hquiet ?_ hstart⟩
    exact fun s a s₁ me p s' hi hi₁ _ he _ hin hb => hblk s a s₁ me p s' hi hi₁ he hin hb
  · rintro x a x' ⟨hr, hi⟩ hok e
    cases a with
    | act a =>
        obtain ⟨s', hs, rfl⟩ := Option.map_eq_some_iff.mp e
        refine ⟨hr.step hs, ?_⟩
        rcases step_cases hr.core hr.lock hs with ⟨hc, -, hq⟩ | ⟨s₁, me, p, he, hb⟩
        · exact hquiet _ _ hr.core hc hq hi
        · obtain ⟨hq, hin⟩ := he.inside hr.core
          exact hblk _ a s₁ me p s' hi (hquiet _ s₁ hr.core hin.core hq hi) he hin hb
    | close =>
        obtain ⟨me, s', out, hc, rfl⟩ := close_cases (hlen _ hi) e
        exact ⟨hr.close hc, hclose x me s' out hr hi hok hc⟩

/-! ### The queue -/

section queue
variable {s s' : VSt α} {me : Tid} {out : List (Tid × Msg α)}

theorem Closed.log {L : Type} {s s' : St L α} (h : Closed s me s' out)
    (hlog : s.popped.map Prod.snd ++ s.msgs.toList = s.pushed) :
    s'.popped.map Prod.snd ++ s'.msgs.toList = s'.pushed := by
  cases h with
  | mk hd =>
      show List.map Prod.snd (s.popped ++ s.msgs.toList.map fun m => (me, m)) ++ _ = s.pushed
      rw [hd, ← hlog, List.map_append, List.map_map, List.append_nil]
      congr 1
      exact List.map_id _

theorem Closed.bounded (h : Closed s me s' out) (hb : Bounded s) : Bounded s' := by
  have hlog := h.log hb.log
  cases h with
  | mk hd => exact ⟨hb.pos, hb.lt, by simp [hd], hlog⟩

/-- The message of a sender that waits may be dropped; a sender that is woken finds its message gone. -/
theorem Closed.paired (h : Closed s me s' out) (hp : Paired s) : Paired s' := by
  have hlog := h.log hp.log
  cases h with
  | mk hd =>
      have hsub : ∀ k ∈ s.poppedCalls,
          k ∈ (s.popped ++ s.msgs.toList.map fun m => (me, m)).map fun r => r.2.call := by
        intro k hk
        rw [List.map_append]
        exact List.mem_append_left _ hk
      exact ⟨hp.nelems, by simp [hd], hlog, hp.nodup, hp.lt,
        fun t m ht => ⟨(hp.pending t m ht).lt, (hp.pending t m ht).notPushed, (hp.pending t m ht).alone⟩,
        hp.sent, hp.inj, fun t m ht hs => hsub _ (hp.woken t m ht hs), fun k hk => hsub k (hp.returned k hk)⟩

end queue

/-- The queue of a channel of either kind. -/
def InOrder (nelems : ℕ) (s : VSt α) : Prop :=
  if nelems = 0 then Paired s else Bounded s ∧ s.nelems = nelems

section order
variable {nelems elemSize : ℕ}

theorem inOrder_chanOpen (h : nelems < 2 ^ 32) :
    InOrder nelems (chanOpen nelems elemSize : VSt α) := by
  have h0 : (system (View Head Tid) α nelems elemSize).Reachable (chanOpen nelems elemSize) :=
    .init ⟨0, rfl⟩
  unfold InOrder
  split_ifs with hn
  · subst hn
    exact Paired.of_reach h0
  · exact Bounded.of_reach (by omega) h h0

theorem InOrder.length_le {s : VSt α} (h : InOrder nelems s) : s.msgs.toList.length ≤ max nelems 1 := by
  unfold InOrder at h
  split_ifs at h
  · exact h.len.trans (le_max_right ..)
  · exact (h.2 ▸ h.1.len).trans (le_max_left ..)

theorem InOrder.log {s : VSt α} (h : InOrder nelems s) :
    s.popped.map Prod.snd ++ s.msgs.toList = s.pushed := by
  unfold InOrder at h
  split_ifs at h
  · exact h.log
  · exact h.1.log

theorem InOrder.close {s s' : VSt α} {me : Tid} {out : List (Tid × Msg α)} (h : InOrder nelems s)
    (hc : Closed s me s' out) : InOrder nelems s' := by
  unfold InOrder at h ⊢
  split_ifs at h ⊢
  · exact hc.paired h
  · refine ⟨hc.bounded h.1, ?_⟩
    cases hc
    exact h.2

theorem inOrder_of_reach (hn : nelems < 2 ^ 32) {ok : CloseSt (View Head Tid) α → CloseAct α → Prop}
    {x : CloseSt (View Head Tid) α} (h : (closing (View Head Tid) α nelems elemSize).ReachVia ok x) :
    Rest x.st ∧ InOrder nelems x.st := by
  refine closing_invariant (inOrder_chanOpen hn) ?_ ?_ ?_ (fun _ _ _ _ _ hi _ hc => hi.close hc) h
  · intro s hi
    exact hi.length_le.trans_lt (max_lt hn (by norm_num))
  · intro s s' _ _ hq hi
    unfold InOrder at hi ⊢
    split_ifs at hi ⊢
    · exact hi.quiet hq
    · exact ⟨hi.1.quiet hq, hq.nelems.trans hi.2⟩
  · intro s a s₁ me p s' hi hi₁ he hin hb
    unfold InOrder at hi hi₁ ⊢
    split_ifs at hi hi₁ ⊢
    · exact hi.blk hi₁ he hin hb
    · refine ⟨hi₁.1.blk hin hb, ?_⟩
      cases hb <;> exact hi₁.2

end order

/-! ### Received and dropped -/

/-- A step of the calls of the channel adds to the messages popped. -/
theorem popped_of_step {s s' : VSt α} {a : Act α} (hr : Rest s) (h : step s a = some s') :
    s.popped <+: s'.popped := by
  rcases step_cases hr.core hr.lock h with ⟨-, -, hq⟩ | ⟨s₁, me, p, he, hb⟩
  · rw [hq.popped]
  · rw [← (he.inside hr.core).1.popped]
    cases hb with
    | nobufferPop _ | bufferPop _ => exact List.prefix_append ..
    | sendWait _ _ | sendPush _ _ | sendDone | recvWait _ _ | bufferSendWait _ | bufferPush _ =>
        exact List.prefix_rfl

/-- The messages popped are those received and those dropped, each in the order of the pops. -/
structure Sorted {L : Type} (x : CloseSt L α) : Prop where
  all : x.st.popped.Perm (x.received ++ x.dropped)
  received : x.received.Sublist x.st.popped
  dropped : x.dropped.Sublist x.st.popped

theorem Sorted.step {x x' : CloseSt (View Head Tid) α} {a : CloseAct α} (h : Sorted x) (hr : Rest x.st)
    (hlen : x.st.msgs.toList.length < 2 ^ 32) (e : closeStep x a = some x') : Sorted x' := by
  cases a with
  | act a =>
      obtain ⟨s', hs, rfl⟩ := Option.map_eq_some_iff.mp e
      obtain ⟨l, hl⟩ := popped_of_step hr hs
      have hdrop : s'.popped.drop x.st.popped.length = l := by rw [← hl, List.drop_left]
      refine ⟨?_, ?_, ?_⟩
      · show s'.popped.Perm (x.received ++ s'.popped.drop x.st.popped.length ++ x.dropped)
        rw [hdrop, ← hl, List.append_assoc]
        refine (h.all.append_right l).trans ?_
        rw [List.append_assoc]
        exact List.perm_append_comm.append_left _
      · show (x.received ++ s'.popped.drop x.st.popped.length).Sublist s'.popped
        rw [hdrop, ← hl]
        exact h.received.append (.refl l)
      · exact h.dropped.trans (popped_of_step hr hs).sublist
  | close =>
      obtain ⟨me, s', out, hc, rfl⟩ := close_cases hlen e
      cases hc with
      | mk hd =>
          refine ⟨?_, h.received.trans (List.sublist_append_left ..), h.dropped.append (.refl _)⟩
          show (x.st.popped ++ _).Perm (x.received ++ (x.dropped ++ _))
          rw [← List.append_assoc]
          exact h.all.append_right _

theorem start_popped {L : Type} [ListOps L Head Tid] (nelems elemSize : ℕ) :
    ∀ n, (start nelems elemSize n : St L α).popped = []
  | 0 => rfl
  | n + 1 => start_popped nelems elemSize n

theorem sorted_of_reach {nelems elemSize : ℕ} (hn : nelems < 2 ^ 32)
    {ok : CloseSt (View Head Tid) α → CloseAct α → Prop} {x : CloseSt (View Head Tid) α}
    (h : (closing (View Head Tid) α nelems elemSize).ReachVia ok x) : Sorted x := by
  refine h.invariant_of (fun _ hr => inOrder_of_reach hn hr) ?_ ?_
  · rintro x ⟨n, rfl⟩
    have hnil := start_popped (L := View Head Tid) (α := α) nelems elemSize n
    exact ⟨by rw [hnil]; exact .refl _, List.nil_sublist _, List.nil_sublist _⟩
  · rintro x a x' ⟨hr, hi⟩ h _ e
    exact h.step hr (hi.length_le.trans_lt (max_lt hn (by norm_num))) e

/-! ### On links -/

/-- The two sides of a run. -/
structure CloseSim (c : CloseSt (Links (Node Head Tid)) α) (x : CloseSt (View Head Tid) α) : Prop where
  sim : Sim c.st x.st
  received : c.received = x.received
  dropped : c.dropped = x.dropped

/-- `chan_close` does not look at the links. -/
theorem rel_close {c : CloseSt (Links (Node Head Tid)) α} {x : CloseSt (View Head Tid) α}
    (h : CloseSim c x) (hlen : x.st.msgs.toList.length < 2 ^ 32) :
    Option.Rel CloseSim (closeStep c .close) (closeStep x .close) := by
  obtain ⟨c, received, dropped⟩ := c
  obtain ⟨s, received', dropped'⟩ := x
  obtain ⟨⟨hholds, hrest⟩, hreceived, hdropped⟩ := h
  dsimp only at hholds hrest hreceived hdropped hlen
  subst hreceived hdropped
  cases hholds with
  | @mk d l v hR =>
      obtain ⟨msgs, hclear, hnil⟩ := Deque.clear_eq hlen
      unfold closeStep
      dsimp only
      cases d.current with
      | none => exact .none
      | some me =>
          dsimp only
          cases d.ctl me with
          | idle =>
              dsimp only [chanClose]
              rw [hclear]
              exact .some ⟨⟨.mk _ hR, hrest.close (.mk hnil)⟩, rfl, rfl⟩
          | elsewhere | cond _ | mutex _ | finished => exact .none

/-- On links and on plain lists a channel that is closed takes the same steps. -/
theorem closing_lockstep (α : Type) {nelems : ℕ} (hn : nelems < 2 ^ 32) (elemSize : ℕ)
    (ok : CloseSt (View Head Tid) α → CloseAct α → Prop) :
    TS.Lockstep (closing (Links (Node Head Tid)) α nelems elemSize)
      (closing (View Head Tid) α nelems elemSize) ok CloseSim where
  init := by
    rintro c ⟨n, rfl⟩
    exact ⟨_, ⟨n, rfl⟩, ⟨holds_start nelems elemSize n, (Rest.start nelems elemSize n).1⟩, rfl, rfl⟩
  init_back := by
    rintro x ⟨n, rfl⟩
    exact ⟨_, ⟨n, rfl⟩, ⟨holds_start nelems elemSize n, (Rest.start nelems elemSize n).1⟩, rfl, rfl⟩
  step := by
    intro c x a hx hsim _
    obtain ⟨hrest, horder⟩ := inOrder_of_reach hn hx
    cases a with
    | close => exact rel_close hsim (horder.length_le.trans_lt (max_lt hn (by norm_num)))
    | act a =>
        have hstep := rel_step hsim.sim.holds hrest.core a
        show Option.Rel CloseSim ((step c.st a).map _) ((step x.st a).map _)
        generalize hy : step x.st a = y at hstep ⊢
        generalize step c.st a = z at hstep ⊢
        cases hstep with
        | none => exact .none
        | @some c' s' h =>
            refine .some ⟨⟨h, hrest.step hy⟩, ?_, hsim.dropped⟩
            show c.received ++ c'.popped.drop c.st.popped.length =
              x.received ++ s'.popped.drop x.st.popped.length
            rw [hsim.received, h.data, hsim.sim.holds.data]

/-- The channel loses and duplicates no message but by `chan_close`: the messages popped so far, followed by
the queue, are the messages pushed so far, and those popped are received or dropped.  A `chan_send` on an
unbuffered channel returns only when its message is popped, and `chan_close` returns with the queue
empty. -/
theorem closed_channel_fifo {nelems elemSize : ℕ} (hn : nelems < 2 ^ 31)
    {c : CloseSt (Links (Node Head Tid)) α}
    (h : (closing (Links (Node Head Tid)) α nelems elemSize).Reachable c) :
    (c.st.msgs.toList.length ≤ max nelems 1 ∧ c.st.popped.map Prod.snd ++ c.st.msgs.toList = c.st.pushed) ∧
    (c.st.popped.Perm (c.received ++ c.dropped) ∧ c.received.Sublist c.st.popped ∧
      c.dropped.Sublist c.st.popped) ∧
    (nelems = 0 → ∀ k ∈ c.st.returned, k ∈ c.st.poppedCalls) ∧
    ∀ me, c.st.current = some me → c.st.ctl me = .idle →
      ∃ c', closeStep c .close = some c' ∧ c'.st.msgs.toList = [] := by
  have hn' : nelems < 2 ^ 32 := hn.trans (by norm_num)
  obtain ⟨x, hx, hsim⟩ :=
    (closing_lockstep α hn' elemSize fun _ _ => True).reach (fun _ _ _ _ h => h) h
  obtain ⟨-, horder⟩ := inOrder_of_reach hn' hx
  have hsorted := sorted_of_reach hn' hx
  have hlen : c.st.msgs.toList.length ≤ max nelems 1 := by
    rw [hsim.sim.holds.data]
    exact horder.length_le
  refine ⟨⟨hlen, ?_⟩, ⟨?_, ?_, ?_⟩, ?_, ?_⟩
  · rw [hsim.sim.holds.data]
    exact horder.log
  · rw [hsim.sim.holds.data, hsim.received, hsim.dropped]
    exact hsorted.all
  · rw [hsim.sim.holds.data, hsim.received]
    exact hsorted.received
  · rw [hsim.sim.holds.data, hsim.dropped]
    exact hsorted.dropped
  · intro h0
    rw [InOrder, if_pos h0] at horder
    rw [hsim.sim.holds.data]
    exact horder.returned
  · intro me hcur hidle
    obtain ⟨s', out, he, hc⟩ := chanClose_closed (hlen.trans_lt (max_lt hn' (by norm_num))) me
    refine ⟨{ c with st := s', dropped := c.dropped ++ out }, ?_, ?_⟩
    · simp only [closeStep, hcur, hidle, he, Option.map_some]
    · cases hc with
      | mk hd => exact hd

/-- Two messages are dropped, and a third is received. -/
def closeTwo : List (CloseAct Unit) :=
  [.act .dispatch, .act (.send none), .act (.send none), .close, .act (.send none), .act .exit,
    .act .dispatch, .act .recv]

theorem closed_channel_fifo_two : ∃ c : CloseSt (Links (Node Head Tid)) Unit,
    c.received.map (fun r => r.2.call) = [2] ∧ c.dropped.map (fun r => r.2.call) = [0, 1] ∧
    c.st.popped.map Prod.snd ++ c.st.msgs.toList = c.st.pushed ∧
    c.st.popped.Perm (c.received ++ c.dropped) := by
  have hrun := TS.Reachable.exists_of_run (M := closing (Links (Node Head Tid)) Unit 2 0)
    (s := ⟨start 2 0 2, [], []⟩) closeTwo
    (fun c => decide (c.received.map (fun r => r.2.call) = [2] ∧
      c.dropped.map (fun r => r.2.call) = [0, 1])) ⟨2, rfl⟩ (by decide +kernel)
  obtain ⟨c, hc, hP⟩ := hrun
  obtain ⟨hreceived, hdropped⟩ := of_decide_eq_true hP
  obtain ⟨⟨-, hlog⟩, ⟨hall, -⟩, -⟩ := closed_channel_fifo (by decide) hc
  exact ⟨c, hreceived, hdropped, hlog, hall⟩

/-! ### Wake-ups -/

/-- Nobody waits for a free place when nobody is inside `chan_buffer_send`. -/
theorem notFull_of_closesIdle {x : CloseSt (View Head Tid) α} (hc : Core x.st) (hn : x.st.nelems ≠ 0)
    (hidle : closesIdle x .close = true) : x.st.lists .notFull = [] := by
  rw [List.eq_nil_iff_forall_not_mem]
  intro t ht
  obtain ⟨w, hw, hhead⟩ := hc.onWait .notFull t (by decide) ht
  have hsend : (x.st.ctl t).inBufferSend = true := by
    have hkind := (hc.kind t w hw).mpr hn
    rw [hw]
    cases w with
    | bufferSend m => rfl
    | nobufferSend _ _ | nobufferRecv => cases hkind
    | bufferRecv => cases hhead
  have hlt : t < x.st.created := hc.lt_created (by simp [hw])
  have hnot := List.all_eq_true.mp hidle t (List.mem_range.mpr hlt)
  simp [hsend] at hnot

theorem Closed.ready {s s' : VSt α} {me : Tid} {out : List (Tid × Msg α)} (h : Closed s me s' out)
    (hfull : s.lists .notFull = []) : Ready s' := by
  cases h with
  | mk hd => exact ⟨fun _ => by simp [hd], fun hc => absurd hfull hc⟩

theorem ready_of_closing {nelems elemSize : ℕ} (h1 : 1 ≤ nelems) (h2 : nelems < 2 ^ 32)
    {x : CloseSt (View Head Tid) α}
    (h : (closing (View Head Tid) α nelems elemSize).ReachVia (fun x a => closesIdle x a = true) x) :
    Rest x.st ∧ (Bounded x.st ∧ x.st.nelems = nelems) ∧ Ready x.st := by
  have h0 : (system (View Head Tid) α nelems elemSize).Reachable (chanOpen nelems elemSize) :=
    .init ⟨0, rfl⟩
  refine closing_invariant (I := fun s => (Bounded s ∧ s.nelems = nelems) ∧ Ready s)
    ⟨Bounded.of_reach h1 h2 h0, Ready.of_reach h1 h2 h0⟩ ?_ ?_ ?_ ?_ h
  · rintro s ⟨⟨hb, -⟩, -⟩
    exact hb.len.trans_lt hb.lt
  · rintro s s' hc hc' hq ⟨⟨hb, hn⟩, hr⟩
    exact ⟨⟨hb.quiet hq, hq.nelems.trans hn⟩, hr.quiet hc hc' hq⟩
  · rintro s a s₁ me p s' - ⟨⟨hb, hn⟩, hr⟩ _ hin hblk
    refine ⟨⟨hb.blk hin hblk, ?_⟩, hr.blk hb hin hblk⟩
    cases hblk <;> exact hn
  · rintro x me s' out hr ⟨⟨hb, hn⟩, -⟩ hidle hc
    refine ⟨⟨hc.bounded hb, ?_⟩, hc.ready (notFull_of_closesIdle hr.core hb.pos hidle)⟩
    cases hc
    exact hn

/-- A task on a condition that nobody has woken is on its wait list. -/
theorem Sim.mem_of_quiescent {c : LSt α} {s : VSt α} (hsim : Sim c s) (hq : Quiescent c) {t : Tid}
    {w : Wait α} (hw : s.ctl t = .cond w) : t ∈ s.lists w.head :=
  (hsim.rest.core.waiting t w hw).resolve_left (by simp [hsim.awake_eq_nil hq])

/-- No wake-up of a buffered channel is lost in a run in which nobody is inside `chan_send` when it is
closed. -/
theorem closed_channel_wakeups {nelems elemSize : ℕ} (h1 : 1 ≤ nelems) (h2 : nelems < 2 ^ 32)
    {c : CloseSt (Links (Node Head Tid)) α}
    (h : (closing (Links (Node Head Tid)) α nelems elemSize).ReachVia
      (fun c a => closesIdle c a = true) c) : NoLostWakeup nelems c.st := by
  have hok : ∀ (c : CloseSt (Links (Node Head Tid)) α) (x : CloseSt (View Head Tid) α) a, CloseSim c x →
      closesIdle c a = true → closesIdle x a = true := by
    intro c x a hsim hidle
    cases a with
    | act a => rfl
    | close =>
        unfold closesIdle at hidle ⊢
        rwa [← hsim.sim.holds.data]
  obtain ⟨x, hx, hsim⟩ := (closing_lockstep α h2 elemSize _).reach hok h
  obtain ⟨hrest, ⟨hb, hn⟩, hr⟩ := ready_of_closing h1 h2 hx
  intro hq
  have hzero : ∀ P, VSt.awakeCount x.st P = 0 := fun P => by
    simp [VSt.awakeCount, hsim.sim.awake_eq_nil hq]
  rw [hsim.sim.holds.data]
  constructor
  · rintro ⟨t, ht⟩
    have hw := hsim.sim.mem_of_quiescent hq (hrest.core.ctl_of_inBufferRecv ht)
    have hle := hr.recv (List.ne_nil_of_mem hw)
    rw [hzero] at hle
    exact List.length_eq_zero_iff.mp (by omega)
  · rintro ⟨t, ht⟩
    obtain ⟨m, hm⟩ := hrest.core.ctl_of_inBufferSend ht
    have hle := hr.send (List.ne_nil_of_mem (hsim.sim.mem_of_quiescent hq hm))
    have hlen := hb.len
    rw [hzero] at hle
    omega

/-- The channel is closed, filled again, and a second sender waits. -/
theorem closed_channel_wakeups_refilled : ∃ c : CloseSt (Links (Node Head Tid)) Unit,
    c.dropped.map (fun r => r.2.call) = [0] ∧ NoLostWakeup 1 c.st ∧ Quiescent c.st ∧
    (c.st.ctl 1).inBufferSend = true := by
  have hrun := TS.ReachVia.exists_of_run (M := closing (Links (Node Head Tid)) Unit 1 0)
    (s := ⟨start 1 0 2, [], []⟩) (fun c a => closesIdle c a = true)
    [.act .dispatch, .act (.send none), .close, .act (.send none), .act .exit, .act .dispatch,
      .act (.send none)]
    (fun c => decide (c.dropped.map (fun r => r.2.call) = [0] ∧ Quiescent c.st ∧
      (c.st.ctl 1).inBufferSend = true)) ⟨2, rfl⟩ (by decide +kernel) (by decide +kernel)
  obtain ⟨c, hc, hP⟩ := hrun
  obtain ⟨hdropped, hq, hsend⟩ := of_decide_eq_true hP
  exact ⟨c, hdropped, closed_channel_wakeups (by decide) (by decide) hc, hq, hsend⟩

/-- A sender that waits for a free place sleeps on when the channel is closed. -/
theorem close_strands_sender : ∃ c : CloseSt (Links (Node Head Tid)) Unit,
    (closing (Links (Node Head Tid)) Unit 1 0).Reachable c ∧ Quiescent c.st ∧
    (c.st.ctl 1).inBufferSend = true ∧ c.st.msgs.toList = [] := by
  have hrun := TS.Reachable.exists_of_run (M := closing (Links (Node Head Tid)) Unit 1 0)
    (s := ⟨start 1 0 2, [], []⟩)
    [.act .dispatch, .act (.send none), .act .yield, .act .dispatch, .act (.send none), .act .dispatch,
      .close, .act .exit]
    (fun c => decide (Quiescent c.st ∧ (c.st.ctl 1).inBufferSend = true ∧ c.st.msgs.toList.length = 0))
    ⟨2, rfl⟩ (by decide +kernel)
  obtain ⟨c, hc, hP⟩ := hrun
  obtain ⟨hq, hsend, hlen⟩ := of_decide_eq_true hP
  exact ⟨c, hc, hq, hsend, List.length_eq_zero_iff.mp hlen⟩

end Chan

end Libcask
