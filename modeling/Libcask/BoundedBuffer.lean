import Libcask.Rendezvous

/-! # Buffered channels

What holds of a channel opened with `nelems ≥ 1`, under every interleaving of its users: the queue
is a bounded first-in first-out buffer (`bounded_fifo`), and no wake-up is lost
(`no_lost_wakeup`).  The second rests on a count: while a receiver waits there are at least as
many woken receivers as messages, and while a sender waits at least as many woken senders as free
places. -/

namespace Libcask.Chan

variable {α : Type}

/-- The queue and the history of a buffered channel. -/
structure Bounded (s : VSt α) : Prop where
  pos : s.nelems ≠ 0
  lt : s.nelems < 2 ^ 32
  len : s.msgs.toList.length ≤ s.nelems
  log : s.popped.map Prod.snd ++ s.msgs.toList = s.pushed

namespace Bounded

variable {s s₁ s' : VSt α} {me : Tid} {p : Point α}

theorem isEmpty_iff (hb : Bounded s) : s.msgs.isEmpty = true ↔ s.msgs.toList = [] :=
  Deque.isEmpty_iff (hb.len.trans_lt hb.lt)

/-- The `int` size, compared as an `unsigned int`, tells whether the buffer is full. -/
theorem full_iff (hb : Bounded s) :
    chanMsgsFull s = true ↔ s.msgs.toList.length = s.nelems := by
  have hlt := hb.len.trans_lt hb.lt
  simp only [chanMsgsFull, Deque.size, Deque.size_eq, toUInt32_toInt32, Nat.mod_eq_of_lt hlt, hb.pos,
    decide_false, Bool.false_and, Bool.or_false, decide_eq_true_eq]

theorem quiet (hq : Quiet s s') (hb : Bounded s) : Bounded s' := by
  refine ⟨?_, ?_, ?_, ?_⟩
  · rw [hq.nelems]
    exact hb.pos
  · rw [hq.nelems]
    exact hb.lt
  · rw [hq.msgs, hq.nelems]
    exact hb.len
  · rw [hq.msgs, hq.popped, hq.pushed]
    exact hb.log

/-- A push into a buffer that is not full. -/
theorem push (hb : Bounded s) (hf : chanMsgsFull s = false) {m : Msg α}
    (hmsgs : s'.msgs = (chanPushMsg s m).msgs) (hpushed : s'.pushed = (chanPushMsg s m).pushed)
    (hpopped : s'.popped = s.popped) (hn : s'.nelems = s.nelems) : Bounded s' := by
  obtain ⟨m', -, h1, h2⟩ := chanPushMsg_spec s m
  have hne : s.msgs.toList.length ≠ s.nelems := fun h => by simp [hb.full_iff.mpr h] at hf
  have hlen := hb.len
  refine ⟨hn ▸ hb.pos, hn ▸ hb.lt, ?_, ?_⟩
  · rw [hmsgs, h1, hn, Deque.toList_pushBack, List.length_append, List.length_singleton]
    omega
  · rw [hmsgs, h1, hpushed, h2, hpopped, Deque.toList_pushBack, ← List.append_assoc, hb.log]

/-- A pop from a buffer that is not empty. -/
theorem pop (hb : Bounded s) (he : s.msgs.isEmpty = false)
    (hmsgs : s'.msgs = (chanPopMsg s me).msgs) (hpopped : s'.popped = (chanPopMsg s me).popped)
    (hpushed : s'.pushed = s.pushed) (hn : s'.nelems = s.nelems) : Bounded s' := by
  cases hl : s.msgs.toList with
  | nil => simp [hb.isEmpty_iff.mpr hl] at he
  | cons m r =>
      obtain ⟨h1, h2⟩ := chanPopMsg_spec hl he me
      have hlen := hb.len
      rw [hl, List.length_cons] at hlen
      refine ⟨hn ▸ hb.pos, hn ▸ hb.lt, ?_, ?_⟩
      · rw [hmsgs, h1, hn]
        omega
      · rw [hmsgs, h1, hpopped, h2, hpushed, ← hb.log, hl]
        simp

theorem blk (hb : Bounded s) (hin : Inside s me p) (h : Blk s me p s') : Bounded s' := by
  have hk : p.buffered = true := hin.kind.mpr hb.pos
  cases h with
  | sendWait hm _ => rcases hm with rfl | rfl <;> cases hk
  | sendPush hm _ => rcases hm with rfl | rfl <;> cases hk
  | sendDone => cases hk
  | recvWait hw _ => exact ⟨hb.pos, hb.lt, hb.len, hb.log⟩
  | nobufferPop _ => cases hk
  | bufferSendWait _ => exact ⟨hb.pos, hb.lt, hb.len, hb.log⟩
  | bufferPush hf => exact hb.push hf rfl rfl rfl rfl
  | bufferPop he => exact hb.pop he rfl rfl rfl rfl

theorem of_reach {nelems elemSize : ℕ} (h1 : 1 ≤ nelems) (h2 : nelems < 2 ^ 32)
    {ok : VSt α → Act α → Prop}
    (h : (system (View Head Tid) α nelems elemSize).ReachVia ok s) :
    Bounded s ∧ s.nelems = nelems := by
  have hmod : nelems % 2 ^ 32 = nelems := Nat.mod_eq_of_lt h2
  refine invariant_of_blocks (I := fun s => Bounded s ∧ s.nelems = nelems) ?_
    (fun s s' _ _ hq hb => ⟨hb.1.quiet hq, hq.nelems.trans hb.2⟩) ?_ h
  · refine ⟨⟨?_, ?_, ?_, ?_⟩, hmod⟩
    · show nelems % 2 ^ 32 ≠ 0
      omega
    · exact Nat.mod_lt _ (by norm_num)
    · simp [chanOpen]
    · simp [chanOpen]
  · intro s a s₁ me p s' _ hb _ _ _ hin h
    refine ⟨hb.1.blk hin h, ?_⟩
    cases h <;> exact hb.2

end Bounded

/-- A buffered channel is a bounded buffer that loses and duplicates nothing: the messages popped so
far, followed by the queue, are the messages pushed so far. -/
theorem bounded_fifo {nelems elemSize : ℕ} (h1 : 1 ≤ nelems) (h2 : nelems < 2 ^ 31) {c : LSt α}
    (h : (system (Links (Node Head Tid)) α nelems elemSize).Reachable c) :
    c.msgs.toList.length ≤ nelems ∧ c.popped.map Prod.snd ++ c.msgs.toList = c.pushed := by
  obtain ⟨s, hs, hsim⟩ := (lockstep α nelems elemSize fun _ _ => True).reach (fun _ _ _ _ h => h) h
  obtain ⟨hb, hn⟩ := Bounded.of_reach h1 (h2.trans (by norm_num)) hs
  rw [hsim.holds.data, ← hn]
  exact ⟨hb.len, hb.log⟩

/-- Two messages through a buffer of one place. -/
theorem bounded_fifo_one_place :
    ∃ c : LSt Unit, c.pushedCalls = [0, 1] ∧ c.msgs.toList.length ≤ 1 ∧
      c.popped.map Prod.snd ++ c.msgs.toList = c.pushed := by
  have hrun := TS.Reachable.exists_of_run (M := system (Links (Node Head Tid)) Unit 1 0)
    (s := start 1 0 2)
    [.dispatch, .send none, .send none, .dispatch, .recv, .recv, .dispatch, .exit, .dispatch]
    (fun c => decide (c.pushedCalls = [0, 1])) ⟨2, rfl⟩ (by decide +kernel)
  obtain ⟨c, hc, hP⟩ := hrun
  exact ⟨c, of_decide_eq_true hP, bounded_fifo (by decide) (by decide) hc⟩

/-! ### Counting the woken tasks -/

def Wait.isBufferSend : Wait α → Bool
  | .bufferSend _ => true
  | _ => false

def Wait.isBufferRecv : Wait α → Bool
  | .bufferRecv => true
  | _ => false

/-- While a receiver waits there are as many woken receivers as messages; while a sender waits
there are as many woken senders as free places. -/
structure Ready (s : VSt α) : Prop where
  recv : s.lists .notEmpty ≠ [] → s.msgs.toList.length ≤ s.awakeCount Wait.isBufferRecv
  send : s.lists .notFull ≠ [] →
    s.nelems ≤ s.msgs.toList.length + s.awakeCount Wait.isBufferSend

section counting
variable {s s₁ s' : VSt α} {me : Tid} {p : Point α} {w : Wait α}

/-- The running task is counted at most where it comes from. -/
theorem Inside.waits_eq_false (hin : Inside s me (.loop w)) {P : Wait α → Bool} (hw : P w = false) :
    (s.ctl me).waits P = false := by
  rcases hin.ctl with ⟨-, hi⟩ | ⟨w', hw', hc⟩
  · rw [hi]
    rfl
  · cases hw'
    rw [hc]
    exact hw

/-- The tasks on a wait list of a buffered channel that a signal would wake, counted. -/
theorem Core.count_take (hc : Core s) (hn : s.nelems ≠ 0) {h : Head} (hne : h ≠ .runList)
    {P : Wait α → Bool} {b : Bool} (hP : ∀ w : Wait α, w.head = h → w.buffered = true → P w = b) :
    ((s.lists h).take 1).countP (fun t => (s.ctl t).waits P) =
      if b then ((s.lists h).take 1).length else 0 := by
  have hmem : ∀ t ∈ (s.lists h).take 1, (s.ctl t).waits P = b := by
    intro t ht
    obtain ⟨w, hctl, hh⟩ := hc.onWait h t hne (List.mem_of_mem_take ht)
    rw [hctl]
    exact hP w hh ((hc.kind t w hctl).mpr hn)
  cases b with
  | true => exact List.countP_eq_length.mpr hmem
  | false => exact List.countP_eq_zero.mpr (by simpa using hmem)

/-- A signal, and the return of the running task. -/
theorem Core.signal_return_count (hc : Core s) (hcur : s.current = some me) {h : Head}
    (hne : h ≠ .runList) (P : Wait α → Bool) :
    ((s.lists h).take 1).countP (fun t => (s.ctl t).waits P) + s.awakeCount P =
      VSt.awakeCount (Chan.callReturn (VSt.unlocked (coCondSignal s h)) me) P +
        if (s.ctl me).waits P then 1 else 0 := by
  rw [← signal_count hc.ok hne P]
  exact (hc.signal hne).return_count hcur P

theorem Wait.isBufferRecv_of_head {w : Wait α} (h : w.head = .notEmpty) (hk : w.buffered = true) :
    w.isBufferRecv = true := by
  cases w <;> simp_all [Wait.head, Wait.buffered, Wait.isBufferRecv]

theorem Wait.isBufferSend_of_head {w : Wait α} (h : w.head = .notFull) (hk : w.buffered = true) :
    w.isBufferSend = true := by
  cases w <;> simp_all [Wait.head, Wait.buffered, Wait.isBufferSend]

theorem Wait.not_isBufferRecv_of_head {w : Wait α} (h : w.head = .notFull) :
    w.isBufferRecv = false := by
  cases w <;> simp_all [Wait.head, Wait.isBufferRecv]

theorem Wait.not_isBufferSend_of_head {w : Wait α} (h : w.head = .notEmpty) :
    w.isBufferSend = false := by
  cases w <;> simp_all [Wait.head, Wait.isBufferSend]

theorem length_take_one {l : List Tid} (h : l.drop 1 ≠ []) : (l.take 1).length = 1 := by
  cases l with
  | nil => exact absurd rfl h
  | cons t r => rfl

end counting

namespace Ready

variable {s s₁ s' : VSt α} {me : Tid} {p : Point α}

theorem quiet (hc : Core s) (hc' : Core s') (hq : Quiet s s') (hr : Ready s) : Ready s' := by
  constructor
  · rw [hq.lists _ (by decide), hq.msgs, hq.count hc hc']
    exact hr.recv
  · rw [hq.lists _ (by decide), hq.msgs, hq.nelems, hq.count hc hc']
    exact hr.send

theorem sendWait (hr : Ready s) (hb : Bounded s) {m : Msg α} (hin : Inside s me (.loop (.bufferSend m)))
    (hf : chanMsgsFull s = true) : Ready (s.sleep me (.bufferSend m)) := by
  have hfull := hb.full_iff.mp hf
  have hown := hin.waits_eq_false (P := Wait.isBufferRecv) rfl
  have hcount := hin.core.sleep_count hin.current (.bufferSend m) Wait.isBufferRecv
  constructor
  · intro h
    rw [sleep_lists, if_neg (by simp [Wait.head])] at h
    have := hr.recv h
    simp only [hown, Bool.false_eq_true, if_false] at hcount
    show s.msgs.toList.length ≤ _
    omega
  · intro _
    show s.nelems ≤ s.msgs.toList.length + _
    omega

theorem recvWait (hr : Ready s) (hb : Bounded s) (hin : Inside s me (.loop .bufferRecv))
    (he : s.msgs.isEmpty = true) : Ready (s.sleep me .bufferRecv) := by
  have hnil := hb.isEmpty_iff.mp he
  have hown := hin.waits_eq_false (P := Wait.isBufferSend) rfl
  have hcount := hin.core.sleep_count hin.current .bufferRecv Wait.isBufferSend
  constructor
  · intro _
    show s.msgs.toList.length ≤ _
    simp [hnil]
  · intro h
    rw [sleep_lists, if_neg (by simp [Wait.head])] at h
    have := hr.send h
    simp only [hown, Bool.false_eq_true, if_false] at hcount
    show s.nelems ≤ s.msgs.toList.length + _
    omega

/-- A push uses up one woken sender at most, and wakes a receiver if one waits. -/
theorem push (hr : Ready s) (hb : Bounded s) {m : Msg α}
    (hin : Inside s me (.loop (.bufferSend m))) :
    Ready (sendReturn (VSt.unlocked (coCondSignal (chanPushMsg s m) .notEmpty)) me m) := by
  obtain ⟨m', -, hmsgs, -⟩ := chanPushMsg_spec s m
  have hcp := hin.core.push m
  have hlen : (chanPushMsg s m).msgs.toList.length = s.msgs.toList.length + 1 := by
    simp [hmsgs]
  constructor
  · intro h
    have h' : (coCondSignal (chanPushMsg s m) .notEmpty).lists .notEmpty ≠ [] := h
    rw [signal_lists hcp.ok (by decide)] at h'
    have hold := hr.recv fun hc => h' (congrArg (List.drop 1) hc)
    have hcount := hcp.signal_return_count hin.current (h := .notEmpty) (by decide)
      Wait.isBufferRecv
    rw [hcp.count_take hb.pos (by decide) (b := true) fun _ => Wait.isBufferRecv_of_head, if_pos rfl,
      length_take_one h', if_neg (by simp [chanPushMsg, hin.waits_eq_false (P := Wait.isBufferRecv) rfl])]
      at hcount
    show (chanPushMsg s m).msgs.toList.length ≤
      VSt.awakeCount (callReturn (VSt.unlocked (coCondSignal (chanPushMsg s m) .notEmpty)) me) _
    have hsame : VSt.awakeCount (chanPushMsg s m) Wait.isBufferRecv =
      s.awakeCount Wait.isBufferRecv := rfl
    omega
  · intro h
    have h' : (coCondSignal (chanPushMsg s m) .notEmpty).lists .notFull ≠ [] := h
    rw [signal_lists_of_ne hcp.ok (by decide) (by decide) (by decide)] at h'
    have hold := hr.send h'
    have hcount := hcp.signal_return_count hin.current (h := .notEmpty) (by decide)
      Wait.isBufferSend
    rw [hcp.count_take hb.pos (by decide) (b := false)
      fun _ h _ => Wait.not_isBufferSend_of_head h] at hcount
    show s.nelems ≤ (chanPushMsg s m).msgs.toList.length +
      VSt.awakeCount (callReturn (VSt.unlocked (coCondSignal (chanPushMsg s m) .notEmpty)) me) _
    have hsame : VSt.awakeCount (chanPushMsg s m) Wait.isBufferSend =
      s.awakeCount Wait.isBufferSend := rfl
    split_ifs at hcount <;> omega

/-- A pop uses up one woken receiver at most, and wakes a sender if one waits. -/
theorem pop (hr : Ready s) (hb : Bounded s) (hin : Inside s me (.loop .bufferRecv))
    (he : s.msgs.isEmpty = false) :
    Ready (callReturn (VSt.unlocked (coCondSignal (chanPopMsg s me) .notFull)) me) := by
  have hcp := hin.core.pop me
  have hlen : (chanPopMsg s me).msgs.toList.length + 1 = s.msgs.toList.length := by
    cases hl : s.msgs.toList with
    | nil => simp [hb.isEmpty_iff.mpr hl] at he
    | cons m r => simp [(chanPopMsg_spec hl he me).1]
  constructor
  · intro h
    have h' : (coCondSignal (chanPopMsg s me) .notFull).lists .notEmpty ≠ [] := h
    rw [signal_lists_of_ne hcp.ok (by decide) (by decide) (by decide)] at h'
    have hold := hr.recv h'
    have hcount := hcp.signal_return_count hin.current (h := .notFull) (by decide)
      Wait.isBufferRecv
    rw [hcp.count_take hb.pos (by decide) (b := false)
      fun _ h _ => Wait.not_isBufferRecv_of_head h] at hcount
    show (chanPopMsg s me).msgs.toList.length ≤
      VSt.awakeCount (callReturn (VSt.unlocked (coCondSignal (chanPopMsg s me) .notFull)) me) _
    have hsame : VSt.awakeCount (chanPopMsg s me) Wait.isBufferRecv =
      s.awakeCount Wait.isBufferRecv := rfl
    split_ifs at hcount <;> omega
  · intro h
    have h' : (coCondSignal (chanPopMsg s me) .notFull).lists .notFull ≠ [] := h
    rw [signal_lists hcp.ok (by decide)] at h'
    have hold := hr.send fun hc => h' (congrArg (List.drop 1) hc)
    have hcount := hcp.signal_return_count hin.current (h := .notFull) (by decide)
      Wait.isBufferSend
    rw [hcp.count_take hb.pos (by decide) (b := true) fun _ => Wait.isBufferSend_of_head, if_pos rfl,
      length_take_one h', if_neg (by simp [chanPopMsg, hin.waits_eq_false (P := Wait.isBufferSend) rfl])]
      at hcount
    show s.nelems ≤ (chanPopMsg s me).msgs.toList.length +
      VSt.awakeCount (callReturn (VSt.unlocked (coCondSignal (chanPopMsg s me) .notFull)) me) _
    have hsame : VSt.awakeCount (chanPopMsg s me) Wait.isBufferSend =
      s.awakeCount Wait.isBufferSend := rfl
    omega

theorem blk (hr : Ready s) (hb : Bounded s) (hin : Inside s me p) (h : Blk s me p s') :
    Ready s' := by
  have hk : p.buffered = true := hin.kind.mpr hb.pos
  cases h with
  | sendWait hm _ => rcases hm with rfl | rfl <;> cases hk
  | sendPush hm _ => rcases hm with rfl | rfl <;> cases hk
  | sendDone => cases hk
  | recvWait hw he =>
      rcases hw with rfl | rfl
      · cases hk
      · exact hr.recvWait hb hin he
  | nobufferPop _ => cases hk
  | bufferSendWait hf => exact hr.sendWait hb hin hf
  | bufferPush _ => exact hr.push hb hin
  | bufferPop he => exact hr.pop hb hin he

theorem of_reach {nelems elemSize : ℕ} (h1 : 1 ≤ nelems) (h2 : nelems < 2 ^ 32)
    {ok : VSt α → Act α → Prop}
    (h : (system (View Head Tid) α nelems elemSize).ReachVia ok s) : Ready s := by
  refine (invariant_of_blocks (I := fun s => Bounded s ∧ Ready s) ?_
    (fun s s' hc hc' hq hi => ⟨hi.1.quiet hq, hi.2.quiet hc hc' hq⟩) ?_ h).2
  · have h0 : (system (View Head Tid) α nelems elemSize).Reachable (chanOpen nelems elemSize) :=
      .init ⟨0, rfl⟩
    exact ⟨(Bounded.of_reach h1 h2 h0).1, fun h => absurd rfl h, fun h => absurd rfl h⟩
  · intro s a s₁ me p s' _ ⟨hb, hr⟩ _ _ _ hin h
    exact ⟨hb.blk hin h, hr.blk hb hin h⟩

end Ready

/-! ### Quiescent states -/

/-- The task is inside `chan_buffer_send`. -/
def Ctl.inBufferSend : Ctl α → Bool
  | .cond (.bufferSend _) => true
  | .mutex (.loop (.bufferSend _)) => true
  | _ => false

/-- The task is inside `chan_buffer_recv`. -/
def Ctl.inBufferRecv : Ctl α → Bool
  | .cond .bufferRecv => true
  | .mutex (.loop .bufferRecv) => true
  | _ => false

/-- When nothing can run, receivers are only blocked on an empty queue, and senders only on a queue
of `nelems` messages. -/
def NoLostWakeup (nelems : ℕ) (c : LSt α) : Prop :=
  Quiescent c →
    ((∃ t, (c.ctl t).inBufferRecv = true) → c.msgs.toList = []) ∧
      ((∃ t, (c.ctl t).inBufferSend = true) → c.msgs.toList.length = nelems)

theorem Core.ctl_of_inBufferSend {s : VSt α} (hc : Core s) {t : Tid}
    (h : (s.ctl t).inBufferSend = true) : ∃ m, s.ctl t = .cond (.bufferSend m) := by
  cases hctl : s.ctl t with
  | cond w =>
      cases w with
      | bufferSend m => exact ⟨m, rfl⟩
      | nobufferSend _ _ | nobufferRecv | bufferRecv => simp [hctl, Ctl.inBufferSend] at h
  | mutex p => exact absurd hctl (hc.notMutex t p)
  | idle | elsewhere | finished => simp [hctl, Ctl.inBufferSend] at h

theorem Core.ctl_of_inBufferRecv {s : VSt α} (hc : Core s) {t : Tid}
    (h : (s.ctl t).inBufferRecv = true) : s.ctl t = .cond .bufferRecv := by
  cases hctl : s.ctl t with
  | cond w =>
      cases w with
      | bufferRecv => rfl
      | nobufferSend _ _ | nobufferRecv | bufferSend _ => simp [hctl, Ctl.inBufferRecv] at h
  | mutex p => exact absurd hctl (hc.notMutex t p)
  | idle | elsewhere | finished => simp [hctl, Ctl.inBufferRecv] at h

/-- No wake-up of a buffered channel is lost, for every capacity that fits the `unsigned int`
field. -/
theorem no_lost_wakeup {nelems elemSize : ℕ} (h1 : 1 ≤ nelems) (h2 : nelems < 2 ^ 32) {c : LSt α}
    (h : (system (Links (Node Head Tid)) α nelems elemSize).Reachable c) :
    NoLostWakeup nelems c := by
  obtain ⟨s, hs, hsim⟩ := (lockstep α nelems elemSize fun _ _ => True).reach (fun _ _ _ _ h => h) h
  have hc := hsim.rest.core
  obtain ⟨hb, hn⟩ := Bounded.of_reach h1 h2 hs
  have hr := Ready.of_reach h1 h2 hs
  intro hq
  have hawake := hsim.awake_eq_nil hq
  have hzero : ∀ P, VSt.awakeCount s P = 0 := fun P => by simp [VSt.awakeCount, hawake]
  rw [hsim.holds.data]
  constructor
  · rintro ⟨t, ht⟩
    have hw : t ∈ s.lists .notEmpty :=
      (hc.waiting t _ (hc.ctl_of_inBufferRecv ht)).resolve_left (by simp [hawake])
    have := hr.recv (List.ne_nil_of_mem hw)
    rw [hzero] at this
    exact List.length_eq_zero_iff.mp (by omega)
  · rintro ⟨t, ht⟩
    obtain ⟨m, hm⟩ := hc.ctl_of_inBufferSend ht
    have hw : t ∈ s.lists .notFull := (hc.waiting t _ hm).resolve_left (by simp [hawake])
    have := hr.send (List.ne_nil_of_mem hw)
    have hlen := hb.len
    rw [hzero] at this
    omega

/-- A buffer of one place with two senders: the second is blocked and the buffer is full. -/
theorem no_lost_wakeup_two_senders :
    ∃ c : LSt Unit, NoLostWakeup 1 c ∧ Quiescent c ∧ (c.ctl 1).inBufferSend = true := by
  have hrun := TS.Reachable.exists_of_run (M := system (Links (Node Head Tid)) Unit 1 0)
    (s := start 1 0 2) [.dispatch, .send none, .exit, .dispatch, .send none]
    (fun c => decide (Quiescent c ∧ (c.ctl 1).inBufferSend = true)) ⟨2, rfl⟩ (by decide +kernel)
  obtain ⟨c, hc, hP⟩ := hrun
  exact ⟨c, no_lost_wakeup (by decide) (by decide) hc, of_decide_eq_true hP⟩

/-- The field that stores the capacity is an `unsigned int`: a channel opened for `2 ^ 32 + 1`
messages blocks its second sender with one message in the queue. -/
theorem capacity_truncated :
    ¬∀ nelems, 1 ≤ nelems → ∀ c : LSt Unit,
      (system (Links (Node Head Tid)) Unit nelems 0).Reachable c → NoLostWakeup nelems c := by
  have hrun := TS.Reachable.exists_of_run (M := system (Links (Node Head Tid)) Unit (2 ^ 32 + 1) 0)
    (s := start (2 ^ 32 + 1) 0 2) [.dispatch, .send none, .exit, .dispatch, .send none]
    (fun c => decide (Quiescent c ∧ (c.ctl 1).inBufferSend = true ∧ c.msgs.toList.length = 1))
    ⟨2, rfl⟩ (by decide +kernel)
  obtain ⟨c, hc, hP⟩ := hrun
  obtain ⟨hq, hsend, hlen⟩ := of_decide_eq_true hP
  intro h
  have := (h _ (by norm_num) c hc hq).2 ⟨1, hsend⟩
  omega

end Libcask.Chan
