import Libcask.ChannelLinks

/-! # Unbuffered channels

What holds of a channel opened with `nelems = 0`, under every interleaving of its users. -/

namespace Libcask.Chan

variable {α : Type}

/-! ### Pushing and popping -/

theorem chanPushMsg_spec {L : Type} (s : St L α) (m : Msg α) :
    ∃ m', m'.call = m.call ∧ (chanPushMsg s m).msgs = s.msgs.pushBack m' ∧
      (chanPushMsg s m).pushed = s.pushed ++ [m'] := by
  refine ⟨if s.elemSize ≠ 0 ∧ m.data.isSome then { m with copied := true } else m, ?_, rfl, rfl⟩
  split_ifs <;> rfl

theorem chanPopMsg_spec {L : Type} {s : St L α} {m : Msg α} {r : List (Msg α)}
    (hl : s.msgs.toList = m :: r) (he : s.msgs.isEmpty = false) (me : Tid) :
    (chanPopMsg s me).msgs.toList = r ∧ (chanPopMsg s me).popped = s.popped ++ [(me, m)] := by
  obtain ⟨h1, h2⟩ := Deque.popFront_eq hl he
  refine ⟨h2, ?_⟩
  show s.popped ++ (s.msgs.popFront.1.map fun m => (me, m)).toList = _
  rw [h1]
  rfl

/-! ### Messages and their senders -/

/-- The call numbers of the messages popped so far. -/
def Data.poppedCalls (s : Data α) : List ℕ := s.popped.map fun r => r.2.call

/-- The call numbers of the messages pushed so far. -/
def Data.pushedCalls (s : Data α) : List ℕ := s.pushed.map Msg.call

/-- The task stands in `chan_nobuffer_send`, with the message `m`, pushed or not. -/
def Data.sends (s : Data α) (t : Tid) (m : Msg α) (sent : Bool) : Prop :=
  s.ctl t = .cond (.nobufferSend m sent)

/-- Who sends after the task `me` has changed to `c`. -/
theorem sends_of_update {s s' : VSt α} {me t : Tid} {c : Ctl α} {m : Msg α} {b : Bool}
    (hctl : s'.ctl = Function.update s.ctl me c) (h : s'.sends t m b) :
    (t = me ∧ c = .cond (.nobufferSend m b)) ∨ (t ≠ me ∧ s.sends t m b) := by
  unfold Data.sends at h
  by_cases ht : t = me
  · subst ht
    rw [hctl, Function.update_self] at h
    exact .inl ⟨rfl, h⟩
  · rw [hctl, Function.update_of_ne ht] at h
    exact .inr ⟨ht, h⟩

/-- A task that waits for a message is not sending one. -/
theorem Core.not_sends {s : VSt α} (hc : Core s) {t : Tid} (ht : t ∈ s.lists .notEmpty) {m : Msg α}
    {b : Bool} : ¬s.sends t m b := by
  intro h
  obtain ⟨w, hw, hh⟩ := hc.onWait .notEmpty t (by decide) ht
  obtain rfl : w = .nobufferSend m b := Ctl.cond.inj (hw.symm.trans h)
  cases hh

/-- The message `m`, of the task `me`, is not pushed, and no other task is sending it. -/
structure Pending (s : VSt α) (me : Tid) (m : Msg α) : Prop where
  lt : m.call < s.calls
  notPushed : m.call ∉ s.pushedCalls
  alone : ∀ t m' sent, t ≠ me → s.sends t m' sent → m'.call ≠ m.call

/-- The queue, the history and the senders of an unbuffered channel. -/
structure Paired (s : VSt α) : Prop where
  nelems : s.nelems = 0
  len : s.msgs.toList.length ≤ 1
  log : s.popped.map Prod.snd ++ s.msgs.toList = s.pushed
  nodup : s.pushedCalls.Nodup
  lt : ∀ k ∈ s.pushedCalls, k < s.calls
  pending : ∀ t m, s.sends t m false → Pending s t m
  sent : ∀ t m, s.sends t m true → m.call ∈ s.pushedCalls
  inj : ∀ t t' m m', s.sends t m true → s.sends t' m' true → m.call = m'.call → t = t'
  woken : ∀ t m, t ∈ s.awake → s.sends t m true → m.call ∈ s.poppedCalls
  returned : ∀ k ∈ s.returned, k ∈ s.poppedCalls

namespace Paired

variable {s s₁ s' : VSt α} {me : Tid} {p : Point α} {a : Act α}

theorem isEmpty_iff (hp : Paired s) : s.msgs.isEmpty = true ↔ s.msgs.toList = [] :=
  Deque.isEmpty_iff (by have := hp.len; omega)

theorem pushedCalls_eq (hp : Paired s) :
    s.pushedCalls = s.poppedCalls ++ s.msgs.toList.map Msg.call := by
  unfold Data.pushedCalls Data.poppedCalls
  rw [← hp.log, List.map_append, List.map_map]
  rfl

theorem lt_calls (hp : Paired s) {t : Tid} {m : Msg α} {b : Bool} (h : s.sends t m b) :
    m.call < s.calls := by
  cases b with
  | false => exact (hp.pending t m h).lt
  | true => exact hp.lt _ (hp.sent t m h)

theorem quiet (hq : Quiet s s') (hp : Paired s) : Paired s' := by
  have hs : ∀ {t m b}, s'.sends t m b → s.sends t m b := fun h => (hq.ctl _ _).mp h
  have hpush : s'.pushedCalls = s.pushedCalls := by simp [Data.pushedCalls, hq.pushed]
  have hpop : s'.poppedCalls = s.poppedCalls := by simp [Data.poppedCalls, hq.popped]
  constructor
  · rw [hq.nelems]
    exact hp.nelems
  · rw [hq.msgs]
    exact hp.len
  · rw [hq.msgs, hq.popped, hq.pushed]
    exact hp.log
  · rw [hpush]
    exact hp.nodup
  · intro k hk
    exact (hp.lt k (hpush ▸ hk)).trans_le hq.calls
  · intro t m h
    obtain ⟨h1, h2, h3⟩ := hp.pending t m (hs h)
    exact ⟨h1.trans_le hq.calls, hpush ▸ h2, fun t' m' b ht h' => h3 t' m' b ht (hs h')⟩
  · intro t m h
    rw [hpush]
    exact hp.sent t m (hs h)
  · intro t t' m m' h h'
    exact hp.inj t t' m m' (hs h) (hs h')
  · intro t m ht h
    rw [hpop]
    exact hp.woken t m ((hq.awake t _ (hs h)).mp ht) (hs h)
  · rw [hq.returned, hpop]
    exact hp.returned

/-- A task that reaches the mutex with its message not pushed. -/
theorem pending_of_enter (hp : Paired s) (hp₁ : Paired s₁) (he : Enter s a s₁ me p) {m : Msg α}
    (hm : p = .sendStart m ∨ p = .loop (.nobufferSend m false)) : Pending s₁ me m := by
  cases he with
  | @woken _ w hcur hpick hctl =>
      rcases hm with hm | hm
      · cases hm
      · cases hm
        exact hp₁.pending me m hctl
  | send hcur hidle =>
      rw [if_pos hp.nelems] at hm
      rcases hm with hm | hm
      · cases hm
        refine ⟨Nat.lt_succ_self _, fun h => lt_irrefl _ (hp.lt _ h), fun t m' b _ h => ?_⟩
        exact (hp.lt_calls h).ne
      · cases hm
  | recv hcur hidle =>
      rw [if_pos hp.nelems] at hm
      rcases hm with hm | hm <;> cases hm

theorem sendWait (hp : Paired s) (hin : Inside s me p) {m : Msg α} (hm : Pending s me m) :
    Paired (s.sleep me (.nobufferSend m false)) := by
  have hctl := sleep_ctl s me (.nobufferSend m false)
  have hsent : ∀ {t m'}, (s.sleep me (.nobufferSend m false)).sends t m' true →
      s.sends t m' true := by
    intro t m' h
    rcases sends_of_update hctl h with ⟨-, hc⟩ | ⟨-, h⟩
    · cases hc
    · exact h
  refine ⟨hp.nelems, hp.len, hp.log, hp.nodup, hp.lt, fun t m' h => ?_, fun t m' h => ?_,
    fun t t' m₁ m₂ h h' => hp.inj t t' m₁ m₂ (hsent h) (hsent h'), fun t m' ht h => ?_,
    hp.returned⟩
  · rcases sends_of_update hctl h with ⟨rfl, hc⟩ | ⟨htm, h⟩
    · cases hc
      refine ⟨hm.lt, hm.notPushed, fun t' m' b ht h' => ?_⟩
      rcases sends_of_update hctl h' with ⟨hc, -⟩ | ⟨-, h'⟩
      · exact absurd hc ht
      · exact hm.alone t' m' b ht h'
    · obtain ⟨h1, h2, h3⟩ := hp.pending t m' h
      refine ⟨h1, h2, fun t' m'' b ht h' => ?_⟩
      rcases sends_of_update hctl h' with ⟨-, hc⟩ | ⟨-, h'⟩
      · cases hc
        exact (hm.alone t m' false htm h).symm
      · exact h3 t' m'' b ht h'
  · exact hp.sent t m' (hsent h)
  · exact hp.woken t m' ((hin.core.mem_sleep_awake hin.current _).mp ht).1 (hsent h)

theorem sendPush (hp : Paired s) (hin : Inside s me p) {m : Msg α} (hm : Pending s me m)
    (he : s.msgs.isEmpty = true) :
    Paired (VSt.sleep (coCondSignal (chanPushMsg s m) .notEmpty) me (.nobufferSend m true)) := by
  obtain ⟨m', hcall, hmsgs, hpushed⟩ := chanPushMsg_spec s m
  have hnil := hp.isEmpty_iff.mp he
  have hcore := (hin.core.push m).signal (h := .notEmpty) (by decide)
  set s' := VSt.sleep (coCondSignal (chanPushMsg s m) .notEmpty) me (.nobufferSend m true) with hs'
  have hctl : s'.ctl = Function.update s.ctl me (.cond (.nobufferSend m true)) := rfl
  have hlist : s'.msgs.toList = [m'] := by
    show (chanPushMsg s m).msgs.toList = [m']
    rw [hmsgs, Deque.toList_pushBack, hnil]
    rfl
  have hpush : s'.pushed = s.pushed ++ [m'] := hpushed
  have hcalls : s'.pushedCalls = s.pushedCalls ++ [m.call] := by
    simp [Data.pushedCalls, hpush, hcall]
  have hawake : ∀ {t m' b}, t ∈ s'.awake → s'.sends t m' b → t ≠ me ∧ t ∈ s.awake ∧ s.sends t m' b := by
    intro t m' b ht h
    obtain ⟨ht, htm⟩ := (hcore.mem_sleep_awake hin.current _).mp ht
    have h' : s.sends t m' b := (sends_of_update hctl h).resolve_left (fun hc => htm hc.1) |>.2
    rw [signal_awake (hin.core.push m).ok (by decide), List.mem_append] at ht
    rcases ht with ht | ht
    · exact absurd h' (hin.core.not_sends (List.mem_of_mem_take ht))
    · exact ⟨htm, ht, h'⟩
  refine ⟨hp.nelems, by simp [hlist], ?_, ?_, fun k hk => ?_, fun t m₁ h => ?_, fun t m₁ h => ?_,
    fun t t' m₁ m₂ h h' heq => ?_, fun t m₁ ht h => ?_, hp.returned⟩
  · rw [hlist, hpush, ← hp.log, hnil, List.append_nil]
    rfl
  · rw [hcalls]
    exact List.nodup_append.mpr ⟨hp.nodup, List.nodup_singleton _, fun k hk k' hk' hc =>
      hm.notPushed (by rwa [← List.mem_singleton.mp hk', ← hc])⟩
  · rw [hcalls, List.mem_append, List.mem_singleton] at hk
    rcases hk with hk | rfl
    · exact hp.lt k hk
    · exact hm.lt
  · rcases sends_of_update hctl h with ⟨-, hc⟩ | ⟨htm, h⟩
    · cases hc
    · obtain ⟨h1, h2, h3⟩ := hp.pending t m₁ h
      have hne := hm.alone t m₁ false htm h
      refine ⟨h1, by simp [hcalls, h2, hne], fun t' m₂ b ht h' => ?_⟩
      rcases sends_of_update hctl h' with ⟨-, hc⟩ | ⟨-, h'⟩
      · cases hc
        exact hne.symm
      · exact h3 t' m₂ b ht h'
  · rw [hcalls, List.mem_append, List.mem_singleton]
    rcases sends_of_update hctl h with ⟨-, hc⟩ | ⟨-, h⟩
    · cases hc
      exact .inr rfl
    · exact .inl (hp.sent t m₁ h)
  · rcases sends_of_update hctl h with ⟨rfl, hc⟩ | ⟨htm, h⟩
    · cases hc
      rcases sends_of_update hctl h' with ⟨rfl, -⟩ | ⟨htm', h'⟩
      · rfl
      · exact absurd heq.symm (hm.alone t' m₂ true htm' h')
    · rcases sends_of_update hctl h' with ⟨-, hc⟩ | ⟨-, h'⟩
      · cases hc
        exact absurd heq (hm.alone t m₁ true htm h)
      · exact hp.inj t t' m₁ m₂ h h' heq
  · obtain ⟨-, ht, h⟩ := hawake ht h
    exact hp.woken t m₁ ht h

theorem recvWait (hp : Paired s) (hin : Inside s me p) : Paired (s.sleep me .nobufferRecv) := by
  have hctl := sleep_ctl s me .nobufferRecv
  have hs : ∀ {t m b}, (s.sleep me .nobufferRecv).sends t m b → s.sends t m b := by
    intro t m b h
    rcases sends_of_update hctl h with ⟨-, hc⟩ | ⟨-, h⟩
    · cases hc
    · exact h
  refine ⟨hp.nelems, hp.len, hp.log, hp.nodup, hp.lt, fun t m h => ?_,
    fun t m h => hp.sent t m (hs h), fun t t' m m' h h' => hp.inj t t' m m' (hs h) (hs h'),
    fun t m ht h => ?_, hp.returned⟩
  · obtain ⟨h1, h2, h3⟩ := hp.pending t m (hs h)
    exact ⟨h1, h2, fun t' m' b ht h' => h3 t' m' b ht (hs h')⟩
  · exact hp.woken t m ((hin.core.mem_sleep_awake hin.current _).mp ht).1 (hs h)

/-- The task `me` returns to its own code, after a change of the lists, the queue and the history
that the other hypotheses describe. -/
theorem done (hp : Paired s) {s' : VSt α} (hctl : s'.ctl = Function.update s.ctl me .idle)
    (hnelems : s'.nelems = s.nelems) (hcalls : s'.calls = s.calls) (hpushed : s'.pushed = s.pushed)
    (hlen : s'.msgs.toList.length ≤ 1) (hlog : s'.popped.map Prod.snd ++ s'.msgs.toList = s.pushed)
    (hwoken : ∀ t m, t ∈ s'.awake → s.sends t m true → m.call ∈ s'.poppedCalls)
    (hret : ∀ k ∈ s'.returned, k ∈ s'.poppedCalls) : Paired s' := by
  have hs : ∀ {t m b}, s'.sends t m b → s.sends t m b := by
    intro t m b h
    rcases sends_of_update hctl h with ⟨-, hc⟩ | ⟨-, h⟩
    · cases hc
    · exact h
  have hpc : s'.pushedCalls = s.pushedCalls := by simp [Data.pushedCalls, hpushed]
  refine ⟨hnelems.trans hp.nelems, hlen, by rw [hlog, hpushed], by rw [hpc]; exact hp.nodup,
    by rw [hpc, hcalls]; exact hp.lt, fun t m h => ?_, fun t m h => by rw [hpc]; exact hp.sent t m (hs h),
    fun t t' m m' h h' => hp.inj t t' m m' (hs h) (hs h'), fun t m ht h => hwoken t m ht (hs h), hret⟩
  obtain ⟨h1, h2, h3⟩ := hp.pending t m (hs h)
  exact ⟨hcalls ▸ h1, hpc ▸ h2, fun t' m' b ht h' => h3 t' m' b ht (hs h')⟩

theorem sendDone (hp : Paired s) (hin : Inside s me p) {m : Msg α} (hm : s.sends me m true) :
    Paired (sendReturn s.unlocked me m) := by
  refine hp.done rfl rfl rfl rfl hp.len hp.log hp.woken fun k hk => ?_
  rcases List.mem_append.mp hk with hk | hk
  · exact hp.returned k hk
  · rw [List.mem_singleton.mp hk]
    exact hp.woken me m (mem_awake.mpr (.inr hin.current)) hm

/-- After a pop everything that was pushed has been popped. -/
theorem pop (hp : Paired s) (he : s.msgs.isEmpty = false) :
    Paired (s.nobufferPop me) := by
  obtain ⟨m, hl⟩ : ∃ m, s.msgs.toList = [m] := by
    have hne : s.msgs.toList ≠ [] := fun hc => by simp [hp.isEmpty_iff.mpr hc] at he
    exact List.length_eq_one_iff.mp (le_antisymm hp.len (List.length_pos_iff.mpr hne))
  obtain ⟨hmsgs, hpopped⟩ := chanPopMsg_spec hl he me
  have hm : (s.nobufferPop me).msgs.toList = [] := hmsgs
  have hpop : (s.nobufferPop me).popped = s.popped ++ [(me, m)] := hpopped
  have hall : (s.nobufferPop me).poppedCalls = s.pushedCalls := by
    rw [hp.pushedCalls_eq, hl]
    simp [Data.poppedCalls, hpop]
  refine hp.done rfl rfl rfl rfl (by simp [hm]) ?_ (fun t m _ h => ?_) fun k hk => ?_
  · rw [hm, hpop, ← hp.log, hl]
    simp
  · rw [hall]
    exact hp.sent t m h
  · rw [hall, hp.pushedCalls_eq]
    exact List.mem_append_left _ (hp.returned k hk)

theorem blk (hp : Paired s) (hp₁ : Paired s₁) (he : Enter s a s₁ me p) (hin : Inside s₁ me p)
    (hb : Blk s₁ me p s') : Paired s' := by
  have hk : p.buffered ≠ true := by simp [hin.kind, hp₁.nelems]
  cases hb with
  | sendWait hm hq => exact hp₁.sendWait hin (hp.pending_of_enter hp₁ he hm)
  | sendPush hm hq => exact hp₁.sendPush hin (hp.pending_of_enter hp₁ he hm) hq
  | sendDone =>
      apply hp₁.sendDone hin
      rcases hin.ctl with ⟨hs, -⟩ | ⟨w, hw, hctl⟩
      · cases hs
      · cases hw
        exact hctl
  | recvWait hw hq =>
      rcases hw with rfl | rfl
      · exact hp₁.recvWait hin
      · exact absurd rfl hk
  | nobufferPop hq => exact hp₁.pop hq
  | bufferSendWait hq => exact absurd rfl hk
  | bufferPush hq => exact absurd rfl hk
  | bufferPop hq => exact absurd rfl hk

theorem of_reach {elemSize : ℕ} {ok : VSt α → Act α → Prop}
    (h : (system (View Head Tid) α 0 elemSize).ReachVia ok s) : Paired s := by
  refine invariant_of_blocks (I := Paired) ?_ (fun _ _ _ _ hq => quiet hq)
    (fun s a s₁ me p s' hp hp₁ _ he _ hin hb => blk hp hp₁ he hin hb) h
  constructor
  · rfl
  · simp [chanOpen]
  · simp [chanOpen]
  · exact List.nodup_nil
  · exact fun _ hk => (nomatch hk)
  · exact fun _ _ h => (nomatch h)
  · exact fun _ _ h => (nomatch h)
  · exact fun _ _ _ _ h => (nomatch h)
  · exact fun _ _ _ h => (nomatch h)
  · exact fun _ hk => (nomatch hk)

end Paired

/-- Rendezvous safety: at every point the queue holds at most one message, every call pushes its
message at most once and no message is popped twice, messages are received in the order they were
pushed, and a call of `chan_send` that has returned had its own message popped. -/
theorem rendezvous_safety {elemSize : ℕ} {c : LSt α}
    (h : (system (Links (Node Head Tid)) α 0 elemSize).Reachable c) :
    c.msgs.toList.length ≤ 1 ∧ (c.pushedCalls.Nodup ∧ c.poppedCalls.Nodup) ∧
      c.popped.map Prod.snd <+: c.pushed ∧ ∀ k ∈ c.returned, k ∈ c.poppedCalls := by
  obtain ⟨s, hs, hsim⟩ := (lockstep α 0 elemSize fun _ _ => True).reach (fun _ _ _ _ h => h) h
  have hp := Paired.of_reach hs
  have hnodup := hp.nodup
  rw [hp.pushedCalls_eq, List.nodup_append] at hnodup
  rw [hsim.holds.data]
  exact ⟨hp.len, ⟨hp.nodup, hnodup.1⟩, ⟨_, hp.log⟩, hp.returned⟩

/-- One sender and one receiver: the call has returned and its message has been popped. -/
theorem rendezvous_safety_one_message :
    ∃ c : LSt Unit, c.returned = [0] ∧ c.msgs.toList.length ≤ 1 ∧
      (c.pushedCalls.Nodup ∧ c.poppedCalls.Nodup) ∧ c.popped.map Prod.snd <+: c.pushed ∧
      ∀ k ∈ c.returned, k ∈ c.poppedCalls := by
  have hrun := TS.Reachable.exists_of_run (M := system (Links (Node Head Tid)) Unit 0 0)
    (s := start 0 0 2) [.dispatch, .send none, .dispatch, .recv, .exit, .dispatch]
    (fun c => decide (c.returned = [0])) ⟨2, rfl⟩ (by decide +kernel)
  obtain ⟨c, hc, hP⟩ := hrun
  exact ⟨c, of_decide_eq_true hP, rendezvous_safety hc⟩

/-! ### Blocked tasks -/

/-- The task is inside `chan_nobuffer_send`: its message, and whether it has been pushed. -/
def Ctl.inNobufferSend : Ctl α → Option (Msg α × Bool)
  | .cond (.nobufferSend m sent) => some (m, sent)
  | .mutex (.sendStart m) => some (m, false)
  | .mutex (.loop (.nobufferSend m sent)) => some (m, sent)
  | _ => none

/-- The task is inside `chan_nobuffer_recv`. -/
def Ctl.inNobufferRecv : Ctl α → Bool
  | .cond .nobufferRecv => true
  | .mutex (.loop .nobufferRecv) => true
  | _ => false

/-- No task is running and the run queue is empty: every task has exited or is blocked. -/
def Quiescent {L : Type} [ListOps L Head Tid] (c : St L α) : Prop :=
  c.current = none ∧ rrPicknext .runList c.lists = none

instance {L : Type} [ListOps L Head Tid] (c : St L α) : Decidable (Quiescent c) :=
  inferInstanceAs (Decidable (_ ∧ _))

/-- The waiting tasks, read off the links. -/
def waiters (c : LSt α) : View Head Tid := fun h => Rings.walk c.lists c.created (.head h)

theorem Core.length_le_created {s : VSt α} (hc : Core s) (h : Head) :
    (s.lists h).length ≤ s.created := by
  have hsub : s.lists h ⊆ List.range s.created := by
    intro t ht
    refine List.mem_range.mpr (hc.lt_created fun hf => ?_)
    exact hc.finished t hf h ht
  simpa using ((hc.ok.nodup h).subperm hsub).length_le

theorem Sim.waiters_eq {c : LSt α} {s : VSt α} (h : Sim c s) : waiters c = s.lists := by
  funext x
  refine h.holds.rings.walk_eq ?_
  have hcr : c.created = s.created := congrArg Data.created h.holds.data
  rw [hcr]
  exact h.rest.core.length_le_created x

theorem Core.sends_of_inNobufferSend {s : VSt α} (hc : Core s) {t : Tid} {m : Msg α} {b : Bool}
    (h : (s.ctl t).inNobufferSend = some (m, b)) : s.sends t m b := by
  cases hctl : s.ctl t with
  | cond w =>
      cases w with
      | nobufferSend m' b' =>
          obtain ⟨rfl, rfl⟩ : m' = m ∧ b' = b := by simpa [hctl, Ctl.inNobufferSend] using h
          exact hctl
      | nobufferRecv | bufferSend _ | bufferRecv => simp [hctl, Ctl.inNobufferSend] at h
  | mutex p => exact absurd hctl (hc.notMutex t p)
  | idle | elsewhere | finished => simp [hctl, Ctl.inNobufferSend] at h

theorem Core.ctl_of_inNobufferRecv {s : VSt α} (hc : Core s) {t : Tid}
    (h : (s.ctl t).inNobufferRecv = true) : s.ctl t = .cond .nobufferRecv := by
  cases hctl : s.ctl t with
  | cond w =>
      cases w with
      | nobufferRecv => rfl
      | nobufferSend _ _ | bufferSend _ | bufferRecv => simp [hctl, Ctl.inNobufferRecv] at h
  | mutex p => exact absurd hctl (hc.notMutex t p)
  | idle | elsewhere | finished => simp [hctl, Ctl.inNobufferRecv] at h

/-- In a quiescent state nobody is awake. -/
theorem Sim.awake_eq_nil {c : LSt α} {s : VSt α} (h : Sim c s) (hq : Quiescent c) :
    s.awake = [] := by
  have hcur : s.current = none := by
    rw [← h.holds.data]
    exact hq.1
  have hpick : (s.lists .runList).getLast? = none := (rrPicknext_eq h.holds.rings _).symm.trans hq.2
  simp [VSt.awake, hcur, List.getLast?_eq_none_iff.mp hpick]

/-- A receiver will pop a message in this step: it calls `chan_recv`, or it is dispatched in it,
and the queue is not empty. -/
def PopsNext (d : Data α) (v : View Head Tid) : Act α → Bool
  | .recv => !d.msgs.isEmpty && d.current.isSome
  | .dispatch => !d.msgs.isEmpty && d.current.isNone &&
      (v .runList).getLast?.any fun t => (d.ctl t).inNobufferRecv
  | _ => false

theorem popsNext_of_enter {s s₁ : VSt α} {a : Act α} {me : Tid}
    (he : Enter s a s₁ me (.loop .nobufferRecv)) (hq : s.msgs.isEmpty = false) :
    PopsNext s.toData s.lists a = true := by
  generalize hp : Point.loop Wait.nobufferRecv = p at he
  cases he with
  | woken hcur hpick hctl =>
      cases hp
      simp [PopsNext, hq, hcur, hpick, hctl, Ctl.inNobufferRecv]
  | send hcur hidle =>
      by_cases h0 : s.nelems = 0 <;> simp [h0] at hp
  | recv hcur hidle => simp [PopsNext, hq, hcur]

end Libcask.Chan
