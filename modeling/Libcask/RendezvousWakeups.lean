import Libcask.Rendezvous

/-! # Wake-ups of unbuffered channels

Senders that have pushed and senders that have not wait in one list, and a receiver wakes the two
that have waited longest.  When it thereby misses the sender of the message it has popped, that
sender sleeps on (`stranded_sender_reachable`); when it wakes two senders that have both pushed, nobody is
left to push the next message (`standoff_reachable`).

The two conditions under which this does not happen are about the state before a pop:
`SuccessorNear` (somebody who can push next is near the head of the list, or awake already) and
`SenderNear` (the sender of the popped message is near the head). -/

namespace Libcask.Chan

variable {α : Type}

/-- The task is inside `chan_nobuffer_send` and has not pushed its message. -/
def Ctl.unsent (c : Ctl α) : Bool := c.inNobufferSend.any fun r => !r.2

/-- The call whose message the task has pushed and waits to see popped. -/
def Ctl.sentCall (c : Ctl α) : Option ℕ :=
  match c.inNobufferSend with
  | some (m, true) => some m.call
  | _ => none

/-- If a sender with an unpushed message waits when a receiver pops, then one is among the two
oldest waiters on `not_full`, or in the run queue. -/
def SuccessorNear (d : Data α) (v : View Head Tid) (a : Act α) : Prop :=
  PopsNext d v a = true → (∃ u ∈ v .notFull, (d.ctl u).unsent = true) →
    ∃ u ∈ (v .notFull).take 2 ++ v .runList, (d.ctl u).unsent = true

instance (d : Data α) (v : View Head Tid) (a : Act α) : Decidable (SuccessorNear d v a) :=
  inferInstanceAs (Decidable (_ → _))

/-- When a receiver pops, the sender of the message at the head of the queue is among the two
oldest waiters on `not_full`. -/
def SenderNear (d : Data α) (v : View Head Tid) (a : Act α) : Prop :=
  PopsNext d v a = true → ∀ u ∈ v .notFull,
    (d.ctl u).sentCall = d.msgs.toList.head?.map Msg.call → u ∈ (v .notFull).take 2

instance (d : Data α) (v : View Head Tid) (a : Act α) : Decidable (SenderNear d v a) :=
  inferInstanceAs (Decidable (_ → _))

section blocks
variable {s s₁ s' : VSt α} {me t : Tid} {p : Point α} {w : Wait α}

theorem Core.unsent_iff (hc : Core s) : (s.ctl t).unsent = true ↔ ∃ m, s.sends t m false := by
  constructor
  · intro h
    cases hr : (s.ctl t).inNobufferSend with
    | none => simp [Ctl.unsent, hr] at h
    | some r =>
        obtain ⟨m, b⟩ := r
        obtain rfl : b = false := by simpa [Ctl.unsent, hr] using h
        exact ⟨m, hc.sends_of_inNobufferSend hr⟩
  · rintro ⟨m, hm⟩
    have hctl : s.ctl t = .cond (.nobufferSend m false) := hm
    simp [hctl, Ctl.unsent, Ctl.inNobufferSend]

/-- A task inside another wait than the one the running task comes from is another task. -/
theorem Inside.ne_of_ctl (hin : Inside s me p) (ht : s.ctl t = .cond w) (hp : p ≠ .loop w) :
    t ≠ me := by
  rintro rfl
  rcases hin.ctl with ⟨-, hi⟩ | ⟨w', hw', hc⟩
  · cases ht.symm.trans hi
  · obtain rfl : w = w' := Ctl.cond.inj (ht.symm.trans hc)
    exact hp hw'

/-- The others stay awake, and where they are, when the running task goes to sleep. -/
theorem Core.awake_sleep (hc : Core s) (hcur : s.current = some me) (w' : Wait α)
    (ht : t ∈ s.awake) (hne : t ≠ me) :
    t ∈ (s.sleep me w').awake ∧ (s.sleep me w').ctl t = s.ctl t := by
  refine ⟨(hc.mem_sleep_awake hcur w').mpr ⟨ht, hne⟩, ?_⟩
  rw [sleep_ctl, Function.update_of_ne hne]

/-- The two oldest waiters are taken off the list. -/
theorem Core.nobufferPop_notFull (hc : Core s) (me : Tid) :
    (s.nobufferPop me).lists .notFull = (s.lists .notFull).drop 2 := by
  have hcp := hc.pop me
  have hcs := hcp.signal (h := .notFull) (by decide)
  show (coCondSignal (coCondSignal (chanPopMsg s me) .notFull) .notFull).lists .notFull = _
  rw [signal_lists hcs.ok (by decide), signal_lists hcp.ok (by decide), List.drop_drop]
  rfl

/-- They are awake then, with all that were awake before. -/
theorem Core.awake_nobufferPop (hc : Core s) (me : Tid)
    (ht : t ∈ (s.lists .notFull).take 2 ∨ t ∈ s.awake) : t ∈ (s.nobufferPop me).awake := by
  have hcp := hc.pop me
  have hcs := hcp.signal (h := .notFull) (by decide)
  show t ∈ VSt.awake (coCondSignal (coCondSignal (chanPopMsg s me) .notFull) .notFull)
  rw [signal_awake hcs.ok (by decide), signal_lists hcp.ok (by decide),
    signal_awake hcp.ok (by decide)]
  rw [show 2 = 1 + 1 from rfl, List.take_add] at ht
  simp only [List.mem_append] at ht ⊢
  rcases ht with (ht | ht) | ht
  · exact .inr (.inl ht)
  · exact .inl ht
  · exact .inr (.inr ht)

theorem Paired.nobufferPop_toList (hp : Paired s) (he : s.msgs.isEmpty = false) (me : Tid) :
    (s.nobufferPop me).msgs.toList = [] := by
  cases hl : s.msgs.toList with
  | nil => simp [hp.isEmpty_iff.mpr hl] at he
  | cons m r =>
      obtain rfl : r = [] := by simpa [hl] using hp.len
      exact (chanPopMsg_spec hl he me).1

end blocks

/-! ### Senders and receivers that can meet -/

/-- If a receiver waits while there is a message, a receiver is awake; if a sender waits to push
while there is none, such a sender is awake. -/
structure Served (s : VSt α) : Prop where
  recv : s.lists .notEmpty ≠ [] → s.msgs.toList ≠ [] → ∃ t ∈ s.awake, s.ctl t = .cond .nobufferRecv
  send : s.msgs.toList = [] → ∀ u ∈ s.lists .notFull, ∀ m, s.sends u m false →
    ∃ t ∈ s.awake, ∃ m, s.sends t m false

namespace Served

variable {s s₁ s' : VSt α} {me : Tid} {p : Point α} {a : Act α}

theorem quiet (hq : Quiet s s') (hs : Served s) : Served s' := by
  constructor
  · rw [hq.lists _ (by decide), hq.msgs]
    intro h1 h2
    obtain ⟨t, ht, hctl⟩ := hs.recv h1 h2
    exact ⟨t, (hq.awake t _ hctl).mpr ht, (hq.ctl t _).mpr hctl⟩
  · rw [hq.lists _ (by decide), hq.msgs]
    intro h1 u hu m hm
    obtain ⟨t, ht, m', hctl⟩ := hs.send h1 u hu m ((hq.ctl u _).mp hm)
    exact ⟨t, (hq.awake t _ hctl).mpr ht, m', (hq.ctl t _).mpr hctl⟩

theorem sendWait (hs : Served s) (hp : Paired s) (hin : Inside s me p) {m : Msg α}
    (hm : p = .sendStart m ∨ p = .loop (.nobufferSend m false)) (hq : s.msgs.isEmpty = false) :
    Served (s.sleep me (.nobufferSend m false)) := by
  have hne : s.msgs.toList ≠ [] := fun hc => by simp [hp.isEmpty_iff.mpr hc] at hq
  refine ⟨fun h1 h2 => ?_, fun h1 => absurd h1 hne⟩
  rw [sleep_lists, if_neg (by simp [Wait.head])] at h1
  obtain ⟨t, ht, hctl⟩ := hs.recv h1 h2
  have htm : t ≠ me := hin.ne_of_ctl hctl (by rcases hm with rfl | rfl <;> simp)
  obtain ⟨h3, h4⟩ := hin.core.awake_sleep hin.current (.nobufferSend m false) ht htm
  exact ⟨t, h3, h4.trans hctl⟩

/-- The signal after a push wakes the first waiting receiver. -/
theorem sendPush (hin : Inside s me p) (hp : Paired s) (m : Msg α) :
    Served (VSt.sleep (coCondSignal (chanPushMsg s m) .notEmpty) me (.nobufferSend m true)) := by
  obtain ⟨m', -, hmsgs, -⟩ := chanPushMsg_spec s m
  have hcp := hin.core.push m
  have hcore := hcp.signal (h := .notEmpty) (by decide)
  constructor
  · intro h1 _
    rw [sleep_lists, if_neg (by simp [Wait.head]), signal_lists hcp.ok (by decide)] at h1
    cases hl : s.lists .notEmpty with
    | nil => exact absurd (congrArg (List.drop 1) hl) h1
    | cons t r =>
        have hmem : t ∈ s.lists .notEmpty := hl ▸ List.mem_cons_self
        obtain ⟨w, hctl, hh⟩ := hin.core.onWait .notEmpty t (by decide) hmem
        obtain rfl : w = .nobufferRecv := by
          have hk := hin.core.kind t w hctl
          cases w with
          | nobufferRecv => rfl
          | nobufferSend _ _ => cases hh
          | bufferSend _ => cases hh
          | bufferRecv => exact absurd hp.nelems (hk.mp rfl)
        have htm : t ≠ me := fun hc => hin.core.current me hin.current .notEmpty (hc ▸ hmem)
        have hawake : t ∈ VSt.awake (coCondSignal (chanPushMsg s m) .notEmpty) := by
          rw [signal_awake hcp.ok (by decide)]
          apply List.mem_append_left
          show t ∈ (s.lists .notEmpty).take 1
          simp [hl]
        obtain ⟨h3, h4⟩ := hcore.awake_sleep hin.current (.nobufferSend m true) hawake htm
        exact ⟨t, h3, h4.trans hctl⟩
  · intro h1
    have : (chanPushMsg s m).msgs.toList = [] := h1
    simp [hmsgs] at this

theorem recvWait (hs : Served s) (hp : Paired s) (hin : Inside s me (.loop .nobufferRecv))
    (hq : s.msgs.isEmpty = true) : Served (s.sleep me .nobufferRecv) := by
  have hnil := hp.isEmpty_iff.mp hq
  refine ⟨fun _ h2 => absurd hnil h2, fun h1 u hu m hm => ?_⟩
  rw [sleep_lists, if_neg (by simp [Wait.head])] at hu
  have hm' : s.sends u m false := by
    rcases sends_of_update (sleep_ctl s me .nobufferRecv) hm with ⟨-, hc⟩ | ⟨-, h⟩
    · cases hc
    · exact h
  obtain ⟨t, ht, m', hctl⟩ := hs.send h1 u hu m hm'
  have htm : t ≠ me := hin.ne_of_ctl hctl (by simp)
  obtain ⟨h3, h4⟩ := hin.core.awake_sleep hin.current .nobufferRecv ht htm
  exact ⟨t, h3, m', h4.trans hctl⟩

/-- A sender that returns was neither a receiver nor about to push. -/
theorem sendDone (hs : Served s) {m : Msg α} (hin : Inside s me (.loop (.nobufferSend m true))) :
    Served (sendReturn s.unlocked me m) := by
  have hctl : ∀ {t w}, s.ctl t = .cond w → w ≠ .nobufferSend m true →
      (sendReturn s.unlocked me m).ctl t = .cond w := by
    intro t w ht hw
    have htm : t ≠ me := hin.ne_of_ctl ht (by simpa using hw.symm)
    exact (Function.update_of_ne htm _ _).trans ht
  constructor
  · intro h1 h2
    obtain ⟨t, ht, h⟩ := hs.recv h1 h2
    exact ⟨t, ht, hctl h (by simp)⟩
  · intro h1 u hu m' hm'
    have hm'' : s.sends u m' false := by
      have hupd : (sendReturn s.unlocked me m).ctl = Function.update s.ctl me .idle := rfl
      rcases sends_of_update hupd hm' with ⟨-, hc⟩ | ⟨-, h⟩
      · cases hc
      · exact h
    obtain ⟨t, ht, m₁, h⟩ := hs.send h1 u hu m' hm''
    exact ⟨t, ht, m₁, hctl h (by simp)⟩

/-- After a pop the two oldest waiters are awake, and by assumption a sender that can push next is
among them or was awake before. -/
theorem pop (hq : Quiet s s₁) (hok : SuccessorNear s.toData s.lists a) (hc : Core s)
    (he : Enter s a s₁ me (.loop .nobufferRecv)) (hin : Inside s₁ me (.loop .nobufferRecv))
    (hp : Paired s₁) (hne : s₁.msgs.isEmpty = false) : Served (s₁.nobufferPop me) := by
  refine ⟨fun _ h2 => absurd (hp.nobufferPop_toList hne me) h2, fun _ u hu m hm => ?_⟩
  have hctl : (s₁.nobufferPop me).ctl = Function.update s₁.ctl me .idle := rfl
  have hm₁ : s₁.sends u m false := by
    rcases sends_of_update hctl hm with ⟨-, hc⟩ | ⟨-, h⟩
    · cases hc
    · exact h
  have hpops : PopsNext s.toData s.lists a = true :=
    popsNext_of_enter he (by rw [← hq.msgs]; exact hne)
  have hwait : ∃ u ∈ s.lists .notFull, (s.ctl u).unsent = true := by
    rw [hin.core.nobufferPop_notFull, hq.lists _ (by decide)] at hu
    exact ⟨u, List.mem_of_mem_drop hu, hc.unsent_iff.mpr ⟨m, (hq.ctl u _).mp hm₁⟩⟩
  obtain ⟨t, ht, hun⟩ := hok hpops hwait
  obtain ⟨m', hm'⟩ := hc.unsent_iff.mp hun
  have hm'₁ : s₁.sends t m' false := (hq.ctl t _).mpr hm'
  have htm : t ≠ me := hin.ne_of_ctl hm'₁ (by simp)
  refine ⟨t, hin.core.awake_nobufferPop me ?_, m', (Function.update_of_ne htm _ _).trans hm'₁⟩
  rcases List.mem_append.mp ht with ht | ht
  · rw [hq.lists _ (by decide)]
    exact .inl ht
  · exact .inr ((hq.awake t _ hm').mpr (mem_awake.mpr (.inl ht)))

theorem of_reach {elemSize : ℕ}
    (h : (system (View Head Tid) α 0 elemSize).ReachVia
      (fun s a => SuccessorNear s.toData s.lists a) s) : Served s := by
  refine (invariant_of_blocks (I := fun s => Core s ∧ Paired s ∧ Served s) ?_
    (fun s s' _ hc' hq hi => ⟨hc', hi.2.1.quiet hq, hi.2.2.quiet hq⟩) ?_ h).2.2
  · have h0 : (system (View Head Tid) α 0 elemSize).Reachable (chanOpen 0 elemSize) :=
      .init ⟨0, rfl⟩
    exact ⟨(Rest.of_reach h0).core, Paired.of_reach h0, fun h => absurd rfl h,
      fun _ u hu => (nomatch hu)⟩
  · intro s a s₁ me p s' ⟨hc, hp, _⟩ ⟨_, hp₁, hs₁⟩ hok he hq hin hb
    have hk : p.buffered ≠ true := by simp [hin.kind, hp₁.nelems]
    refine ⟨(hb.core hin).1, hp.blk hp₁ he hin hb, ?_⟩
    cases hb with
    | sendWait hm hq => exact hs₁.sendWait hp₁ hin hm hq
    | sendPush hm hq => exact sendPush hin hp₁ _
    | sendDone => exact hs₁.sendDone hin
    | recvWait hw hnil =>
        rcases hw with rfl | rfl
        · exact hs₁.recvWait hp₁ hin hnil
        · exact absurd rfl hk
    | nobufferPop hne => exact pop hq hok hc he hin hp₁ hne
    | bufferSendWait hq => exact absurd rfl hk
    | bufferPush hq => exact absurd rfl hk
    | bufferPop hq => exact absurd rfl hk

end Served

/-! ### Senders whose message is still in the queue -/

/-- A sender that has pushed and still waits has its message in the queue. -/
def Kept (s : VSt α) : Prop :=
  ∀ t ∈ s.lists .notFull, ∀ m, s.sends t m true → m.call ∈ s.msgs.toList.map Msg.call

namespace Kept

variable {s s₁ s' : VSt α} {me : Tid} {p : Point α} {a : Act α}

theorem quiet (hq : Quiet s s') (hk : Kept s) : Kept s' := by
  intro t ht m hm
  rw [hq.lists _ (by decide)] at ht
  rw [hq.msgs]
  exact hk t ht m ((hq.ctl t _).mp hm)

/-- Steps that leave the queue as it is and put no sender that has pushed on the list. -/
theorem of_subset (hk : Kept s) {c : Ctl α} (hmsgs : s'.msgs = s.msgs)
    (hctl : s'.ctl = Function.update s.ctl me c) (hc : ∀ m, c ≠ .cond (.nobufferSend m true))
    (hlists : ∀ t ∈ s'.lists .notFull, t ≠ me → t ∈ s.lists .notFull) : Kept s' := by
  intro t ht m hm
  rcases sends_of_update hctl hm with ⟨-, hc'⟩ | ⟨htm, hm⟩
  · exact absurd hc' (hc m)
  · rw [hmsgs]
    exact hk t (hlists t ht htm) m hm

theorem sleep (hk : Kept s) {w : Wait α} (hw : ∀ m, w ≠ .nobufferSend m true) :
    Kept (s.sleep me w) := by
  refine hk.of_subset rfl (sleep_ctl s me w) (by simpa using hw) fun t ht htm => ?_
  rcases mem_sleep_lists.mp ht with ⟨hc, -⟩ | ht
  · exact absurd hc htm
  · exact ht

/-- A push finds the queue empty, so nobody on the list had pushed. -/
theorem sendPush (hk : Kept s) (hp : Paired s) (hin : Inside s me p) {m : Msg α}
    (hq : s.msgs.isEmpty = true) :
    Kept (VSt.sleep (coCondSignal (chanPushMsg s m) .notEmpty) me (.nobufferSend m true)) := by
  obtain ⟨m', hcall, hmsgs, -⟩ := chanPushMsg_spec s m
  intro t ht m₁ hm₁
  have hctl : (VSt.sleep (coCondSignal (chanPushMsg s m) .notEmpty) me (.nobufferSend m true)).ctl =
      Function.update s.ctl me (.cond (.nobufferSend m true)) := rfl
  rcases sends_of_update hctl hm₁ with ⟨-, hc⟩ | ⟨htm, hm₁⟩
  · cases hc
    show m.call ∈ (chanPushMsg s m).msgs.toList.map Msg.call
    simp [hmsgs, hcall]
  · rcases mem_sleep_lists.mp ht with ⟨hc, -⟩ | ht
    · exact absurd hc htm
    · have ht' : t ∈ s.lists .notFull :=
        mem_signal_lists (hin.core.push m).ok (by decide) (by decide) ht
      have := hk t ht' m₁ hm₁
      simp [hp.isEmpty_iff.mp hq] at this

/-- A pop takes the sender of the popped message off the list, by assumption. -/
theorem pop (hk : Kept s₁) (hq : Quiet s s₁) (hok : SenderNear s.toData s.lists a)
    (he : Enter s a s₁ me (.loop .nobufferRecv)) (hin : Inside s₁ me (.loop .nobufferRecv))
    (hp : Paired s₁) (hne : s₁.msgs.isEmpty = false) : Kept (s₁.nobufferPop me) := by
  intro t ht m hm
  exfalso
  have hctl : (s₁.nobufferPop me).ctl = Function.update s₁.ctl me .idle := rfl
  have hm₁ : s₁.sends t m true := by
    rcases sends_of_update hctl hm with ⟨-, hc⟩ | ⟨-, h⟩
    · cases hc
    · exact h
  rw [hin.core.nobufferPop_notFull] at ht
  obtain ⟨m₀, hl⟩ : ∃ m₀, s₁.msgs.toList = [m₀] := by
    have hnil : s₁.msgs.toList ≠ [] := fun hc => by simp [hp.isEmpty_iff.mpr hc] at hne
    exact List.length_eq_one_iff.mp (le_antisymm hp.len (List.length_pos_iff.mpr hnil))
  have hcall : m.call = m₀.call := by simpa [hl] using hk t (List.mem_of_mem_drop ht) m hm₁
  have hpops : PopsNext s.toData s.lists a = true :=
    popsNext_of_enter he (by rw [← hq.msgs]; exact hne)
  have hsent : (s.ctl t).sentCall = s.msgs.toList.head?.map Msg.call := by
    have hctl : s.ctl t = .cond (.nobufferSend m true) := (hq.ctl t _).mp hm₁
    rw [← hq.msgs, hl, hctl]
    simp [Ctl.sentCall, Ctl.inNobufferSend, hcall]
  rw [hq.lists _ (by decide)] at ht
  have htake := hok hpops t (List.mem_of_mem_drop ht) hsent
  have hnd : (s.lists .notFull).Nodup := by
    rw [← hq.lists _ (by decide)]
    exact hin.core.ok.nodup .notFull
  exact List.disjoint_take_drop hnd le_rfl htake ht

theorem of_reach {elemSize : ℕ}
    (h : (system (View Head Tid) α 0 elemSize).ReachVia
      (fun s a => SenderNear s.toData s.lists a) s) : Kept s := by
  refine (invariant_of_blocks (I := fun s => Paired s ∧ Kept s) ?_
    (fun s s' _ _ hq hi => ⟨hi.1.quiet hq, hi.2.quiet hq⟩) ?_ h).2
  · have h0 : (system (View Head Tid) α 0 elemSize).Reachable (chanOpen 0 elemSize) :=
      .init ⟨0, rfl⟩
    exact ⟨Paired.of_reach h0, fun t ht => (nomatch ht)⟩
  · intro s a s₁ me p s' ⟨hp, _⟩ ⟨hp₁, hk₁⟩ hok he hq hin hb
    have hbuf : p.buffered ≠ true := by simp [hin.kind, hp₁.nelems]
    refine ⟨hp.blk hp₁ he hin hb, ?_⟩
    cases hb with
    | sendWait hm hq => exact hk₁.sleep (by simp)
    | sendPush hm hq => exact hk₁.sendPush hp₁ hin hq
    | sendDone => exact hk₁.of_subset rfl rfl (by simp) fun t ht _ => ht
    | recvWait hw hnil => exact hk₁.sleep (by rcases hw with rfl | rfl <;> simp)
    | nobufferPop hne => exact hk₁.pop hq hok he hin hp₁ hne
    | bufferSendWait hq => exact absurd rfl hbuf
    | bufferPush hq => exact absurd rfl hbuf
    | bufferPop hq => exact absurd rfl hbuf

end Kept

/-! ### Quiescent states -/

/-- When nothing can run, there is not both a sender blocked with its message unpushed and a
receiver blocked. -/
def NoStandoff (c : LSt α) : Prop :=
  Quiescent c → ¬((∃ t m, (c.ctl t).inNobufferSend = some (m, false)) ∧
    ∃ t, (c.ctl t).inNobufferRecv = true)

/-- When nothing can run, no sender is blocked whose own message has been popped. -/
def SendersReleased (c : LSt α) : Prop :=
  Quiescent c → ∀ t m sent, (c.ctl t).inNobufferSend = some (m, sent) → m.call ∉ c.poppedCalls

theorem no_standoff {elemSize : ℕ} {c : LSt α}
    (h : (system (Links (Node Head Tid)) α 0 elemSize).ReachVia
      (fun c a => SuccessorNear c.toData (waiters c) a) c) : NoStandoff c := by
  obtain ⟨s, hs, hsim⟩ := (lockstep α 0 elemSize fun s a => SuccessorNear s.toData s.lists a).reach
    (fun c s a hsim hok => by rwa [hsim.holds.data, hsim.waiters_eq] at hok) h
  have hc := hsim.rest.core
  have hserved := Served.of_reach hs
  rintro hq ⟨⟨t, m, ht⟩, u, hu⟩
  have hawake := hsim.awake_eq_nil hq
  rw [hsim.holds.data] at ht hu
  have hsend := hc.sends_of_inNobufferSend ht
  have hrecv := hc.ctl_of_inNobufferRecv hu
  have hnf : t ∈ s.lists .notFull := (hc.waiting t _ hsend).resolve_left (by simp [hawake])
  have hne : u ∈ s.lists .notEmpty := (hc.waiting u _ hrecv).resolve_left (by simp [hawake])
  by_cases hm : s.msgs.toList = []
  · obtain ⟨x, hx, -⟩ := hserved.send hm t hnf m hsend
    simp [hawake] at hx
  · obtain ⟨x, hx, -⟩ := hserved.recv (List.ne_nil_of_mem hne) hm
    simp [hawake] at hx

/-- A sender and two receivers: the second receiver stays blocked, and no sender does. -/
theorem no_standoff_one_sender_two_receivers :
    ∃ c : LSt Unit, NoStandoff c ∧ Quiescent c ∧ (c.ctl 2).inNobufferRecv = true := by
  have hrun := TS.ReachVia.exists_of_run (M := system (Links (Node Head Tid)) Unit 0 0)
    (s := start 0 0 3) (fun c a => SuccessorNear c.toData (waiters c) a)
    [.dispatch, .send none, .dispatch, .recv, .exit, .dispatch, .recv, .dispatch, .exit]
    (fun c => decide (Quiescent c ∧ (c.ctl 2).inNobufferRecv = true))
    ⟨3, rfl⟩ (by decide +kernel) (by decide +kernel)
  obtain ⟨c, hc, hP⟩ := hrun
  exact ⟨c, no_standoff hc, of_decide_eq_true hP⟩

/-- Four senders and then four receivers: the last sender and the last receiver wait for each other,
since the receivers' signals went to senders that had already pushed. -/
theorem standoff_reachable :
    ¬∀ c : LSt Unit, (system (Links (Node Head Tid)) Unit 0 0).Reachable c → NoStandoff c := by
  have hrun := TS.Reachable.exists_of_run (M := system (Links (Node Head Tid)) Unit 0 0)
    (s := start 0 0 8)
    [.dispatch, .send none, .dispatch, .send none, .dispatch, .send none, .dispatch,
      .send none, .dispatch, .recv, .exit, .dispatch, .recv, .dispatch, .recv, .dispatch, .recv,
      .dispatch, .exit, .dispatch, .dispatch, .exit, .dispatch, .dispatch, .dispatch, .exit,
      .dispatch, .exit, .dispatch, .exit]
    (fun c => decide (Quiescent c ∧ (c.ctl 3).inNobufferSend = some (⟨3, none, false⟩, false) ∧
      (c.ctl 7).inNobufferRecv = true)) ⟨8, rfl⟩ (by decide +kernel)
  obtain ⟨c, hc, hP⟩ := hrun
  obtain ⟨hq, hsend, hrecv⟩ := of_decide_eq_true hP
  exact fun h => h c hc hq ⟨⟨3, _, hsend⟩, 7, hrecv⟩

theorem senders_released {elemSize : ℕ} {c : LSt α}
    (h : (system (Links (Node Head Tid)) α 0 elemSize).ReachVia
      (fun c a => SenderNear c.toData (waiters c) a) c) : SendersReleased c := by
  obtain ⟨s, hs, hsim⟩ := (lockstep α 0 elemSize fun s a => SenderNear s.toData s.lists a).reach
    (fun c s a hsim hok => by rwa [hsim.holds.data, hsim.waiters_eq] at hok) h
  have hc := hsim.rest.core
  have hp := Paired.of_reach hs
  intro hq t m sent ht
  have hawake := hsim.awake_eq_nil hq
  rw [hsim.holds.data] at ht ⊢
  have hsend := hc.sends_of_inNobufferSend ht
  have hnodup := hp.nodup
  rw [hp.pushedCalls_eq, List.nodup_append] at hnodup
  intro hpop
  cases sent with
  | false =>
      refine (hp.pending t m hsend).notPushed ?_
      rw [hp.pushedCalls_eq]
      exact List.mem_append_left _ hpop
  | true =>
      have hnf : t ∈ s.lists .notFull := (hc.waiting t _ hsend).resolve_left (by simp [hawake])
      exact hnodup.2.2 _ hpop _ (Kept.of_reach hs t hnf m hsend) rfl

/-- Two senders and two receivers: both messages are popped and both senders return. -/
theorem senders_released_two_senders_two_receivers :
    ∃ c : LSt Unit, SendersReleased c ∧ Quiescent c ∧ c.poppedCalls = [0, 1] := by
  have hrun := TS.ReachVia.exists_of_run (M := system (Links (Node Head Tid)) Unit 0 0)
    (s := start 0 0 4) (fun c a => SenderNear c.toData (waiters c) a)
    [.dispatch, .send none, .dispatch, .send none, .dispatch, .recv, .exit, .dispatch, .recv,
      .dispatch, .exit, .dispatch, .dispatch, .exit, .dispatch, .exit]
    (fun c => decide (Quiescent c ∧ c.poppedCalls = [0, 1]))
    ⟨4, rfl⟩ (by decide +kernel) (by decide +kernel)
  obtain ⟨c, hc, hP⟩ := hrun
  exact ⟨c, senders_released hc, of_decide_eq_true hP⟩

/-- Four senders and two receivers: the second sender sleeps on although its message was popped,
since two other senders were ahead of it on the list. -/
theorem stranded_sender_reachable :
    ¬∀ c : LSt Unit, (system (Links (Node Head Tid)) Unit 0 0).Reachable c →
      SendersReleased c := by
  have hrun := TS.Reachable.exists_of_run (M := system (Links (Node Head Tid)) Unit 0 0)
    (s := start 0 0 6)
    [.dispatch, .send none, .dispatch, .send none, .dispatch, .send none, .dispatch,
      .send none, .dispatch, .recv, .exit, .dispatch, .recv, .dispatch, .exit, .dispatch, .dispatch,
      .exit, .dispatch, .dispatch]
    (fun c => decide (Quiescent c ∧ (c.ctl 1).inNobufferSend = some (⟨1, none, false⟩, true) ∧
      1 ∈ c.poppedCalls)) ⟨6, rfl⟩ (by decide +kernel)
  obtain ⟨c, hc, hP⟩ := hrun
  obtain ⟨hq, hsend, hpop⟩ := of_decide_eq_true hP
  exact fun h => h c hc hq 1 _ true hsend hpop

end Libcask.Chan
