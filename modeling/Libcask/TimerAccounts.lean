import Libcask.Ownership
import Libcask.SchedProgress

/-! # The timers that are open

`co_sleep`, `co_poll` and `co_cond_wait_till` open a timer and close it before they return, but for one
path: a `co_sleep` that returns -1 does not close its timer (`sys_helper.c`).  `timers_accounted`: no
timer is lost in another way.  The open timers are as many as there are tasks inside a call that closes
its timer when it goes on, and calls of `co_sleep` that have returned -1. -/

namespace Libcask.Sched

/-- The timer `n` of `timer.c` is open. -/
def Io.IsOpen (io : Io) (n : ℕ) : Prop := io.ifd (.timer n) ≠ none

/-- The task waits in `co_sleep`. -/
def Cont.sleeping : Cont → Bool
  | .eventPoll _ .sleep => true
  | _ => false

/-- The step ends a `co_sleep` that returns -1. -/
def sleepFails (s : St) (a : Act) (s' : St) : Bool :=
  match s.q.phase, a with
  | .running t, .user (.sleep _ _ _) => decide (s'.cont t = .user ∧ s'.ret t = .int (-1))
  | .running t, .goOn _ => (s.cont t).sleeping && decide (s'.ret t = .int (-1))
  | _, _ => false

/-! ### Changes of the descriptors -/

namespace Io

variable {io io' : Io} {t : Tid} {T C : Fd → Prop} {n : ℕ}

theorem isOpen_setInner_of_ne (io : Io) {fd : Fd} (r : InnerFd) (h : Fd.timer n ≠ fd) :
    (io.setInner fd r).IsOpen n ↔ io.IsOpen n := by
  rw [IsOpen, io.setInner_of_ne r h]
  rfl

theorem isOpen_setInner {fd : Fd} {r : InnerFd} (hr : io.ifd fd = some r) (r' : InnerFd) (n : ℕ) :
    (io.setInner fd r').IsOpen n ↔ io.IsOpen n := by
  by_cases hc : Fd.timer n = fd
  · unfold IsOpen
    rw [hc, setInner_self, hr]
    simp
  · exact io.isOpen_setInner_of_ne r' hc

theorem not_isOpen_close (io : Io) (n : ℕ) : ¬(io.close (.timer n)).IsOpen n :=
  not_not_intro (Function.update_self ..)

theorem Change.isOpen_iff (h : Change t T C io io') (hC : ¬C (.timer n))
    (hT : T (.timer n) → n < io.timers) :
    (io'.IsOpen n ↔ io.IsOpen n) ∧ io.timers ≤ io'.timers := by
  cases h with
  | record r' hT hr => exact ⟨isOpen_setInner hr r' n, le_rfl⟩
  | watch events ok =>
      refine ⟨by rw [IsOpen, addEvents_ifd]; rfl, ?_⟩
      unfold addEvents
      split_ifs <;> exact le_rfl
  | link timeout =>
      refine ⟨by rw [IsOpen, (wheelUpdateElement_frame ..).1]; rfl, ?_⟩
      unfold wheelUpdateElement
      split_ifs <;> exact le_rfl
  | unwatch | unlink => exact ⟨.rfl, le_rfl⟩
  | socket => exact ⟨isOpen_setInner_of_ne _ _ (by simp), le_rfl⟩
  | openTimer hopen =>
      refine ⟨?_, Nat.le_succ _⟩
      have hne : Fd.timer n ≠ .timer io.timers := by
        rintro ⟨⟩
        exact lt_irrefl _ (hT hopen)
      exact isOpen_setInner_of_ne _ _ hne
  | @close fd hT' hclose =>
      refine ⟨?_, le_rfl⟩
      have hne : Fd.timer n ≠ fd := by
        rintro rfl
        exact hC hclose
      show Function.update io.ifd fd none (.timer n) ≠ none ↔ _
      rw [Function.update_of_ne hne]
      rfl

/-- A timer that is not closed, and not a new one, is open as before. -/
theorem Changes.isOpen_iff (h : Changes t T C io io') (hC : ¬C (.timer n))
    (hT : T (.timer n) → n < io.timers) : io'.IsOpen n ↔ io.IsOpen n := by
  suffices hboth : (io'.IsOpen n ↔ io.IsOpen n) ∧ io.timers ≤ io'.timers from hboth.1
  induction h with
  | refl => exact ⟨.rfl, le_rfl⟩
  | tail _ hc ih =>
      obtain ⟨hiff, hle⟩ := hc.isOpen_iff hC fun h => (hT h).trans_le ih.2
      exact ⟨hiff.trans ih.1, ih.2.trans hle⟩

/-- The timer that is started is the only new one. -/
theorem isOpen_startTimer {k : TimerCall} {tfd : Option Fd} (e : io.startTimer t k = some (io', tfd))
    (hnew : ¬io.IsOpen n) (hopen : io'.IsOpen n) : tfd = some (.timer n) := by
  unfold startTimer at e
  split_ifs at e
  · obtain ⟨io₁, he, h1⟩ := Option.map_eq_some_iff.mp e
    obtain ⟨rfl, rfl⟩ := Prod.mk.inj h1
    by_contra hne
    have hne' : Fd.timer n ≠ .timer io.timers := fun h => hne (congrArg some h.symm)
    have hset : io₁.IsOpen n ↔ io.openTimer.1.IsOpen n :=
      (Changes.setTimer (T := (· = .timer io.timers)) (C := fun _ => False) rfl he).isOpen_iff id
        fun h => absurd h hne'
    exact hnew ((isOpen_setInner_of_ne _ _ hne').mp (hset.mp hopen))
  · obtain ⟨rfl, rfl⟩ := Prod.mk.inj (Option.some.inj e)
    exact absurd hopen hnew

end Io

/-! ### Steps -/

theorem St.coIoYield_cont (s : St) (t : Tid) (c : Cont) : (s.coIoYield t c).cont t = c :=
  Function.update_self ..

theorem St.coSyncYield_cont (s : St) (t : Tid) (c : Cont) : (s.coSyncYield t c).cont t = c :=
  Function.update_self ..

theorem St.mutexLoop_io (s : St) (t : Tid) (m : ℕ) (r : Ret) : (s.mutexLoop t m r).io = s.io := by
  unfold St.mutexLoop
  split <;> rfl

/-- What a step of the running task `t` does to the timers: it closes the one that the task holds, opens
the one that the task holds afterwards, and leaves the timer `lost` open. -/
structure TimerStep (s : St) (t : Tid) (lost : Option ℕ) (s' : St) : Prop where
  isOpen : ∀ n, s'.io.IsOpen n ↔ s.io.IsOpen n ∧ (s.cont t).timer ≠ some (.timer n) ∨
    (s'.cont t).timer = some (.timer n) ∨ lost = some n
  fresh : ∀ n, (s'.cont t).timer = some (.timer n) → ¬s.io.IsOpen n
  lost : ∀ n, lost = some n → (∀ m, (s'.cont t).timer ≠ some (.timer m)) ∧
    ((s.cont t).timer = some (.timer n) ∨ ¬s.io.IsOpen n)

namespace Safe

variable {s s' : St} {a : Act} {t : Tid} {n : ℕ}

theorem lt_timers (h : Safe s) (hn : s.io.IsOpen n) : n < s.io.timers := by
  obtain ⟨w, hw⟩ := h.tended
  exact not_le.mp fun hle => hn (hw.timers n hle)

/-- The timer of a suspended call is open. -/
theorem isOpen_of_timer (h : Safe s) (hn : (s.cont t).timer = some (.timer n)) : s.io.IsOpen n := by
  have hsound := h.sound t
  cases hc : s.cont t with
  | condWaitTill m tfd =>
      rw [hc] at hsound hn
      exact (hsound.2 _ hn).2
  | coPoll fds timed tfd =>
      rw [hc] at hsound hn
      exact (hsound.2 _ hn).2
  | eventPoll fd caller =>
      rw [hc] at hsound hn
      cases caller with
      | sleep =>
          obtain rfl := Option.some.inj hn
          exact hsound.1
      | user | timeoutTask => cases hn
  | user | mutexLock m r | condWait m | semWait i | broadcast ls | timeoutRead | timeoutList ls =>
      rw [hc] at hn
      cases hn

theorem timer_of_sleeping (h : Safe s) (hs : (s.cont t).sleeping = true) :
    ∃ n, (s.cont t).timer = some (.timer n) := by
  have hsound := h.sound t
  cases hc : s.cont t with
  | eventPoll fd caller =>
      rw [hc] at hs hsound
      cases caller with
      | user | timeoutTask => cases hs
      | sleep =>
          obtain ⟨n, rfl⟩ := hsound.2.1 rfl
          exact ⟨n, rfl⟩
  | user | mutexLock m r | condWait m | condWaitTill m tfd | semWait i | coPoll fds timed tfd
  | broadcast ls | timeoutRead | timeoutList ls =>
      rw [hc] at hs
      cases hs

/-- A timer that a step makes the running task hold is a new one. -/
theorem polls_of_timer (h : Safe s) (hp : s.q.phase = .running t) (e : Sched.step s a = some s')
    (hn : (s'.cont t).timer = some (.timer n)) : s.polls a (.timer n) := by
  obtain ⟨v, hf⟩ := h.formed
  rcases watches_step hf e (Cont.watches_of_timer hn) with ⟨-, hoff⟩ | ⟨-, hpoll⟩
  · exact absurd hp hoff
  · exact hpoll

/-- The step is one of the running task; it changes no other timer than the one the task held and a
new one. -/
theorem isOpen_frame (h : Safe s) (hp : s.q.phase = .running t) (e : Sched.step s a = some s')
    (hn : n < s.io.timers) (hheld : (s.cont t).timer ≠ some (.timer n)) :
    s'.io.IsOpen n ↔ s.io.IsOpen n := by
  obtain ⟨v, hf⟩ := h.formed
  obtain ⟨w, hw⟩ := h.tended
  obtain ⟨io, hio, hs'⟩ := (goes_step hf hw.rings (h.sound t) hp e).io
  have hclose : ¬s.closes a (.timer n) := by
    unfold St.closes
    rw [hp]
    cases a with
    | goOn read => simpa using hheld
    | user u =>
        cases u with
        | sleep k again ok => simpa using hn.ne
        | _ => exact id
    | timeoutRead r ok => simp
    | handlePrev | event fd ev | dispatch => exact id
  have hiff := hio.isOpen_iff hclose fun _ => hn
  rw [hs']
  split_ifs <;> exact hiff

/-- A task that holds a timer closes it when it goes on, unless it leaves `co_sleep` with -1. -/
theorem isOpen_goOn (h : Safe s) {read : Bool} (e : s.goOn t read = some s')
    (hn : (s.cont t).timer = some (.timer n)) :
    s'.io.IsOpen n ↔ (s.cont t).sleeping = true ∧ s'.ret t = .int (-1) := by
  have hopen := h.isOpen_of_timer hn
  unfold St.goOn at e
  cases hc : s.cont t with
  | condWaitTill m tfd =>
      rw [hc] at hn
      obtain rfl : tfd = some (.timer n) := hn
      simp only [hc] at e
      obtain ⟨-, e⟩ := Option.ite_none_left_eq_some.mp e
      obtain rfl := Option.some.inj e
      refine iff_of_false ?_ fun hs => Bool.false_ne_true hs.1
      rw [St.mutexLoop_io]
      exact s.io.not_isOpen_close n
  | coPoll fds timed tfd =>
      rw [hc] at hn
      obtain rfl : tfd = some (.timer n) := hn
      simp only [hc, St.coPollReturn] at e
      refine iff_of_false ?_ fun hs => Bool.false_ne_true hs.1
      cases hcol : (s.io.stopTimer (some (.timer n))).1.coPollCollect timed
          (s.io.stopTimer (some (.timer n))).2 [] 0 fds with
      | none => simp [hcol] at e
      | some x =>
          simp only [hcol] at e
          obtain rfl := Option.some.inj e
          have hkeep := (Io.Changes.coPollCollect (t := t) (T := fun fd => ∃ k, fd = .sock k)
            (C := fun _ => False) hcol fun p _ => ⟨p.fd, rfl⟩).isOpen_iff (n := n) id (by rintro ⟨k, ⟨⟩⟩)
          exact fun ho => s.io.not_isOpen_close n (hkeep.mp ho)
  | eventPoll fd caller =>
      rw [hc] at hn
      cases caller with
      | user | timeoutTask => cases hn
      | sleep =>
          obtain rfl : fd = .timer n := Option.some.inj hn
          simp only [hc] at e
          cases hret : s.io.eventPollReturn (.timer n) with
          | none => simp [hret] at e
          | some x =>
              obtain ⟨io', r⟩ := x
              simp only [hret, St.eventPollDone] at e
              obtain rfl := Option.some.inj e
              have hself : ∀ (s : St) (r : Ret), (s.callReturn t r).ret t = r :=
                fun s r => Function.update_self ..
              split_ifs
              · refine iff_of_false (io'.not_isOpen_close n) fun hs => ?_
                rw [hself] at hs
                cases hs.2
              · refine iff_of_true ?_ ⟨rfl, hself _ _⟩
                show io'.ifd (.timer n) ≠ none
                rwa [Io.eventPollReturn_ifd hret]
  | user | mutexLock m r | condWait m | semWait i | broadcast ls | timeoutRead | timeoutList ls =>
      rw [hc] at hn
      cases hn

/-- `co_sleep` opens one timer. -/
theorem isOpen_coSleep (hp : s.q.phase = .running t) {k : Io.TimerCall} {again ok : Bool}
    (e : s.coSleep t k again ok = some s') (hnew : ¬s.io.IsOpen n) (hopen : s'.io.IsOpen n) :
    n = s.io.timers := by
  by_contra hne
  obtain ⟨io, hio, hs'⟩ := (Goes.coSleep (T := (· = .timer s.io.timers)) (C := (· = .timer s.io.timers))
    hp rfl rfl e).io
  have hiff : io.IsOpen n ↔ s.io.IsOpen n :=
    hio.isOpen_iff (fun h => hne (Fd.timer.inj h)) fun h => absurd (Fd.timer.inj h) hne
  rw [hs'] at hopen
  exact hnew (hiff.mp hopen)

/-- After `co_sleep` the task holds the timer, has closed it, or has got -1 and left it open. -/
theorem coSleep_cases {k : Io.TimerCall} {again ok : Bool} (e : s.coSleep t k again ok = some s') :
    (s'.cont t).timer = some (.timer s.io.timers) ∨
      ¬s'.io.IsOpen s.io.timers ∧ s'.ret t = .int 0 ∨
      s'.io.IsOpen s.io.timers ∧ s'.cont t = .user ∧ s'.ret t = .int (-1) := by
  have hreturn : ∀ (s : St) (r : Ret), (s.callReturn t r).cont t = .user ∧ (s.callReturn t r).ret t = r :=
    fun s r => ⟨Function.update_self .., Function.update_self ..⟩
  unfold St.coSleep at e
  obtain ⟨-, e⟩ := Option.ite_none_right_eq_some.mp e
  dsimp only at e
  cases hset : s.io.openTimer.1.setTimer t s.io.openTimer.2 k.set k.added with
  | none => simp [hset] at e
  | some io =>
      have hopen : io.IsOpen s.io.timers := by
        refine ((Io.Changes.setTimer (T := fun _ => True) (C := fun _ => False) trivial hset).isOpen_iff id
          fun _ => Nat.lt_succ_self _).mpr ?_
        rw [Io.IsOpen, Io.openTimer, Io.setInner_self]
        exact Option.some_ne_none _
      simp only [hset] at e
      split_ifs at e
      · unfold St.eventPoll at e
        cases hpoll : io.eventPoll t s.io.openTimer.2 St.readEvents ok with
        | none => simp [hpoll] at e
        | some x =>
            obtain ⟨io', b⟩ := x
            cases b with
            | true =>
                simp only [hpoll] at e
                obtain rfl := Option.some.inj e
                refine .inl ?_
                rw [St.coIoYield_cont]
                rfl
            | false =>
                simp only [hpoll] at e
                obtain rfl := Option.some.inj e
                exact .inr (.inr ⟨Io.eventPoll_known hpoll, hreturn _ _⟩)
      · obtain rfl := Option.some.inj e
        exact .inr (.inl ⟨io.not_isOpen_close s.io.timers, (hreturn _ _).2⟩)
      · obtain rfl := Option.some.inj e
        exact .inr (.inr ⟨hopen, hreturn _ _⟩)

/-- A timer that a call opens and does not close is the one that the task holds afterwards, unless the
call is a `co_sleep` that returns -1. -/
theorem held_of_isOpen (h : Safe s) (hp : s.q.phase = .running t) {u : UserAct}
    (e : Sched.step s (.user u) = some s') (hle : s.io.timers ≤ n) (hopen : s'.io.IsOpen n) :
    (s'.cont t).timer = some (.timer n) ∨ n = s.io.timers ∧ sleepFails s (.user u) s' = true := by
  obtain ⟨v, hf⟩ := h.formed
  have hnew : ¬s.io.IsOpen n := fun hn => not_lt.mpr hle (h.lt_timers hn)
  -- a call that does not touch the timers
  have hframe : ¬u.touches s.io (.timer n) → False := by
    intro hno
    have hsame := ((step_frame hf e).1 (.timer n) (by unfold St.touches; rwa [hp])).1
    rw [Io.IsOpen, hsame] at hopen
    exact hnew hopen
  unfold Sched.step at e
  rw [hp] at e
  obtain ⟨-, e⟩ := Option.ite_none_right_eq_some.mp e
  cases u with
  | condWaitTill c m k =>
      obtain ⟨-, e⟩ := Option.ite_none_left_eq_some.mp e
      cases hk : s.io.startTimer t k with
      | none => simp [hk] at e
      | some x =>
          obtain ⟨io, tfd⟩ := x
          simp only [hk] at e
          obtain ⟨s₁, e₁, rfl⟩ := Option.map_eq_some_iff.mp e
          have hio : s₁.io = io := (Fds.coMutexUnlock_eq e₁).1
          have hstart := Io.isOpen_startTimer hk hnew (hio ▸ hopen)
          refine .inl ?_
          rw [St.coSyncYield_cont]
          exact hstart
  | coPoll fds timed k =>
      simp only [userAct, St.coPoll] at e
      cases hadd : s.io.coPollAdd t timed fds with
      | none => simp [hadd] at e
      | some io =>
          have hkeep := (Io.Changes.coPollAdd (T := fun fd => ∃ k, fd = .sock k) (C := fun _ => False) hadd
            fun p _ => ⟨p.1.fd, rfl⟩).isOpen_iff (n := n) id (by rintro ⟨k, ⟨⟩⟩)
          simp only [hadd] at e
          split_ifs at e
          · cases hk : io.startTimer t k with
            | none => simp [hk] at e
            | some x =>
                simp only [hk] at e
                obtain rfl := Option.some.inj e
                have hstart := Io.isOpen_startTimer hk (fun hn => hnew (hkeep.mp hn)) hopen
                refine .inl ?_
                rw [St.coIoYield_cont]
                exact hstart
          · obtain rfl := Option.some.inj e
            exact absurd (hkeep.mp hopen) hnew
  | sleep k again ok =>
      obtain rfl := isOpen_coSleep hp e hnew hopen
      rcases coSleep_cases e with hc | ⟨hclosed, -⟩ | ⟨-, hfail⟩
      · exact .inl hc
      · exact absurd hopen hclosed
      · refine .inr ⟨rfl, ?_⟩
        unfold sleepFails
        rw [hp]
        exact decide_eq_true hfail
  | create | yield | exit | lock m | tryLock m | unlock m | condWait c m | signal c | broadcast c
  | semWait i | semTryWait i | semPost i => exact (hframe id).elim
  | socket | listen k | eventPoll k events ok => exact (hframe nofun).elim

/-- A `co_sleep` that returns -1 at once has opened a timer. -/
theorem isOpen_of_fails (hp : s.q.phase = .running t) {u : UserAct}
    (e : Sched.step s (.user u) = some s') (hf : sleepFails s (.user u) s' = true) :
    s'.io.IsOpen s.io.timers ∧ s'.cont t = .user := by
  unfold sleepFails at hf
  unfold Sched.step at e
  rw [hp] at e hf
  cases u with
  | sleep k again ok =>
      obtain ⟨hcont, hret⟩ := of_decide_eq_true hf
      obtain ⟨-, e⟩ := Option.ite_none_right_eq_some.mp e
      rcases coSleep_cases e with hc | ⟨-, hzero⟩ | ⟨hopen, -⟩
      · rw [hcont] at hc
        cases hc
      · rw [hret] at hzero
        cases hzero
      · exact ⟨hopen, hcont⟩
  | create | yield | exit | lock m | tryLock m | unlock m | condWait c m | condWaitTill c m k | signal c
  | broadcast c | semWait i | semTryWait i | semPost i | socket | listen k | eventPoll k events ok
  | coPoll fds timed k => cases hf

/-- A task that goes on opens no timer. -/
theorem lt_timers_of_touches (h : Safe s) (ht : (s.cont t).touches s.io (.timer n)) :
    n < s.io.timers := by
  obtain ⟨w, hw⟩ := h.tended
  rcases ht with hwatch | ⟨ls, hc, hpeek⟩ | ⟨-, hwheel⟩
  · exact h.watched.timers t n hwatch
  · have hsound := h.sound t
    rw [hc] at hsound
    obtain ⟨-, -, rfl⟩ := hsound
    have hfirst : (w s.io.loc).head? = some (.timer n) := (first_eq hw.rings _).symm.trans hpeek
    have htask := hw.wheeled (.timer n) fun hfree => hfree _ (List.mem_of_head? hfirst)
    obtain ⟨r, hr⟩ := Io.taskOf_ne_none htask
    exact h.lt_timers (by rw [Io.IsOpen, hr]; exact Option.some_ne_none r)
  · cases hwheel

theorem not_isOpen_of_touches (h : Safe s) (e : Sched.step s a = some s') (hle : s.io.timers ≤ n)
    (ht : ¬s.touches a (.timer n)) : ¬s'.io.IsOpen n := by
  obtain ⟨v, hf⟩ := h.formed
  rw [Io.IsOpen, ((step_frame hf e).1 _ ht).1]
  exact fun hn => not_lt.mpr hle (h.lt_timers hn)

/-- The timers in question are the one that the task held and a new one. -/
theorem timerStep_of (h : Safe s) (hp : s.q.phase = .running t) (e : Sched.step s a = some s')
    {lost : Option ℕ} (hheld : ∀ n, (s.cont t).timer = some (.timer n) → (s'.io.IsOpen n ↔ lost = some n))
    (hnew : ∀ n, s.io.timers ≤ n → s'.io.IsOpen n →
      (s'.cont t).timer = some (.timer n) ∨ lost = some n)
    (hlost : ∀ n, lost = some n → s'.io.IsOpen n ∧ (∀ m, (s'.cont t).timer ≠ some (.timer m)) ∧
      ((s.cont t).timer = some (.timer n) ∨ ¬s.io.IsOpen n)) : TimerStep s t lost s' := by
  refine ⟨fun n => ⟨fun ho => ?_, ?_⟩, fun n hn ho => ?_, fun n hn => (hlost n hn).2⟩
  · by_cases hn : n < s.io.timers
    · by_cases hc : (s.cont t).timer = some (.timer n)
      · exact .inr (.inr ((hheld n hc).mp ho))
      · exact .inl ⟨(h.isOpen_frame hp e hn hc).mp ho, hc⟩
    · exact .inr (hnew n (not_lt.mp hn) ho)
  · rintro (⟨ho, hc⟩ | hc | hl)
    · exact (h.isOpen_frame hp e (h.lt_timers ho) hc).mpr ho
    · exact (h.step e).isOpen_of_timer hc
    · exact (hlost n hl).1
  · exact not_lt.mpr (timers_le_of_polls (h.polls_of_timer hp e hn)) (h.lt_timers ho)

theorem timerStep_goOn (h : Safe s) (hp : s.q.phase = .running t) {read : Bool}
    (e : Sched.step s (.goOn read) = some s') :
    ∃ lost : Option ℕ, lost.isSome = sleepFails s (.goOn read) s' ∧ TimerStep s t lost s' := by
  have hgo : s.goOn t read = some s' := by
    unfold Sched.step at e
    rwa [hp] at e
  have hnone : ∀ m, (s'.cont t).timer ≠ some (.timer m) := fun m hm =>
    (h.polls_of_timer hp e hm).elim
  have hclosed : ∀ n, s.io.timers ≤ n → ¬s'.io.IsOpen n := fun n hn =>
    h.not_isOpen_of_touches e hn fun ht => not_lt.mpr hn
      (h.lt_timers_of_touches (t := t) (by unfold St.touches at ht; rwa [hp] at ht))
  have hfails : sleepFails s (.goOn read) s' = true ↔
      (s.cont t).sleeping = true ∧ s'.ret t = .int (-1) := by
    unfold sleepFails
    rw [hp]
    simp
  cases hf : sleepFails s (.goOn read) s' with
  | false =>
      have hno : ¬((s.cont t).sleeping = true ∧ s'.ret t = .int (-1)) := by
        rw [← hfails, hf]
        exact Bool.false_ne_true
      refine ⟨none, rfl, h.timerStep_of hp e (fun n hn => ?_) (fun n hn ho => absurd ho (hclosed n hn))
        fun _ hn => nomatch hn⟩
      exact iff_of_false (fun ho => hno ((h.isOpen_goOn hgo hn).mp ho)) fun hn => nomatch hn
  | true =>
      have hs := hfails.mp hf
      obtain ⟨n, hn⟩ := h.timer_of_sleeping hs.1
      have hiff : ∀ m, (s.cont t).timer = some (.timer m) ↔ some n = some m := by
        intro m
        rw [hn, Option.some_inj, Fd.timer.injEq, Option.some_inj]
      refine ⟨some n, rfl, h.timerStep_of hp e (fun m hm => ?_)
        (fun m hm ho => absurd ho (hclosed m hm)) fun m hm => ?_⟩
      · exact iff_of_true ((h.isOpen_goOn hgo hm).mpr hs) ((hiff m).mp hm)
      · have hm := (hiff m).mpr hm
        exact ⟨(h.isOpen_goOn hgo hm).mpr hs, hnone, .inl hm⟩

theorem timerStep_user (h : Safe s) (hp : s.q.phase = .running t) {u : UserAct}
    (e : Sched.step s (.user u) = some s') :
    ∃ lost : Option ℕ, lost.isSome = sleepFails s (.user u) s' ∧ TimerStep s t lost s' := by
  have hheld : ∀ n, (s.cont t).timer ≠ some (.timer n) := by
    have e' := e
    unfold Sched.step at e'
    rw [hp] at e'
    rw [(Option.ite_none_right_eq_some.mp e').1]
    exact fun n hn => nomatch hn
  cases hf : sleepFails s (.user u) s' with
  | false =>
      refine ⟨none, rfl, h.timerStep_of hp e (fun n hn => absurd hn (hheld n)) (fun n hn ho => ?_)
        fun _ hn => nomatch hn⟩
      refine (h.held_of_isOpen hp e hn ho).imp id fun hfail => ?_
      exact absurd (hf.symm.trans hfail.2) Bool.false_ne_true
  | true =>
      obtain ⟨hopen, hcont⟩ := isOpen_of_fails hp e hf
      refine ⟨some s.io.timers, rfl, h.timerStep_of hp e (fun n hn => absurd hn (hheld n))
        (fun n hn ho => ?_) ?_⟩
      · exact (h.held_of_isOpen hp e hn ho).imp id fun hfail => congrArg some hfail.1.symm
      · rintro n ⟨⟩
        refine ⟨hopen, fun m hm => ?_, .inr fun ho => lt_irrefl _ (h.lt_timers ho)⟩
        rw [hcont] at hm
        cases hm

/-- What a step of the running task does to the timers; one is lost exactly if a `co_sleep` returns -1. -/
theorem timerStep (h : Safe s) (hp : s.q.phase = .running t) (e : Sched.step s a = some s') :
    ∃ lost : Option ℕ, lost.isSome = sleepFails s a s' ∧ TimerStep s t lost s' := by
  cases a with
  | goOn read => exact h.timerStep_goOn hp e
  | user u => exact h.timerStep_user hp e
  | timeoutRead r ok =>
      have hno : sleepFails s (.timeoutRead r ok) s' = false := by
        unfold sleepFails
        rw [hp]
      have ht : ∀ n, ¬s.touches (.timeoutRead r ok) (.timer n) := by
        unfold St.touches
        rw [hp]
        exact fun n hn => nomatch hn
      have hheld : ∀ n, (s.cont t).timer ≠ some (.timer n) := by
        have e' := e
        unfold Sched.step at e'
        rw [hp] at e'
        rw [(Option.ite_none_right_eq_some.mp e').1]
        exact fun n hn => nomatch hn
      refine ⟨none, hno.symm, h.timerStep_of hp e (fun n hn => absurd hn (hheld n)) (fun n hn ho => ?_)
        fun _ hn => nomatch hn⟩
      exact absurd ho (h.not_isOpen_of_touches e hn (ht n))
  | handlePrev | event fd ev | dispatch =>
      unfold Sched.step at e
      rw [hp] at e
      cases e

end Safe

/-! ### Runs -/

/-- The number of the timer that a call closes when it goes on. -/
def Cont.held (c : Cont) : Option ℕ :=
  match c.timer with
  | some (.timer n) => some n
  | _ => none

theorem Cont.held_eq_some {c : Cont} {n : ℕ} : c.held = some n ↔ c.timer = some (.timer n) := by
  unfold Cont.held
  split
  · rename_i m hm
    rw [hm, Option.some_inj, Option.some_inj, Fd.timer.injEq]
  · rename_i hne
    exact iff_of_false (fun h => nomatch h) (hne n)

/-- The open timers are lost, or held by one suspended call each. -/
structure Accounted (s : St) (lost : Finset ℕ) : Prop where
  owns : Owns (fun t => (s.cont t).held) {n | s.io.IsOpen n ∧ n ∉ lost}
  isOpen : ∀ n ∈ lost, s.io.IsOpen n

namespace Accounted

variable {s s' : St} {a : Act} {t : Tid} {lost : Finset ℕ}

theorem running (h : Accounted s lost) {o : Option ℕ} (ht : TimerStep s t o s')
    (hcont : ∀ u, u ≠ t → s'.cont u = s.cont u) : Accounted s' (lost ∪ o.toFinset) := by
  have hmem : ∀ n, n ∈ lost ∪ o.toFinset ↔ n ∈ lost ∨ o = some n := fun n => by
    rw [Finset.mem_union, Option.mem_toFinset, Option.mem_def]
  have hfresh : ∀ n, (s'.cont t).held = some n → ¬s.io.IsOpen n := fun n hn =>
    ht.fresh n (Cont.held_eq_some.mp hn)
  have hheld : (fun u => (s'.cont u).held) =
      Function.update (fun u => (s.cont u).held) t (s'.cont t).held := by
    funext u
    by_cases hut : u = t
    · rw [hut, Function.update_self]
    · rw [Function.update_of_ne hut, hcont u hut]
  refine ⟨?_, fun n hn => (ht.isOpen n).mpr ?_⟩
  · rw [hheld]
    convert h.owns.exchange t fun n hn hl => hfresh n hn hl.1 using 1
    ext n
    show s'.io.IsOpen n ∧ n ∉ lost ∪ o.toFinset ↔
      (s.io.IsOpen n ∧ n ∉ lost) ∧ ¬(s.cont t).held = some n ∨ (s'.cont t).held = some n
    rw [ht.isOpen n, hmem, not_congr Cont.held_eq_some, Cont.held_eq_some]
    constructor
    · rintro ⟨⟨ho, hne⟩ | hc | hl, hn⟩
      · exact .inl ⟨⟨ho, fun hl => hn (.inl hl)⟩, hne⟩
      · exact .inr hc
      · exact absurd (.inr hl) hn
    · rintro (⟨⟨ho, hl⟩, hne⟩ | hc)
      · refine ⟨.inl ⟨ho, hne⟩, ?_⟩
        rintro (hl' | hlost)
        · exact hl hl'
        · exact (ht.lost n hlost).2.elim hne fun hclosed => hclosed ho
      · refine ⟨.inr (.inl hc), ?_⟩
        rintro (hl | hlost)
        · exact ht.fresh n hc (h.isOpen n hl)
        · exact (ht.lost n hlost).1 n hc
  · rcases (hmem n).mp hn with hl | hlost
    · refine .inl ⟨h.isOpen n hl, fun hc => ?_⟩
      exact (h.owns.mem (Cont.held_eq_some.mpr hc)).2 hl
    · exact .inr (.inr hlost)

/-- The timer that a step loses was not lost before. -/
theorem disjoint_lost (h : Accounted s lost) {o : Option ℕ} (ht : TimerStep s t o s') :
    Disjoint lost o.toFinset := by
  rw [Finset.disjoint_right]
  intro n hn hl
  rcases (ht.lost n (Option.mem_toFinset.mp hn)).2 with hc | hclosed
  · exact (h.owns.mem (Cont.held_eq_some.mpr hc)).2 hl
  · exact hclosed (h.isOpen n hl)

/-- An event is reported for an open descriptor. -/
theorem lt_timers_of_event (hs : Safe s) (hoff : ∀ t, s.q.phase ≠ .running t) (e : step s a = some s')
    {n : ℕ} (ht : s.touches a (.timer n)) : n < s.io.timers := by
  unfold St.touches at ht
  unfold Sched.step at e
  cases hp : s.q.phase with
  | running t => exact absurd hp (hoff t)
  | handle t => simp only [hp] at ht
  | loop =>
      rw [hp] at ht e
      cases a with
      | event fd ev =>
          obtain rfl : Fd.timer n = fd := ht
          obtain ⟨-, r, hr, -⟩ := eventWait_eq e
          exact hs.lt_timers (by rw [Io.IsOpen, hr]; exact Option.some_ne_none r)
      | handlePrev | dispatch | goOn read | timeoutRead r ok | user u => exact ht.elim

theorem step (h : Accounted s lost) (hs : Safe s) (e : step s a = some s') :
    ∃ lost' : Finset ℕ, lost'.card = lost.card + (sleepFails s a s').toNat ∧ Accounted s' lost' := by
  by_cases hp : ∃ t, s.q.phase = .running t
  · obtain ⟨t, hp⟩ := hp
    obtain ⟨v, hf⟩ := hs.formed
    obtain ⟨o, ho, ht⟩ := hs.timerStep hp e
    refine ⟨lost ∪ o.toFinset, ?_, h.running ht fun u hut => ?_⟩
    · rw [Finset.card_union_of_disjoint (h.disjoint_lost ht), ← ho]
      cases o <;> rfl
    · exact (step_frame hf e).2.1 u fun hc => hut (Phase.running.inj (hc.symm.trans hp))
  · have hoff : ∀ t, s.q.phase ≠ .running t := fun t ht => hp ⟨t, ht⟩
    obtain ⟨hcont, -, -, hio⟩ := changes_of_loop hoff e
    have hno : sleepFails s a s' = false := by
      unfold sleepFails
      split
      · exact absurd ‹_› (hoff _)
      · exact absurd ‹_› (hoff _)
      · rfl
    have hopen : ∀ n, s'.io.IsOpen n ↔ s.io.IsOpen n := fun n =>
      hio.isOpen_iff id (lt_timers_of_event hs hoff e)
    refine ⟨lost, by rw [hno]; rfl, ?_, fun n hn => (hopen n).mpr (h.isOpen n hn)⟩
    simp only [hopen, hcont]
    exact h.owns

/-- The open timers are the timers of the suspended calls and the lost ones. -/
theorem card (h : Accounted s lost) (hs : Safe s) :
    {n | s.io.IsOpen n}.ncard = {t | (s.cont t).timer ≠ none}.ncard + lost.card := by
  have hsplit : {n | s.io.IsOpen n} = {n | s.io.IsOpen n ∧ n ∉ lost} ∪ lost := by
    ext n
    show s.io.IsOpen n ↔ s.io.IsOpen n ∧ n ∉ lost ∨ n ∈ lost
    by_cases hl : n ∈ lost
    · exact iff_of_true (h.isOpen n hl) (.inr hl)
    · simp [hl]
  have hdisjoint : Disjoint {n | s.io.IsOpen n ∧ n ∉ lost} (lost : Set ℕ) :=
    Set.disjoint_left.mpr fun n hn hl => hn.2 hl
  have hfinite : {n | s.io.IsOpen n ∧ n ∉ lost}.Finite :=
    (Set.finite_lt_nat s.io.timers).subset fun n hn => hs.lt_timers hn.1
  have hheld : ∀ t, (s.cont t).held ≠ none ↔ (s.cont t).timer ≠ none := by
    intro t
    rw [Option.ne_none_iff_exists', Option.ne_none_iff_exists']
    constructor
    · rintro ⟨n, hn⟩
      exact ⟨_, Cont.held_eq_some.mp hn⟩
    · rintro ⟨fd, hfd⟩
      obtain ⟨n, rfl⟩ := (hs.sound t).timer hfd
      exact ⟨n, Cont.held_eq_some.mpr hfd⟩
  rw [hsplit, Set.ncard_union_eq hdisjoint hfinite lost.finite_toSet, Set.ncard_coe_finset,
    h.owns.ncard_eq]
  simp only [hheld]

end Accounted

end Libcask.Sched
