import Libcask.IoChanges

/-! # Where a suspended call stands

`Cont.Sound` says what a task inside a call of the library can rely on when it goes on: the records of
the descriptors it waits for still exist, the mutex it locks again is not its own, and the variable `ls`
of a loop over a list is the first node of what is left of that list.  `Goes` says what one step of the
running task does to it and to the descriptors, with one lemma for each call (`goes_step` for all of
them). -/

namespace Libcask.Sched

/-- The timer that a call closes when it goes on. -/
def Cont.timer : Cont → Option Fd
  | .condWaitTill _ tfd | .coPoll _ _ tfd => tfd
  | .eventPoll fd .sleep => some fd
  | _ => none

/-- The timer of a call is one of `timer.c`, and is open. -/
def Io.TimerOpen (io : Io) (tfd : Option Fd) : Prop :=
  ∀ fd, tfd = some fd → (∃ n, fd = .timer n) ∧ io.ifd fd ≠ none

/-- What the task `t` relies on when it goes on. -/
def Cont.Sound (s : St) (t : Tid) : Cont → Prop
  | .condWait m => s.lock m ≠ some t
  | .condWaitTill m tfd => s.lock m ≠ some t ∧ s.io.TimerOpen tfd
  | .eventPoll fd caller => s.io.ifd fd ≠ none ∧ (caller = .sleep → ∃ n, fd = .timer n) ∧
      (caller = .timeoutTask → fd = .wheelTimer)
  | .coPoll fds _ tfd => (∀ p ∈ fds, s.io.ifd (.sock p.fd) ≠ none) ∧ s.io.TimerOpen tfd
  | .broadcast ls => s.q.phase = .running t ∧ ∃ c, ls = listNext s.q.links (.head (.condWait c))
  | .timeoutRead => s.io.ifd .wheelTimer ≠ none
  | .timeoutList ls => s.q.phase = .running t ∧ s.io.ifd .wheelTimer ≠ none ∧
      ls = listNext s.io.wheel (.head s.io.loc)
  | .user | .mutexLock _ _ | .semWait _ => True

/-- The step turns the time wheel. -/
def St.ticks (s : St) (a : Act) : Bool :=
  match s.q.phase, a with
  | .running _, .timeoutRead .full _ => true
  | .running t, .goOn read =>
      match s.cont t with
      | .eventPoll fd .timeoutTask => read && (s.io.ifd fd).any fun r => Io.pollResult r.error = .ok
      | _ => false
  | _, _ => false

/-- The descriptors that a step may close. -/
def St.closes (s : St) (a : Act) (fd : Fd) : Prop :=
  match s.q.phase, a with
  | .running t, .goOn _ => (s.cont t).timer = some fd ∨ (s.cont t).timeoutTask = true ∧ fd = .wheelTimer
  | .running _, .timeoutRead _ _ => fd = .wheelTimer
  | .running _, .user (.sleep _ _ _) => fd = .timer s.io.timers
  | _, _ => False

/-- What a call of the running task `t` does to the descriptors and the mutexes, and what it relies on
afterwards. -/
structure Goes (s : St) (t : Tid) (T C : Fd → Prop) (tick : Bool) (s' : St) : Prop where
  io : ∃ io, Io.Changes t T C s.io io ∧ s'.io = if tick then io.wheelRotate else io
  lock : ∀ m u, u ≠ t → s'.lock m = some u → s.lock m = some u
  sound : (s'.cont t).Sound s' t

/-! ### The records that the calls leave -/

namespace Io

variable {io io' : Io} {t : Tid} {fd : Fd}

theorem eventPoll_known {events : Events} {ok b : Bool}
    (e : io.eventPoll t fd events ok = some (io', b)) : io'.ifd fd ≠ none := by
  unfold Io.eventPoll at e
  cases hr : io.ifd fd with
  | none => simp [hr] at e
  | some r =>
      rw [hr] at e
      have hself := io.setInner_self fd { r with error := ieNone, task := some t }
      cases ok with
      | true =>
          obtain ⟨rfl, -⟩ := Prod.mk.inj (Option.some.inj e)
          rw [(wheelUpdateElement_frame ..).1, addEvents_ifd, hself]
          exact Option.some_ne_none _
      | false =>
          obtain ⟨rfl, -⟩ := Prod.mk.inj (Option.some.inj e)
          show (io.setInner fd { r with error := ieNone, task := some t }).ifd fd ≠ none
          rw [hself]
          exact Option.some_ne_none _

theorem eventPollReturn_result {r : PollResult} (e : io.eventPollReturn fd = some (io', r)) :
    ∃ r₀, io.ifd fd = some r₀ ∧ r = pollResult r₀.error := by
  unfold Io.eventPollReturn at e
  cases hr : io.ifd fd with
  | none => simp [hr] at e
  | some r₀ =>
      rw [hr] at e
      exact ⟨r₀, rfl, (Prod.mk.inj (Option.some.inj e)).2.symm⟩

theorem startTimer_open {k : TimerCall} {tfd : Option Fd} (e : io.startTimer t k = some (io', tfd)) :
    io'.TimerOpen tfd := by
  unfold Io.startTimer at e
  split_ifs at e
  · obtain ⟨io₁, he, h1⟩ := Option.map_eq_some_iff.mp e
    obtain ⟨rfl, rfl⟩ := Prod.mk.inj h1
    rintro fd ⟨⟩
    refine ⟨⟨_, rfl⟩, (Changes.setTimer (T := fun _ => True) (C := fun _ => False) trivial he).known id ?_⟩
    show Function.update io.ifd (.timer io.timers) (some _) (.timer io.timers) ≠ none
    rw [Function.update_self]
    exact Option.some_ne_none _
  · obtain ⟨-, rfl⟩ := Prod.mk.inj (Option.some.inj e)
    exact fun _ h => nomatch h

theorem coPollAdd_known {timed : Bool} : ∀ {fds : List (PollFd × Bool)} {io : Io},
    io.coPollAdd t timed fds = some io' → ∀ p ∈ fds, io'.ifd (.sock p.1.fd) ≠ none
  | [], _, _, p, hp => absurd hp List.not_mem_nil
  | (p, ok) :: fds, io, e, x, hx => by
      have hchanges : ∀ {io₁ : Io}, io₁.coPollAdd t timed fds = some io' →
          io₁.ifd (.sock p.fd) ≠ none → io'.ifd (.sock p.fd) ≠ none := fun e =>
        (Changes.coPollAdd (T := fun _ => True) (C := fun _ => False) e fun _ _ => trivial).known id
      unfold Io.coPollAdd at e
      cases hr : io.ifd (.sock p.fd) with
      | none => simp [hr] at e
      | some r =>
          rw [hr] at e
          dsimp only at e
          rcases List.mem_cons.mp hx with rfl | hx
          · refine hchanges e ?_
            have hself : ((io.setInner (.sock p.fd) { r with task := some t, error := ieNone }).addEvents
                (.sock p.fd) p.events ok).ifd (.sock p.fd) ≠ none := by
              rw [addEvents_ifd, setInner_self]
              exact Option.some_ne_none _
            split_ifs
            · exact hself
            · rwa [(wheelUpdateElement_frame ..).1]
          · exact coPollAdd_known e x hx

end Io

namespace Goes

open Queues

variable {s s' : St} {v : View Head Tid} {t : Tid} {T C : Fd → Prop} {tick : Bool}

/-- The mutexes after `Function.update`: a mutex that another task holds was its own before. -/
theorem lock_update (lock : ℕ → Option Tid) (m : ℕ) {o : Option Tid} (ho : ∀ u, o = some u → u = t)
    (m' : ℕ) (u : Tid) (hu : u ≠ t) (h : Function.update lock m o m' = some u) : lock m' = some u := by
  by_cases hm : m' = m
  · subst hm
    rw [Function.update_self] at h
    exact absurd (ho u h) hu
  · rwa [Function.update_of_ne hm] at h

/-- A call that leaves the wheel where it is. -/
theorem of_changes {c : Cont} (hio : Io.Changes t T C s.io s'.io)
    (hlock : ∀ m u, u ≠ t → s'.lock m = some u → s.lock m = some u)
    (hcont : s'.cont = Function.update s.cont t c) (hc : c.Sound s' t) : Goes s t T C false s' := by
  refine ⟨⟨s'.io, hio, rfl⟩, hlock, ?_⟩
  rwa [hcont, Function.update_self]

/-- A call that leaves the descriptors and the mutexes alone. -/
theorem quiet {c : Cont} (hio : s'.io = s.io) (hlock : s'.lock = s.lock)
    (hcont : s'.cont = Function.update s.cont t c) (hc : c.Sound s' t) : Goes s t T C false s' :=
  of_changes (hio ▸ .refl) (fun _ _ _ h => hlock ▸ h) hcont hc

/-- The call begins with a change of the descriptors. -/
theorem of_io {io : Io} (hio : Io.Changes t T C s.io io) (h : Goes { s with io := io } t T C tick s') :
    Goes s t T C tick s' := by
  obtain ⟨⟨io', h1, h2⟩, hlock, hsound⟩ := h
  exact ⟨⟨io', hio.trans h1, h2⟩, hlock, hsound⟩

theorem mutexLoop (s : St) (t : Tid) (m : ℕ) (r : Ret) : Goes s t T C false (s.mutexLoop t m r) := by
  unfold St.mutexLoop
  cases s.lock m with
  | none =>
      exact of_changes .refl (lock_update _ _ fun _ h => (Option.some.inj h).symm) rfl trivial
  | some u => exact quiet rfl rfl rfl trivial

theorem coMutexLock {m : ℕ} {r : Ret} (e : s.coMutexLock t m r = some s') : Goes s t T C false s' := by
  obtain ⟨-, e⟩ := Option.ite_none_left_eq_some.mp e
  obtain rfl := Option.some.inj e
  exact mutexLoop s t m r

/-- The first part of the two calls that wait on a condition: the mutex is not locked afterwards. -/
theorem condWait {q : Queues} {io : Io} (hio : Io.Changes t T C s.io io) {m : ℕ} {k : Cont}
    (hk : ∀ s' : St, s'.io = io → s'.lock m = none → k.Sound s' t) {s₁ : St}
    (e : St.coMutexUnlock { s with q := q, io := io } t m = some s₁) :
    Goes s t T C false (s₁.coSyncYield t k) := by
  obtain ⟨-, e⟩ := Option.ite_none_right_eq_some.mp e
  obtain rfl := Option.some.inj e
  exact of_changes hio (lock_update _ _ fun _ h => nomatch h) rfl (hk _ rfl (Function.update_self ..))

theorem coSemWait (s : St) (t : Tid) (i : ℕ) : Goes s t T C false (s.coSemWait t i) := by
  unfold St.coSemWait
  dsimp only
  split_ifs <;> exact quiet rfl rfl rfl trivial

theorem coSemTryWait (s : St) (t : Tid) (i : ℕ) : Goes s t T C false (s.coSemTryWait t i) := by
  unfold St.coSemTryWait
  dsimp only
  split_ifs <;> exact quiet rfl rfl rfl trivial

theorem coSemPost (s : St) (t : Tid) (i : ℕ) : Goes s t T C false (s.coSemPost t i) := by
  unfold St.coSemPost
  dsimp only
  split_ifs <;> exact quiet rfl rfl rfl trivial

/-- One pass of the loop over the waiters of a condition: `ls` goes on to the first one that is left. -/
theorem broadcastLoop (hr : Control s.q v t) {ls : Node Head Tid} (hls : (Cont.broadcast ls).Sound s t)
    (e : s.broadcastLoop t ls = some s') : Goes s t T C false s' := by
  rcases broadcastLoop_eq e with ⟨-, rfl⟩ | ⟨hempty, u, rfl, rfl⟩
  · exact quiet rfl rfl rfl trivial
  · obtain ⟨hp, c, hc⟩ := hls
    have hR := hr.listed.rings
    obtain ⟨rest, hl, hnext⟩ := hR.next_of_first hc.symm
    have hR' := rings_rrEnqueue (rings_delete hR u) Head.runList u
    -- the waiter has left its list when it is put on the run queue
    have hview : rrEnqueue Head.runList (ListOps.delete v u) u (.condWait c) = rest := by
      show Function.update ((v.delete u).delete u) .runList
        (u :: ((v.delete u) .runList).erase u) (.condWait c) = rest
      rw [Function.update_of_ne (by simp), View.delete_of_free (View.free_delete hR.ok u), View.delete,
        hl, List.erase_cons_head]
    refine quiet rfl rfl rfl ⟨hp, c, ?_⟩
    show s.q.links.next (.elem u) = _
    rw [hnext, ← hview]
    exact (hR'.next_head_cursor _).symm

/-! #### Descriptors -/

theorem timeoutTick (hp : s.q.phase = .running t) (hw : s.io.ifd .wheelTimer ≠ none) :
    Goes s t T C true (s.timeoutTick t) := by
  refine ⟨⟨s.io, .refl, rfl⟩, fun _ _ _ => id, ?_⟩
  show (Function.update s.cont t _ t).Sound _ t
  rw [Function.update_self]
  exact ⟨hp, hw, rfl⟩

theorem timeoutExit (hT : T .wheelTimer) (hC : C .wheelTimer) : Goes s t T C false (s.timeoutExit t) :=
  of_changes (.single (.close s.io hT hC)) (fun _ _ _ => id) rfl trivial

/-- One pass of the inner loop of the timeout task: `ls` goes on to the first descriptor that is left
in the slot. -/
theorem timeoutLoop {w : View ℕ Fd} (hR : Rings s.io.wheel w) {ls : Node ℕ Fd}
    (hT : ∀ fd, listPeek s.io.wheel ls = some fd → T fd) (hls : (Cont.timeoutList ls).Sound s t)
    (e : s.timeoutLoop t ls = some s') : Goes s t T C false s' := by
  obtain ⟨hp, hw, hc⟩ := hls
  rcases timeoutLoop_eq e with ⟨-, rfl⟩ | ⟨hempty, fd, r, u, rfl, hr, -, rfl⟩
  · exact quiet rfl rfl rfl hw
  · obtain ⟨rest, hl, hnext⟩ := hR.next_of_first hc.symm
    have hpeek : T fd := hT fd (by rw [listPeek, hempty]; rfl)
    have h1 : Io.Changes t T C s.io _ := .tail (.single (.record
      { r with error := { r.error with timeout := true } } hpeek hr (.inl rfl))) (.unlink _ hpeek)
    refine of_changes h1 (fun _ _ _ => id) rfl ⟨hp, ?_, ?_⟩
    · show Function.update s.io.ifd fd _ .wheelTimer ≠ none
      rw [Function.update_apply]
      split_ifs
      · exact Option.some_ne_none _
      · exact hw
    · have hR' := rings_delete hR fd
      have hview : View.delete w fd s.io.loc = rest := by
        rw [View.delete, hl, List.erase_cons_head]
      show s.io.wheel.next (.elem fd) = _
      rw [hnext, ← hview]
      exact (hR'.next_head_cursor _).symm

theorem eventPollDone (fd : Fd) (r : Io.PollResult) (read : Bool) (caller : Caller)
    (hp : s.q.phase = .running t) (hfd : caller = .sleep → T fd ∧ C fd)
    (hw : caller = .timeoutTask → T .wheelTimer ∧ C .wheelTimer ∧ s.io.ifd .wheelTimer ≠ none) :
    Goes s t T C (decide (caller = .timeoutTask ∧ r = .ok ∧ read = true))
      (s.eventPollDone t fd r read caller) := by
  unfold St.eventPollDone
  cases caller with
  | user => exact quiet rfl rfl rfl trivial
  | sleep =>
      dsimp only
      split_ifs
      · exact of_changes (.single (.close s.io (hfd rfl).1 (hfd rfl).2)) (fun _ _ _ => id) rfl trivial
      · exact quiet rfl rfl rfl trivial
  | timeoutTask =>
      obtain ⟨hT, hC, hknown⟩ := hw rfl
      dsimp only
      split_ifs with hok
      · rw [decide_eq_true ⟨rfl, hok⟩]
        exact timeoutTick hp hknown
      · rw [decide_eq_false fun h => hok h.2]
        exact timeoutExit hT hC

theorem eventPoll {fd : Fd} (hp : s.q.phase = .running t) (hfd : T fd) {events : Events} {ok : Bool}
    {caller : Caller} (hsleep : caller = .sleep → C fd ∧ ∃ n, fd = .timer n)
    (hw : caller = .timeoutTask → C .wheelTimer ∧ fd = .wheelTimer)
    (e : s.eventPoll t fd events ok caller = some s') : Goes s t T C false s' := by
  unfold St.eventPoll at e
  cases hpoll : s.io.eventPoll t fd events ok with
  | none => simp [hpoll] at e
  | some x =>
      obtain ⟨io', b⟩ := x
      have hknown := Io.eventPoll_known hpoll
      refine of_io (.eventPoll hfd hpoll) ?_
      cases b with
      | true =>
          simp only [hpoll] at e
          obtain rfl := Option.some.inj e
          exact quiet rfl rfl rfl ⟨hknown, fun h => (hsleep h).2, fun h => (hw h).2⟩
      | false =>
          simp only [hpoll] at e
          obtain rfl := Option.some.inj e
          have hdone := eventPollDone (s := { s with io := io' }) (T := T) (C := C) fd .failed false
            caller hp (fun h => ⟨hfd, (hsleep h).1⟩) fun h => ?_
          · simpa using hdone
          · obtain ⟨hC, rfl⟩ := hw h
            exact ⟨hfd, hC, hknown⟩

theorem coSleep (hp : s.q.phase = .running t) {k : Io.TimerCall} {again ok : Bool}
    (hT : T (.timer s.io.timers)) (hC : C (.timer s.io.timers))
    (e : s.coSleep t k again ok = some s') : Goes s t T C false s' := by
  unfold St.coSleep at e
  obtain ⟨-, e⟩ := Option.ite_none_right_eq_some.mp e
  dsimp only at e
  cases hset : s.io.openTimer.1.setTimer t s.io.openTimer.2 k.set k.added with
  | none => simp [hset] at e
  | some io' =>
      have hio : Io.Changes t T C s.io io' :=
        .trans (.single (.openTimer s.io hT)) (Io.Changes.setTimer hT hset)
      refine of_io hio ?_
      simp only [hset] at e
      split_ifs at e
      · exact eventPoll (s := { s with io := io' }) hp hT (fun _ => ⟨hC, _, rfl⟩) (by rintro ⟨⟩) e
      · obtain rfl := Option.some.inj e
        exact of_changes (.single (.close io' hT hC)) (fun _ _ _ => id) rfl trivial
      · obtain rfl := Option.some.inj e
        exact quiet rfl rfl rfl trivial

theorem coPoll {fds : List (PollFd × Bool)} {timed : Bool} {k : Io.TimerCall}
    (hfds : ∀ p ∈ fds, T (.sock p.1.fd)) (hT : ∀ n, s.io.timers ≤ n → T (.timer n))
    (e : s.coPoll t fds timed k = some s') : Goes s t T (fun _ => False) false s' := by
  unfold St.coPoll at e
  cases hadd : s.io.coPollAdd t timed fds with
  | none => simp [hadd] at e
  | some io' =>
      simp only [hadd] at e
      have h1 : Io.Changes t T (fun _ => False) s.io io' := .coPollAdd hadd hfds
      have hknown : ∀ p ∈ fds.map Prod.fst, io'.ifd (.sock p.fd) ≠ none := by
        intro p hp
        obtain ⟨x, hx, rfl⟩ := List.mem_map.mp hp
        exact Io.coPollAdd_known hadd x hx
      split_ifs at e
      · cases hk : io'.startTimer t k with
        | none => simp [hk] at e
        | some x =>
            obtain ⟨io'', tfd⟩ := x
            simp only [hk] at e
            obtain rfl := Option.some.inj e
            have h2 : Io.Changes t T (fun _ => False) io' io'' :=
              .startTimer (hT _ (Io.Upd.coPollAdd (T := fun _ => True) hadd fun _ _ => trivial).timers) hk
            exact of_changes (h1.trans h2) (fun _ _ _ => id) rfl
              ⟨fun p hp => h2.known id (hknown p hp), Io.startTimer_open hk⟩
      · obtain rfl := Option.some.inj e
        exact of_changes h1 (fun _ _ _ => id) rfl ⟨hknown, fun _ h => nomatch h⟩

theorem coPollReturn {fds : List PollFd} {timed : Bool} {tfd : Option Fd}
    (hfds : ∀ p ∈ fds, T (.sock p.fd)) (htfd : ∀ fd, tfd = some fd → T fd ∧ C fd)
    (e : s.coPollReturn t fds timed tfd = some s') : Goes s t T C false s' := by
  unfold St.coPollReturn at e
  dsimp only at e
  have h1 : Io.Changes t T C s.io (s.io.stopTimer tfd).1 := .stopTimer htfd
  cases hcol : (s.io.stopTimer tfd).1.coPollCollect timed (s.io.stopTimer tfd).2 [] 0 fds with
  | none => simp [hcol] at e
  | some x =>
      obtain ⟨io', array, j⟩ := x
      simp only [hcol] at e
      obtain rfl := Option.some.inj e
      exact of_changes (h1.trans (Io.Changes.coPollCollect hcol hfds)) (fun _ _ _ => id) rfl trivial

theorem userAct (hp : s.q.phase = .running t) (hc : s.cont t = .user) {u : UserAct}
    (e : userAct s t u = some s') :
    Goes s t (u.touches s.io) (s.closes (.user u)) false s' := by
  have hsame : Function.update s.cont t .user = s.cont := by
    rw [← hc, Function.update_eq_self]
  cases u with
  | create | yield | exit =>
      obtain rfl := Option.some.inj e
      exact quiet rfl rfl hsame.symm trivial
  | lock m => exact coMutexLock e
  | tryLock m =>
      obtain rfl := Option.some.inj e
      unfold St.coMutexTryLock
      cases s.lock m with
      | none => exact of_changes .refl (lock_update _ _ fun _ h => (Option.some.inj h).symm) rfl trivial
      | some u => exact quiet rfl rfl rfl trivial
  | unlock m =>
      obtain ⟨-, e⟩ := Option.ite_none_right_eq_some.mp e
      obtain rfl := Option.some.inj e
      exact of_changes .refl (lock_update _ _ fun _ h => nomatch h) hsame.symm trivial
  | condWait c m =>
      obtain ⟨-, e⟩ := Option.ite_none_left_eq_some.mp e
      obtain ⟨s₁, e₁, rfl⟩ := Option.map_eq_some_iff.mp e
      refine condWait .refl (fun s' _ hl => ?_) e₁
      simp [Cont.Sound, hl]
  | condWaitTill c m k =>
      obtain ⟨-, e⟩ := Option.ite_none_left_eq_some.mp e
      cases hk : s.io.startTimer t k with
      | none => simp [hk] at e
      | some x =>
          obtain ⟨io', tfd⟩ := x
          simp only [hk] at e
          obtain ⟨s₁, e₁, rfl⟩ := Option.map_eq_some_iff.mp e
          refine condWait (k := .condWaitTill m tfd) (.startTimer ⟨_, le_rfl, rfl⟩ hk)
            (fun s' hio hl => ⟨?_, ?_⟩) e₁
          · simp [hl]
          · rw [hio]
            exact Io.startTimer_open hk
  | signal c =>
      obtain rfl := Option.some.inj e
      exact quiet rfl rfl rfl trivial
  | broadcast c =>
      obtain rfl := Option.some.inj e
      exact quiet rfl rfl rfl ⟨hp, c, rfl⟩
  | semWait i =>
      obtain rfl := Option.some.inj e
      exact coSemWait s t i
  | semTryWait i =>
      obtain rfl := Option.some.inj e
      exact coSemTryWait s t i
  | semPost i =>
      obtain rfl := Option.some.inj e
      exact coSemPost s t i
  | socket =>
      obtain rfl := Option.some.inj e
      exact of_changes (.single (.socket s.io rfl)) (fun _ _ _ => id) hsame.symm trivial
  | listen n =>
      unfold Sched.userAct at e
      dsimp only at e
      cases hr : s.io.ifd (.sock n) with
      | none =>
          simp only [hr] at e
          obtain rfl := Option.some.inj e
          exact quiet rfl rfl hsame.symm trivial
      | some r =>
          simp only [hr] at e
          obtain rfl := Option.some.inj e
          exact of_changes (.single (.record _ rfl hr (.inl rfl))) (fun _ _ _ => id) hsame.symm trivial
  | eventPoll n events ok => exact eventPoll hp rfl (by rintro ⟨⟩) (by rintro ⟨⟩) e
  | coPoll fds timed k =>
      have hno : s.closes (.user (.coPoll fds timed k)) = fun _ => False := by
        funext fd
        unfold St.closes
        rw [hp]
      rw [hno]
      exact coPoll (fun p hp => .inl ⟨p, hp, rfl⟩) (fun n hn => .inr ⟨n, hn, rfl⟩) e
  | sleep k again ok =>
      refine coSleep hp ⟨_, le_rfl, rfl⟩ ?_ e
      unfold St.closes
      rw [hp]

theorem timeoutRead (hp : s.q.phase = .running t) (hknown : s.io.ifd .wheelTimer ≠ none) {ok : Bool}
    {r : ReadResult} (e : timeoutRead s t ok r = some s') :
    Goes s t (· = .wheelTimer) (· = .wheelTimer) (decide (r = .full)) s' := by
  cases r with
  | full =>
      obtain rfl := Option.some.inj e
      exact timeoutTick hp hknown
  | again => exact eventPoll hp rfl (by rintro ⟨⟩) (fun _ => ⟨rfl, rfl⟩) e
  | error =>
      obtain rfl := Option.some.inj e
      exact timeoutExit rfl rfl

theorem goOn (hr : Control s.q v t) {w : View ℕ Fd} (hR : Rings s.io.wheel w)
    (hsound : (s.cont t).Sound s t) {read : Bool} (e : s.goOn t read = some s') :
    Goes s t ((s.cont t).touches s.io) (s.closes (.goOn read)) (s.ticks (.goOn read)) s' := by
  have hp := hr.phase
  have hcl : s.closes (.goOn read) = fun fd =>
      (s.cont t).timer = some fd ∨ (s.cont t).timeoutTask = true ∧ fd = .wheelTimer := by
    funext fd
    unfold St.closes
    rw [hp]
  have htick : s.ticks (.goOn read) = match s.cont t with
      | .eventPoll fd .timeoutTask => read && (s.io.ifd fd).any fun r => Io.pollResult r.error = .ok
      | _ => false := by
    unfold St.ticks
    rw [hp]
  rw [hcl, htick]
  unfold St.goOn at e
  cases hc : s.cont t with
  | user | timeoutRead => simp [hc] at e
  | mutexLock m r =>
      simp only [hc] at e
      obtain rfl := Option.some.inj e
      exact mutexLoop s t m r
  | condWait m =>
      simp only [hc] at e
      exact coMutexLock e
  | condWaitTill m tfd =>
      simp only [hc] at e
      exact of_io (.stopTimer fun fd h => ⟨.inl h, .inl h⟩) (coMutexLock e)
  | semWait i =>
      simp only [hc] at e
      obtain rfl := Option.some.inj e
      exact coSemWait s t i
  | eventPoll fd caller =>
      rw [hc] at hsound
      obtain ⟨hknown, hsleep, hwheel⟩ := hsound
      simp only [hc] at e
      cases hret : s.io.eventPollReturn fd with
      | none => simp [hret] at e
      | some x =>
          obtain ⟨io', r⟩ := x
          simp only [hret] at e
          obtain rfl := Option.some.inj e
          have hifd := Io.eventPollReturn_ifd hret
          obtain ⟨r₀, hr₀, rfl⟩ := Io.eventPollReturn_result hret
          refine of_io (.eventPollReturn (.inl rfl) hret) ?_
          have hdone := eventPollDone (s := { s with io := io' })
            (T := (Cont.eventPoll fd caller).touches s.io)
            (C := fun fd' => (Cont.eventPoll fd caller).timer = some fd' ∨
              (Cont.eventPoll fd caller).timeoutTask = true ∧ fd' = .wheelTimer)
            fd (Io.pollResult r₀.error) read caller hp ?_ ?_
          · cases caller with
            | user | sleep => simpa using hdone
            | timeoutTask => simpa [hr₀, and_comm] using hdone
          · rintro rfl
            exact ⟨.inl rfl, .inl rfl⟩
          · rintro rfl
            obtain rfl := hwheel rfl
            exact ⟨.inl rfl, .inr ⟨rfl, rfl⟩, hifd ▸ hknown⟩
  | coPoll fds timed tfd =>
      simp only [hc] at e
      exact coPollReturn (fun p hp => .inl (.inl ⟨p, hp, rfl⟩)) (fun fd h => ⟨.inl (.inr h), .inl h⟩) e
  | broadcast ls =>
      rw [hc] at hsound
      simp only [hc] at e
      exact broadcastLoop hr hsound e
  | timeoutList ls =>
      rw [hc] at hsound
      simp only [hc] at e
      exact timeoutLoop hR (fun fd h => .inr (.inl ⟨ls, rfl, h⟩)) hsound e

end Goes

/-- A step of the running task. -/
theorem goes_step {s s' : St} {v : View Head Tid} {w : View ℕ Fd} {a : Act} {t : Tid} (hf : Formed s v)
    (hR : Rings s.io.wheel w) (hsound : (s.cont t).Sound s t) (hp : s.q.phase = .running t)
    (e : step s a = some s') : Goes s t (s.touches a) (s.closes a) (s.ticks a) s' := by
  unfold step at e
  unfold St.touches
  rw [hp] at e ⊢
  cases a with
  | goOn read => exact .goOn (hf.control hp) hR hsound e
  | timeoutRead r ok =>
      obtain ⟨hc, e⟩ := Option.ite_none_right_eq_some.mp e
      rw [hc] at hsound
      have hgo := Goes.timeoutRead hp hsound e
      unfold St.closes St.ticks
      rw [hp]
      cases r <;> exact hgo
  | user u =>
      obtain ⟨hc, e⟩ := Option.ite_none_right_eq_some.mp e
      have hno : s.ticks (.user u) = false := by
        unfold St.ticks
        rw [hp]
      rw [hno]
      exact .userAct hp hc e
  | handlePrev | event fd ev | dispatch => cases e

/-- A step of the scheduler loop: at most it writes the record of a descriptor and takes it out of the
epoll set. -/
theorem changes_of_loop {s s' : St} {a : Act} (hp : ∀ t, s.q.phase ≠ .running t)
    (e : step s a = some s') : s'.cont = s.cont ∧ s'.lock = s.lock ∧ s.ticks a = false ∧
      Io.Changes 0 (s.touches a) (fun _ => False) s.io s'.io := by
  unfold step at e
  unfold St.touches St.ticks
  cases hphase : s.q.phase with
  | running t => exact absurd hphase (hp t)
  | loop =>
      rw [hphase] at e
      cases a with
      | event fd ev =>
          obtain ⟨-, r, hr, rfl⟩ := eventWait_eq e
          exact ⟨rfl, rfl, rfl, .tail (.single (.record { r with error := eventsToError ev } rfl hr
            (.inl rfl))) (.unwatch _ rfl)⟩
      | dispatch =>
          obtain ⟨q, -, rfl⟩ := Option.map_eq_some_iff.mp e
          exact ⟨rfl, rfl, rfl, .refl⟩
      | handlePrev | goOn r | timeoutRead r ok | user u => cases e
  | handle t =>
      rw [hphase] at e
      cases a with
      | handlePrev =>
          obtain rfl := Option.some.inj e
          exact ⟨rfl, rfl, rfl, .refl⟩
      | event fd ev | dispatch | goOn r | timeoutRead r ok | user u => cases e

end Libcask.Sched
