import Libcask.Mutex
import Libcask.Parking

/-! # What the mutex guarantees

* `waiters_attended`: while the mutex is free and a task waits for it, somebody is on the way: a task
  that released it and still has to look at the wait list, or a woken task that still has to try.
* `two_holders`: `co_mutex_lock_wait` returns whether the mutex is locked, by whomever, so it can
  report success to a second task.  `mutual_exclusion` is what remains: in runs in which its last
  read always finds the mutex free, the task that holds the mutex is the one recorded in `lock`, and
  there is at most one. -/

namespace Libcask.Mutex

/-! ### The wait list -/

/-- What the task is doing with the wait list. -/
def Pc.role {T : Type} : Pc T → Role T
  | .waitCheck | .waitReturn | .waitAdd | .wakeCheck | .wakeReturn | .wakeTake => .inside
  | .waitUnlock => .linked
  | .asleep => .asleep
  | .wakeUnlock o => .taking o
  | .wakeResume u => .resuming u
  | .idle | .lockOwner | .lockSwap _ | .waitLock | .unlockOwner | .unlockCheck | .unlockSwap
  | .wakeLock | .tryOwner _ | .trySwap _ | .lockWaitSleep | .lockWaitLocked => .out

def St.lot {T : Type} (s : St T) : Lot T := ⟨s.waitLock, s.waitList, Pc.role ∘ s.pc⟩

section lot
variable {T : Type} [DecidableEq T] {s s' : St T} {t : T} {a : Act T} {p : Pc T}

theorem lot_goto :
    (s.goto t p).lot = { s.lot with role := Function.update s.lot.role t p.role } := by
  unfold St.lot St.goto
  rw [Function.comp_update]

theorem lot_stay (h : p.role = (s.pc t).role) : (s.goto t p).lot = s.lot := by
  have e : Function.update s.lot.role t p.role = s.lot.role := by
    rw [h]
    exact Function.update_eq_self t s.lot.role
  rw [lot_goto, e]

theorem spinLock_eq (h : s.spinLock t p = some s') :
    s.waitLock = none ∧ s' = St.goto { s with waitLock := some t } t p := by
  unfold St.spinLock at h
  split at h
  · rename_i hfree
    exact ⟨hfree, (Option.some.inj h).symm⟩
  · cases h

theorem lot_spinLock (h : s.spinLock t p = some s') (hout : (s.pc t).role = .out)
    (hin : p.role = .inside) : s.lot.Step s'.lot := by
  obtain ⟨hfree, rfl⟩ := spinLock_eq h
  rw [lot_goto, hin]
  exact .lock t hfree hout

/-- The compare-and-swap does not touch the wait list. -/
theorem lot_swap {q : Pc T} (hout : (s.pc t).role = .out) (hq : q.role = .out)
    (h : (match s.atomicLock t with
      | some s' => some (s'.acquired t)
      | none => some (s.goto t q)) = some s') : s.lot.Step s'.lot := by
  unfold St.atomicLock at h
  cases hl : s.lock with
  | none =>
      rw [hl] at h
      obtain rfl := Option.some.inj h
      rw [St.acquired, lot_stay (by dsimp only; rw [hout]; rfl)]
      exact .stay
  | some u =>
      rw [hl] at h
      obtain rfl := Option.some.inj h
      rw [lot_stay (by rw [hq, hout])]
      exact .stay

/-- Every shared access is a move of the task around the wait list. -/
theorem run_lot (h : run s t = some s') : s.lot.Step s'.lot := by
  have hrole : s.lot.role t = (s.pc t).role := rfl
  unfold run at h
  cases hpc : s.pc t with
  | idle | asleep => simp [hpc] at h
  | lockSwap w | trySwap w =>
      rw [hpc] at h
      exact lot_swap (by rw [hpc]; rfl) (by first | rfl | (split_ifs <;> rfl)) h
  | lockOwner =>
      rw [hpc] at h
      obtain rfl := Option.some.inj (Option.ite_none_left_eq_some.mp h).2
      rw [lot_stay (by rw [hpc]; rfl)]
      exact .stay
  | unlockOwner =>
      rw [hpc] at h
      obtain rfl := Option.some.inj (Option.ite_none_right_eq_some.mp h).2
      rw [lot_stay (by rw [hpc]; rfl)]
      exact .stay
  | tryOwner w =>
      rw [hpc] at h
      dsimp only at h
      split_ifs at h
      · obtain rfl := Option.some.inj h
        rw [St.acquired, lot_stay (by rw [hpc]; rfl)]
        exact .stay
      · obtain rfl := Option.some.inj h
        rw [lot_stay (by rw [hpc]; rfl)]
        exact .stay
  | waitLock | wakeLock =>
      rw [hpc] at h
      exact lot_spinLock h (by rw [hpc]; rfl) rfl
  | waitCheck | wakeCheck | unlockCheck =>
      rw [hpc] at h
      obtain rfl := Option.some.inj h
      rw [lot_stay (by rw [hpc]; split_ifs <;> rfl)]
      exact .stay
  | waitReturn | wakeReturn =>
      rw [hpc] at h
      obtain rfl := Option.some.inj h
      rw [lot_goto]
      exact .unlock t (.inl (by rw [hrole, hpc]; rfl))
  | waitAdd =>
      rw [hpc] at h
      obtain rfl := Option.some.inj h
      rw [lot_goto]
      exact .link t (by rw [hrole, hpc]; rfl)
  | waitUnlock =>
      rw [hpc] at h
      obtain rfl := Option.some.inj h
      rw [lot_goto]
      exact .sleep t (by rw [hrole, hpc]; rfl)
  | unlockSwap =>
      rw [hpc] at h
      obtain rfl := Option.some.inj h
      unfold St.atomicUnlock
      split_ifs
      · rw [lot_stay (by rw [St.released, hpc]; rfl)]
        exact .stay
      · rw [lot_stay (by rw [St.released, hpc]; rfl)]
        exact .stay
  | wakeTake =>
      rw [hpc] at h
      obtain rfl := Option.some.inj h
      rw [lot_goto]
      exact .take t (by rw [hrole, hpc]; rfl)
  | wakeUnlock o =>
      rw [hpc] at h
      cases o with
      | none =>
          obtain rfl := Option.some.inj h
          rw [lot_goto]
          exact .unlock t (.inr (by rw [hrole, hpc]; rfl))
      | some u =>
          obtain rfl := Option.some.inj h
          rw [lot_goto]
          exact .handOver t u (by rw [hrole, hpc]; rfl)
  | wakeResume u =>
      rw [hpc] at h
      obtain rfl := Option.some.inj h
      rw [lot_goto, lot_goto]
      exact .resume t u (by rw [hrole, hpc]; rfl)
  | lockWaitSleep =>
      rw [hpc] at h
      obtain rfl := Option.some.inj h
      rw [lot_stay (by rw [hpc]; rfl)]
      exact .stay
  | lockWaitLocked =>
      rw [hpc] at h
      obtain rfl := Option.some.inj h
      split_ifs
      · rw [St.acquired, lot_stay (by rw [hpc]; rfl)]
        exact .stay
      · rw [lot_stay (by rw [hpc]; rfl)]
        exact .stay

theorem step_lot (h : step s a = some s') : s.lot.Step s'.lot := by
  cases a with
  | call t c =>
      obtain ⟨hpc, h⟩ := Option.ite_none_right_eq_some.mp h
      obtain rfl := Option.some.inj h
      rw [lot_stay (by rw [hpc]; cases c <;> rfl)]
      exact .stay
  | run t => exact run_lot h

theorem lot_of_reach (h : (system T).Reachable s) : s.lot.Ok := by
  refine h.invariant (I := fun s => s.lot.Ok) ?_ ?_
  · rintro s rfl
    exact Lot.Ok.init
  · intro s a s' hs _ h
    exact hs.step (step_lot h)

/-! ### Lost wake-ups -/

/-- On the way to free or to wake a waiter: the task will look at the wait list, has taken a waiter
off it, or was woken itself and has still to try the lock. -/
def Pc.rescues {T : Type} : Pc T → Bool
  | .lockSwap true | .wakeLock | .wakeCheck | .wakeTake | .wakeUnlock (some _) | .wakeResume _ => true
  | _ => false

/-- Somebody is on the way while the mutex is free and a task waits.  A task that found the mutex
locked and is about to link itself may have been overtaken by the release; the task that released it
then waits for `wait_lock`. -/
structure Attended (s : St T) : Prop where
  rescuer : s.lock = none → s.waitList ≠ [] → ∃ t, (s.pc t).rescues = true
  overtaken : ∀ t, s.pc t = .waitAdd → s.lock = none → ∃ u, s.pc u = .wakeLock

namespace Attended

omit [DecidableEq T] in
theorem of_locked (h : s.lock ≠ none) : Attended s := ⟨fun hl => absurd hl h, fun _ _ hl => absurd hl h⟩

/-- The move of one task, when it neither touches the list nor frees the mutex. -/
theorem move (hs : Attended s) (hpc : s'.pc = Function.update s.pc t p)
    (hlist : s'.waitList = s.waitList) (hlock : s'.lock = s.lock)
    (hres : (s.pc t).rescues = true → p.rescues = true) (hadd : p ≠ .waitAdd)
    (hspin : s.pc t = .wakeLock → ∀ u, s.pc u ≠ .waitAdd) : Attended s' := by
  have hself : s'.pc t = p := by rw [hpc, Function.update_self]
  have hne : ∀ {u}, u ≠ t → s'.pc u = s.pc u := by
    intro u hu
    rw [hpc, Function.update_of_ne hu]
  constructor
  · intro hl hw
    rw [hlist] at hw
    obtain ⟨u, hu⟩ := hs.rescuer (hlock.symm.trans hl) hw
    by_cases hut : u = t
    · subst hut
      exact ⟨u, by rw [hself]; exact hres hu⟩
    · exact ⟨u, by rw [hne hut]; exact hu⟩
  · intro u hu hl
    have hut : u ≠ t := by
      rintro rfl
      exact hadd (hself.symm.trans hu)
    rw [hne hut] at hu
    obtain ⟨v, hv⟩ := hs.overtaken u hu (hlock.symm.trans hl)
    have hvt : v ≠ t := by
      rintro rfl
      exact hspin hv u hu
    exact ⟨v, (hne hvt).trans hv⟩

/-- The mutex is released. -/
theorem release (hpc : s'.pc = Function.update s.pc t .wakeLock) : Attended s' := by
  have hself : s'.pc t = .wakeLock := by rw [hpc, Function.update_self]
  exact ⟨fun _ _ => ⟨t, by rw [hself]; rfl⟩, fun _ _ _ => ⟨t, hself⟩⟩

/-- A task that found the mutex locked links itself. -/
theorem add (hs : Attended s) (hpc : s.pc t = .waitAdd) :
    Attended ((s.addWaiter t).goto t .waitUnlock) := by
  have hne : ∀ {u}, u ≠ t → ((s.addWaiter t).goto t .waitUnlock).pc u = s.pc u :=
    fun hu => Function.update_of_ne hu _ _
  have hself : ((s.addWaiter t).goto t .waitUnlock).pc t = .waitUnlock := Function.update_self ..
  have hover : s.lock = none → ∃ u, ((s.addWaiter t).goto t .waitUnlock).pc u = .wakeLock := by
    intro hl
    obtain ⟨u, hu⟩ := hs.overtaken t hpc hl
    have hut : u ≠ t := by
      rintro rfl
      cases hpc.symm.trans hu
    exact ⟨u, (hne hut).trans hu⟩
  constructor
  · intro hl _
    obtain ⟨u, hu⟩ := hover hl
    exact ⟨u, by rw [hu]; rfl⟩
  · intro _ _ hl
    exact hover hl

/-- A waiter, if there is one, is taken off the list. -/
theorem take (hl : s.lot.Ok) (hpc : s.pc t = .wakeTake) :
    Attended (s.dropWaiter.goto t (.wakeUnlock s.waitList.head?)) := by
  have hself : (s.dropWaiter.goto t (.wakeUnlock s.waitList.head?)).pc t =
      .wakeUnlock s.waitList.head? := Function.update_self ..
  constructor
  · intro _ hw
    refine ⟨t, ?_⟩
    rw [hself]
    cases hlist : s.waitList with
    | nil => exact absurd (by simp [St.goto, St.dropWaiter, hlist]) hw
    | cons u r => rfl
  · intro u hu
    have hut : u ≠ t := by
      rintro rfl
      cases hself.symm.trans hu
    have hu' : s.pc u = .waitAdd := (Function.update_of_ne hut _ _).symm.trans hu
    -- both tasks would be in the critical section
    have hin : ∀ {v q}, s.pc v = q → q.role.inCritical = true →
        (s.lot.role v).inCritical = true := by
      intro v q hv hq
      rw [← hv] at hq
      exact hq
    exact absurd (hl.unique (hin hu' rfl) (hin hpc rfl)) hut

/-- The waiter that was taken off the list is resumed. -/
theorem resume (hs : Attended s) (hl : s.lot.Ok) {u : T} (hpc : s.pc t = .wakeResume u) :
    Attended ((s.goto u (.lockSwap true)).goto t .idle) := by
  have hrole : s.lot.role t = .resuming u := by
    show (s.pc t).role = _
    rw [hpc]
    rfl
  obtain ⟨hasleep, -, hut⟩ := hl.resuming hrole
  have hpc' : ∀ v, ((s.goto u (.lockSwap true)).goto t .idle).pc v =
      if v = t then .idle else if v = u then .lockSwap true else s.pc v := by
    intro v
    simp [St.goto, Function.update_apply]
  constructor
  · intro _ _
    refine ⟨u, ?_⟩
    rw [hpc', if_neg hut, if_pos rfl]
    rfl
  · intro v hv hlock
    rw [hpc'] at hv
    split_ifs at hv
    obtain ⟨w, hw⟩ := hs.overtaken v hv hlock
    refine ⟨w, ?_⟩
    have hwt : w ≠ t := by
      rintro rfl
      cases hpc.symm.trans hw
    have hwu : w ≠ u := by
      rintro rfl
      have hrole' : (s.pc w).role = .asleep := hasleep
      rw [hw] at hrole'
      cases hrole'
    rw [hpc', if_neg hwt, if_neg hwu]
    exact hw

/-- An attempt to lock leaves the mutex locked, by this task or another one. -/
theorem swap {q : Pc T} (h : (match s.atomicLock t with
      | some s' => some (s'.acquired t)
      | none => some (s.goto t q)) = some s') : Attended s' := by
  apply of_locked
  unfold St.atomicLock at h
  cases hl : s.lock with
  | none =>
      rw [hl] at h
      obtain rfl := Option.some.inj h
      exact Option.some_ne_none t
  | some u =>
      rw [hl] at h
      obtain rfl := Option.some.inj h
      show s.lock ≠ none
      rw [hl]
      exact Option.some_ne_none u

/-- A check of the lock: a task that goes on as if it were free, or knows that it is locked. -/
theorem check (hs : Attended s) {q : Pc T} (hq : q ≠ .waitAdd)
    (hres : (s.pc t).rescues = true → q.rescues = true) (hpc : s.pc t ≠ .wakeLock) :
    Attended (s.goto t (if s.coMutexLocked then p else q)) := by
  split_ifs with hl
  · apply of_locked
    show s.lock ≠ none
    intro hc
    rw [St.coMutexLocked, hc] at hl
    cases hl
  · exact hs.move rfl rfl rfl hres hq fun h => absurd h hpc

theorem run (hs : Attended s) (hl : s.lot.Ok) (h : run s t = some s') : Attended s' := by
  unfold Mutex.run at h
  cases hpc : s.pc t with
  | idle | asleep => simp [hpc] at h
  | lockSwap w | trySwap w =>
      rw [hpc] at h
      exact swap h
  | lockOwner =>
      rw [hpc] at h
      obtain rfl := Option.some.inj (Option.ite_none_left_eq_some.mp h).2
      exact hs.move rfl rfl rfl (by simp [hpc, Pc.rescues]) (by simp) (by simp [hpc])
  | unlockOwner =>
      rw [hpc] at h
      obtain rfl := Option.some.inj (Option.ite_none_right_eq_some.mp h).2
      exact hs.move rfl rfl rfl (by simp [hpc, Pc.rescues]) (by simp) (by simp [hpc])
  | tryOwner w =>
      rw [hpc] at h
      dsimp only at h
      split_ifs at h
      · obtain rfl := Option.some.inj h
        exact hs.move rfl rfl rfl (by simp [hpc, Pc.rescues]) (by simp) (by simp [hpc])
      · obtain rfl := Option.some.inj h
        exact hs.move rfl rfl rfl (by simp [hpc, Pc.rescues]) (by simp) (by simp [hpc])
  | waitLock =>
      rw [hpc] at h
      obtain ⟨-, rfl⟩ := spinLock_eq h
      exact hs.move rfl rfl rfl (by simp [hpc, Pc.rescues]) (by simp) (by simp [hpc])
  | wakeLock =>
      rw [hpc] at h
      obtain ⟨hfree, rfl⟩ := spinLock_eq h
      refine hs.move rfl rfl rfl (fun _ => rfl) (by simp) fun _ u hu => ?_
      -- nobody is in the critical section
      have hin : (s.pc u).role.inCritical = true := by rw [hu]; rfl
      have hheld : s.waitLock = some u := (hl.owner u).mp hin
      cases hfree.symm.trans hheld
  | waitCheck =>
      rw [hpc] at h
      obtain rfl := Option.some.inj h
      exact hs.check (by simp) (by simp [hpc, Pc.rescues]) (by simp [hpc])
  | wakeCheck =>
      rw [hpc] at h
      obtain rfl := Option.some.inj h
      exact hs.check (by simp) (fun _ => rfl) (by simp [hpc])
  | unlockCheck =>
      rw [hpc] at h
      obtain rfl := Option.some.inj h
      exact hs.check (by simp) (by simp [hpc, Pc.rescues]) (by simp [hpc])
  | waitReturn | wakeReturn | waitUnlock | lockWaitSleep =>
      rw [hpc] at h
      obtain rfl := Option.some.inj h
      exact hs.move rfl rfl rfl (by simp [hpc, Pc.rescues]) (by simp) (by simp [hpc])
  | waitAdd =>
      rw [hpc] at h
      obtain rfl := Option.some.inj h
      exact hs.add hpc
  | unlockSwap =>
      rw [hpc] at h
      obtain rfl := Option.some.inj h
      apply release (s := (s.atomicUnlock t).released t) (t := t)
      rfl
  | wakeTake =>
      rw [hpc] at h
      obtain rfl := Option.some.inj h
      exact take hl hpc
  | wakeUnlock o =>
      rw [hpc] at h
      cases o with
      | none =>
          obtain rfl := Option.some.inj h
          exact hs.move rfl rfl rfl (by simp [hpc, Pc.rescues]) (by simp) (by simp [hpc])
      | some u =>
          obtain rfl := Option.some.inj h
          exact hs.move rfl rfl rfl (fun _ => rfl) (by simp) (by simp [hpc])
  | wakeResume u =>
      rw [hpc] at h
      obtain rfl := Option.some.inj h
      exact hs.resume hl hpc
  | lockWaitLocked =>
      rw [hpc] at h
      obtain rfl := Option.some.inj h
      split_ifs
      · exact hs.move rfl rfl rfl (by simp [hpc, Pc.rescues]) (by simp) (by simp [hpc])
      · exact hs.move rfl rfl rfl (by simp [hpc, Pc.rescues]) (by simp) (by simp [hpc])

theorem step (hs : Attended s) (hl : s.lot.Ok) (h : step s a = some s') : Attended s' := by
  cases a with
  | call t c =>
      obtain ⟨hpc, h⟩ := Option.ite_none_right_eq_some.mp h
      obtain rfl := Option.some.inj h
      exact hs.move rfl rfl rfl (by simp [hpc, Pc.rescues]) (by cases c <;> simp [enter])
        (by simp [hpc])
  | run t => exact hs.run hl h

end Attended

/-- The task has released the mutex and has not finished `mutex_wakeup_task`. -/
def Pc.wakes {T : Type} : Pc T → Bool
  | .wakeLock | .wakeCheck | .wakeReturn | .wakeTake | .wakeUnlock _ | .wakeResume _ => true
  | _ => false

/-- The task was taken off the wait list and resumed, and has not retried its compare-and-swap. -/
def Pc.retries {T : Type} : Pc T → Bool
  | .lockSwap true => true
  | _ => false

omit [DecidableEq T] in
theorem wakes_or_retries {q : Pc T} (h : q.rescues = true) : q.wakes = true ∨ q.retries = true := by
  unfold Pc.rescues at h
  split at h
  case h_1 => exact .inr rfl
  case h_7 => cases h
  all_goals exact .inl rfl

/-- No wake-up is lost: somebody looks after the waiters of a free mutex. -/
theorem waiters_attended (h : (system T).Reachable s) (hfree : s.lock = none)
    (hwait : s.waitList ≠ []) :
    ∃ t, (s.pc t).wakes = true ∨ (s.pc t).retries = true := by
  have hs : Attended s := by
    refine h.invariant_of (J := fun s => s.lot.Ok) (I := Attended) (fun _ => lot_of_reach) ?_ ?_
    · rintro s rfl
      exact ⟨fun _ hw => absurd rfl hw, fun _ ht => (nomatch ht)⟩
    · intro s a s' hl hs _ h
      exact hs.step hl h
  obtain ⟨t, ht⟩ := hs.rescuer hfree hwait
  exact ⟨t, wakes_or_retries ht⟩

end lot

/-- The first task releases the mutex just after the second one found it locked and linked itself. -/
theorem waiters_attended_two_tasks :
    ∃ s : St (Fin 2), s.lock = none ∧ s.waitList = [1] ∧
      ∃ t, (s.pc t).wakes = true ∨ (s.pc t).retries = true := by
  have hrun := TS.Reachable.exists_of_run (M := system (Fin 2)) (s := coMutexInit)
    [.call 0 .lock, .run 0, .run 0, .call 1 .lock, .run 1, .run 1, .run 1, .run 1, .call 0 .unlock,
      .run 0, .run 0, .run 0, .run 1]
    (fun s => decide (s.lock = none ∧ s.waitList = [1])) rfl (by decide +kernel)
  obtain ⟨s, hs, hP⟩ := hrun
  obtain ⟨h1, h2⟩ := of_decide_eq_true hP
  exact ⟨s, h1, h2, waiters_attended hs h1 (by rw [h2]; decide)⟩

/-! ### Mutual exclusion -/

section exclusion
variable {T : Type} [DecidableEq T] {s s' : St T} {t : T} {a : Act T}

/-- A task that holds the mutex is the one recorded in it. -/
def Recorded (s : St T) : Prop := ∀ t, s.holds t = true → s.lock = some t

/-- At most one task holds the mutex, and it is the one recorded in it. -/
def MutualExclusion (s : St T) : Prop :=
  (∀ t u, s.holds t = true → s.holds u = true → t = u) ∧ ∀ t, s.holds t = true → s.lock = some t

/-- The last read of a `co_mutex_lock_wait` finds the mutex free. -/
def lockWaitFree (s : St T) : Act T → Bool
  | .call _ _ => true
  | .run t => s.pc t ≠ .lockWaitLocked || s.lock.isNone

namespace Recorded

/-- The task that is recorded in the mutex is told so. -/
theorem acquired (hs : Recorded s) (hl : s.lock = some t) : Recorded (s.acquired t) := by
  intro u hu
  show s.lock = some u
  by_cases hut : u = t
  · rw [hut, hl]
  · exact hs u ((Function.update_of_ne hut _ _).symm.trans hu)

theorem swap (hs : Recorded s) {q : Pc T} (h : (match s.atomicLock t with
      | some s' => some (s'.acquired t)
      | none => some (s.goto t q)) = some s') : Recorded s' := by
  unfold St.atomicLock at h
  cases hl : s.lock with
  | none =>
      rw [hl] at h
      obtain rfl := Option.some.inj h
      refine acquired (s := { s with lock := some t }) (fun u hu => ?_) rfl
      -- nobody held the free mutex
      cases hl.symm.trans (hs u hu)
  | some u =>
      rw [hl] at h
      obtain rfl := Option.some.inj h
      exact hs

theorem release (hs : Recorded s) :
    Recorded (((s.atomicUnlock t).released t).goto t .wakeLock) := by
  have hholds : (s.atomicUnlock t).holds = s.holds := by
    unfold St.atomicUnlock
    split_ifs <;> rfl
  intro u hu
  have hut : u ≠ t := by
    rintro rfl
    cases (Function.update_self ..).symm.trans hu
  have hu' : s.holds u = true := by
    rw [← hholds]
    exact (Function.update_of_ne hut _ _).symm.trans hu
  show (s.atomicUnlock t).lock = some u
  have hne : s.lock ≠ some t := by
    rw [hs u hu']
    exact fun hc => hut (Option.some.inj hc)
  rw [St.atomicUnlock, if_neg hne]
  exact hs u hu'

theorem run (hs : Recorded s) (hfree : s.pc t = .lockWaitLocked → s.lock = none)
    (h : run s t = some s') : Recorded s' := by
  unfold Mutex.run at h
  cases hpc : s.pc t with
  | idle | asleep => simp [hpc] at h
  | lockSwap w | trySwap w =>
      rw [hpc] at h
      exact hs.swap h
  | lockOwner =>
      rw [hpc] at h
      obtain rfl := Option.some.inj (Option.ite_none_left_eq_some.mp h).2
      exact hs
  | unlockOwner =>
      rw [hpc] at h
      obtain rfl := Option.some.inj (Option.ite_none_right_eq_some.mp h).2
      exact hs
  | tryOwner w =>
      rw [hpc] at h
      dsimp only at h
      split_ifs at h with hl
      · obtain rfl := Option.some.inj h
        exact hs.acquired hl
      · obtain rfl := Option.some.inj h
        exact hs
  | waitLock | wakeLock =>
      rw [hpc] at h
      obtain ⟨-, rfl⟩ := spinLock_eq h
      exact hs
  | waitCheck | waitReturn | waitAdd | waitUnlock | unlockCheck | wakeCheck | wakeReturn | wakeTake |
    lockWaitSleep | wakeResume u =>
      rw [hpc] at h
      obtain rfl := Option.some.inj h
      exact hs
  | unlockSwap =>
      rw [hpc] at h
      obtain rfl := Option.some.inj h
      exact hs.release
  | wakeUnlock o =>
      rw [hpc] at h
      cases o with
      | none | some u =>
          obtain rfl := Option.some.inj h
          exact hs
  | lockWaitLocked =>
      rw [hpc] at h
      have hno : s.coMutexLocked = false := by
        rw [St.coMutexLocked, hfree hpc]
        rfl
      dsimp only at h
      rw [hno] at h
      obtain rfl := Option.some.inj h
      exact hs

theorem step (hs : Recorded s) (hfree : lockWaitFree s a = true) (h : step s a = some s') :
    Recorded s' := by
  cases a with
  | call t c =>
      obtain rfl := Option.some.inj (Option.ite_none_right_eq_some.mp h).2
      exact hs
  | run t =>
      refine hs.run (fun hpc => ?_) h
      simpa [lockWaitFree, hpc] using hfree

end Recorded

/-- At most one task holds the mutex, in runs in which no `co_mutex_lock_wait` finds it locked when
it wakes up. -/
theorem mutual_exclusion (h : (system T).ReachVia (fun s a => lockWaitFree s a = true) s) :
    MutualExclusion s := by
  have hs : Recorded s := by
    refine h.invariant (I := Recorded) ?_ ?_
    · rintro s rfl t ht
      cases ht
    · intro s a s' hs ha h
      exact hs.step ha h
  exact ⟨fun t u ht hu => Option.some.inj ((hs t ht).symm.trans (hs u hu)), hs⟩

end exclusion

/-- The second task wakes up from its `co_mutex_lock_wait` after the first one released the mutex;
the first one then locks it again. -/
theorem mutual_exclusion_lock_wait :
    ∃ s : St (Fin 2), s.holds 0 = true ∧ s.pc 1 = .idle ∧ MutualExclusion s := by
  have hrun := TS.ReachVia.exists_of_run (M := system (Fin 2)) (s := coMutexInit)
    (fun s a => lockWaitFree s a = true)
    [.call 0 .lock, .run 0, .run 0, .call 1 .lockWait, .run 1, .run 1, .run 1, .call 0 .unlock,
      .run 0, .run 0, .run 0, .run 1, .run 0, .run 0, .run 0, .run 0, .call 0 .tryLock, .run 0,
      .run 0]
    (fun s => decide (s.holds 0 = true ∧ s.pc 1 = .idle)) rfl (by decide +kernel) (by decide +kernel)
  obtain ⟨s, hs, hP⟩ := hrun
  obtain ⟨h1, h2⟩ := of_decide_eq_true hP
  exact ⟨s, h1, h2, mutual_exclusion hs⟩

/-- A task holds the mutex while another one calls `co_mutex_lock_wait`, which fails to lock, sleeps,
finds the mutex locked and returns 1. -/
theorem two_holders :
    ¬∀ (n : ℕ) (s : St (Fin n)), (system (Fin n)).Reachable s → MutualExclusion s := by
  have hrun := TS.Reachable.exists_of_run (M := system (Fin 2)) (s := coMutexInit)
    [.call 0 .lock, .run 0, .run 0, .call 1 .lockWait, .run 1, .run 1, .run 1, .run 1]
    (fun s => s.holds 0 && s.holds 1) rfl (by decide +kernel)
  obtain ⟨s, hs, hP⟩ := hrun
  obtain ⟨h0, h1⟩ := Bool.and_eq_true_iff.mp hP
  intro h
  cases (h 2 s hs).1 0 1 h0 h1

end Libcask.Mutex
