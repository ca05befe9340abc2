import Libcask.Transition

/-! # The mutex of `co_mutex.c`

The tasks of a type `T`, on any number of threads, call `co_mutex_lock`, `co_mutex_try_lock`,
`co_mutex_lock_wait` and `co_mutex_unlock` on one mutex.  They interleave between any two accesses of
shared memory: the compare-and-swap on `lock` and its reads, taking and releasing `wait_lock`, the
update of `wait_list`, and the resumption of a task.  A task's program counter (`Pc`) says which
access comes next.

A task is `asleep` from its release of `wait_lock` on: a `co_resume` by another thread that comes
before the task has left its processor puts it on the run queue all the same.  A `PANIC` stops the
process, so the access that ends in one has no successor state. -/

namespace Libcask.Mutex

/-- The next shared access of a task. -/
inductive Pc (T : Type) where
  | idle
  /-- `co_mutex_lock`: the check for a recursive call, and the compare-and-swap of the loop; the flag
  tells whether the task comes from being woken. -/
  | lockOwner | lockSwap (woken : Bool)
  /-- `task_wait_mutex`. -/
  | waitLock | waitCheck | waitReturn | waitAdd | waitUnlock | asleep
  /-- `co_mutex_unlock`. -/
  | unlockOwner | unlockCheck | unlockSwap
  /-- `mutex_wakeup_task`. -/
  | wakeLock | wakeCheck | wakeReturn | wakeTake | wakeUnlock (u : Option T) | wakeResume (u : T)
  /-- `co_mutex_try_lock`; the flag tells whether it is called by `co_mutex_lock_wait`. -/
  | tryOwner (wait : Bool) | trySwap (wait : Bool)
  /-- `co_mutex_lock_wait`, after a failed attempt: `sleep`, and the last read of the lock. -/
  | lockWaitSleep | lockWaitLocked
deriving DecidableEq, Repr

variable {T : Type} [DecidableEq T]

/-- A mutex with the tasks that use it.  `holds` is history: the tasks whose last acquisition was
reported as successful and which have not released the mutex since. -/
structure St (T : Type) where
  lock : Option T
  waitLock : Option T
  waitList : List T
  pc : T → Pc T
  holds : T → Bool

namespace St

def goto (s : St T) (t : T) (p : Pc T) : St T := { s with pc := Function.update s.pc t p }

/-- The call returns to the task's own code and reports that the mutex is acquired. -/
def acquired (s : St T) (t : T) : St T :=
  { s with holds := Function.update s.holds t true }.goto t .idle

/-- `co_mutex_locked`. -/
def coMutexLocked (s : St T) : Bool := s.lock.isSome

/-- `ATOMIC_LOCK`: the compare-and-swap from `MUTEX_UNLOCKED` to the task. -/
def atomicLock (s : St T) (t : T) : Option (St T) :=
  match s.lock with
  | none => some { s with lock := some t }
  | some _ => none

/-- `ATOMIC_UNLOCK`: the compare-and-swap from the task to `MUTEX_UNLOCKED`. -/
def atomicUnlock (s : St T) (t : T) : St T :=
  if s.lock = some t then { s with lock := none } else s

/-- The task no longer counts as holding the mutex. -/
def released (s : St T) (t : T) : St T := { s with holds := Function.update s.holds t false }

/-- `spin_lock(&mutex->wait_lock)`: not enabled while another task holds the lock. -/
def spinLock (s : St T) (t : T) (p : Pc T) : Option (St T) :=
  match s.waitLock with
  | none => some ({ s with waitLock := some t }.goto t p)
  | some _ => none

/-- `spin_unlock(&mutex->wait_lock)`. -/
def spinUnlock (s : St T) : St T := { s with waitLock := none }

/-- `list_add_before(&mutex->wait_list, &t->run_link)`. -/
def addWaiter (s : St T) (t : T) : St T := { s with waitList := s.waitList ++ [t] }

/-- The first waiter is unlinked, if there is one. -/
def dropWaiter (s : St T) : St T := { s with waitList := s.waitList.tail }

end St

/-- The calls of the interface. -/
inductive Call where
  | lock | tryLock | lockWait | unlock
deriving DecidableEq, Repr

/-- A task in its own code makes a call; a task inside a call makes its next shared access. -/
inductive Act (T : Type) where
  | call (t : T) (c : Call)
  | run (t : T)
deriving DecidableEq, Repr

def enter : Call → Pc T
  | .lock => .lockOwner
  | .tryLock => .tryOwner false
  | .lockWait => .tryOwner true
  | .unlock => .unlockOwner

/-- The next shared access of the task `t`, up to the one after it. -/
def run (s : St T) (t : T) : Option (St T) :=
  match s.pc t with
  | .idle | .asleep => none
  -- co_mutex_lock
  | .lockOwner => if s.lock = some t then none else some (s.goto t (.lockSwap false))
  | .lockSwap _ =>
      match s.atomicLock t with
      | some s' => some (s'.acquired t)
      | none => some (s.goto t .waitLock)
  -- task_wait_mutex
  | .waitLock => s.spinLock t .waitCheck
  | .waitCheck => some (s.goto t (if s.coMutexLocked then .waitAdd else .waitReturn))
  | .waitReturn => some (s.spinUnlock.goto t (.lockSwap false))
  | .waitAdd => some ((s.addWaiter t).goto t .waitUnlock)
  | .waitUnlock => some (s.spinUnlock.goto t .asleep)
  -- co_mutex_unlock
  | .unlockOwner => if s.lock = some t then some (s.goto t .unlockCheck) else none
  | .unlockCheck => some (s.goto t (if s.coMutexLocked then .unlockSwap else .idle))
  | .unlockSwap => some (((s.atomicUnlock t).released t).goto t .wakeLock)
  -- mutex_wakeup_task
  | .wakeLock => s.spinLock t .wakeCheck
  | .wakeCheck => some (s.goto t (if s.coMutexLocked then .wakeReturn else .wakeTake))
  | .wakeReturn => some (s.spinUnlock.goto t .idle)
  | .wakeTake => some (s.dropWaiter.goto t (.wakeUnlock s.waitList.head?))
  | .wakeUnlock none => some (s.spinUnlock.goto t .idle)
  | .wakeUnlock (some u) => some (s.spinUnlock.goto t (.wakeResume u))
  -- the woken task goes on with the test of its loop
  | .wakeResume u => some ((s.goto u (.lockSwap true)).goto t .idle)
  -- co_mutex_try_lock
  | .tryOwner w => if s.lock = some t then some (s.acquired t) else some (s.goto t (.trySwap w))
  | .trySwap w =>
      match s.atomicLock t with
      | some s' => some (s'.acquired t)
      | none => some (s.goto t (if w then .lockWaitSleep else .idle))
  -- co_mutex_lock_wait
  | .lockWaitSleep => some (s.goto t .lockWaitLocked)
  | .lockWaitLocked => some (if s.coMutexLocked then s.acquired t else s.goto t .idle)

def step (s : St T) : Act T → Option (St T)
  | .call t c => if s.pc t = .idle then some (s.goto t (enter c)) else none
  | .run t => run s t

/-- `co_mutex_init`. -/
def coMutexInit : St T where
  lock := none
  waitLock := none
  waitList := []
  pc := fun _ => .idle
  holds := fun _ => false

/-- The tasks `T` use one mutex. -/
def system (T : Type) [DecidableEq T] : TS (St T) (Act T) where
  init s := s = coMutexInit
  step := step

end Libcask.Mutex
