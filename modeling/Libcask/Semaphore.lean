import Libcask.CInt
import Libcask.Counting
import Libcask.Transition

/-! # The semaphore of `co_sem.c`

The tasks of a finite type `T`, on any number of threads, call `co_sem_wait`, `co_sem_try_wait` and
`co_sem_post` on one semaphore.  They interleave between any two accesses of shared memory: the
atomic operations on the counter, taking and releasing `wait_lock`, the update of `wait_list`, and
the resumption of a task.  A task's program counter (`Pc`) says which access comes next.

A task is `asleep` from its release of `wait_lock` on: a `co_resume` by another thread that comes
before the task has left its processor puts it on the run queue all the same. -/

namespace Libcask.Sem

/-- The next shared access of a task. -/
inductive Pc (T : Type) where
  | idle
  /-- `co_sem_wait`: decrement, lock, check, and then either return or go to sleep. -/
  | waitDec | waitLock | waitCheck | waitGrant | waitAdd | waitUnlock | asleep
  /-- `co_sem_try_wait`: decrement, lock, check, and then either return 1 or take it back. -/
  | tryDec | tryLock | tryCheck | tryGrant | tryInc | tryFail
  /-- `co_sem_post`: increment, lock, check, and then either return or take a waiter. -/
  | postInc | postLock | postCheck | postSkip | postTake | postUnlock (u : Option T)
  | postResume (u : T)
  | finished
deriving DecidableEq, Repr

variable {T : Type} [DecidableEq T]

/-- A semaphore with the tasks that use it.  The last four fields are history: the initial count,
the acquisitions completed, the calls of `co_sem_post`, and how often a task was woken. -/
structure St (T : Type) where
  sem : ℤ
  waitLock : Option T
  waitList : List T
  pc : T → Pc T
  count : ℕ
  acquired : ℕ
  posts : ℕ
  woken : ℕ

namespace St

def goto (s : St T) (t : T) (p : Pc T) : St T := { s with pc := Function.update s.pc t p }

/-- The call returns with a permit. -/
def acquire (s : St T) (t : T) : St T := { s with acquired := s.acquired + 1 }.goto t .idle

/-- `atomic_sub_and_fetch(&s->sem, 1)`. -/
def dec (s : St T) : St T := { s with sem := toInt32 (s.sem - 1) }

/-- `atomic_add_and_fetch(&s->sem, 1)`, `atomic_inc(&s->sem)`. -/
def inc (s : St T) : St T := { s with sem := toInt32 (s.sem + 1) }

/-- `spin_lock(&s->wait_lock)`: not enabled while another task holds the lock. -/
def spinLock (s : St T) (t : T) (p : Pc T) : Option (St T) :=
  match s.waitLock with
  | none => some ({ s with waitLock := some t }.goto t p)
  | some _ => none

/-- `spin_unlock(&s->wait_lock)`. -/
def spinUnlock (s : St T) : St T := { s with waitLock := none }

/-- `list_add_before(&s->wait_list, &(co_self()->run_link))`. -/
def addWaiter (s : St T) (t : T) : St T := { s with waitList := s.waitList ++ [t] }

/-- The first waiter is unlinked, if there is one. -/
def dropWaiter (s : St T) : St T := { s with waitList := s.waitList.tail }

end St

/-- The calls of the interface, and the exit of a task. -/
inductive Call where
  | wait | tryWait | post | exit
deriving DecidableEq, Repr

/-- A task in its own code makes a call; a task inside a call makes its next shared access. -/
inductive Act (T : Type) where
  | call (t : T) (c : Call)
  | run (t : T)
deriving DecidableEq, Repr

def enter (s : St T) (t : T) : Call → St T
  | .wait => s.goto t .waitDec
  | .tryWait => s.goto t .tryDec
  | .post => { s with posts := s.posts + 1 }.goto t .postInc
  | .exit => s.goto t .finished

/-- The next shared access of the task `t`, up to the one after it. -/
def run (s : St T) (t : T) : Option (St T) :=
  match s.pc t with
  | .idle | .finished | .asleep => none
  -- co_sem_wait
  | .waitDec => some (if s.dec.sem < 0 then s.dec.goto t .waitLock else s.dec.acquire t)
  | .waitLock => s.spinLock t .waitCheck
  | .waitCheck => some (s.goto t (if s.sem ≥ 0 then .waitGrant else .waitAdd))
  | .waitGrant => some (s.spinUnlock.acquire t)
  | .waitAdd => some ((s.addWaiter t).goto t .waitUnlock)
  | .waitUnlock => some (s.spinUnlock.goto t .asleep)
  -- co_sem_try_wait
  | .tryDec => some (if s.dec.sem < 0 then s.dec.goto t .tryLock else s.dec.acquire t)
  | .tryLock => s.spinLock t .tryCheck
  | .tryCheck => some (s.goto t (if s.sem ≥ 0 then .tryGrant else .tryInc))
  | .tryGrant => some (s.spinUnlock.acquire t)
  | .tryInc => some (s.inc.goto t .tryFail)
  | .tryFail => some (s.spinUnlock.goto t .idle)
  -- co_sem_post
  | .postInc => some (s.inc.goto t (if s.inc.sem < 0 then .postLock else .idle))
  | .postLock => s.spinLock t .postCheck
  | .postCheck => some (s.goto t (if s.sem ≥ 0 then .postSkip else .postTake))
  | .postSkip => some (s.spinUnlock.goto t .idle)
  | .postTake => some (s.dropWaiter.goto t (.postUnlock s.waitList.head?))
  | .postUnlock none => some (s.spinUnlock.goto t .idle)
  | .postUnlock (some u) => some (s.spinUnlock.goto t (.postResume u))
  -- the woken task goes on with the test of its loop
  | .postResume u => some (({ s with woken := s.woken + 1 }.goto u .waitDec).goto t .idle)

def step (s : St T) : Act T → Option (St T)
  | .call t c => if s.pc t = .idle then some (enter s t c) else none
  | .run t => run s t

/-- `co_sem_init`: the `unsigned int` count is stored in an `int`. -/
def coSemInit (count : ℕ) : St T where
  sem := toInt32 count
  waitLock := none
  waitList := []
  pc := fun _ => .idle
  count := count
  acquired := 0
  posts := 0
  woken := 0

/-- The tasks `T` use one semaphore. -/
def system (T : Type) [DecidableEq T] (count : ℕ) : TS (St T) (Act T) where
  init s := s = coSemInit count
  step := step

end Libcask.Sem
