import Libcask.LinkAccesses
import Libcask.RunQueue

/-! # Several scheduler threads

The threads of a type `R` run `schedule` (`task_sched.c`), each with its own run queue, epoll set and time wheel.
A task belongs to the thread that first put it on a run queue (`t->sched`), and runs there only; but a task of any
thread may take it off the wait list of a mutex, a condition or a semaphore and resume it.

The threads share the links of the run queues and wait lists, and here every access to a field of a link is a
step of its own (`Agents`): `RR_enqueue` unlinks the task before it takes the lock of the run queue, and
`RR_picknext` and `RR_dequeue` take no lock at all.  The other shared data is accessed at the beginning of an
operation: `task_t.status`, `t->sched` and the lock.  So the two halves of going to sleep are apart, the link on
the wait list and `status = SYS_BLOCK` with the switch behind it (`co_sync_yield`); between them `co_cond_wait`
unlocks its mutex, and so may resume another task.

A task may also wait for descriptors.  Each is in the epoll set of the task's thread, whose scheduler resumes
`ifd->task` when an event is reported, and may be on the wheel, where the timeout task of the thread finds it.  The
task takes its descriptors out of both when it goes on, but not off the wheel in a timed `co_poll`.  Or the task
waits in `async_wait` (`co_await.c`) for a pthread, the worker, which stores its result in the waiting task's
stack frame and then enqueues the task, without a look at its status. -/

namespace Libcask.Threads

/-- The lists a `run_link` can be on: the run queue of a thread, or a wait list. -/
inductive Head (R : Type) where
  | run (r : R)
  | wait (w : ℕ)
deriving DecidableEq, Repr

/-- `task_status_t`, without the difference between the ways to be blocked. -/
inductive Status where
  | runnable | blocked | killed
deriving DecidableEq, Repr

/-- The next access of `sched_rq_enqueue` and of `RR_enqueue` in it. -/
inductive Stage where
  /-- `t->status = RUNNABLE`. -/
  | status
  /-- `t->sched`, and `list_delete`. -/
  | unlink
  /-- `spin_lock`. -/
  | lock
  /-- `list_add_after`. -/
  | link
  /-- `spin_unlock`. -/
  | unlock
deriving DecidableEq, Repr

/-- Who has called `sched_rq_enqueue`. -/
inductive Back where
  /-- `co_create` outside `schedule`. -/
  | boot
  /-- The code of a task, which creates another one or wakes one up. -/
  | user (t : Tid)
  /-- `co_mutex_unlock` of a task that is on a wait list, in `co_cond_wait`. -/
  | linked (t : Tid)
  /-- `_timeout_task`. -/
  | timeout (t : Tid)
  /-- `schedule`, or `event_wait` in it. -/
  | sched
  /-- `_await_task`, which calls `policy->enqueue` only. -/
  | worker
deriving DecidableEq, Repr

/-- The next access of a thread. -/
inductive Pc where
  /-- The thread has not entered `schedule` yet. -/
  | boot
  /-- `RR_picknext`. -/
  | pick
  /-- `RR_dequeue`. -/
  | picked (t : Tid)
  /-- `g_current->status = RUNNABLE`. -/
  | dispatch (t : Tid)
  /-- The task runs its own code. -/
  | user (t : Tid)
  /-- On a wait list, registered for events, or with a worker; the status comes next. -/
  | linked (t : Tid)
  /-- The status is set; the switch to the scheduler comes next. -/
  | blocked (t : Tid)
  /-- `task_exit`, before the switch. -/
  | leaving (t : Tid)
  /-- `switch(prev_task->status)`. -/
  | handle (t : Tid)
  /-- `task_destory`, behind `list_delete`. -/
  | destroy (t : Tid)
  /-- `_await_task`: the function returns and its result is stored. -/
  | work (t : Tid)
  /-- `sched_rq_enqueue`. -/
  | enq (u : Tid) (stage : Stage) (back : Back)
  /-- The thread has taken something else for a task. -/
  | wild
deriving DecidableEq, Repr

def Back.pc : Back → Pc
  | .boot | .worker => .boot
  | .user t | .timeout t => .user t
  | .linked t => .linked t
  | .sched => .pick

/-- A descriptor in a call that waits: whether `add_events` succeeds, and whether `ifd->timeout` is not
negative. -/
structure Poll where
  fd : ℕ
  added : Bool
  link : Bool
deriving DecidableEq, Repr

/-- The descriptors for which a task waits, and whether its call is timed. -/
structure Watch where
  timed : Bool
  fds : List ℕ
deriving DecidableEq, Repr

/-- What the threads share beside the links.  `home` is `t->sched`, `lock` that of the run queue, `task` is
`ifd->task`; `wheel` gives the thread on whose wheel a descriptor is, `hired` tells that the worker of a task has
been created, `freed` that `task_destory` has freed the task. -/
structure Shared (R : Type) where
  status : Tid → Status
  home : Tid → Option R
  lock : R → Bool
  task : ℕ → Option Tid
  epoll : R → ℕ → Bool
  wheel : ℕ → Option R
  watch : Tid → Watch
  hired : Tid → Bool
  freed : Tid → Bool
  created : ℕ

/-- The actions of a task in its own code. -/
inductive TaskAct where
  /-- It goes to sleep on a wait list, or waits for descriptors, or both (with a timer). -/
  | sleep (w : Option ℕ) (timed : Bool) (ps : List Poll)
  /-- `event_poll` fails in `add_events`. -/
  | failPoll (fd : ℕ)
  /-- It takes the first task off a wait list, and resumes it. -/
  | wake (w : ℕ)
  /-- The timeout task finds a descriptor on the wheel. -/
  | expire (fd : ℕ)
  /-- `async_wait`. -/
  | await
  | yield | exit | create
deriving DecidableEq, Repr

/-- The actions of a thread. -/
inductive Act (R : Type) where
  /-- `co_create` outside `schedule`. -/
  | create (r : R)
  /-- The thread calls `schedule`. -/
  | schedule (r : R)
  /-- The thread is the worker of a task. -/
  | hire (r : R) (t : Tid)
  /-- The next access, where there is no choice. -/
  | next (r : R)
  | picknext (r : R)
  /-- `event_wait`: an event of a descriptor. -/
  | event (r : R) (fd : ℕ)
  | task (r : R) (u : TaskAct)
deriving DecidableEq, Repr

variable {R : Type}

def Act.agent : Act R → R
  | .create r | .schedule r | .hire r _ | .next r | .picknext r | .event r _ | .task r _ => r

variable [DecidableEq R]

/-- What an access to the links leads to. -/
abbrev Op (R : Type) := LinkProg (Node (Head R) Tid) Pc

namespace Shared

def setStatus (s : Shared R) (t : Tid) (st : Status) : Shared R :=
  { s with status := Function.update s.status t st }

/-- The run queue that `sched_rq_enqueue` of the thread `r` uses. -/
def sched (s : Shared R) (r : R) (t : Tid) : R := (s.home t).getD r

/-- `sched_rq_enqueue` by the thread `r`; a task without a scheduler gets that of `r`. -/
def enqueue (s : Shared R) (r : R) (u : Tid) (b : Back) : Stage → Option (Shared R × Op R)
  | .status => some (s.setStatus u .runnable, .done (.enq u .unlink b))
  | .unlink => some ({ s with home := Function.update s.home u (some (s.sched r u)) },
      .listDelete (.elem u) (.done (.enq u .lock b)))
  | .lock =>
      if s.lock (s.sched r u) then none
      else some ({ s with lock := Function.update s.lock (s.sched r u) true }, .done (.enq u .link b))
  | .link => some (s, .listAddAfter (.head (.run (s.sched r u))) (.elem u) (.done (.enq u .unlock b)))
  | .unlock => some ({ s with lock := Function.update s.lock (s.sched r u) false }, .done b.pc)

/-- A task waits for descriptors (`event_poll`, `co_poll`, `set_timer`): `ifd->task`, `add_events`, and in a
call that is not timed `wheel_update_element`. -/
def register (s : Shared R) (r : R) (t : Tid) (timed : Bool) (ps : List Poll) : Shared R :=
  { s with
    task := fun fd => if fd ∈ ps.map Poll.fd then some t else s.task fd
    epoll := fun r' fd => s.epoll r' fd || (r' = r && ps.any fun q => q.fd = fd && q.added)
    wheel := fun fd => if !timed && ps.any (fun q => q.fd = fd && q.link) then some r else s.wheel fd
    watch := Function.update s.watch t ⟨timed, ps.map Poll.fd⟩ }

/-- The task is dispatched, and takes its descriptors out of the epoll set; in a call that is not timed it takes
them off the wheel. -/
def goOn (s : Shared R) (r : R) (t : Tid) : Shared R :=
  { s with
    status := Function.update s.status t .runnable
    epoll := fun r' fd => s.epoll r' fd && !(r' = r && fd ∈ (s.watch t).fds)
    wheel := fun fd => if !(s.watch t).timed && fd ∈ (s.watch t).fds then none else s.wheel fd
    watch := Function.update s.watch t ⟨false, []⟩ }

/-- `delete_events`. -/
def deleteEvents (s : Shared R) (r : R) (fd : ℕ) : Shared R :=
  { s with epoll := Function.update s.epoll r (Function.update (s.epoll r) fd false) }

/-- `event_poll` up to `add_events`, which fails, and `delete_events`. -/
def failPoll (s : Shared R) (r : R) (t : Tid) (fd : ℕ) : Shared R :=
  { s with task := Function.update s.task fd (some t) }.deleteEvents r fd

/-- `task_create`, and the beginning of `sched_rq_enqueue`: nobody else knows the task. -/
def create (s : Shared R) (r : R) (b : Back) : Shared R × Op R :=
  ({ s with
      status := Function.update s.status s.created .runnable
      home := Function.update s.home s.created (some r)
      created := s.created + 1 },
    .listInit (.elem s.created) (.done (.enq s.created .unlink b)))

/-- The next access of a thread where there is no choice. -/
def next (s : Shared R) (r : R) : Pc → Option (Shared R × Op R)
  | .boot | .pick | .user _ | .wild => none
  | .picked t => some (s, .listDelete (.elem t) (.done (.dispatch t)))
  | .dispatch t => some (s.goOn r t, .done (.user t))
  | .linked t => some (s.setStatus t .blocked, .done (.blocked t))
  | .blocked t | .leaving t => some (s, .done (.handle t))
  | .handle t =>
      match s.status t with
      | .runnable => some (s, .done (.enq t .status .sched))
      | .killed => some (s, .listDelete (.elem t) (.done (.destroy t)))
      | .blocked => some (s, .done .pick)
  | .destroy t => some ({ s with freed := Function.update s.freed t true }, .done .pick)
  | .work t => some (s, .done ((s.home t).elim .boot fun _ => .enq t .unlink .worker))
  | .enq u g b => s.enqueue r u b g

/-- The first task of a wait list is taken off and resumed. -/
def wake (w : ℕ) (b : Back) : Op R :=
  .listPeek .next (.wait w)
    (fun o => o.elim (.done b.pc) fun u => .listDelete (.elem u) (.done (.enq u .status b))) (.done .wild)

def taskAct (s : Shared R) (r : R) (t : Tid) : TaskAct → Option (Shared R × Op R)
  | .sleep w timed ps => some (s.register r t timed ps,
      w.elim (.done (.linked t)) fun w => .listAddBefore (.head (.wait w)) (.elem t) (.done (.linked t)))
  | .failPoll fd => some (s.failPoll r t fd, .done (.user t))
  | .wake w => some (s, wake w (.user t))
  | .expire fd =>
      if s.wheel fd = some r
      then some ({ s with wheel := Function.update s.wheel fd none },
        .done ((s.task fd).elim .wild fun u => .enq u .status (.timeout t)))
      else none
  | .await => some ({ s with hired := Function.update s.hired t true }, .done (.linked t))
  | .yield => some (s, .done (.handle t))
  | .exit => some (s.setStatus t .killed, .done (.leaving t))
  | .create => some (s.create r (.user t))

end Shared

def start (s : Shared R) (p : Pc) : Act R → Option (Shared R × Op R)
  | .create r => if p = .boot then some (s.create r .boot) else none
  | .schedule _ => if p = .boot then some (s, .done .pick) else none
  | .hire _ t =>
      if p = .boot ∧ s.hired t = true
      then some ({ s with hired := Function.update s.hired t false }, .done (.work t)) else none
  | .next r => s.next r p
  | .picknext r =>
      if p = .pick
      then some (s, .listPeek .prev (.run r) (fun o => .done (o.elim .pick .picked)) (.done .wild)) else none
  | .event r fd =>
      if p = .pick ∧ s.epoll r fd = true
      then some (s.deleteEvents r fd, .done ((s.task fd).elim .pick fun u => .enq u .status .sched)) else none
  | .task r u =>
      match p, u with
      | .user t, u => s.taskAct r t u
      -- `co_mutex_unlock` in `co_cond_wait`
      | .linked t, .wake w => some (s, Shared.wake w (.linked t))
      | _, _ => none

/-- No thread has done anything yet. -/
def threads (R : Type) [DecidableEq R] :
    Agents R (Shared R) Pc (Act R) (Field × Node (Head R) Tid) (Node (Head R) Tid) where
  agent := Act.agent
  start := start
  shared₀ :=
    { status := fun _ => .runnable
      home := fun _ => none
      lock := fun _ => false
      task := fun _ => none
      epoll := fun _ _ => false
      wheel := fun _ => none
      watch := fun _ => ⟨false, []⟩
      hired := fun _ => false
      freed := fun _ => false
      created := 0 }
  mem₀ := cellsOf ⟨id, id⟩
  place₀ _ := .boot

/-! ### What a thread does with a task -/

/-- The task has been created and not freed. -/
def Shared.alive (s : Shared R) (t : Tid) : Bool := decide (t < s.created) && !s.freed t

/-- What a thread does with a task it has in hand. -/
inductive Hold where
  | picked | dispatch | runs | linked | blocked | leaving | handle | destroy
  /-- It is being put on its run queue by its own thread; it may still be on a list. -/
  | requeue
  /-- The same, behind `list_delete`. -/
  | relink
deriving DecidableEq, Repr

/-- What a thread does with a task of any thread: it puts it on its run queue. -/
inductive Aid where
  /-- It has taken the task off a wait list, or created it. -/
  | waking
  /-- It is the worker of the task. -/
  | working
  /-- It is behind `list_delete` in `RR_enqueue`. -/
  | linking
deriving DecidableEq, Repr

/-- The task that goes on behind `sched_rq_enqueue`. -/
def Back.hold (t : Tid) : Back → Option Hold
  | .user u | .timeout u => if u = t then some .runs else none
  | .linked u => if u = t then some .linked else none
  | .boot | .sched | .worker => none

/-- Whether the enqueued task is one of the thread's own: it has just run, or waits for descriptors. -/
def Back.own : Back → Bool
  | .timeout _ | .sched => true
  | .boot | .user _ | .linked _ | .worker => false

def Stage.hold : Stage → Option Hold
  | .status | .unlink => some .requeue
  | .lock | .link => some .relink
  | .unlock => none

def Back.aid : Back → Option Aid
  | .boot | .user _ | .linked _ => some .waking
  | .worker => some .working
  | .timeout _ | .sched => none

def Stage.aid (b : Back) : Stage → Option Aid
  | .status | .unlink => b.aid
  | .lock | .link => if b.own then none else some .linking
  | .unlock => none

/-- What the thread does with its task `t`: it runs, or has just run, or is being put on the run queue. -/
def Pc.hold (t : Tid) : Pc → Option Hold
  | .boot | .pick | .work _ | .wild => none
  | .picked u => if u = t then some .picked else none
  | .dispatch u => if u = t then some .dispatch else none
  | .user u => if u = t then some .runs else none
  | .linked u => if u = t then some .linked else none
  | .blocked u => if u = t then some .blocked else none
  | .leaving u => if u = t then some .leaving else none
  | .handle u => if u = t then some .handle else none
  | .destroy u => if u = t then some .destroy else none
  | .enq u g b => (b.hold t).or (if u = t ∧ b.own = true then g.hold else none)

/-- What the thread does for the task `t` of any thread. -/
def Pc.aid (t : Tid) : Pc → Option Aid
  | .work u => if u = t then some .working else none
  | .enq u g b => if u = t then g.aid b else none
  | _ => none

/-- The thread is in `RR_enqueue` of the task, between `list_delete` and `list_add_after`. -/
def Pc.between (t : Tid) : Pc → Bool
  | .enq u .lock _ | .enq u .link _ => decide (u = t)
  | _ => false

/-! ### The conditions -/

/-- No task is taken off the run queue while a thread that took it off a wait list is inside `co_resume` of it,
and no two threads are in `RR_enqueue` of one task behind `list_delete`. -/
def Pc.settled (place : R → Pc) : Pc → Prop
  | .picked u => ∀ r, (place r).aid u = none
  | .enq u .unlink _ => ∀ r, (place r).between u = false
  | _ => True

/-- No task waits for the descriptor. -/
def Shared.Unwatched (s : Shared R) (fd : ℕ) : Prop := ∀ u < s.created, fd ∉ (s.watch u).fds

/-- The accesses are settled, no two tasks wait for one descriptor at a time, and a task waits for something. -/
def orderly (s : Shared R) (place : R → Pc) : Act R → Prop
  | .next r => (place r).settled place
  | .task _ (.sleep w timed ps) => (∀ q ∈ ps, s.Unwatched q.fd) ∧
      (w ≠ none ∨ ∃ q ∈ ps, q.added = true ∨ timed = false ∧ q.link = true)
  | .task _ (.failPoll fd) => s.Unwatched fd
  | _ => True

instance [Fintype R] (place : R → Pc) : ∀ p : Pc, Decidable (p.settled place)
  | .picked u => inferInstanceAs (Decidable (∀ r, (place r).aid u = none))
  | .enq u .unlink _ => inferInstanceAs (Decidable (∀ r, (place r).between u = false))
  | .enq _ .status _ | .enq _ .lock _ | .enq _ .link _ | .enq _ .unlock _ => isTrue trivial
  | .boot | .pick | .dispatch _ | .user _ | .linked _ | .blocked _ | .leaving _ | .handle _ | .destroy _
  | .work _ | .wild => isTrue trivial

instance (s : Shared R) (fd : ℕ) : Decidable (s.Unwatched fd) :=
  inferInstanceAs (Decidable (∀ u < s.created, fd ∉ (s.watch u).fds))

instance [Fintype R] (s : Shared R) (place : R → Pc) : ∀ a : Act R, Decidable (orderly s place a)
  | .next r => inferInstanceAs (Decidable ((place r).settled place))
  | .task _ (.sleep w timed ps) => inferInstanceAs (Decidable ((∀ q ∈ ps, s.Unwatched q.fd) ∧
      (w ≠ none ∨ ∃ q ∈ ps, q.added = true ∨ timed = false ∧ q.link = true)))
  | .task _ (.failPoll fd) => inferInstanceAs (Decidable (s.Unwatched fd))
  | .task _ (.wake _) | .task _ (.expire _) | .task _ .await | .task _ .yield | .task _ .exit
  | .task _ .create => isTrue trivial
  | .create _ | .schedule _ | .hire _ _ | .picknext _ | .event _ _ => isTrue trivial

/-- A state of the threads, with their operations in progress. -/
abbrev St (R : Type) := Agents.Fine R (Shared R) Pc (Field × Node (Head R) Tid) (Node (Head R) Tid)

/-- Between operations. -/
abbrev Coarse (R : Type) := Agents.Coarse R (Shared R) Pc (Field × Node (Head R) Tid) (Node (Head R) Tid)

/-- The operations do not race, and are orderly. -/
def disciplined (s : St R) (a : Agents.FineAct R (Act R)) : Prop :=
  (threads R).raceFree s a ∧ Agents.meets orderly s a

instance [Fintype R] (s : St R) (a : Agents.FineAct R (Act R)) : Decidable (disciplined s a) :=
  inferInstanceAs (Decidable ((threads R).raceFree s a ∧ Agents.meets orderly s a))

end Libcask.Threads
