import Libcask.CInt
import Libcask.InnerFd
import Libcask.Transition

/-! # One scheduler thread

The scheduler loop of `task_sched.c` with the tasks of one thread: they yield, exit, create tasks,
block on mutexes, conditions, semaphores and descriptors, and resume each other.  `Queues` are the
run links and the state of the tasks as the scheduler sees them; `Io` (`InnerFd.lean`) is what the
event loop sees.

Between two context switches a task runs alone, so its calls are single steps up to the next switch;
`Cont` says where a task that lost control inside a call goes on.  The loops over a list
(`co_cond_broadcast`, the timeout task) are one step for each pass, with the loop variable in `Cont`.
The steps of the scheduler loop are the handling of the task that ran last, one step for each event
that `epoll_wait` reports, and the dispatch of the next task.

The state begins after `current_sched`: task 0 is the timeout task, task 1 is the active task, which
reads a pipe like any other task.  A `PANIC` or a null dereference has no successor state. -/

namespace Libcask.Sched

/-! ### Tasks and their links -/

/-- The lists a `run_link` can be on. -/
inductive Head where
  | runList
  | mutexWait (m : ℕ)
  | condWait (c : ℕ)
  | semWait (i : ℕ)
deriving DecidableEq, Repr

/-- `task_status_t`. -/
inductive Status where
  | ready | runnable | ioBlock | sysBlock | sleep | killed | dead
deriving DecidableEq, Repr

/-- Who has control: the scheduler loop, a task, or the loop again, which still has to handle the
task that ran last. -/
inductive Phase where
  | loop
  | running (t : Tid)
  | handle (t : Tid)
deriving DecidableEq, Repr

/-- The run queue, the wait lists and the states of the tasks.  `created` is the number of tasks
created so far; `exited` and `destroyed` are history. -/
structure Queues where
  phase : Phase
  links : Links (Node Head Tid)
  status : Tid → Status
  taskNum : UInt64
  created : ℕ
  exited : List Tid
  destroyed : List Tid

namespace Queues

def setStatus (q : Queues) (t : Tid) (st : Status) : Queues :=
  { q with status := Function.update q.status t st }

/-- `sched_rq_enqueue` and `RR_enqueue`, on the thread of the task. -/
def schedRqEnqueue (q : Queues) (t : Tid) : Queues :=
  { q.setStatus t .runnable with
    links := rrEnqueue .runList q.links t
    taskNum := q.taskNum + 1 }

def coResume (q : Queues) (t : Tid) : Queues := q.schedRqEnqueue t

/-- `sched_rq_dequeue` and `RR_dequeue`. -/
def schedRqDequeue (q : Queues) (t : Tid) : Queues :=
  { q with links := rrDequeue q.links t, taskNum := q.taskNum - 1 }

/-- The first waiter of a list, if there is one, is unlinked and resumed. -/
def wakeFirst (q : Queues) (h : Head) : Queues :=
  match ListOps.first q.links h with
  | none => q
  | some t => { q with links := ListOps.delete q.links t }.coResume t

/-- `list_add_before` of the wait list and the running task. -/
def addWaiter (q : Queues) (h : Head) (t : Tid) : Queues :=
  { q with links := ListOps.addBefore q.links h t }

/-- `task_create` and `sched_rq_enqueue`. -/
def coCreate (q : Queues) : Queues :=
  { q.setStatus q.created .ready with
    links := listInit q.links (.elem q.created)
    created := q.created + 1 }.schedRqEnqueue q.created

/-- `co_yield`, with the status the task leaves behind. -/
def yield (q : Queues) (t : Tid) (st : Status) : Queues :=
  { q.setStatus t st with phase := .handle t }

/-- `task_exit`. -/
def taskExit (q : Queues) (t : Tid) : Queues :=
  { q.yield t .killed with exited := q.exited ++ [t] }

def taskDestory (q : Queues) (t : Tid) : Queues :=
  { q with links := ListOps.delete q.links t, destroyed := q.destroyed ++ [t] }

/-- The first part of the scheduler loop. -/
def handlePrev (q : Queues) (t : Tid) : Queues :=
  match q.status t with
  | .runnable => { q.schedRqEnqueue t with phase := .loop }
  | .killed => { q.taskDestory t with phase := .loop }
  | _ => { q with phase := .loop }

/-- The second part of the scheduler loop, when `RR_picknext` finds a task. -/
def dispatch (q : Queues) : Option Queues :=
  match rrPicknext .runList q.links with
  | none => none
  | some t => some { (q.schedRqDequeue t).setStatus t .runnable with phase := .running t }

end Queues

/-! ### The calls of the tasks -/

/-- What a call returned. -/
inductive Ret where
  | void
  | int (n : ℤ)
  | event (r : Io.PollResult)
  | poll (n : ℕ) (fds : List PollFd)
deriving DecidableEq, Repr

/-- Who called `event_poll`: a hooked call of the task itself, `co_sleep` through the hooked `read`
of its timer, or the timeout task through its `read`. -/
inductive Caller where
  | user
  | sleep
  | timeoutTask
deriving DecidableEq, Repr

/-- Where a task goes on: in its own code, behind a context switch inside a call, or at a loop. -/
inductive Cont where
  | user
  /-- The loop of `co_mutex_lock`; the value is what the call that locks is going to return. -/
  | mutexLock (m : ℕ) (r : Ret)
  | condWait (m : ℕ)
  | condWaitTill (m : ℕ) (tfd : Option Fd)
  | semWait (i : ℕ)
  | eventPoll (fd : Fd) (caller : Caller)
  | coPoll (fds : List PollFd) (timed : Bool) (tfd : Option Fd)
  /-- The loop of `co_cond_broadcast`, with its variable `ls`. -/
  | broadcast (ls : Node Head Tid)
  /-- The `read` of the timeout task. -/
  | timeoutRead
  /-- The inner loop of the timeout task, with its variable `ls`. -/
  | timeoutList (ls : Node ℕ Fd)
deriving DecidableEq, Repr

/-- The state of the thread. -/
structure St where
  q : Queues
  io : Io
  cont : Tid → Cont
  lock : ℕ → Option Tid
  sem : ℕ → ℤ
  ret : Tid → Ret

namespace St

/-- The call returns to the task's own code. -/
def callReturn (s : St) (t : Tid) (r : Ret) : St :=
  { s with cont := Function.update s.cont t .user, ret := Function.update s.ret t r }

def goto (s : St) (t : Tid) (c : Cont) : St := { s with cont := Function.update s.cont t c }

def coIoYield (s : St) (t : Tid) (c : Cont) : St := { s.goto t c with q := s.q.yield t .ioBlock }

def coSyncYield (s : St) (t : Tid) (c : Cont) : St := { s.goto t c with q := s.q.yield t .sysBlock }

/-! #### Mutex, condition and semaphore -/

/-- The loop of `co_mutex_lock`, with `task_wait_mutex`. -/
def mutexLoop (s : St) (t : Tid) (m : ℕ) (r : Ret) : St :=
  match s.lock m with
  | none => { s with lock := Function.update s.lock m (some t) }.callReturn t r
  | some _ => { s with q := s.q.addWaiter (.mutexWait m) t }.coSyncYield t (.mutexLock m r)

def coMutexLock (s : St) (t : Tid) (m : ℕ) (r : Ret) : Option St :=
  if s.lock m = some t then none else some (s.mutexLoop t m r)

def coMutexTryLock (s : St) (t : Tid) (m : ℕ) : St :=
  match s.lock m with
  | none => { s with lock := Function.update s.lock m (some t) }.callReturn t (.int 1)
  | some u => s.callReturn t (.int (if u = t then 1 else 0))

/-- `co_mutex_unlock`, with `mutex_wakeup_task`. -/
def coMutexUnlock (s : St) (t : Tid) (m : ℕ) : Option St :=
  if s.lock m = some t then
    some { s with lock := Function.update s.lock m none, q := s.q.wakeFirst (.mutexWait m) }
  else none

def coCondWait (s : St) (t : Tid) (c m : ℕ) : Option St :=
  if s.lock m = none then none
  else
    ({ s with q := s.q.addWaiter (.condWait c) t }.coMutexUnlock t m).map
      fun s : St => s.coSyncYield t (.condWait m)

def coCondWaitTill (s : St) (t : Tid) (c m : ℕ) (k : Io.TimerCall) : Option St :=
  if s.lock m = none then none
  else
    match s.io.startTimer t k with
    | none => none
    | some (io, tfd) =>
        ({ s with q := s.q.addWaiter (.condWait c) t, io := io }.coMutexUnlock t m).map
          fun s : St => s.coSyncYield t (.condWaitTill m tfd)

/-- `co_sem_wait`, from the test of its loop on. -/
def coSemWait (s : St) (t : Tid) (i : ℕ) : St :=
  let v := toInt32 (s.sem i - 1)
  let s := { s with sem := Function.update s.sem i v }
  if v < 0 then
    if s.sem i ≥ 0 then s.callReturn t .void
    else { s with q := s.q.addWaiter (.semWait i) t }.coSyncYield t (.semWait i)
  else s.callReturn t .void

def coSemTryWait (s : St) (t : Tid) (i : ℕ) : St :=
  let v := toInt32 (s.sem i - 1)
  let s := { s with sem := Function.update s.sem i v }
  if v < 0 then
    if s.sem i ≥ 0 then s.callReturn t (.int 1)
    else { s with sem := Function.update s.sem i (toInt32 (s.sem i + 1)) }.callReturn t (.int 0)
  else s.callReturn t (.int 1)

def coSemPost (s : St) (t : Tid) (i : ℕ) : St :=
  let v := toInt32 (s.sem i + 1)
  let s := { s with sem := Function.update s.sem i v }
  if v < 0 then
    if s.sem i ≥ 0 then s.callReturn t .void
    else { s with q := s.q.wakeFirst (.semWait i) }.callReturn t .void
  else s.callReturn t .void

/-- `co_cond_signal`: the loop ends after its first pass. -/
def coCondSignal (s : St) (t : Tid) (c : ℕ) : St :=
  { s with q := s.q.wakeFirst (.condWait c) }.callReturn t .void

/-- One pass of the loop of `co_cond_broadcast`. -/
def broadcastLoop (s : St) (t : Tid) (ls : Node Head Tid) : Option St :=
  if listEmpty s.q.links ls then some (s.callReturn t .void)
  else
    match ls with
    | .head _ => none
    | .elem u =>
        some ({ s with q := { s.q with links := ListOps.delete s.q.links u }.coResume u }.goto t
          (.broadcast (listNext s.q.links ls)))

/-! #### Waiting for events -/

/-- The timeout task turns the wheel and enters its inner loop. -/
def timeoutTick (s : St) (t : Tid) : St :=
  let io := s.io.wheelRotate
  { s with io := io }.goto t (.timeoutList (listNext io.wheel (.head io.loc)))

/-- The timeout task cannot read its timer: it closes it and returns. -/
def timeoutExit (s : St) (t : Tid) : St :=
  { s with io := s.io.close .wheelTimer, q := s.q.taskExit t }.goto t .user

/-- One pass of the inner loop of the timeout task. -/
def timeoutLoop (s : St) (t : Tid) (ls : Node ℕ Fd) : Option St :=
  if listEmpty s.io.wheel ls then some (s.goto t .timeoutRead)
  else
    match ls with
    | .head _ => none
    | .elem fd =>
        match s.io.ifd fd with
        | none => none
        | some r =>
            match r.task with
            | none => none
            | some u =>
                let io := s.io.setInner fd { r with error := { r.error with timeout := true } }
                some ({ s with q := s.q.coResume u, io := io.wheelDeleteElement fd }.goto t
                  (.timeoutList (listNext io.wheel ls)))

/-- What the callers of `event_poll` do with its result; `read` tells whether the `read` of the timer
that follows a success gets its 8 bytes. -/
def eventPollDone (s : St) (t : Tid) (fd : Fd) (r : Io.PollResult) (read : Bool) : Caller → St
  | .user => s.callReturn t (.event r)
  | .sleep =>
      if r = .ok ∧ read then { s with io := s.io.close fd }.callReturn t (.int 0)
      else s.callReturn t (.int (-1))
  | .timeoutTask => if r = .ok ∧ read then s.timeoutTick t else s.timeoutExit t

def eventPoll (s : St) (t : Tid) (fd : Fd) (events : Events) (ok : Bool) (caller : Caller) :
    Option St :=
  match s.io.eventPoll t fd events ok with
  | none => none
  | some (io, true) => some ({ s with io := io }.coIoYield t (.eventPoll fd caller))
  | some (io, false) => some ({ s with io := io }.eventPollDone t fd .failed false caller)

/-- The events the hooked `read` waits for. -/
def readEvents : Events := { epollin := true, epollrdhup := true, epollerr := true }

/-- `co_sleep`, for a time that is not zero: `again` tells whether the first `read` of the timer
would block. -/
def coSleep (s : St) (t : Tid) (k : Io.TimerCall) (again ok : Bool) : Option St :=
  if k.opened then
    let (io, fd) := s.io.openTimer
    match io.setTimer t fd k.set k.added with
    | none => none
    | some io =>
        if k.set then
          if again then { s with io := io }.eventPoll t fd readEvents ok .sleep
          else some ({ s with io := io.close fd }.callReturn t (.int 0))
        else some ({ s with io := io }.callReturn t (.int (-1)))
  else none

/-- `co_poll` up to its context switch. -/
def coPoll (s : St) (t : Tid) (fds : List (PollFd × Bool)) (timed : Bool) (k : Io.TimerCall) :
    Option St :=
  match s.io.coPollAdd t timed fds with
  | none => none
  | some io =>
      if timed then
        match io.startTimer t k with
        | none => none
        | some (io, tfd) => some ({ s with io := io }.coIoYield t (.coPoll (fds.map Prod.fst) timed tfd))
      else some ({ s with io := io }.coIoYield t (.coPoll (fds.map Prod.fst) timed none))

/-- `co_poll` after its context switch. -/
def coPollReturn (s : St) (t : Tid) (fds : List PollFd) (timed : Bool) (tfd : Option Fd) :
    Option St :=
  let (io, fired) := s.io.stopTimer tfd
  match io.coPollCollect timed fired [] 0 fds with
  | none => none
  | some (io, array, j) => some ({ s with io := io }.callReturn t (.poll j array))

/-- One event that `epoll_wait` reports to `event_wait`. -/
def eventWait (s : St) (fd : Fd) (e : Events) : Option St :=
  if s.io.epoll fd = none then none
  else
    match s.io.ifd fd with
    | none => none
    | some r =>
        let io := (s.io.setInner fd { r with error := eventsToError e }).deleteEvents fd
        match r.task with
        | none => some { s with io := io }
        | some u => some { s with io := io, q := s.q.coResume u }

/-- The running task goes on behind its context switch, or with the next pass of its loop. -/
def goOn (s : St) (t : Tid) (read : Bool) : Option St :=
  match s.cont t with
  | .user | .timeoutRead => none
  | .mutexLock m r => some (s.mutexLoop t m r)
  | .condWait m => s.coMutexLock t m .void
  | .condWaitTill m tfd =>
      let (io, fired) := s.io.stopTimer tfd
      { s with io := io }.coMutexLock t m (.int (if fired then 1 else 0))
  | .semWait i => some (s.coSemWait t i)
  | .eventPoll fd caller =>
      match s.io.eventPollReturn fd with
      | none => none
      | some (io, r) => some ({ s with io := io }.eventPollDone t fd r read caller)
  | .coPoll fds timed tfd => s.coPollReturn t fds timed tfd
  | .broadcast ls => s.broadcastLoop t ls
  | .timeoutList ls => s.timeoutLoop t ls

end St

/-! ### The system -/

/-- What the `read` of the timeout task gives before it waits. -/
inductive ReadResult where
  | full | again | error
deriving DecidableEq, Repr

/-- What a task does in its own code. -/
inductive UserAct where
  | create | yield | exit
  | lock (m : ℕ) | tryLock (m : ℕ) | unlock (m : ℕ)
  | condWait (c m : ℕ) | condWaitTill (c m : ℕ) (k : Io.TimerCall)
  | signal (c : ℕ) | broadcast (c : ℕ)
  | semWait (i : ℕ) | semTryWait (i : ℕ) | semPost (i : ℕ)
  | socket | listen (n : ℕ)
  | eventPoll (n : ℕ) (events : Events) (ok : Bool)
  | coPoll (fds : List (PollFd × Bool)) (timed : Bool) (k : Io.TimerCall)
  | sleep (k : Io.TimerCall) (again ok : Bool)
deriving DecidableEq, Repr

/-- The actions: three of the scheduler loop, and those of the running task. -/
inductive Act where
  | handlePrev
  | event (fd : Fd) (e : Events)
  | dispatch
  | goOn (read : Bool)
  | timeoutRead (r : ReadResult) (ok : Bool)
  | user (u : UserAct)
deriving DecidableEq, Repr

def userAct (s : St) (t : Tid) : UserAct → Option St
  | .create => some { s with q := s.q.coCreate }
  | .yield => some { s with q := s.q.yield t (s.q.status t) }
  | .exit => some { s with q := s.q.taskExit t }
  | .lock m => s.coMutexLock t m .void
  | .tryLock m => some (s.coMutexTryLock t m)
  | .unlock m => s.coMutexUnlock t m
  | .condWait c m => s.coCondWait t c m
  | .condWaitTill c m k => s.coCondWaitTill t c m k
  | .signal c => some (s.coCondSignal t c)
  | .broadcast c => some (s.goto t (.broadcast (listNext s.q.links (.head (.condWait c)))))
  | .semWait i => some (s.coSemWait t i)
  | .semTryWait i => some (s.coSemTryWait t i)
  | .semPost i => some (s.coSemPost t i)
  | .socket =>
      some { s with io := { s.io with socks := s.io.socks + 1 }.newInnerFd (.sock s.io.socks) }
  | .listen n =>
      match s.io.ifd (.sock n) with
      | none => some s
      | some r => some { s with io := s.io.setInner (.sock n) { r with timeout := -1 } }
  | .eventPoll n events ok => s.eventPoll t (.sock n) events ok .user
  | .coPoll fds timed k => s.coPoll t fds timed k
  | .sleep k again ok => s.coSleep t k again ok

def timeoutRead (s : St) (t : Tid) (ok : Bool) : ReadResult → Option St
  | .full => some (s.timeoutTick t)
  | .again => s.eventPoll t .wheelTimer St.readEvents ok .timeoutTask
  | .error => some (s.timeoutExit t)

def step (s : St) (a : Act) : Option St :=
  match s.q.phase, a with
  | .handle t, .handlePrev => some { s with q := s.q.handlePrev t }
  | .loop, .event fd e => s.eventWait fd e
  | .loop, .dispatch => s.q.dispatch.map fun q => { s with q := q }
  | .running t, .goOn read => s.goOn t read
  | .running t, .timeoutRead r ok =>
      if s.cont t = .timeoutRead then timeoutRead s t ok r else none
  | .running t, .user u => if s.cont t = .user then userAct s t u else none
  | _, _ => none

/-- No task has been created yet. -/
def Queues.empty : Queues where
  phase := .loop
  links := ListOps.empty
  status := fun _ => .ready
  taskNum := 0
  created := 0
  exited := []
  destroyed := []

/-- `init_epoll_timer` without its task. -/
def Io.start : Io where
  ifd := Function.update (fun _ => none) .wheelTimer
    (some { task := some 0, timeout := -1, error := ieNone })
  epoll := fun _ => none
  wheel := ListOps.empty
  loc := 0
  socks := 0
  timers := 0

/-- The thread enters `schedule`: the timeout task, the active task and `n` further tasks have been
created, and the semaphores initialised with some counts. -/
def start (n : ℕ) (count : ℕ → ℕ) : St where
  q := Queues.coCreate^[n + 2] Queues.empty
  io := Io.start
  cont := Function.update (fun _ => .user) 0 .timeoutRead
  lock := fun _ => none
  sem := fun i => toInt32 (count i)
  ret := fun _ => .void

def system : TS St Act where
  init s := ∃ n count, s = start n count
  step := step

end Libcask.Sched
