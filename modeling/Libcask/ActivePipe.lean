import Libcask.RunQueue
import Libcask.Transition

/-! # A scheduler thread that is woken by other threads

One thread runs `schedule` (`task_sched.c`) with `RR_picknext` (`sched_RR.c`); the threads of a type
`R` put tasks on its run queue and then write a byte to its active pipe (`sched_rq_enqueue`,
`_await_task`).  Enqueueing, dequeueing, a read or write of the pipe and `epoll_wait` are atomic;
between any two of them, and between the reads and writes of `RR_picknext`, the threads interleave.
The pipe is never full.

The active task (`activeTask`) reads the pipe.  It is the only task whose code matters here: any
other task may be resumed at any time, by the running task, by an event or by another thread, and may
yield, block or exit whenever it runs.

`RR_picknext` reads `run_list.prev` and tests it in two accesses.  When the queue is empty at the read
and a thread enqueues before the test, the list head is taken for a task (`Pc.wild`): the process
is lost, and there is no next step. -/

namespace Libcask.Active

/-- The task that `init_active_task` creates. -/
def activeTask : Tid := 1

/-- The run list: its head, and the `run_link` of every task. -/
abbrev Link := Node Unit Tid

/-- `&rq->run_list`. -/
def runList : Link := .head ()

/-- What `epoll_wait` reports: the read end of the pipe, or another descriptor with the task that
waits for it. -/
inductive Event where
  | pipe
  | other (t : Tid)
deriving DecidableEq, Repr

/-- The next access of the scheduler thread. -/
inductive Pc where
  /-- `schedule`: the task that ran last is handled. -/
  | handle (t : Tid)
  /-- `RR_picknext`: `ls` is read before the loop. -/
  | readLast
  /-- Inside `epoll_wait`. -/
  | epollWait (ls : Link)
  /-- `event_wait`: the events that are still to be handled. -/
  | events (rest : List Event)
  /-- No event: `list_empty(ls)`. -/
  | checkEmpty (ls : Link)
  /-- `delay_event`. -/
  | delay (ms : ℕ)
  /-- `ls` is read again, and tested. -/
  | reread
  | test (ls : Link)
  | dequeue (t : Tid)
  | running (t : Tid)
  /-- The list head was taken for a task. -/
  | wild
deriving DecidableEq, Repr

/-- Where the active task goes on. -/
inductive ActivePc where
  /-- It has not opened the pipe yet. -/
  | openPipe
  /-- The hooked `read`: the first attempt, and `event_poll` up to and after its context switch. -/
  | read | addEvents | ioYield | deleteEvents
  /-- The second attempt. -/
  | readAgain
  /-- The pipe is closed. -/
  | closed
deriving DecidableEq, Repr

inductive Status where
  | runnable | blocked | killed
deriving DecidableEq, Repr

/-- The scheduler thread and what it shares with the other threads.  `pipe` is the number of bytes in
the pipe while it is open; `registered` tells whether its read end is in the epoll set; `writing r`
tells that the thread `r` has enqueued a task and not written its byte yet. -/
structure St (R : Type) where
  pc : Pc
  links : Links Link
  status : Tid → Status
  timeout : ℕ
  pipe : Option ℕ
  registered : Bool
  active : ActivePc
  writing : R → Bool

variable {R : Type} [DecidableEq R]

namespace St

/-- `policy->enqueue`. -/
def enqueue (s : St R) (t : Tid) : St R := { s with links := rrEnqueue () s.links t }

def setStatus (s : St R) (t : Tid) (st : Status) : St R :=
  { s with status := Function.update s.status t st }

/-- `sched_rq_enqueue`, on the thread itself. -/
def schedRqEnqueue (s : St R) (t : Tid) : St R := (s.setStatus t .runnable).enqueue t

def goto (s : St R) (p : Pc) : St R := { s with pc := p }

/-- The pipe's read end would be reported. -/
def pipeReady (s : St R) : Bool := s.registered && s.pipe.any fun n => n ≠ 0

/-- One event: its descriptor leaves the epoll set and its task is resumed. -/
def handleEvent (s : St R) : Event → St R
  | .pipe => { s with registered := false }.schedRqEnqueue activeTask
  | .other t => s.schedRqEnqueue t

/-- The next access of the scheduler thread outside of `epoll_wait` and of the tasks. -/
def sched (s : St R) : Option (St R) :=
  match s.pc with
  | .handle t =>
      match s.status t with
      | .runnable => some ((s.schedRqEnqueue t).goto .readLast)
      | .killed => some ({ s with links := ListOps.delete s.links t }.goto .readLast)
      | .blocked => some (s.goto .readLast)
  | .readLast => some (s.goto (.epollWait (listPrev s.links runList)))
  | .events [] => some (s.goto (.delay 0))
  | .events (e :: rest) => some ((s.handleEvent e).goto (.events rest))
  | .checkEmpty ls => some (s.goto (.delay (if listEmpty s.links ls then 1000 * 60 else 0)))
  | .delay ms => some ({ s with timeout := ms }.goto .reread)
  | .reread => some (s.goto (.test (listPrev s.links runList)))
  | .test ls =>
      if listEmpty s.links ls then some (s.goto (.epollWait ls))
      else
        match ls with
        | .head _ => some (s.goto .wild)
        | .elem t => some (s.goto (.dequeue t))
  | .dequeue t =>
      some (({ s with links := rrDequeue s.links t }.setStatus t .runnable).goto (.running t))
  | .epollWait _ | .running _ | .wild => none

/-- `epoll_wait` returns the events `es`.  It returns none only if there are none. -/
def epollWait (s : St R) (es : List Event) : Option (St R) :=
  match s.pc with
  | .epollWait ls =>
      match es with
      | [] => if s.pipeReady then none else some (s.goto (.checkEmpty ls))
      | e :: rest =>
          if es.count .pipe ≤ (if s.pipeReady then 1 else 0) ∧ .other activeTask ∉ es then
            some (s.goto (.events (e :: rest)))
          else none
  | _ => none

/-- A `read` of 256 bytes of the pipe: what is left, unless the pipe is empty. -/
def readPipe (s : St R) : Option (St R) :=
  match s.pipe with
  | some (n + 1) => some { s with pipe := some (n + 1 - 256) }
  | some 0 | none => none

/-- The next access of the active task while it runs. -/
def activeStep (s : St R) : St R :=
  match s.active with
  | .openPipe => { s with pipe := some 0, active := .read }
  | .read =>
      match s.readPipe with
      | some s' => s'
      | none => { s with active := .addEvents }
  | .addEvents => { s with registered := true, active := .ioYield }
  | .ioYield => ({ s with active := .deleteEvents }.setStatus activeTask .blocked).goto
      (.handle activeTask)
  | .deleteEvents => { s with registered := false, active := .readAgain }
  | .readAgain =>
      match s.readPipe with
      | some s' => { s' with active := .read }
      -- the loop of `_active_task` ends
      | none => { s with pipe := none, active := .closed }
  | .closed => (s.setStatus activeTask .killed).goto (.handle activeTask)

end St

/-- What a running task other than the active one does: it resumes a task, sets its own status, and
switches to the scheduler. -/
inductive TaskAct where
  | resume (t : Tid)
  | setStatus (st : Status)
  | switch
deriving DecidableEq, Repr

inductive Act (R : Type) where
  | sched
  | epollWait (es : List Event)
  | active
  | task (u : TaskAct)
  /-- Another thread enqueues a task, by `sched_rq_enqueue` or (`await`) by `_await_task`. -/
  | enqueue (r : R) (t : Tid) (await : Bool)
  /-- `sched_active_event`. -/
  | write (r : R)
deriving DecidableEq, Repr

def taskStep (s : St R) (t : Tid) : TaskAct → Option (St R)
  | .resume u => if u = activeTask then none else some (s.schedRqEnqueue u)
  | .setStatus st => some (s.setStatus t st)
  | .switch => some (s.goto (.handle t))

def remoteEnqueue (s : St R) (r : R) (t : Tid) (await : Bool) : St R :=
  let s := { s with writing := Function.update s.writing r true }
  if await then s.enqueue t else s.schedRqEnqueue t

def schedActiveEvent (s : St R) (r : R) : St R :=
  { s with writing := Function.update s.writing r false, pipe := s.pipe.map (· + 1) }

def step (s : St R) : Act R → Option (St R)
  | .sched => s.sched
  | .epollWait es => s.epollWait es
  | .active => if s.pc = .running activeTask then some s.activeStep else none
  | .task u =>
      match s.pc with
      | .running t => if t = activeTask then none else taskStep s t u
      | _ => none
  | .enqueue r t await =>
      if s.writing r = true ∨ t = activeTask then none else some (remoteEnqueue s r t await)
  | .write r => if s.writing r then some (schedActiveEvent s r) else none

/-- The thread enters `schedule`: the timeout task, the active task and `n` further tasks have been
created. -/
def start (n : ℕ) : St R where
  pc := .readLast
  links := (List.range (n + 2)).foldl (rrEnqueue ()) ListOps.empty
  status := fun _ => .runnable
  timeout := 0
  pipe := none
  registered := false
  active := .openPipe
  writing := fun _ => false

def system (R : Type) [DecidableEq R] : TS (St R) (Act R) where
  init s := ∃ n, s = start n
  step := step

end Libcask.Active
