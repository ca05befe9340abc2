import Libcask.RunQueue

/-! # File descriptors, the epoll set and the time wheel

The state that `inner_fd.c`, `event.c`, `time_wheel.c`, `timer.c` and `co_poll` share (`Io`): the
table of `inner_fd` records, the kernel's epoll set, and the time wheel, on whose slots the links of
the records are.  The functions here are the parts of the source's functions between two context
switches; which task runs is left to the scheduler.

The answers of the kernel are arguments: whether `epoll_ctl` adds the descriptor, whether
`timerfd_create` and `timerfd_settime` succeed.  Taking an open descriptor out of the epoll set fails
only with `ENOENT`, which `delete_events` does not count as a failure. -/

namespace Libcask.Sched

/-- A descriptor: a socket or pipe, a timer of `timer.c`, or the timer of the time wheel. -/
inductive Fd where
  | sock (n : ℕ)
  | timer (n : ℕ)
  | wheelTimer
deriving DecidableEq, Repr

/-- A set of epoll events. -/
structure Events where
  epollin : Bool := false
  epollout : Bool := false
  epollerr : Bool := false
  epollrdhup : Bool := false
  epollhup : Bool := false
  epollet : Bool := false
deriving DecidableEq, Repr

/-- The bits of `inner_fd.error`. -/
structure IError where
  timeout : Bool := false
  read : Bool := false
  write : Bool := false
  rdhup : Bool := false
  err : Bool := false
  hup : Bool := false
deriving DecidableEq, Repr

/-- `IENONE`. -/
def ieNone : IError := {}

def eventsToError (e : Events) : IError where
  read := e.epollin
  write := e.epollout
  err := e.epollerr
  rdhup := e.epollrdhup
  hup := e.epollhup

/-- An `inner_fd`; its link is in `Io.wheel`. -/
structure InnerFd where
  task : Option Tid
  timeout : ℤ
  error : IError
deriving DecidableEq, Repr

def fdTimeout : ℤ := 60

/-- The slots of the wheel that `init_epoll_timer` makes. -/
def wheelSize : ℕ := 600

/-- An entry of the array that `co_poll` gets; it names a socket or pipe. -/
structure PollFd where
  fd : ℕ
  events : Events
  revents : Events
deriving DecidableEq, Repr

/-- The inner descriptors, the epoll set and the time wheel.  `socks` and `timers` are the numbers
of descriptors opened so far. -/
structure Io where
  ifd : Fd → Option InnerFd
  epoll : Fd → Option Events
  wheel : Links (Node ℕ Fd)
  loc : ℕ
  socks : ℕ
  timers : ℕ

namespace Io

def setInner (io : Io) (fd : Fd) (r : InnerFd) : Io :=
  { io with ifd := Function.update io.ifd fd (some r) }

def newInnerFd (io : Io) (fd : Fd) : Io :=
  io.setInner fd { task := none, timeout := fdTimeout, error := ieNone }

/-! ### The epoll set -/

def addEvents (io : Io) (fd : Fd) (events : Events) (ok : Bool) : Io :=
  if ok then { io with epoll := Function.update io.epoll fd (some events) } else io

def deleteEvents (io : Io) (fd : Fd) : Io :=
  { io with epoll := Function.update io.epoll fd none }

/-! ### The time wheel -/

def wheelRotate (io : Io) : Io := { io with loc := (io.loc + 1) % wheelSize }

def wheelDeleteElement (io : Io) (fd : Fd) : Io := { io with wheel := ListOps.delete io.wheel fd }

/-- A negative timeout means never. -/
def wheelUpdateElement (io : Io) (fd : Fd) (timeout : ℤ) : Io :=
  if timeout < 0 then io
  else
    let io' := io.wheelDeleteElement fd
    { io' with
      wheel := ListOps.addAfter io'.wheel ((io.loc + timeout.toNat + 1) % wheelSize) fd }

/-- The link of the descriptor is on the wheel. -/
def OnWheel (io : Io) (fd : Fd) : Prop := ListOps.Linked (H := ℕ) io.wheel fd

instance (io : Io) (fd : Fd) : Decidable (io.OnWheel fd) :=
  inferInstanceAs (Decidable (listEmpty io.wheel (.elem fd) = false))

/-! ### `event_poll` -/

/-- `event_poll` up to the context switch; the flag tells whether there is one.  An unknown
descriptor is a `PANIC`. -/
def eventPoll (io : Io) (t : Tid) (fd : Fd) (events : Events) (ok : Bool) : Option (Io × Bool) :=
  match io.ifd fd with
  | none => none
  | some r =>
      let io := io.setInner fd { r with error := ieNone, task := some t }
      let io := io.addEvents fd events ok
      some (if ok then (io.wheelUpdateElement fd r.timeout, true) else (io.deleteEvents fd, false))

/-- What `event_poll` returns, with `errno`. -/
inductive PollResult where
  | ok | failed | etime | enetdown
deriving DecidableEq, Repr

def pollResult (e : IError) : PollResult :=
  if e.timeout then .etime
  else if e.err then .enetdown
  else if e.hup then .enetdown
  else .ok

/-- `event_poll` after the context switch. -/
def eventPollReturn (io : Io) (fd : Fd) : Option (Io × PollResult) :=
  match io.ifd fd with
  | none => none
  | some r => some ((io.wheelDeleteElement fd).deleteEvents fd, pollResult r.error)

/-! ### Timers -/

def openTimer (io : Io) : Io × Fd :=
  ({ io with timers := io.timers + 1 }.setInner (.timer io.timers)
    { task := none, timeout := -1, error := ieNone }, .timer io.timers)

def setTimer (io : Io) (t : Tid) (fd : Fd) (set added : Bool) : Option Io :=
  if set then
    match io.ifd fd with
    | none => none
    | some r =>
        some ((io.setInner fd { r with task := some t, error := ieNone }).addEvents fd
          { epollin := true, epollet := true } added)
  else some io

def isTimeoutTimer (io : Io) (fd : Fd) : Bool :=
  match io.ifd fd with
  | none => false
  | some r => r.error.read

/-- `close` and `delete_inner_fd`: the kernel takes a closed descriptor out of its epoll set. -/
def close (io : Io) (fd : Fd) : Io :=
  let io := io.wheelDeleteElement fd
  { io with ifd := Function.update io.ifd fd none, epoll := Function.update io.epoll fd none }

/-- The answers of the kernel when a timer is opened and set. -/
structure TimerCall where
  opened : Bool
  set : Bool
  added : Bool
deriving DecidableEq, Repr

/-- `open_timer` and `set_timer`, whose results `co_poll` and `co_cond_wait_till` do not check. -/
def startTimer (io : Io) (t : Tid) (k : TimerCall) : Option (Io × Option Fd) :=
  if k.opened then
    let (io, fd) := io.openTimer
    (io.setTimer t fd k.set k.added).map fun io => (io, some fd)
  else some (io, none)

/-- `is_timeout_timer` and `close_timer`. -/
def stopTimer (io : Io) : Option Fd → Io × Bool
  | none => (io, false)
  | some fd => (io.close fd, io.isTimeoutTimer fd)

/-! ### `co_poll` -/

/-- The first loop of `co_poll`: the descriptors are added to the epoll set, and to the wheel if the
poll has no timeout of its own. -/
def coPollAdd (t : Tid) (timed : Bool) : Io → List (PollFd × Bool) → Option Io
  | io, [] => some io
  | io, (p, ok) :: fds =>
      match io.ifd (.sock p.fd) with
      | none => none
      | some r =>
          let io := io.setInner (.sock p.fd) { r with task := some t, error := ieNone }
          let io := io.addEvents (.sock p.fd) p.events ok
          coPollAdd t timed (if timed then io else io.wheelUpdateElement (.sock p.fd) r.timeout) fds

/-- The events a recorded error stands for. -/
def errorToEvents (e : IError) : Events where
  epollin := e.read
  epollout := e.write
  epollerr := e.err
  epollrdhup := e.rdhup
  epollhup := e.hup

/-- The second loop of `co_poll`.  The array is `done`, the entries it has passed, and the rest; the
entry of every descriptor with an event is copied to the index `j`. -/
def coPollCollect (timed fired : Bool) :
    Io → List PollFd → ℕ → List PollFd → Option (Io × List PollFd × ℕ)
  | io, done, j, [] => some (io, done, j)
  | io, done, j, p :: rest =>
      match io.ifd (.sock p.fd) with
      | none => none
      | some r =>
          let io := if timed then io else io.wheelDeleteElement (.sock p.fd)
          let io := io.deleteEvents (.sock p.fd)
          if r.error = ieNone then
            let io := if timed && fired then
                io.setInner (.sock p.fd) { r with error := { ieNone with timeout := true } }
              else io
            coPollCollect timed fired io (done ++ [{ p with revents := {} }]) j rest
          else
            let q := { p with revents := errorToEvents r.error }
            coPollCollect timed fired io ((done ++ [q]).set j q) (j + 1) rest

end Io

end Libcask.Sched
