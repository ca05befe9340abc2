import Libcask.RunQueue
import Libcask.Deque
import Libcask.Transition

/-! # Channels

`chan.c`, with the parts of `co_mutex.c`, `co_cond.c` and of the scheduler it runs on, for the
tasks of one scheduler thread.  Such tasks interleave only where they yield, so a *step* is all
that one task does from the moment it gets control until it gives it up or is back in its own
code; what is left of a blocked call is named by a `Wait` or a `Point`.

The code is written for any implementation of the run queue and the wait lists: on
`Links (Node Head Tid)` it manipulates the `run_link` fields as the source does, on
`View Head Tid` it works on plain lists.  A `PANIC` is an error of the `Except` monad.

* `chanSend`, `chanRecv`: the calls, and `goOn`, what a blocked call does once it is woken and
  holds the mutex again.
* `system nelems elemSize`: the transition system of any number of tasks that use one channel, in
  any order, and are otherwise free to yield, block, be woken, create tasks and exit. -/

namespace Libcask.Chan

/-- The list heads: the run queue, and the wait lists of the mutex and the two conditions. -/
inductive Head where
  | runList | mutexWait | notFull | notEmpty
deriving DecidableEq, Repr

/-- A message: the number of the `chan_send` call it comes from, the pointer given to the call
(`none` for `NULL`), and whether the queue holds a copy of what it points to. -/
structure Msg (α : Type) where
  call : ℕ
  data : Option α
  copied : Bool
deriving DecidableEq, Repr

/-- The four `co_cond_wait` calls of `chan.c`, with the local variables of the function. -/
inductive Wait (α : Type) where
  | nobufferSend (m : Msg α) (sent : Bool)
  | nobufferRecv
  | bufferSend (m : Msg α)
  | bufferRecv
deriving DecidableEq, Repr

/-- Where a call goes on once it has locked the mutex.  In all functions but
`chan_nobuffer_send` the first lock leads to the same loop test as a return from
`co_cond_wait`. -/
inductive Point (α : Type) where
  | sendStart (m : Msg α)
  | loop (w : Wait α)
deriving DecidableEq, Repr

/-- What a task is doing: its own code, a blocking call that is not about the channel, a wait on
a condition of the channel, a wait for its mutex; or it has exited (or is not created yet). -/
inductive Ctl (α : Type) where
  | idle
  | elsewhere
  | cond (w : Wait α)
  | mutex (p : Point α)
  | finished
deriving DecidableEq, Repr

/-- Everything but the lists.  The last four fields are history: the number of `chan_send` calls
made, the messages pushed, the messages popped with their receivers, and the calls of `chan_send`
that have returned. -/
structure Data (α : Type) where
  lock : Option Tid
  msgs : Deque (Msg α)
  nelems : ℕ
  elemSize : ℕ
  ctl : Tid → Ctl α
  current : Option Tid
  created : ℕ
  calls : ℕ
  pushed : List (Msg α)
  popped : List (Tid × Msg α)
  returned : List ℕ

/-- A channel with the tasks that use it. -/
structure St (L α : Type) extends Data α where
  lists : L

variable {L α : Type} [ListOps L Head Tid]

/-! ### Mutex and conditions -/

/-- `co_resume`: put the task on the run queue. -/
def coResume (s : St L α) (t : Tid) : St L α := { s with lists := rrEnqueue .runList s.lists t }

/-- `co_sync_yield`: give control back to the scheduler; `c` is where the task stands. -/
def coSyncYield (s : St L α) (me : Tid) (c : Ctl α) : St L α :=
  { s with ctl := Function.update s.ctl me c, current := none }

def coMutexLocked (s : St L α) : Bool := s.lock.isSome

def mutexWakeupTask (s : St L α) : St L α :=
  if coMutexLocked s then s else { s with lists := wakeFirst .runList .mutexWait s.lists }

def coMutexUnlock (s : St L α) (me : Tid) : Except String (St L α) :=
  if s.lock ≠ some me then .error "mutex is not locked by current task"
  else if !coMutexLocked s then .ok s
  else .ok (mutexWakeupTask { s with lock := none })

/-- `task_wait_mutex`; the recheck of the lock finds it as the failed lock attempt left it. -/
def taskWaitMutex (s : St L α) (me : Tid) (p : Point α) : St L α :=
  coSyncYield { s with lists := ListOps.addBefore s.lists .mutexWait me } me (.mutex p)

/-- `co_cond_wait`, up to the point where the task gives up control. -/
def coCondWait (s : St L α) (h : Head) (me : Tid) (w : Wait α) : Except String (St L α) :=
  if !coMutexLocked s then .error "cond_wait mutex is not locked"
  else do
    let s ← coMutexUnlock { s with lists := ListOps.addBefore s.lists h me } me
    return coSyncYield s me (.cond w)

/-- `co_cond_signal`: `_co_cond_signal_all` with `all = 0`. -/
def coCondSignal (s : St L α) (h : Head) : St L α :=
  { s with lists := wakeFirst .runList h s.lists }

/-! ### The message queue -/

def chanMsgsEmpty (s : St L α) : Bool := s.msgs.isEmpty

/-- The `int` returned by `queue_size` is compared with the `unsigned int` field `nelems`. -/
def chanMsgsFull (s : St L α) : Bool :=
  toUInt32 s.msgs.size = s.nelems || (s.nelems = 0 && s.msgs.size = 1)

def chanPushMsg (s : St L α) (msg : Msg α) : St L α :=
  let nmsg := if s.elemSize ≠ 0 ∧ msg.data.isSome then { msg with copied := true } else msg
  { s with msgs := s.msgs.pushBack nmsg, pushed := s.pushed ++ [nmsg] }

/-- `*msg = chan_pop_msg(chan)` in the task `me`. -/
def chanPopMsg (s : St L α) (me : Tid) : St L α :=
  { s with
    msgs := s.msgs.popFront.2
    popped := s.popped ++ (s.msgs.popFront.1.map fun m => (me, m)).toList }

/-- The return to the caller. -/
def callReturn (s : St L α) (me : Tid) : St L α :=
  { s with ctl := Function.update s.ctl me .idle }

/-- The return from `chan_send`. -/
def sendReturn (s : St L α) (me : Tid) (msg : Msg α) : St L α :=
  { callReturn s me with returned := s.returned ++ [msg.call] }

/-! ### Sending and receiving -/

/-- The inner loop of `chan_nobuffer_send` with `sent = 1`, and the way out. -/
def nobufferSendSent (s : St L α) (me : Tid) (msg : Msg α) : Except String (St L α) :=
  if !chanMsgsEmpty s then coCondWait s .notFull me (.nobufferSend msg true)
  else do
    let s ← coMutexUnlock s me
    return sendReturn s me msg

/-- The body of the `do` loop of `chan_nobuffer_send`, which is only run with `sent = 0`. -/
def nobufferSendDo (s : St L α) (me : Tid) (msg : Msg α) : Except String (St L α) :=
  if chanMsgsEmpty s then
    nobufferSendSent (coCondSignal (chanPushMsg s msg) .notEmpty) me msg
  else coCondWait s .notFull me (.nobufferSend msg false)

/-- `chan_nobuffer_send` from `if(sent) break;` on: a task that has pushed leaves both loops
without another look at the queue. -/
def nobufferSendWoken (s : St L α) (me : Tid) (msg : Msg α) (sent : Bool) :
    Except String (St L α) :=
  if sent then do
    let s ← coMutexUnlock s me
    return sendReturn s me msg
  else if !chanMsgsEmpty s then coCondWait s .notFull me (.nobufferSend msg false)
  else nobufferSendDo s me msg

def nobufferRecvWhile (s : St L α) (me : Tid) : Except String (St L α) :=
  if chanMsgsEmpty s then coCondWait s .notEmpty me .nobufferRecv
  else do
    let s := coCondSignal (coCondSignal (chanPopMsg s me) .notFull) .notFull
    let s ← coMutexUnlock s me
    return callReturn s me

def bufferSendWhile (s : St L α) (me : Tid) (msg : Msg α) : Except String (St L α) :=
  if chanMsgsFull s then coCondWait s .notFull me (.bufferSend msg)
  else do
    let s := coCondSignal (chanPushMsg s msg) .notEmpty
    let s ← coMutexUnlock s me
    return sendReturn s me msg

def bufferRecvWhile (s : St L α) (me : Tid) : Except String (St L α) :=
  if chanMsgsEmpty s then coCondWait s .notEmpty me .bufferRecv
  else do
    let s := coCondSignal (chanPopMsg s me) .notFull
    let s ← coMutexUnlock s me
    return callReturn s me

/-- What a call does once it has locked the mutex. -/
def goOn (s : St L α) (me : Tid) : Point α → Except String (St L α)
  | .sendStart m => nobufferSendDo s me m
  | .loop (.nobufferSend m sent) => nobufferSendWoken s me m sent
  | .loop .nobufferRecv => nobufferRecvWhile s me
  | .loop (.bufferSend m) => bufferSendWhile s me m
  | .loop .bufferRecv => bufferRecvWhile s me

/-- The loop of `co_mutex_lock`, and then the rest `p` of the call. -/
def lockLoop (s : St L α) (me : Tid) (p : Point α) : Except String (St L α) :=
  match s.lock with
  | none => goOn { s with lock := some me } me p
  | some _ => .ok (taskWaitMutex s me p)

/-- `co_mutex_lock`, and then the rest `p` of the call. -/
def coMutexLock (s : St L α) (me : Tid) (p : Point α) : Except String (St L α) :=
  if s.lock = some me then .error "recusive mutex lock" else lockLoop s me p

def chanNobufferSend (s : St L α) (me : Tid) (msg : Msg α) : Except String (St L α) :=
  coMutexLock s me (.sendStart msg)

def chanNobufferRecv (s : St L α) (me : Tid) : Except String (St L α) :=
  coMutexLock s me (.loop .nobufferRecv)

def chanBufferSend (s : St L α) (me : Tid) (msg : Msg α) : Except String (St L α) :=
  coMutexLock s me (.loop (.bufferSend msg))

def chanBufferRecv (s : St L α) (me : Tid) : Except String (St L α) :=
  coMutexLock s me (.loop .bufferRecv)

def chanBuffered (s : St L α) : Bool := s.nelems ≠ 0

/-- `chan_send`; the call gets the next number. -/
def chanSend (s : St L α) (me : Tid) (data : Option α) : Except String (St L α) :=
  let msg := ⟨s.calls, data, false⟩
  let s := { s with calls := s.calls + 1 }
  if chanBuffered s then chanBufferSend s me msg else chanNobufferSend s me msg

def chanRecv (s : St L α) (me : Tid) : Except String (St L α) :=
  if chanBuffered s then chanBufferRecv s me else chanNobufferRecv s me

/-! ### The tasks of one scheduler thread -/

/-- `co_create`: a new task, on the run queue. -/
def coCreate (s : St L α) : St L α :=
  coResume { s with ctl := Function.update s.ctl s.created .idle, created := s.created + 1 }
    s.created

/-- `chan_open`: the two `size_t` arguments are stored in `unsigned int` fields. -/
def chanOpen (nelems elemSize : ℕ) : St L α where
  lock := none
  msgs := .init
  nelems := nelems % 2 ^ 32
  elemSize := elemSize % 2 ^ 32
  ctl := fun _ => .finished
  current := none
  created := 0
  calls := 0
  pushed := []
  popped := []
  returned := []
  lists := ListOps.empty

/-- A new channel and `n` tasks that are ready to run. -/
def start (nelems elemSize : ℕ) : ℕ → St L α
  | 0 => chanOpen nelems elemSize
  | n + 1 => coCreate (start nelems elemSize n)

/-- What can happen next: the scheduler dispatches a task; the running task calls `chan_send` or
`chan_recv`, yields, blocks on something else, creates a task or exits; a task that is blocked on
something else is resumed. -/
inductive Act (α : Type) where
  | dispatch
  | send (data : Option α)
  | recv
  | yield
  | block
  | wake (t : Tid)
  | create
  | exit
deriving DecidableEq, Repr

/-- `RR_picknext` and the switch to the task it chose, which then goes on where it stood. -/
def dispatch (s : St L α) (t : Tid) : Except String (St L α) :=
  let s := { s with lists := rrDequeue s.lists t, current := some t }
  match s.ctl t with
  | .idle | .elsewhere => .ok (callReturn s t)
  | .cond w => coMutexLock s t (.loop w)
  | .mutex p => lockLoop s t p
  | .finished => .error "dispatch of a task that does not exist"

/-- An action of the running task `me`, which is in its own code. -/
def userAct (s : St L α) (me : Tid) : Act α → Except String (St L α)
  | .send data => chanSend s me data
  | .recv => chanRecv s me
  -- `schedule` finds the task runnable and enqueues it again
  | .yield => .ok (coResume (coSyncYield s me .idle) me)
  | .block => .ok (coSyncYield s me .elsewhere)
  | .create => .ok (coCreate s)
  | .exit => .ok (coSyncYield s me .finished)
  | .dispatch | .wake _ => .error "not an action of a task"

def step (s : St L α) (a : Act α) : Option (St L α) :=
  match s.current, a with
  | none, .dispatch => (rrPicknext .runList s.lists).bind fun t => (dispatch s t).toOption
  | none, .wake t =>
      match s.ctl t with
      | .elsewhere => some (coResume s t)
      | _ => none
  | none, _ => none
  | some me, a =>
      match s.ctl me with
      | .idle => (userAct s me a).toOption
      | _ => none

/-- Tasks of one scheduler thread that use one channel. -/
def system (L α : Type) [ListOps L Head Tid] (nelems elemSize : ℕ) : TS (St L α) (Act α) where
  init s := ∃ n, s = start nelems elemSize n
  step := step

end Libcask.Chan
