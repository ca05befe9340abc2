import Libcask.CInt
import Libcask.RunQueue
import Libcask.Transition

/-! # The barrier of `co_bar.h`

`co_bar_wait`, with the parts of `co_mutex.c`, `co_cond.c` and of the scheduler it runs on, for the
tasks of one scheduler thread.  As in `Channel.lean` a step is all that one task does from the moment
it gets control until it gives it up or is back in its own code; only the passes of the loop of
`co_cond_broadcast` are steps of their own, with the loop variable in `Ctl`.

No task gives up control while it holds the mutex, so nobody ever waits for it, and `lock` is free
whenever a call comes to it.  The last arriver unlinks every waiter before it goes on.  From this
`barrier`: calls return only after the counter has reached 0, which is never passed, and when enough
calls have entered and the run queue is empty, nobody is left inside. -/

namespace Libcask.Barrier

/-! ### The code -/

/-- The list heads: the run queue, and the wait lists of the mutex and the condition. -/
inductive Head where
  | runList | mutexWait | condWait
deriving DecidableEq, Repr

/-- Where `co_bar_wait` goes on once it has locked the mutex. -/
inductive Point where
  | first
  | loop
deriving DecidableEq, Repr

/-- What a task is doing: its own code, a blocking call that is not about the barrier, a wait for the
mutex or on the condition, the loop of `co_cond_broadcast`; or it has exited (or is not created
yet). -/
inductive Ctl where
  | idle
  | elsewhere
  | mutex (p : Point)
  | cond
  | broadcast (ls : Node Head Tid)
  | finished
deriving DecidableEq, Repr

/-- The call has not returned. -/
def Ctl.inside : Ctl → Bool
  | mutex _ | cond | broadcast _ => true
  | idle | elsewhere | finished => false

/-- A barrier with the tasks that use it.  The last three fields are history: the calls of
`co_bar_wait`, those that have decremented the counter, and those that have returned. -/
structure St where
  count : ℤ
  lock : Option Tid
  links : Links (Node Head Tid)
  ctl : Tid → Ctl
  current : Option Tid
  created : ℕ
  entered : ℕ
  subtracted : ℕ
  returned : ℕ

namespace St

def goto (s : St) (t : Tid) (c : Ctl) : St := { s with ctl := Function.update s.ctl t c }

def setLinks (s : St) (links : Links (Node Head Tid)) : St := { s with links := links }

def setLock (s : St) (lock : Option Tid) : St := { s with lock := lock }

/-- `co_resume`. -/
def coResume (s : St) (t : Tid) : St := s.setLinks (rrEnqueue .runList s.links t)

/-- `co_sync_yield`: give control back to the scheduler; `c` is where the task stands. -/
def coSyncYield (s : St) (me : Tid) (c : Ctl) : St := { s.goto me c with current := none }

def coMutexLocked (s : St) : Bool := s.lock.isSome

def mutexWakeupTask (s : St) : St :=
  if s.coMutexLocked then s else s.setLinks (wakeFirst .runList .mutexWait s.links)

def coMutexUnlock (s : St) (me : Tid) : Except String St :=
  if s.lock ≠ some me then .error "mutex is not locked by current task"
  else if !s.coMutexLocked then .ok s
  else .ok (s.setLock none).mutexWakeupTask

/-- `task_wait_mutex`; the recheck of the lock finds it as the failed lock attempt left it. -/
def taskWaitMutex (s : St) (me : Tid) (p : Point) : St :=
  (s.setLinks (ListOps.addBefore s.links .mutexWait me)).coSyncYield me (.mutex p)

/-- `co_cond_wait`, up to the point where the task gives up control. -/
def coCondWait (s : St) (me : Tid) : Except String St :=
  if !s.coMutexLocked then .error "cond_wait mutex is not locked"
  else do
    let s ← (s.setLinks (ListOps.addBefore s.links .condWait me)).coMutexUnlock me
    return s.coSyncYield me .cond

/-- The return from `co_bar_wait`. -/
def callReturn (s : St) (me : Tid) : St := { s.goto me .idle with returned := s.returned + 1 }

/-- The label `bar_end`. -/
def barEnd (s : St) (me : Tid) : Except String St := do
  let s ← s.coMutexUnlock me
  return s.callReturn me

/-- The `while` loop of `co_bar_wait`. -/
def barLoop (s : St) (me : Tid) : Except String St :=
  if s.count > 0 then s.coCondWait me else s.barEnd me

/-- One pass of the loop of `co_cond_broadcast`, and what comes after it. -/
def broadcastLoop (s : St) (me : Tid) (ls : Node Head Tid) : Except String St :=
  if listEmpty s.links ls then s.barEnd me
  else
    match ls with
    | .head _ => .error "list_to_task of a list head"
    | .elem t =>
        .ok (((s.setLinks (ListOps.delete s.links t)).coResume t).goto me
          (.broadcast (listNext s.links ls)))

/-- `co_bar_wait` behind its first `co_mutex_lock`. -/
def barFirst (s : St) (me : Tid) : Except String St :=
  if s.count = 0 then s.barEnd me
  else
    let s := { s with count := toInt32 (s.count - 1), subtracted := s.subtracted + 1 }
    if s.count = 0 then .ok (s.goto me (.broadcast (listNext s.links (.head .condWait))))
    else s.barLoop me

/-- What a call does once it has locked the mutex. -/
def goOn (s : St) (me : Tid) : Point → Except String St
  | .first => s.barFirst me
  | .loop => s.barLoop me

/-- The loop of `co_mutex_lock`, and then the rest `p` of the call. -/
def lockLoop (s : St) (me : Tid) (p : Point) : Except String St :=
  match s.lock with
  | none => (s.setLock (some me)).goOn me p
  | some _ => .ok (s.taskWaitMutex me p)

def coMutexLock (s : St) (me : Tid) (p : Point) : Except String St :=
  if s.lock = some me then .error "recusive mutex lock" else s.lockLoop me p

def coBarWait (s : St) (me : Tid) : Except String St :=
  let s := { s with entered := s.entered + 1 }
  if s.count = 0 then .ok (s.callReturn me) else s.coMutexLock me .first

/-- `co_create`: a new task, on the run queue. -/
def coCreate (s : St) : St :=
  { s.goto s.created .idle with created := s.created + 1 }.coResume s.created

end St

theorem St.goto_ctl_self (s : St) (t : Tid) (c : Ctl) : (s.goto t c).ctl t = c :=
  Function.update_self ..

theorem St.goto_ctl_of_ne (s : St) {t u : Tid} (h : u ≠ t) (c : Ctl) : (s.goto t c).ctl u = s.ctl u :=
  Function.update_of_ne h ..

/-- `co_bar_init`: the `unsigned int` argument is stored in an `int`. -/
def coBarInit (cnt : ℕ) : St where
  count := toInt32 cnt
  lock := none
  links := ListOps.empty
  ctl := fun _ => .finished
  current := none
  created := 0
  entered := 0
  subtracted := 0
  returned := 0

/-- What can happen next: the scheduler dispatches a task; the running task calls `co_bar_wait`,
goes on with the loop of `co_cond_broadcast`, yields, blocks on something else, creates a task or
exits; a task that is blocked on something else is resumed. -/
inductive Act where
  | dispatch
  | barWait
  | goOn
  | yield
  | block
  | wake (t : Tid)
  | create
  | exit
deriving DecidableEq, Repr

/-- `RR_picknext` and the switch to the task it chose, which then goes on where it stood. -/
def dispatch (s : St) (t : Tid) : Except String St :=
  let s := { s.setLinks (rrDequeue s.links t) with current := some t }
  match s.ctl t with
  | .idle | .elsewhere => .ok (s.goto t .idle)
  | .cond => s.coMutexLock t .loop
  | .mutex p => s.lockLoop t p
  | .broadcast _ | .finished => .error "dispatch of a task that does not wait"

/-- An action of the running task `me`, which is in its own code. -/
def userAct (s : St) (me : Tid) : Act → Except String St
  | .barWait => s.coBarWait me
  -- `schedule` finds the task runnable and enqueues it again
  | .yield => .ok ((s.coSyncYield me .idle).coResume me)
  | .block => .ok (s.coSyncYield me .elsewhere)
  | .create => .ok s.coCreate
  | .exit => .ok (s.coSyncYield me .finished)
  | .dispatch | .goOn | .wake _ => .error "not an action of a task"

def step (s : St) (a : Act) : Option St :=
  match s.current, a with
  | none, .dispatch => (rrPicknext .runList s.links).bind fun t => (dispatch s t).toOption
  | none, .wake t =>
      match s.ctl t with
      | .elsewhere => some (s.coResume t)
      | _ => none
  | none, _ => none
  | some me, a =>
      match s.ctl me, a with
      | .broadcast ls, .goOn => (s.broadcastLoop me ls).toOption
      | .idle, a => (userAct s me a).toOption
      | _, _ => none

/-- A barrier for `cnt` calls, and `n` tasks that are ready to run. -/
def start (cnt n : ℕ) : St := St.coCreate^[n] (coBarInit cnt)

/-- Tasks of one scheduler thread that use one barrier. -/
def system (cnt : ℕ) : TS St Act where
  init s := ∃ n, s = start cnt n
  step := step

/-! ### Tasks at rest, and the task that has control -/

/-- What the calls have done to the counter: `entered` calls came, `subtracted` decremented it and
`returned` returned. -/
structure Counts (cnt : ℕ) (count : ℤ) (entered subtracted returned : ℕ) : Prop where
  nonneg : 0 ≤ count
  total : count + subtracted = cnt
  le_entered : subtracted ≤ entered
  blocking : 0 < count → subtracted = entered
  zero_of_returned : 0 < returned → count = 0

namespace Counts

variable {cnt entered subtracted returned : ℕ} {count : ℤ}

/-- A call returns at once. -/
theorem pass (h : Counts cnt count entered subtracted returned) (h0 : count = 0) :
    Counts cnt count (entered + 1) subtracted (returned + 1) where
  nonneg := h.nonneg
  total := h.total
  le_entered := Nat.le_succ_of_le h.le_entered
  blocking hpos := absurd h0 hpos.ne'
  zero_of_returned _ := h0

/-- A call decrements the counter. -/
theorem sub (h : Counts cnt count entered subtracted returned) (h0 : count ≠ 0) :
    Counts cnt (count - 1) (entered + 1) (subtracted + 1) returned where
  nonneg := by have := h.nonneg; omega
  total := by have := h.total; push_cast; omega
  le_entered := Nat.succ_le_succ h.le_entered
  blocking _ := by
    have := h.blocking (by have := h.nonneg; omega)
    omega
  zero_of_returned hr := absurd (h.zero_of_returned hr) h0

/-- A call that has been inside returns. -/
theorem leave (h : Counts cnt count entered subtracted returned) (h0 : count = 0) :
    Counts cnt count entered subtracted (returned + 1) where
  nonneg := h.nonneg
  total := h.total
  le_entered := h.le_entered
  blocking := h.blocking
  zero_of_returned _ := h0

end Counts

/-- A task that does not run is in its own code, blocked elsewhere, or has come to the condition; if
so, it waits there or has been resumed. -/
def AtRest (s : St) (v : View Head Tid) (t : Tid) : Prop :=
  (∀ p, s.ctl t ≠ .mutex p) ∧ (∀ ls, s.ctl t ≠ .broadcast ls) ∧
    (s.ctl t = .cond → t ∈ v .condWait ∨ t ∈ v .runList)

/-- The links hold the lists `v`, on which are created tasks only; nobody waits for the mutex, and
the tasks on the wait list of the condition are in `co_cond_wait`. -/
structure Linked (s : St) (v : View Head Tid) : Prop where
  rings : Rings s.links v
  known : ∀ h, ∀ t ∈ v h, t < s.created
  live : ∀ t, s.ctl t ≠ .finished → t < s.created
  mutex : v .mutexWait = []
  cond : ∀ t ∈ v .condWait, s.ctl t = .cond

/-- The scheduler has control. -/
structure Rest (cnt : ℕ) (s : St) (v : View Head Tid) : Prop extends Linked s v where
  counts : Counts cnt s.count s.entered s.subtracted s.returned
  current : s.current = none
  lock : s.lock = none
  rest : ∀ t, AtRest s v t
  released : s.count = 0 → v .condWait = []

/-- The task `me` has control; nothing is said about where it stands, and about the lock. -/
structure Runs (cnt : ℕ) (s : St) (v : View Head Tid) (me : Tid) : Prop extends Linked s v where
  counts : Counts cnt s.count s.entered s.subtracted s.returned
  current : s.current = some me
  free : v.Free me
  created : me < s.created
  rest : ∀ t, t ≠ me → AtRest s v t

/-- The task `me` is in its own code. -/
structure InCode (cnt : ℕ) (s : St) (v : View Head Tid) (me : Tid) : Prop
    extends Runs cnt s v me where
  idle : s.ctl me = .idle
  lock : s.lock = none
  released : s.count = 0 → v .condWait = []

/-- The task `me` has decremented the counter to 0 and is about to resume the waiters. -/
structure Releases (cnt : ℕ) (s : St) (v : View Head Tid) (me : Tid) : Prop
    extends Runs cnt s v me where
  lock : s.lock = some me
  zero : s.count = 0
  ls : s.ctl me = .broadcast (Rings.cursor .condWait (v .condWait))

/-- The invariant. -/
inductive Inv (cnt : ℕ) (s : St) : Prop
  | rest {v : View Head Tid} : Rest cnt s v → Inv cnt s
  | inCode {v : View Head Tid} {me : Tid} : InCode cnt s v me → Inv cnt s
  | releases {v : View Head Tid} {me : Tid} : Releases cnt s v me → Inv cnt s

variable {cnt : ℕ} {s s' : St} {v w : View Head Tid} {me t : Tid}

/-- A task stays at rest when it keeps its place, or moves to the run queue. -/
theorem AtRest.move (h : AtRest s v t) (hctl : s'.ctl t = s.ctl t)
    (hcond : t ∈ v .condWait → t ∈ w .condWait ∨ t ∈ w .runList)
    (hrun : t ∈ v .runList → t ∈ w .runList) : AtRest s' w t := by
  obtain ⟨hm, hb, hc⟩ := h
  unfold AtRest
  rw [hctl]
  exact ⟨hm, hb, fun e => (hc e).elim hcond fun hr => .inr (hrun hr)⟩

/-! ### Leaving the mutex -/

/-- When nobody waits for the mutex, `co_mutex_unlock` only releases it. -/
theorem coMutexUnlock_eq (hR : Rings s.links v) (hm : v .mutexWait = []) (hlock : s.lock = some me) :
    s.coMutexUnlock me = .ok (s.setLock none) := by
  have hw : wakeFirst Head.runList .mutexWait s.links = s.links := by
    unfold wakeFirst
    rw [first_eq hR]
    simp [ListOps.first, hm]
  have hw' : (s.setLock none).setLinks (wakeFirst Head.runList .mutexWait s.links) = s.setLock none := by
    rw [hw]
    rfl
  rw [St.coMutexUnlock, if_neg (by simp [hlock]), if_neg (by simp [St.coMutexLocked, hlock])]
  exact congrArg Except.ok hw'

theorem Runs.setLock (h : Runs cnt s v me) (l : Option Tid) : Runs cnt (s.setLock l) v me :=
  ⟨⟨h.rings, h.known, h.live, h.mutex, h.cond⟩, h.counts, h.current, h.free, h.created, h.rest⟩

theorem Runs.goto (h : Runs cnt s v me) (c : Ctl) : Runs cnt (s.goto me c) v me where
  rings := h.rings
  known := h.known
  live t ht := by
    by_cases hme : t = me
    · exact hme ▸ h.created
    · rw [s.goto_ctl_of_ne hme] at ht
      exact h.live t ht
  mutex := h.mutex
  cond t ht := by
    have hme : t ≠ me := fun e => h.free _ (e ▸ ht)
    exact (s.goto_ctl_of_ne hme c).trans (h.cond t ht)
  counts := h.counts
  current := h.current
  free := h.free
  created := h.created
  rest t ht := (h.rest t ht).move (s.goto_ctl_of_ne ht c) .inl id

/-- `bar_end`, after the barrier has been passed. -/
theorem Runs.barEnd (h : Runs cnt s v me) (hlock : s.lock = some me) (h0 : s.count = 0)
    (hnone : v .condWait = []) :
    s.barEnd me = .ok ((s.setLock none).callReturn me) ∧
      InCode cnt ((s.setLock none).callReturn me) v me := by
  refine ⟨?_, ?_⟩
  · rw [St.barEnd, coMutexUnlock_eq h.rings h.mutex hlock]
    rfl
  · have hr := (h.setLock none).goto .idle
    exact { hr with
      counts := h.counts.leave h0
      idle := St.goto_ctl_self ..
      lock := rfl
      released := fun _ => hnone }

/-- The running task gives up control, at a place of its own. -/
theorem Runs.yields (h : Runs cnt s v me) (hlock : s.lock = none)
    (hreleased : s.count = 0 → v .condWait = []) {c : Ctl} (hc : c.inside = false) :
    Rest cnt (s.coSyncYield me c) v := by
  have hr := h.goto c
  refine ⟨⟨hr.rings, hr.known, hr.live, hr.mutex, hr.cond⟩, hr.counts, rfl, hlock, fun t => ?_, hreleased⟩
  by_cases hme : t = me
  · have hctl : (s.coSyncYield me c).ctl t = c := hme ▸ s.goto_ctl_self t c
    unfold AtRest
    rw [hctl]
    cases c with
    | idle | elsewhere | finished => simp
    | mutex | cond | broadcast => cases hc
  · exact hr.rest t hme

/-- `co_cond_wait` in the loop of `co_bar_wait`. -/
theorem Runs.coCondWait (h : Runs cnt s v me) (hlock : s.lock = some me) (hpos : 0 < s.count) :
    ∃ s', s.coCondWait me = .ok s' ∧ Rest cnt s' (v.addBefore .condWait me) := by
  let s₁ := s.setLinks (ListOps.addBefore s.links .condWait me)
  have hR : Rings s₁.links (v.addBefore .condWait me) := rings_addBefore h.rings h.free
  have hm : v.addBefore .condWait me .mutexWait = [] :=
    (Function.update_of_ne (by simp) _ v).trans h.mutex
  have hunlock : s₁.coMutexUnlock me = .ok (s₁.setLock none) := coMutexUnlock_eq hR hm hlock
  refine ⟨(s₁.setLock none).coSyncYield me .cond, ?_, ?_⟩
  · rw [St.coCondWait, hunlock, if_neg (by simp [St.coMutexLocked, hlock])]
    rfl
  · have hr := h.goto .cond
    refine ⟨⟨hR, fun x t ht => ?_, hr.live, hm, fun t ht => ?_⟩, h.counts, rfl, rfl, fun t => ?_,
      fun h0 => absurd h0 hpos.ne'⟩
    · rcases View.mem_addBefore.mp ht with ⟨rfl, rfl⟩ | ht
      · exact h.created
      · exact h.known x t ht
    · rcases View.mem_addBefore.mp ht with ⟨rfl, -⟩ | ht
      · exact s.goto_ctl_self t .cond
      · exact hr.cond t ht
    · by_cases hme : t = me
      · have hctl : (s.goto me .cond).ctl t = .cond := hme ▸ s.goto_ctl_self t .cond
        have hmem : t ∈ v.addBefore .condWait me .condWait := View.mem_addBefore.mpr (.inl ⟨hme, rfl⟩)
        exact ⟨fun p e => (by cases hctl.symm.trans e), fun ls e => (by cases hctl.symm.trans e),
          fun _ => .inl hmem⟩
      · exact (hr.rest t hme).move rfl (fun ht => .inl (View.mem_addBefore.mpr (.inr ht)))
          fun ht => View.mem_addBefore.mpr (.inr ht)

/-! ### One step -/

/-- A task that has locked the mutex comes to the loop of `co_bar_wait`. -/
theorem Runs.barLoop (h : Runs cnt s v me) (hlock : s.lock = some me)
    (hreleased : s.count = 0 → v .condWait = []) (hs : s.barLoop me = .ok s') : Inv cnt s' := by
  unfold St.barLoop at hs
  by_cases hpos : s.count > 0
  · rw [if_pos hpos] at hs
    obtain ⟨s₁, hs₁, hrest⟩ := h.coCondWait hlock hpos
    obtain rfl := Except.ok.inj (hs₁.symm.trans hs)
    exact .rest hrest
  · rw [if_neg hpos] at hs
    have h0 : s.count = 0 := le_antisymm (not_lt.mp hpos) h.counts.nonneg
    obtain ⟨hend, hin⟩ := h.barEnd hlock h0 (hreleased h0)
    obtain rfl := Except.ok.inj (hend.symm.trans hs)
    exact .inCode hin

/-- `co_bar_wait`, from its beginning on.  The mutex is free. -/
theorem InCode.coBarWait (h : InCode cnt s v me) (hcnt : cnt < 2 ^ 31)
    (hs : s.coBarWait me = .ok s') : Inv cnt s' := by
  by_cases h0 : s.count = 0
  · have hpass : s.coBarWait me = .ok (({ s with entered := s.entered + 1 } : St).callReturn me) :=
      if_pos h0
    obtain rfl := Except.ok.inj (hpass.symm.trans hs)
    have hr := h.toRuns.goto .idle
    exact .inCode { hr with
      counts := h.counts.pass h0
      idle := St.goto_ctl_self ..
      lock := h.lock
      released := h.released }
  · -- the mutex is free, so that the call comes to the decrement
    have hcounts := h.counts.sub h0
    have hint : toInt32 (s.count - 1) = s.count - 1 := by
      apply toInt32_of_isInt32
      have := hcounts.nonneg
      have := h.counts.total
      unfold IsInt32
      omega
    let s₁ : St := { s.setLock (some me) with
      entered := s.entered + 1, count := s.count - 1, subtracted := s.subtracted + 1 }
    have hr : Runs cnt s₁ v me := by
      have hr := h.toRuns.setLock (some me)
      exact { hr with counts := hcounts }
    have hs₁ : (if s₁.count = 0 then
        .ok (s₁.goto me (.broadcast (listNext s₁.links (.head .condWait)))) else s₁.barLoop me)
        = Except.ok s' := by
      rw [← hs]
      simp only [St.coBarWait, St.coMutexLock, St.lockLoop, St.goOn, St.barFirst, h.lock, St.setLock, h0,
        hint, if_false, s₁]
      rfl
    by_cases hz : s₁.count = 0
    · rw [if_pos hz] at hs₁
      obtain rfl := Except.ok.inj hs₁
      have hr' := hr.goto (.broadcast (listNext s₁.links (.head .condWait)))
      refine .releases { hr' with lock := rfl, zero := hz, ls := ?_ }
      rw [s₁.goto_ctl_self]
      exact congrArg Ctl.broadcast (h.rings.next_head_cursor .condWait)
    · rw [if_neg hz] at hs₁
      exact hr.barLoop rfl (fun h => absurd h hz) hs₁

/-- The first waiter is resumed: it was at the condition, and is on the run queue now. -/
theorem Runs.wake (h : Runs cnt s v me) {r : List Tid} (hv : v .condWait = t :: r) :
    Runs cnt ((s.setLinks (ListOps.delete s.links t)).coResume t)
      (Function.update (Function.update v .condWait r) .runList (t :: v .runList)) me := by
  have hne : Head.condWait ≠ .runList := by simp
  have hw := View.wakeFirst_eq h.rings.ok hv hne
  have hmem : t ∈ v .condWait := hv ▸ List.mem_cons_self
  refine ⟨⟨View.rings_wake h.rings hv hne, fun x u hu => ?_, h.live, h.mutex, fun u hu => ?_⟩,
    h.counts, h.current, hw ▸ h.free.wakeFirst h.rings.ok .runList .condWait, h.created,
    fun u hu => ?_⟩
  · cases x with
    | runList =>
        rcases List.mem_cons.mp hu with rfl | hu
        · exact h.known _ u hmem
        · exact h.known _ u hu
    | mutexWait => exact h.known .mutexWait u hu
    | condWait => exact h.known .condWait u (hv ▸ List.mem_cons_of_mem t hu)
  · exact h.cond u (hv ▸ List.mem_cons_of_mem t hu)
  · refine (h.rest u hu).move rfl (fun hc => ?_) (List.mem_cons_of_mem t)
    rcases List.mem_cons.mp (hv ▸ hc) with rfl | hc
    · exact .inr List.mem_cons_self
    · exact .inl hc

/-- One pass of the loop of `co_cond_broadcast`: the first waiter is resumed, or there is none. -/
theorem Releases.broadcastLoop (h : Releases cnt s v me)
    (hs : s.broadcastLoop me (Rings.cursor .condWait (v .condWait)) = .ok s') : Inv cnt s' := by
  have hempty := listEmpty_cursor h.rings .condWait
  cases hv : v .condWait with
  | nil =>
      rw [hv] at hempty hs
      unfold St.broadcastLoop at hs
      rw [hempty, List.isEmpty_nil, if_pos rfl] at hs
      obtain ⟨hend, hin⟩ := h.toRuns.barEnd h.lock h.zero hv
      obtain rfl := Except.ok.inj (hend.symm.trans hs)
      exact .inCode hin
  | cons t r =>
      rw [hv] at hempty hs
      -- the loop variable was read before the link was deleted
      have hnext : listNext s.links (.elem t) = Rings.cursor .condWait r :=
        h.rings.next_elem_cursor (A := []) hv
      have hpass : s.broadcastLoop me (.elem t) = .ok (((s.setLinks (ListOps.delete s.links t)).coResume
          t).goto me (.broadcast (Rings.cursor .condWait r))) := by
        unfold St.broadcastLoop
        rw [if_neg (by simpa using hempty), hnext]
      obtain rfl := Except.ok.inj (hpass.symm.trans hs)
      have hr := (h.toRuns.wake hv).goto (.broadcast (Rings.cursor .condWait r))
      exact .releases { hr with lock := h.lock, zero := h.zero, ls := St.goto_ctl_self .. }

/-- `RR_picknext` and the switch: the task is on no list any more. -/
theorem Rest.dequeue (h : Rest cnt s v) (ht : rrPicknext .runList s.links = some t) :
    Runs cnt { s.setLinks (rrDequeue s.links t) with current := some t } (v.delete t) t := by
  have hmem : t ∈ v .runList := by
    rw [rrPicknext_eq h.rings] at ht
    exact List.mem_of_getLast? ht
  refine ⟨⟨rings_rrDequeue h.rings t, fun x u hu => ?_, h.live, ?_, fun u hu => ?_⟩, h.counts, rfl,
    View.free_delete h.rings.ok t, h.known _ t hmem, fun u hu => ?_⟩
  · exact h.known x u ((View.mem_delete h.rings.ok).mp hu).2
  · rw [View.delete, h.mutex]
    rfl
  · exact h.cond u ((View.mem_delete h.rings.ok).mp hu).2
  · exact (h.rest u).move rfl (fun hc => .inl ((View.mem_delete h.rings.ok).mpr ⟨hu, hc⟩))
      fun hc => (View.mem_delete h.rings.ok).mpr ⟨hu, hc⟩

theorem Rest.dispatch (h : Rest cnt s v) (ht : rrPicknext .runList s.links = some t)
    (hs : dispatch s t = .ok s') : Inv cnt s' := by
  have hr := h.dequeue ht
  have hreleased : s.count = 0 → v.delete t .condWait = [] := fun h0 => by
    rw [View.delete, h.released h0]
    rfl
  obtain ⟨hmutex, hbroadcast, -⟩ := h.rest t
  unfold Barrier.dispatch at hs
  cases hc : s.ctl t with
  | idle | elsewhere =>
      simp only [St.setLinks, hc] at hs
      obtain rfl := Except.ok.inj hs
      have hr' := hr.goto .idle
      exact .inCode { hr' with idle := St.goto_ctl_self .., lock := h.lock, released := hreleased }
  | cond =>
      simp only [St.setLinks, hc, St.coMutexLock, St.lockLoop, h.lock] at hs
      exact (hr.setLock (some t)).barLoop rfl hreleased hs
  | mutex p => exact absurd hc (hmutex p)
  | broadcast ls => exact absurd hc (hbroadcast ls)
  | finished =>
      simp only [St.setLinks, hc] at hs
      cases hs

/-! #### Tasks that come to the run queue -/

/-- Only the run queue gets longer. -/
theorem rrEnqueue_nil (hv : v.Ok) {x : Head} (hx : x ≠ .runList) (hnil : v x = []) :
    rrEnqueue .runList v t x = [] := by
  refine List.eq_nil_iff_forall_not_mem.mpr fun u hu => ?_
  rcases (View.mem_rrEnqueue hv).mp hu with ⟨-, hc⟩ | ⟨-, hu⟩
  · exact hx hc
  · rw [hnil] at hu
    cases hu

theorem Linked.enqueue (h : Linked s v) (ht : t < s.created) :
    Linked (s.coResume t) (rrEnqueue .runList v t) := by
  refine ⟨rings_rrEnqueue h.rings .runList t, fun x u hu => ?_, h.live,
    rrEnqueue_nil h.rings.ok (by simp) h.mutex, fun u hu => ?_⟩
  · rcases (View.mem_rrEnqueue h.rings.ok).mp hu with ⟨rfl, -⟩ | ⟨-, hu⟩
    · exact ht
    · exact h.known x u hu
  · rcases (View.mem_rrEnqueue h.rings.ok).mp hu with ⟨-, hc⟩ | ⟨-, hu⟩
    · cases hc
    · exact h.cond u hu

/-- Tasks at rest stay so when another task, or the task itself, comes to the run queue. -/
theorem AtRest.enqueue {u : Tid} (h : AtRest s v u) (hv : v.Ok) (t : Tid) :
    AtRest (s.coResume t) (rrEnqueue .runList v t) u := by
  by_cases hut : u = t
  · exact h.move rfl (fun _ => .inr ((View.mem_rrEnqueue hv).mpr (.inl ⟨hut, rfl⟩)))
      fun _ => (View.mem_rrEnqueue hv).mpr (.inl ⟨hut, rfl⟩)
  · exact h.move rfl (fun hc => .inl ((View.mem_rrEnqueue hv).mpr (.inr ⟨hut, hc⟩)))
      fun hc => (View.mem_rrEnqueue hv).mpr (.inr ⟨hut, hc⟩)

theorem Rest.enqueue (h : Rest cnt s v) (ht : t < s.created) :
    Rest cnt (s.coResume t) (rrEnqueue .runList v t) where
  toLinked := h.toLinked.enqueue ht
  counts := h.counts
  current := h.current
  lock := h.lock
  rest u := (h.rest u).enqueue h.rings.ok t
  released h0 := rrEnqueue_nil h.rings.ok (by simp) (h.released h0)

/-- The new task before it comes to the run queue. -/
def St.withTask (s : St) : St := { s.goto s.created .idle with created := s.created + 1 }

theorem Linked.withTask (h : Linked s v) : Linked s.withTask v where
  rings := h.rings
  known x u hu := Nat.lt_succ_of_lt (h.known x u hu)
  live u hu := by
    by_cases he : u = s.created
    · exact he ▸ Nat.lt_succ_self _
    · exact Nat.lt_succ_of_lt (h.live u ((s.goto_ctl_of_ne he .idle) ▸ hu))
  mutex := h.mutex
  cond u hu := (s.goto_ctl_of_ne (h.known _ u hu).ne .idle).trans (h.cond u hu)

theorem AtRest.withTask {u : Tid} (h : AtRest s v u) : AtRest s.withTask v u := by
  by_cases he : u = s.created
  · have hctl : s.withTask.ctl u = .idle := he ▸ s.goto_ctl_self u .idle
    unfold AtRest
    rw [hctl]
    simp
  · exact h.move (s.goto_ctl_of_ne he .idle) .inl id

theorem Rest.coCreate (h : Rest cnt s v) :
    Rest cnt s.coCreate (rrEnqueue .runList v s.created) := by
  have hw : Rest cnt s.withTask v :=
    ⟨h.toLinked.withTask, h.counts, h.current, h.lock, fun u => (h.rest u).withTask, h.released⟩
  exact hw.enqueue (Nat.lt_succ_self _)

theorem InCode.coCreate (h : InCode cnt s v me) :
    InCode cnt s.coCreate (rrEnqueue .runList v s.created) me := by
  have hme : me ≠ s.created := h.created.ne
  have hv := h.rings.ok
  refine { h.toLinked.withTask.enqueue (Nat.lt_succ_self _) with
    counts := h.counts
    current := h.current
    free := fun x hx => ?_
    created := Nat.lt_succ_of_lt h.created
    rest := fun u hu => (h.rest u hu).withTask.enqueue hv _
    idle := (s.goto_ctl_of_ne hme .idle).trans h.idle
    lock := h.lock
    released := fun h0 => rrEnqueue_nil hv (by simp) (h.released h0) }
  rcases (View.mem_rrEnqueue hv).mp hx with ⟨hc, -⟩ | ⟨-, hx⟩
  · exact hme hc
  · exact h.free x hx

/-! ### Whole runs -/

theorem InCode.userAct (h : InCode cnt s v me) (hcnt : cnt < 2 ^ 31) {a : Act}
    (hs : userAct s me a = .ok s') : Inv cnt s' := by
  have hyields {c : Ctl} (hc : c.inside = false) : Rest cnt (s.coSyncYield me c) v :=
    h.toRuns.yields h.lock h.released hc
  cases a with
  | barWait => exact h.coBarWait hcnt hs
  | yield =>
      obtain rfl := Except.ok.inj hs
      exact .rest ((hyields rfl).enqueue h.created)
  | block | exit =>
      obtain rfl := Except.ok.inj hs
      exact .rest (hyields rfl)
  | create =>
      obtain rfl := Except.ok.inj hs
      exact .inCode h.coCreate
  | dispatch | goOn | wake => cases hs

/-- A computation that succeeds. -/
theorem ok_of_toOption {x : Except String St} (h : x.toOption = some s') : x = .ok s' := by
  cases x with
  | error e => cases h
  | ok s₁ => exact congrArg Except.ok (Option.some.inj h)

theorem inv_step (h : Inv cnt s) (hcnt : cnt < 2 ^ 31) {a : Act} (hs : step s a = some s') :
    Inv cnt s' := by
  cases h with
  | rest h =>
      cases a with
      | dispatch =>
          simp only [step, h.current] at hs
          obtain ⟨t, ht, hs⟩ := Option.bind_eq_some_iff.mp hs
          exact h.dispatch ht (ok_of_toOption hs)
      | wake t =>
          simp only [step, h.current] at hs
          split at hs
          · rename_i hc
            obtain rfl := Option.some.inj hs
            exact .rest (h.enqueue (h.live t (by simp [hc])))
          · cases hs
      | barWait | goOn | yield | block | create | exit => simp [step, h.current] at hs
  | @inCode v me h =>
      have hs : (userAct s me a).toOption = some s' := by
        simpa only [step, h.current, h.idle] using hs
      exact h.userAct hcnt (ok_of_toOption hs)
  | @releases v me h =>
      cases a with
      | goOn =>
          simp only [step, h.current, h.ls] at hs
          exact h.broadcastLoop (ok_of_toOption hs)
      | dispatch | wake | barWait | yield | block | create | exit => simp [step, h.current, h.ls] at hs

theorem rest_start (cnt n : ℕ) (hcnt : cnt < 2 ^ 31) : ∃ v, Rest cnt (start cnt n) v := by
  induction n with
  | zero =>
      have hcount : toInt32 cnt = cnt := toInt32_natCast hcnt
      have hcounts : Counts cnt cnt 0 0 0 :=
        ⟨by omega, by simp, le_rfl, fun _ => rfl, fun h => absurd h (lt_irrefl 0)⟩
      have hstart : start cnt 0 = { coBarInit cnt with count := cnt } := by
        rw [← hcount]
        rfl
      rw [hstart]
      refine ⟨ListOps.empty, ⟨rings_empty, ?_, ?_, rfl, ?_⟩, hcounts, rfl, rfl, ?_, fun _ => rfl⟩
      · intro x t ht
        cases ht
      · exact fun t ht => absurd rfl ht
      · intro t ht
        cases ht
      · intro t
        refine ⟨fun p e => ?_, fun ls e => ?_, fun e => ?_⟩ <;> cases e
  | succ n ih =>
      obtain ⟨v, hv⟩ := ih
      refine ⟨rrEnqueue .runList v (start cnt n).created, ?_⟩
      rw [start, Function.iterate_succ_apply']
      exact hv.coCreate

/-- What a barrier for `cnt` calls is for: the counter is not negative, a call returns only when `cnt`
calls have entered and decremented it, and when as many have entered and the run queue is empty, no
task is inside `co_bar_wait`. -/
structure Meets (cnt : ℕ) (s : St) : Prop where
  nonneg : 0 ≤ s.count
  returned : 0 < s.returned → cnt ≤ s.subtracted ∧ cnt ≤ s.entered
  released : s.current = none → rrPicknext .runList s.links = none → cnt ≤ s.entered →
    ∀ t, (s.ctl t).inside = false

theorem Counts.meets_returned (h : Counts cnt s.count s.entered s.subtracted s.returned)
    (hr : 0 < s.returned) : cnt ≤ s.subtracted ∧ cnt ≤ s.entered := by
  have h0 := h.zero_of_returned hr
  have htotal := h.total
  have hle := h.le_entered
  omega

/-- When `cnt` calls have entered, the counter is 0. -/
theorem Counts.zero_of_entered {count : ℤ} {entered subtracted returned : ℕ}
    (h : Counts cnt count entered subtracted returned) (he : cnt ≤ entered) : count = 0 := by
  by_contra h0
  have hpos : 0 < count := lt_of_le_of_ne h.nonneg (Ne.symm h0)
  have hall := h.blocking hpos
  have htotal := h.total
  omega

theorem Rest.none_inside (h : Rest cnt s v) (hq : rrPicknext .runList s.links = none)
    (he : cnt ≤ s.entered) (t : Tid) : (s.ctl t).inside = false := by
  have hrun : v .runList = [] := by
    rw [rrPicknext_eq h.rings] at hq
    exact List.getLast?_eq_none_iff.mp hq
  have hcond : v .condWait = [] := h.released (h.counts.zero_of_entered he)
  obtain ⟨hmutex, hbroadcast, hwait⟩ := h.rest t
  cases hc : s.ctl t with
  | idle | elsewhere | finished => rfl
  | mutex p => exact absurd hc (hmutex p)
  | broadcast ls => exact absurd hc (hbroadcast ls)
  | cond =>
      rw [hcond, hrun] at hwait
      rcases hwait hc with hm | hm <;> cases hm

theorem Inv.meets (h : Inv cnt s) : Meets cnt s := by
  cases h with
  | rest h => exact ⟨h.counts.nonneg, h.counts.meets_returned, fun _ => h.none_inside⟩
  | inCode h =>
      exact ⟨h.counts.nonneg, h.counts.meets_returned, fun hc => by cases h.current.symm.trans hc⟩
  | releases h =>
      exact ⟨h.counts.nonneg, h.counts.meets_returned, fun hc => by cases h.current.symm.trans hc⟩

/-- In every state that any number of tasks can bring about. -/
theorem barrier {cnt : ℕ} (hcnt : cnt < 2 ^ 31) {s : St} (hs : (system cnt).Reachable s) :
    Meets cnt s := by
  refine (TS.ReachVia.invariant (I := Inv cnt) (fun s h0 => ?_)
    (fun _ _ _ h _ hstep => inv_step h hcnt hstep) hs).meets
  obtain ⟨n, rfl⟩ := h0
  obtain ⟨v, hv⟩ := rest_start cnt n hcnt
  exact .rest hv

/-- Two tasks meet at a barrier for two, and a third one comes late. -/
theorem barrier_two : ∃ s, (system 2).Reachable s ∧ s.entered = 3 ∧ s.returned = 3 ∧
    s.current = none ∧ rrPicknext .runList s.links = none ∧ Meets 2 s := by
  have hrun := TS.Reachable.exists_of_run (M := system 2) (s := start 2 3)
    [.dispatch, .barWait, .dispatch, .barWait, .goOn, .goOn, .exit, .dispatch, .barWait, .exit,
      .dispatch, .exit]
    (fun s => decide (s.entered = 3 ∧ s.returned = 3 ∧ s.current = none ∧
      rrPicknext .runList s.links = none)) ⟨3, rfl⟩ (by decide +kernel)
  obtain ⟨s, hs, hP⟩ := hrun
  obtain ⟨he, hr, hc, hq⟩ := of_decide_eq_true hP
  exact ⟨s, hs, he, hr, hc, hq, barrier (by decide) hs⟩

/-- A count that does not fit an `int` is stored as a negative number: the first call returns at
once. -/
theorem count_truncated : ¬∀ (cnt : ℕ) (s : St), 1 ≤ cnt → cnt < 2 ^ 32 →
    (system cnt).Reachable s → Meets cnt s := by
  intro hall
  have hrun := TS.Reachable.exists_of_run (M := system (2 ^ 31 + 1)) (s := start (2 ^ 31 + 1) 1)
    [.dispatch, .barWait] (fun s => decide (s.returned = 1 ∧ s.subtracted = 1)) ⟨1, rfl⟩
    (by decide +kernel)
  obtain ⟨s, hs, hP⟩ := hrun
  obtain ⟨hr, hsub⟩ := of_decide_eq_true hP
  have hle := ((hall _ s (by decide) (by decide) hs).returned (by omega)).1
  omega

end Libcask.Barrier
