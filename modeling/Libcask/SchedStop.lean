import Libcask.SchedProgress
import Libcask.TaskConservation

/-! # The end of a scheduler thread

With `CO_SCHED_STOP` the loop of `schedule` ends: when no other tasks are left than the scheduler's own, the
timeout task and the active task, it closes the write end of the active pipe, upon which the active task
closes the pipe and exits; when that task is gone too, the loop is left, and `sched_destory` destroys the
timeout task (`delete_epoll`).

The test is made when a task has given up control, before the loop handles its status.  `task_count` is
what `task_create` and `task_destory` count on the thread, the scheduler's own task included.

`stop_destroys_all`: as long as the timeout task can read its timer, no task is left behind and none is
destroyed twice.  If the timeout task has ended, a task that still waits is (`waiting_task_left`). -/

namespace Libcask.Sched.Stop

open Queues

/-- The thread, with `active[0] >= 0`, which the active task sets, and whether `schedule` has returned. -/
structure StopSt where
  st : St
  active : Bool
  stopped : Bool

/-- `g_task_alive`. -/
def taskCount (s : St) : ℕ := s.q.created + 1 - s.q.destroyed.length

def noTask (s : St) : Bool := taskCount s ≤ 3

def canDestory (s : St) : Bool := taskCount s ≤ 2

/-- The test at the end of the loop: whether the loop is left.  Closing the write end of the pipe
changes nothing here but that `epoll_wait` will report the read end. -/
def leaves (x : StopSt) : Bool :=
  match x.st.q.phase with
  | .handle _ =>
      if noTask x.st then
        if x.active then false else canDestory x.st
      else false
  | _ => false

/-- `sched_destory`, with `delete_epoll`: the task in the record of the wheel's timer is destroyed. -/
def schedDestory (s : St) : Option St :=
  match s.io.ifd .wheelTimer with
  | none => none
  | some r => some { s with q := r.task.elim s.q s.q.taskDestory }

inductive StopAct where
  | act (a : Act)
  /-- The active task opens its pipe. -/
  | openPipe
  /-- The active task closes its pipe, and sets `active[0]` to -1. -/
  | closePipe
deriving DecidableEq, Repr

/-- The active task is in its own code. -/
def inActive (x : StopSt) : Bool := x.st.q.phase = .running 1 ∧ x.st.cont 1 = .user

def stopStep (x : StopSt) : StopAct → Option StopSt
  | .openPipe => if inActive x ∧ x.stopped = false then some { x with active := true } else none
  | .closePipe => if inActive x ∧ x.stopped = false then some { x with active := false } else none
  | .act a =>
      if x.stopped then none
      else if a = .handlePrev ∧ leaves x then
        (schedDestory x.st).map fun s => { x with st := s, stopped := true }
      else (step x.st a).map fun s => { x with st := s }

/-- The active pipe is not open yet when the thread enters `schedule`. -/
def stopSystem : TS StopSt StopAct where
  init x := (∃ n count, x.st = start n count) ∧ x.active = false ∧ x.stopped = false
  step := stopStep

/-- The timeout task stays in its loop: its timer can be read. -/
def timerGoesOn (s : St) (a : Act) : Bool := (step s a).all fun s' => (s'.cont 0).timeoutTask

def stopOk (x : StopSt) : StopAct → Bool
  | .act a => noStaleLink x.st a && timerGoesOn x.st a
  | .openPipe | .closePipe => true

/-! ### The record of the wheel's timer -/

/-- The record of the wheel's timer names the timeout task, or is gone. -/
def WheelOwned (io : Io) : Prop := io.taskOf .wheelTimer = some 0 ∨ io.ifd .wheelTimer = none

theorem wheelOwned_of_eq {io io' : Io} (h : WheelOwned io)
    (he : io'.ifd .wheelTimer = io.ifd .wheelTimer) : WheelOwned io' := by
  unfold WheelOwned Io.taskOf at *
  rwa [he]

theorem wheelOwned_changes {io io' : Io} {T C : Fd → Prop} (hc : Io.Changes 0 T C io io')
    (h : WheelOwned io) : WheelOwned io' := by
  induction hc with
  | refl => exact h
  | @tail io₁ io₂ _ hc ih =>
      cases hc with
      | @record fd r r' hT hr htask =>
          by_cases hfd : fd = .wheelTimer
          · subst hfd
            refine .inl ?_
            rw [Io.taskOf_setInner]
            rcases htask with h1 | h1
            · rcases ih with hi | hi
              · rw [h1, ← Fds.taskOf_eq hr, hi]
              · cases hi.symm.trans hr
            · exact h1
          · exact wheelOwned_of_eq ih (io₁.setInner_of_ne r' (Ne.symm hfd))
      | watch events ok => exact wheelOwned_of_eq ih (congrFun (Io.addEvents_ifd ..) _)
      | link timeout => exact wheelOwned_of_eq ih (congrFun (Io.wheelUpdateElement_frame ..).1 _)
      | unwatch | unlink => exact ih
      | socket | openTimer => exact wheelOwned_of_eq ih (Io.setInner_of_ne _ _ (by simp))
      | @close fd hT hC =>
          by_cases hfd : fd = .wheelTimer
          · subst hfd
            exact .inr (by simp [Io.close])
          · exact wheelOwned_of_eq ih (Function.update_of_ne (Ne.symm hfd) _ _)

section wheel
variable {s s' : St} {a : Act} {t : Tid}

/-- Only the timeout task touches the wheel's timer. -/
theorem not_touches_wheel (h : Safe s) (hp : s.q.phase = .running t) (ht : t ≠ 0)
    (e : step s a = some s') : ¬s.touches a .wheelTimer := by
  have hflag : (s.cont t).timeoutTask ≠ true := fun hc => ht (h.watched.first t hc)
  unfold St.touches
  unfold step at e
  rw [hp] at e ⊢
  cases a with
  | goOn read =>
      rintro (hw | ⟨ls, hc, -⟩ | ⟨hc, -⟩)
      · exact hflag (h.watched.wheel t hw)
      · exact hflag (by rw [hc]; rfl)
      · exact hflag hc
  | timeoutRead r ok =>
      obtain ⟨hc, -⟩ := Option.ite_none_right_eq_some.mp e
      exact absurd (by rw [hc]; rfl) hflag
  | user u => cases u <;> simp [UserAct.touches]
  | handlePrev | event fd ev | dispatch => exact id

theorem wheelOwned_step (h : Safe s) (hw : WheelOwned s.io) (e : step s a = some s') :
    WheelOwned s'.io := by
  obtain ⟨v, hf⟩ := h.formed
  obtain ⟨w, htend⟩ := h.tended
  by_cases hp : ∃ t, s.q.phase = .running t
  · obtain ⟨t, hp⟩ := hp
    by_cases ht : t = 0
    · subst ht
      obtain ⟨io, hio, hs'⟩ := (goes_step hf htend.rings (h.sound 0) hp e).io
      have hio' := wheelOwned_changes hio hw
      rw [hs']
      split_ifs <;> exact hio'
    · exact wheelOwned_of_eq hw ((step_frame hf e).1 _ (not_touches_wheel h hp ht e)).1
  · exact wheelOwned_changes (changes_of_loop (fun t ht => hp ⟨t, ht⟩) e).2.2.2 hw

/-- While the timeout task is in its loop, the record of its timer exists. -/
theorem wheel_known (h : Safe s) (hflag : (s.cont 0).timeoutTask = true) :
    s.io.ifd .wheelTimer ≠ none := by
  have hsound := h.sound 0
  cases hc : s.cont 0 with
  | timeoutRead =>
      rw [hc] at hsound
      exact hsound
  | timeoutList ls =>
      rw [hc] at hsound
      exact hsound.2.1
  | eventPoll fd caller =>
      rw [hc] at hsound hflag
      cases caller with
      | timeoutTask =>
          obtain rfl := hsound.2.2 rfl
          exact hsound.1
      | user | sleep => cases hflag
  | user | mutexLock m r | condWait m | condWaitTill m tfd | semWait i | coPoll fds timed tfd
  | broadcast ls =>
      rw [hc] at hflag
      cases hflag

end wheel

/-! ### Leaving the loop -/

/-- What holds until the loop is left. -/
structure Going (s : St) : Prop where
  reach : system.ReachVia (fun s a => noStaleLink s a = true) s
  flag : (s.cont 0).timeoutTask = true
  wheel : WheelOwned s.io

theorem Going.step {s s' : St} {a : Act} (h : Going s)
    (hok : (noStaleLink s a && timerGoesOn s a) = true) (e : step s a = some s') : Going s' := by
  obtain ⟨hlink, htimer⟩ := (Bool.and_eq_true _ _).mp hok
  rw [timerGoesOn, e] at htimer
  exact ⟨h.reach.step hlink e, htimer, wheelOwned_step (safe_of_reach h.reach) h.wheel e⟩

/-- `sched_destory` destroys the timeout task. -/
theorem Going.schedDestory {s : St} (h : Going s) :
    Stop.schedDestory s = some { s with q := s.q.taskDestory 0 } := by
  obtain ⟨r, hr⟩ := Option.ne_none_iff_exists'.mp (wheel_known (safe_of_reach h.reach) h.flag)
  have htask : r.task = some 0 := by
    rcases h.wheel with hw | hw
    · rwa [Fds.taskOf_eq hr] at hw
    · cases hw.symm.trans hr
  unfold Stop.schedDestory
  rw [hr]
  dsimp only
  rw [htask]
  rfl

/-- The tasks that are destroyed have existed, and are destroyed once. -/
theorem settled_destroyed {q : Queues} {v : View Head Tid} (hs : q.Settled v) :
    q.destroyed.Nodup ∧ q.destroyed ⊆ q.exited ∧ ∀ t ∈ q.destroyed, t < q.created := by
  have hdone : ∀ {away}, Lists q v away → q.exited = q.destroyed →
      q.destroyed.Nodup ∧ q.destroyed ⊆ q.exited ∧ ∀ t ∈ q.destroyed, t < q.created := by
    intro away hl hd
    rw [← hd]
    exact ⟨hl.once, List.Subset.refl _, hl.known⟩
  cases hs with
  | loop _ hl hd => exact hdone hl hd
  | running t _ hr | yielded t _ hr => exact hdone hr.lists hr.done
  | blocked t _ hl _ hd => exact hdone hl hd
  | killed t _ hl _ _ hd =>
      have hsub : q.destroyed ⊆ q.exited := hd ▸ List.subset_append_left ..
      have honce := hl.once
      rw [hd] at honce
      exact ⟨honce.of_append_left, hsub, fun x hx => hl.known x (hsub hx)⟩

/-- If at most the timeout task is left, its destruction is the last one. -/
theorem Going.perm {s : St} (h : Going s) (hcount : canDestory s = true) :
    (s.q.destroyed ++ [0]).Perm (List.range s.q.created) := by
  have hk := kept_of_reach h.reach
  obtain ⟨v, hs⟩ := hk.settled
  obtain ⟨honce, hsub, hknown⟩ := settled_destroyed hs
  have hlive : s.q.Live 0 := by
    apply hk.live
    intro hc
    have hflag := h.flag
    rw [hc] at hflag
    cases hflag
  have hnew : (s.q.destroyed ++ [0]).Nodup :=
    List.nodup_append.mpr ⟨honce, List.nodup_singleton 0, by
      rintro a ha b hb rfl
      obtain rfl := List.mem_singleton.mp hb
      exact hlive.2 (hsub ha)⟩
  have hmem : s.q.destroyed ++ [0] ⊆ List.range s.q.created := by
    intro t ht
    rw [List.mem_range]
    rcases List.mem_append.mp ht with ht | ht
    · exact hknown t ht
    · rw [List.mem_singleton.mp ht]
      exact hlive.1
  refine (hnew.subperm hmem).perm_of_length_le ?_
  have hle : taskCount s ≤ 2 := of_decide_eq_true hcount
  rw [taskCount] at hle
  rw [List.length_range, List.length_append, List.length_singleton]
  omega

theorem canDestory_of_leaves {x : StopSt} (h : leaves x = true) : canDestory x.st = true := by
  unfold leaves at h
  split at h
  · split_ifs at h
    exact h
  · cases h

/-- What holds at every place of a run: until the loop is left the timeout task is there, and then every
task is destroyed. -/
def Ends (x : StopSt) : Prop :=
  if x.stopped then x.st.q.destroyed.Perm (List.range x.st.q.created) else Going x.st

theorem Ends.step {x x' : StopSt} {a : StopAct} (h : Ends x) (hok : stopOk x a = true)
    (e : stopStep x a = some x') : Ends x' := by
  cases a with
  | openPipe | closePipe =>
      obtain ⟨-, e⟩ := Option.ite_none_right_eq_some.mp e
      obtain rfl := Option.some.inj e
      exact h
  | act a =>
      unfold stopStep at e
      dsimp only at e
      split_ifs at e with hstopped hleaves
      · rw [Ends, if_neg hstopped] at h
        rw [h.schedDestory] at e
        obtain rfl := Option.some.inj e
        exact h.perm (canDestory_of_leaves hleaves.2)
      · rw [Ends, if_neg hstopped] at h
        obtain ⟨s', e', rfl⟩ := Option.map_eq_some_iff.mp e
        rw [Ends, if_neg hstopped]
        exact h.step hok e'

theorem ends_of_reach {x : StopSt} (hr : stopSystem.ReachVia (fun x a => stopOk x a = true) x) :
    Ends x := by
  refine hr.invariant ?_ fun _ _ _ h hok e => h.step hok e
  rintro ⟨s, active, stopped⟩ ⟨⟨n, count, hs⟩, -, hstopped⟩
  dsimp only at hs hstopped
  subst hs hstopped
  exact ⟨.init ⟨n, count, rfl⟩, rfl, .inl rfl⟩

/-- The loop may be left exactly when every task but the timeout task is destroyed. -/
theorem Going.canDestory_iff {s : St} (h : Going s) :
    canDestory s = true ↔ ∀ t < s.q.created, t ≠ 0 → t ∈ s.q.destroyed := by
  constructor
  · intro hcount t ht ht0
    have hmem := (h.perm hcount).mem_iff.mpr (List.mem_range.mpr ht)
    exact (List.mem_append.mp hmem).resolve_right fun hc => ht0 (List.mem_singleton.mp hc)
  · intro hall
    have hsub : List.range s.q.created ⊆ 0 :: s.q.destroyed := by
      intro t ht
      by_cases ht0 : t = 0
      · exact ht0 ▸ List.mem_cons_self
      · exact List.mem_cons_of_mem _ (hall t (List.mem_range.mp ht) ht0)
    have hle := (List.nodup_range.subperm hsub).length_le
    rw [List.length_range, List.length_cons] at hle
    refine decide_eq_true ?_
    rw [taskCount]
    omega

theorem leaves_iff {x : StopSt} {t : Tid} (hp : x.st.q.phase = .handle t) :
    leaves x = true ↔ x.active = false ∧ canDestory x.st = true := by
  have hno : canDestory x.st = true → noTask x.st = true := fun h =>
    decide_eq_true ((of_decide_eq_true h).trans (by decide))
  unfold leaves
  rw [hp]
  dsimp only
  split_ifs with h1 h2
  · simp [h2]
  · simp [h2]
  · exact iff_of_false id fun h => h1 (hno h.2)

/-- As long as the timeout task can read its timer, the test of the loop leaves it exactly when the active
pipe is closed and every task but the timeout task is destroyed; and a thread that has left the loop has
destroyed each of its tasks once. -/
theorem stop_destroys_all {x : StopSt} (hr : stopSystem.ReachVia (fun x a => stopOk x a = true) x) :
    (∀ t, x.stopped = false → x.st.q.phase = .handle t → ∃ x', stopStep x (.act .handlePrev) = some x' ∧
      (x'.stopped = true ↔ x.active = false ∧
        ∀ u < x.st.q.created, u ≠ 0 → u ∈ x.st.q.destroyed)) ∧
    (x.stopped = true → x.st.q.destroyed.Perm (List.range x.st.q.created)) := by
  have h := ends_of_reach hr
  refine ⟨fun t hstopped hp => ?_, fun hstopped => ?_⟩
  · rw [Ends, if_neg (by simp [hstopped])] at h
    rw [← h.canDestory_iff, ← leaves_iff hp]
    unfold stopStep
    dsimp only
    rw [if_neg (by simp [hstopped])]
    by_cases hl : leaves x = true
    · rw [if_pos ⟨rfl, hl⟩, h.schedDestory]
      exact ⟨_, rfl, iff_of_true rfl hl⟩
    · rw [if_neg fun hc => hl hc.2]
      unfold step
      rw [hp]
      exact ⟨_, rfl, iff_of_false (by simp [hstopped]) hl⟩
  · rwa [Ends, if_pos hstopped] at h

/-- The active task opens its pipe and waits for it; the task 2 exits; the pipe is closed, the active task
exits, and the timer ticks. -/
def stopRun : List StopAct :=
  [.act .dispatch, .act (.timeoutRead .again true), .act .handlePrev, .act .dispatch, .openPipe,
    .act (.user .socket), .act (.user (.eventPoll 0 { epollin := true } true)), .act .handlePrev,
    .act .dispatch, .act (.user .exit), .act .handlePrev, .act (.event (.sock 0) { epollin := true }),
    .act .dispatch, .act (.goOn true), .closePipe, .act (.user .exit), .act .handlePrev,
    .act (.event .wheelTimer { epollin := true }), .act .dispatch, .act (.goOn true), .act (.goOn true),
    .act (.timeoutRead .again true), .act .handlePrev]

theorem stop_destroys_all_one : ∃ x : StopSt, x.stopped = true ∧ x.st.q.created = 3 ∧
    x.st.q.destroyed.Perm [0, 1, 2] := by
  have hrun := TS.ReachVia.exists_of_run (M := stopSystem) (s := ⟨start 1 fun _ => 0, false, false⟩)
    (fun x a => stopOk x a = true) stopRun
    (fun x => decide (x.stopped = true ∧ x.st.q.created = 3))
    ⟨⟨1, _, rfl⟩, rfl, rfl⟩ (by decide +kernel) (by decide +kernel)
  obtain ⟨x, hx, hP⟩ := hrun
  obtain ⟨hstopped, hcreated⟩ := of_decide_eq_true hP
  have hperm := (stop_destroys_all hx).2 hstopped
  rw [hcreated] at hperm
  exact ⟨x, hstopped, hcreated, hperm⟩

/-- The timer cannot be read; the active task and the task 2 wait for their descriptors.  The active pipe is
closed, since three tasks are left, and the active task exits; the task 2 is resumed and waits again. -/
def stopWithoutTimer : List StopAct :=
  [.act .dispatch, .act (.timeoutRead .error true), .act .handlePrev, .act .dispatch, .openPipe,
    .act (.user .socket), .act (.user (.eventPoll 0 { epollin := true } true)), .act .handlePrev,
    .act .dispatch, .act (.user .socket), .act (.user (.eventPoll 1 { epollin := true } true)),
    .act .handlePrev, .act (.event (.sock 0) { epollin := true }), .act .dispatch, .act (.goOn true),
    .closePipe, .act (.user .exit), .act .handlePrev, .act (.event (.sock 1) { epollin := true }),
    .act .dispatch, .act (.goOn true), .act (.user (.eventPoll 1 { epollin := true } true))]

/-- Without the timeout task the loop is left while the task 2 waits, and `delete_epoll` reads a record that
is gone. -/
theorem waiting_task_left : ∃ x : StopSt, stopSystem.Reachable x ∧ leaves x = true ∧
    (∃ t < x.st.q.created, t ∉ x.st.q.destroyed ∧ x.st.cont t = .eventPoll (.sock 1) .user) ∧
    stopStep x (.act .handlePrev) = none := by
  have hrun := TS.Reachable.exists_of_run (M := stopSystem) (s := ⟨start 1 fun _ => 0, false, false⟩)
    stopWithoutTimer
    (fun x => decide (leaves x = true ∧ (2 < x.st.q.created ∧ 2 ∉ x.st.q.destroyed ∧
      x.st.cont 2 = .eventPoll (.sock 1) .user) ∧ (stopStep x (.act .handlePrev)).isNone = true))
    ⟨⟨1, _, rfl⟩, rfl, rfl⟩ (by decide +kernel)
  obtain ⟨x, hx, hP⟩ := hrun
  obtain ⟨hl, ⟨hcreated, hdestroyed, hcont⟩, hnone⟩ := of_decide_eq_true hP
  exact ⟨x, hx, hl, ⟨2, hcreated, hdestroyed, hcont⟩, Option.isNone_iff_eq_none.mp hnone⟩

end Libcask.Sched.Stop
