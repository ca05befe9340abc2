import Libcask.Fifo
import Libcask.SchedSteps

/-! # Round robin

`round_robin`: a task that is on the run queue when another one is put on it is dispatched first, in
runs in which no task is put on the run queue while it is there (`noRequeue`).  `RR_enqueue` unlinks
such a task and links it again at the back, so it loses its place: two descriptors of one `co_poll`
that are ready together are enough (`resumed_twice_overtaken`). -/

namespace Libcask.Sched

/-- The run queue, from the task that was put on it last to the one that is dispatched next. -/
def St.runQueue (s : St) : List Tid := Rings.walk s.q.links s.q.created (.head .runList)

theorem Formed.walk_eq {s : St} {v : View Head Tid} (hf : Formed s v) (h : Head) :
    Rings.walk s.q.links s.q.created (.head h) = v h :=
  hf.listed.rings.walk_eq
    (Rings.length_le (hf.listed.rings.ok.nodup h) fun _ ht => hf.listed.created ht)

theorem Formed.runQueue_eq {s : St} {v : View Head Tid} (hf : Formed s v) :
    s.runQueue = v .runList := hf.walk_eq _

/-- The task that a step dispatches. -/
def St.dispatches (s : St) (a : Act) : Option Tid :=
  if a = .dispatch then rrPicknext .runList s.q.links else none

/-- The tasks that are dispatched in a run, in this order. -/
def dispatched : St → List Act → List Tid
  | _, [] => []
  | s, a :: as =>
      match step s a with
      | none => []
      | some s' => (s.dispatches a).toList ++ dispatched s' as

/-- The step puts no task on the run queue that is there already. -/
def noRequeue (s : St) (a : Act) : Bool := (s.puts a).all fun t => t ∉ s.runQueue

open Fifo in
/-- A run that puts no task on the run queue twice keeps the order of the queue. -/
theorem dispatched_before {T X : Tid} (hne : X ≠ T) :
    ∀ {as : List Act} {s : St} {v : View Head Tid}, Formed s v → Before (v .runList) T X →
      system.RunMeets (fun s a => noRequeue s a = true) s as →
      ∀ l₁ l₂, dispatched s as = l₁ ++ T :: l₂ → X ∈ l₁
  | [], s, v, _, _, _, l₁, l₂, hd => by simp [dispatched] at hd
  | a :: as, s, v, hf, hb, hm, l₁, l₂, hd => by
      unfold dispatched at hd
      cases e : step s a with
      | none => simp [e] at hd
      | some s' =>
          rw [e] at hd
          have hrest : ∀ {v' : View Head Tid}, Formed s' v' → Before (v' .runList) T X →
              ∀ l₁ l₂, dispatched s' as = l₁ ++ T :: l₂ → X ∈ l₁ :=
            fun hf' hb' => dispatched_before hne hf' hb' (hm.2 s' e)
          by_cases ha : a = .dispatch
          · -- the last task leaves the queue
            subst ha
            obtain ⟨-, q, hq, hs'⟩ := step_dispatch e
            obtain ⟨u, v', hpick, -, hl, hf'⟩ := hf.dispatch hq
            rw [← hs'] at hf'
            rw [hl] at hb
            have hd' : u :: dispatched s' as = l₁ ++ T :: l₂ := by
              rwa [St.dispatches, if_pos rfl, hpick] at hd
            rcases hb.take with rfl | ⟨hu, hb'⟩
            · cases l₁ with
              | nil => exact absurd (List.head_eq_of_cons_eq hd') hne
              | cons y l₁ => exact List.head_eq_of_cons_eq hd' ▸ List.mem_cons_self
            · cases l₁ with
              | nil => exact absurd (List.head_eq_of_cons_eq hd') hu
              | cons y l₁ =>
                  exact List.mem_cons_of_mem y (hrest hf' hb' l₁ l₂ (List.tail_eq_of_cons_eq hd'))
          · -- the queue grows at its front, or stays
            obtain ⟨v', hf', hrun⟩ := formed_step hf e
            rw [St.queueAfter, if_neg ha] at hrun
            rw [St.dispatches, if_neg ha] at hd
            refine hrest hf' ?_ l₁ l₂ hd
            cases hput : s.puts a with
            | none =>
                rw [hrun, hput]
                exact hb
            | some t =>
                have hok : t ∉ v .runList := by
                  have hok : noRequeue s a = true := hm.1
                  rw [noRequeue, hput, hf.runQueue_eq] at hok
                  simpa using hok
                rw [hrun, hput, enqueued, List.erase_of_not_mem hok]
                exact hb.put t

/-- If `X` is on the run queue when `T` is put on it, `X` is dispatched before `T` is. -/
theorem round_robin {s s₁ : St} {a : Act} {T X : Tid}
    (h : system.ReachVia (fun s a => noRequeue s a = true) s) (hok : noRequeue s a = true)
    (hX : X ∈ s.runQueue) (hT : s.puts a = some T) (e : step s a = some s₁) {as : List Act}
    (hm : system.RunMeets (fun s a => noRequeue s a = true) s₁ as) (l₁ l₂ : List Tid)
    (hd : dispatched s₁ as = l₁ ++ T :: l₂) : X ∈ l₁ := by
  obtain ⟨v, hf⟩ := formed_of_reach h
  obtain ⟨v₁, hf₁, hrun⟩ := formed_step hf e
  rw [hf.runQueue_eq] at hX
  have hTq : T ∉ v .runList := by
    rw [noRequeue, hT, hf.runQueue_eq] at hok
    simpa using hok
  have hne : X ≠ T := ne_of_mem_of_not_mem hX hTq
  -- the step is not a dispatch, since it puts a task on the queue
  have ha : a ≠ .dispatch := by
    rintro rfl
    unfold St.puts at hT
    split at hT <;> simp_all
  rw [St.queueAfter, if_neg ha, hT, enqueued, List.erase_of_not_mem hTq] at hrun
  refine dispatched_before hne hf₁ ?_ hm l₁ l₂ hd
  rw [hrun]
  exact (Fifo.before_of_not_mem hX hTq).put T

/-- The task 2 waits for the sockets 0 and 1 at once, the task 3 for the socket 2; the active task
sleeps. -/
def pollTwoSockets : List Act :=
  [.dispatch, .timeoutRead .again true, .handlePrev, .dispatch, .user (.semWait 0), .handlePrev,
    .dispatch, .user .socket, .user .socket,
    .user (.coPoll [(⟨0, { epollin := true }, {}⟩, true), (⟨1, { epollin := true }, {}⟩, true)] false
      ⟨true, true, true⟩), .handlePrev,
    .dispatch, .user .socket, .user (.eventPoll 2 { epollin := true } true), .handlePrev]

/-- One socket of each task is ready: the task 2 is dispatched first, and yields. -/
theorem round_robin_one_event_each : ∃ s s₁ : St,
    s.puts (.event (.sock 2) { epollin := true }) = some 3 ∧
    step s (.event (.sock 2) { epollin := true }) = some s₁ ∧ 2 ∈ s.runQueue ∧
    ∃ l₁ l₂, dispatched s₁ [.dispatch, .goOn true, .user .yield, .handlePrev, .dispatch] =
      l₁ ++ 3 :: l₂ ∧ 2 ∈ l₁ := by
  have hrun := TS.ReachVia.exists_of_run (M := system) (s := start 2 fun _ => 0)
    (fun s a => noRequeue s a = true)
    (pollTwoSockets ++ [.event (.sock 0) { epollin := true }])
    (fun s => decide (s.puts (.event (.sock 2) { epollin := true }) = some 3 ∧ 2 ∈ s.runQueue ∧
      noRequeue s (.event (.sock 2) { epollin := true }) = true ∧
      (step s (.event (.sock 2) { epollin := true })).any fun s₁ =>
        decide (system.RunMeets (fun s a => noRequeue s a = true) s₁
          [.dispatch, .goOn true, .user .yield, .handlePrev, .dispatch] ∧
          dispatched s₁ [.dispatch, .goOn true, .user .yield, .handlePrev, .dispatch] = [2] ++ [3])))
    ⟨2, _, rfl⟩ (by decide +kernel) (by decide +kernel)
  obtain ⟨s, hs, hP⟩ := hrun
  obtain ⟨hput, hq, hok, hany⟩ := of_decide_eq_true hP
  obtain ⟨s₁, e, hs₁⟩ := (Option.any_eq_true _ _).mp hany
  obtain ⟨hm, hd⟩ := of_decide_eq_true hs₁
  exact ⟨s, s₁, hput, e, hq, _, _, hd, round_robin hs hok hq hput e hm _ _ hd⟩

/-- Both sockets of the task 2 are ready, and between them the one of the task 3: the task 3 is
dispatched first, although the task 2 was on the run queue before it. -/
theorem resumed_twice_overtaken :
    ¬∀ (s s₁ : St) (a : Act) (T X : Tid) (as : List Act) (l₁ l₂ : List Tid), system.Reachable s →
      X ≠ T → X ∈ s.runQueue → s.puts a = some T → step s a = some s₁ →
      dispatched s₁ as = l₁ ++ T :: l₂ → X ∈ l₁ := by
  intro hall
  have hrun := TS.Reachable.exists_of_run (M := system) (s := start 2 fun _ => 0)
    (pollTwoSockets ++ [.event (.sock 0) { epollin := true }])
    (fun s => decide (s.puts (.event (.sock 2) { epollin := true }) = some 3 ∧ 2 ∈ s.runQueue ∧
      (step s (.event (.sock 2) { epollin := true })).any fun s₁ =>
        decide (dispatched s₁ [.event (.sock 1) { epollin := true }, .dispatch] = [3])))
    ⟨2, _, rfl⟩ (by decide +kernel)
  obtain ⟨s, hs, hP⟩ := hrun
  obtain ⟨hput, hq, hany⟩ := of_decide_eq_true hP
  obtain ⟨s₁, e, hd⟩ := (Option.any_eq_true _ _).mp hany
  have hnil := hall s s₁ _ 3 2 _ [] [] hs (by decide) hq hput e (of_decide_eq_true hd)
  cases hnil

end Libcask.Sched
