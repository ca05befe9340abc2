import Libcask.RoundRobin

/-! # The counter of the run queue

`RR_enqueue` adds one to `rq->task_num` whether or not the task is on the run queue already, and
`RR_dequeue` takes one off; nothing else writes it.

* `step_taskNum`: what a step does to the counter, for all steps.
* `run_queue_counter`: the counter is the length of the run queue plus the number of times that a task
  was put on the run queue while it was there (`counting`).  It is right exactly as long as that did not
  happen, up to the overflow of the counter.
* `counted_twice`: two descriptors of one `co_poll` that are ready together are enough. -/

namespace Libcask.Sched

/-- What a step adds to the counter when it puts a task on the run queue, or none. -/
def added : Option Tid → UInt64
  | none => 0
  | some _ => 1

theorem eq_add_added_none {n m : UInt64} (h : n = m) : n = m + added none :=
  h.trans (UInt64.add_zero m).symm

/-! ### The calls of a task -/

theorem Queues.wakeFirst_taskNum (q : Queues) (h : Head) :
    (q.wakeFirst h).taskNum = q.taskNum + added (ListOps.first q.links h) := by
  unfold Queues.wakeFirst
  cases ListOps.first q.links h with
  | none => exact eq_add_added_none rfl
  | some t => rfl

theorem Queues.handlePrev_taskNum (q : Queues) (t : Tid) : (q.handlePrev t).taskNum =
    q.taskNum + added (if q.status t = .runnable then some t else none) := by
  unfold Queues.handlePrev
  cases q.status t with
  | runnable => rfl
  | ready | ioBlock | sysBlock | sleep | killed | dead => exact eq_add_added_none rfl

namespace St

variable {s s' : St} {v : View Head Tid} {t : Tid}

theorem mutexLoop_taskNum (s : St) (t : Tid) (m : ℕ) (r : Ret) :
    (s.mutexLoop t m r).q.taskNum = s.q.taskNum := by
  unfold St.mutexLoop
  cases s.lock m with
  | none | some u => rfl

theorem coMutexLock_taskNum {m : ℕ} {r : Ret} (e : s.coMutexLock t m r = some s') :
    s'.q.taskNum = s.q.taskNum := by
  obtain ⟨-, e⟩ := Option.ite_none_left_eq_some.mp e
  rw [← Option.some.inj e]
  exact mutexLoop_taskNum s t m r

/-- The unlock in the two calls that wait on a condition: the task is linked on another list. -/
theorem condWait_taskNum (hc : s.q.Control v t) {io : Io} {c m : ℕ} {s₁ : St}
    (e : St.coMutexUnlock { s with q := s.q.addWaiter (.condWait c) t, io := io } t m = some s₁) :
    s₁.q.taskNum = s.q.taskNum + added (ListOps.first s.q.links (.mutexWait m)) := by
  obtain ⟨-, e⟩ := Option.ite_none_right_eq_some.mp e
  rw [← Option.some.inj e]
  show (Queues.wakeFirst _ _).taskNum = _
  rw [Queues.wakeFirst_taskNum, hc.first_addWaiter (by simp)]
  rfl

theorem coSemWait_taskNum (s : St) (t : Tid) (i : ℕ) : (s.coSemWait t i).q.taskNum = s.q.taskNum := by
  unfold St.coSemWait
  dsimp only
  split_ifs <;> rfl

theorem coSemTryWait_taskNum (s : St) (t : Tid) (i : ℕ) :
    (s.coSemTryWait t i).q.taskNum = s.q.taskNum := by
  unfold St.coSemTryWait
  dsimp only
  split_ifs <;> rfl

theorem coSemPost_taskNum (s : St) (t : Tid) (i : ℕ) : (s.coSemPost t i).q.taskNum =
    s.q.taskNum +
      added (if toInt32 (s.sem i + 1) < 0 then ListOps.first s.q.links (.semWait i) else none) := by
  unfold St.coSemPost
  dsimp only
  split_ifs with hneg hpos
  · rw [Function.update_self] at hpos
    omega
  · exact Queues.wakeFirst_taskNum ..
  · exact eq_add_added_none rfl

theorem broadcastLoop_taskNum {ls : Node Head Tid} (e : s.broadcastLoop t ls = some s') :
    s'.q.taskNum = s.q.taskNum + added (listPeek s.q.links ls) := by
  unfold listPeek
  rcases broadcastLoop_eq e with ⟨hempty, rfl⟩ | ⟨hempty, u, rfl, rfl⟩
  · rw [if_pos hempty]
    exact eq_add_added_none rfl
  · rw [if_neg (by simp [hempty])]
    rfl

theorem timeoutLoop_taskNum {ls : Node ℕ Fd} (e : s.timeoutLoop t ls = some s') :
    s'.q.taskNum = s.q.taskNum + added ((listPeek s.io.wheel ls).bind s.io.taskOf) := by
  unfold listPeek
  rcases timeoutLoop_eq e with ⟨hempty, rfl⟩ | ⟨hempty, fd, r, u, rfl, hr, hu, rfl⟩
  · rw [if_pos hempty]
    exact eq_add_added_none rfl
  · have htask : s.io.taskOf fd = some u := (Fds.taskOf_eq hr).trans hu
    rw [if_neg (by simp [hempty]), Node.toElem, Option.bind_some, htask]
    rfl

theorem eventPollDone_taskNum (s : St) (t : Tid) (fd : Fd) (r : Io.PollResult) (read : Bool)
    (caller : Caller) : (s.eventPollDone t fd r read caller).q.taskNum = s.q.taskNum := by
  unfold St.eventPollDone
  cases caller with
  | user => rfl
  | sleep | timeoutTask => split_ifs <;> rfl

theorem eventPoll_taskNum {fd : Fd} {events : Events} {ok : Bool} {caller : Caller}
    (e : s.eventPoll t fd events ok caller = some s') : s'.q.taskNum = s.q.taskNum := by
  unfold St.eventPoll at e
  split at e
  · cases e
  · rw [← Option.some.inj e]
    rfl
  · rw [← Option.some.inj e]
    exact eventPollDone_taskNum ..

theorem coSleep_taskNum {k : Io.TimerCall} {again ok : Bool} (e : s.coSleep t k again ok = some s') :
    s'.q.taskNum = s.q.taskNum := by
  unfold St.coSleep at e
  obtain ⟨-, e⟩ := Option.ite_none_right_eq_some.mp e
  dsimp only at e
  split at e
  · cases e
  · split_ifs at e
    · have h := eventPoll_taskNum e
      exact h
    · rw [← Option.some.inj e]
      rfl
    · rw [← Option.some.inj e]
      rfl

theorem coPoll_taskNum {fds : List (PollFd × Bool)} {timed : Bool} {k : Io.TimerCall}
    (e : s.coPoll t fds timed k = some s') : s'.q.taskNum = s.q.taskNum := by
  unfold St.coPoll at e
  split at e
  · cases e
  · split_ifs at e
    · split at e
      · cases e
      · rw [← Option.some.inj e]
        rfl
    · rw [← Option.some.inj e]
      rfl

theorem coPollReturn_taskNum {fds : List PollFd} {timed : Bool} {tfd : Option Fd}
    (e : s.coPollReturn t fds timed tfd = some s') : s'.q.taskNum = s.q.taskNum := by
  unfold St.coPollReturn at e
  dsimp only at e
  split at e
  · cases e
  · rw [← Option.some.inj e]
    rfl

end St

/-! ### The steps -/

section steps
variable {s s' : St} {v : View Head Tid} {t : Tid}

theorem userAct_taskNum (hc : s.q.Control v t) {u : UserAct} (e : userAct s t u = some s') :
    s'.q.taskNum = s.q.taskNum + added (u.puts s.q s.sem) := by
  cases u with
  | create =>
      rw [← Option.some.inj e]
      rfl
  | yield | exit | broadcast c | socket =>
      obtain rfl := Option.some.inj e
      exact eq_add_added_none rfl
  | tryLock m =>
      apply eq_add_added_none
      rw [← Option.some.inj e]
      unfold St.coMutexTryLock
      cases s.lock m with
      | none | some u => rfl
  | listen n =>
      apply eq_add_added_none
      unfold userAct at e
      dsimp only at e
      split at e <;> rw [← Option.some.inj e]
  | lock m => exact eq_add_added_none (St.coMutexLock_taskNum e)
  | unlock m =>
      obtain ⟨-, e⟩ := Option.ite_none_right_eq_some.mp e
      rw [← Option.some.inj e]
      exact Queues.wakeFirst_taskNum ..
  | condWait c m =>
      obtain ⟨-, e⟩ := Option.ite_none_left_eq_some.mp e
      obtain ⟨s₁, e₁, rfl⟩ := Option.map_eq_some_iff.mp e
      have h := St.condWait_taskNum hc e₁
      exact h
  | condWaitTill c m k =>
      obtain ⟨-, e⟩ := Option.ite_none_left_eq_some.mp e
      split at e
      · cases e
      · obtain ⟨s₁, e₁, rfl⟩ := Option.map_eq_some_iff.mp e
        have h := St.condWait_taskNum hc e₁
        exact h
  | signal c =>
      rw [← Option.some.inj e]
      exact Queues.wakeFirst_taskNum ..
  | semWait i =>
      apply eq_add_added_none
      rw [← Option.some.inj e]
      exact St.coSemWait_taskNum s t i
  | semTryWait i =>
      apply eq_add_added_none
      rw [← Option.some.inj e]
      exact St.coSemTryWait_taskNum s t i
  | semPost i =>
      rw [← Option.some.inj e]
      exact St.coSemPost_taskNum s t i
  | eventPoll n events ok => exact eq_add_added_none (St.eventPoll_taskNum e)
  | coPoll fds timed k => exact eq_add_added_none (St.coPoll_taskNum e)
  | sleep k again ok => exact eq_add_added_none (St.coSleep_taskNum e)

theorem goOn_taskNum {read : Bool} (e : s.goOn t read = some s') :
    s'.q.taskNum = s.q.taskNum + added ((s.cont t).puts s) := by
  unfold St.goOn at e
  cases hc : s.cont t with
  | user | timeoutRead => simp [hc] at e
  | mutexLock m r =>
      simp only [hc] at e
      apply eq_add_added_none
      rw [← Option.some.inj e]
      exact St.mutexLoop_taskNum s t m r
  | condWait m =>
      simp only [hc] at e
      exact eq_add_added_none (St.coMutexLock_taskNum e)
  | condWaitTill m tfd =>
      simp only [hc] at e
      have h := St.coMutexLock_taskNum e
      exact eq_add_added_none h
  | semWait i =>
      simp only [hc] at e
      apply eq_add_added_none
      rw [← Option.some.inj e]
      exact St.coSemWait_taskNum s t i
  | eventPoll fd caller =>
      simp only [hc] at e
      apply eq_add_added_none
      split at e
      · cases e
      · rw [← Option.some.inj e]
        exact St.eventPollDone_taskNum ..
  | coPoll fds timed tfd =>
      simp only [hc] at e
      exact eq_add_added_none (St.coPollReturn_taskNum e)
  | broadcast ls =>
      simp only [hc] at e
      exact St.broadcastLoop_taskNum e
  | timeoutList ls =>
      simp only [hc] at e
      exact St.timeoutLoop_taskNum e

theorem timeoutRead_taskNum {ok : Bool} {r : ReadResult} (e : timeoutRead s t ok r = some s') :
    s'.q.taskNum = s.q.taskNum := by
  cases r with
  | full | error =>
      rw [← Option.some.inj e]
      rfl
  | again => exact St.eventPoll_taskNum e

/-- What a step does to the counter. -/
theorem step_taskNum {a : Act} (hf : Formed s v) (e : step s a = some s') :
    s'.q.taskNum = if a = .dispatch then s.q.taskNum - 1 else s.q.taskNum + added (s.puts a) := by
  by_cases ha : a = .dispatch
  · subst ha
    obtain ⟨-, q, hq, rfl⟩ := step_dispatch e
    unfold Queues.dispatch at hq
    split at hq
    · cases hq
    · rw [if_pos rfl, ← Option.some.inj hq]
      rfl
  · rw [if_neg ha]
    unfold step at e
    unfold St.puts
    cases hp : s.q.phase with
    | running t =>
        rw [hp] at e
        cases a with
        | goOn read => exact goOn_taskNum e
        | timeoutRead r ok =>
            obtain ⟨-, e⟩ := Option.ite_none_right_eq_some.mp e
            exact eq_add_added_none (timeoutRead_taskNum e)
        | user u =>
            obtain ⟨-, e⟩ := Option.ite_none_right_eq_some.mp e
            exact userAct_taskNum (hf.control hp) e
        | handlePrev | event fd ev | dispatch => cases e
    | loop =>
        rw [hp] at e
        cases a with
        | event fd ev =>
            obtain ⟨-, r, hr, rfl⟩ := eventWait_eq e
            dsimp only
            rw [Fds.taskOf_eq hr]
            cases r.task with
            | none => exact eq_add_added_none rfl
            | some u => rfl
        | dispatch => exact absurd rfl ha
        | handlePrev | goOn r | timeoutRead r ok | user u => cases e
    | handle t =>
        rw [hp] at e
        cases a with
        | handlePrev =>
            rw [← Option.some.inj e]
            exact Queues.handlePrev_taskNum s.q t
        | event fd ev | dispatch | goOn r | timeoutRead r ok | user u => cases e

/-! ### Whole runs -/

/-- Putting a task on the run queue makes it longer, unless the task is there. -/
theorem length_enqueued_some (u : Tid) (l : List Tid) :
    (enqueued (some u) l).length = if u ∈ l then l.length else l.length + 1 := by
  split_ifs with hu
  · have hpos := List.length_pos_of_mem hu
    rw [enqueued, List.length_cons, List.length_erase_of_mem hu]
    omega
  · rw [enqueued, List.length_cons, List.erase_of_not_mem hu]

theorem counter_step {a : Act} {k : ℕ} (hf : Formed s v) (e : step s a = some s')
    (hk : s.q.taskNum = .ofNat (s.runQueue.length + k)) :
    s'.q.taskNum = .ofNat (s'.runQueue.length + if noRequeue s a then k else k + 1) := by
  have hnum := step_taskNum hf e
  rw [hk, hf.runQueue_eq] at hnum
  by_cases ha : a = .dispatch
  · subst ha
    obtain ⟨hp, q, hq, rfl⟩ := step_dispatch e
    obtain ⟨t, v', -, -, hl, hf'⟩ := hf.dispatch hq
    have hok : noRequeue s .dispatch = true := by simp [noRequeue, St.puts, hp]
    rw [if_pos rfl, hl, List.length_append, List.length_singleton, Nat.add_right_comm,
      UInt64.ofNat_add, UInt64.ofNat_one, UInt64.add_sub_cancel] at hnum
    rw [if_pos hok, hf'.runQueue_eq]
    exact hnum
  · obtain ⟨v', hf', hrun⟩ := formed_step hf e
    rw [St.queueAfter, if_neg ha] at hrun
    rw [if_neg ha] at hnum
    rw [hnum, hf'.runQueue_eq, hrun, noRequeue, hf.runQueue_eq]
    cases s.puts a with
    | none => exact UInt64.add_zero _
    | some u =>
        rw [length_enqueued_some, added]
        by_cases hu : u ∈ v .runList
        · rw [if_pos hu, if_neg (by simp [hu]), ← Nat.add_assoc, UInt64.ofNat_add _ 1]
          rfl
        · rw [if_neg hu, if_pos (by simp [hu]), Nat.add_right_comm, UInt64.ofNat_add _ 1]
          rfl

end steps

/-- The first tasks are put on the run queue when they are created. -/
theorem Queues.start_counter (k : ℕ) : ∃ v, (Queues.coCreate^[k] Queues.empty).Listed v ∧
    (Queues.coCreate^[k] Queues.empty).taskNum = .ofNat (v .runList).length := by
  induction k with
  | zero => exact ⟨_, ⟨rings_empty, fun hx => absurd hx List.not_mem_nil⟩, rfl⟩
  | succ k ih =>
      obtain ⟨v, hl, hnum⟩ := ih
      rw [Function.iterate_succ_apply']
      generalize Queues.coCreate^[k] Queues.empty = q at hl hnum
      have hput := hl.coCreate
      have hnew : q.created ∉ v .runList := fun hm => lt_irrefl _ (hl.created hm)
      refine ⟨_, hput.listed, ?_⟩
      rw [hput.runList, length_enqueued_some, if_neg hnew, UInt64.ofNat_add _ 1, ← hnum]
      rfl

theorem start_counter (n : ℕ) (count : ℕ → ℕ) :
    (start n count).q.taskNum = .ofNat (start n count).runQueue.length := by
  obtain ⟨v, hl, hnum⟩ := Queues.start_counter (n + 2)
  obtain ⟨w, hf⟩ := Formed.start n count
  rw [hf.runQueue_eq, hf.listed.rings.unique hl.rings]
  exact hnum

/-- The thread, with the number of times that a task was put on the run queue while it was there. -/
def counting : TS (St × ℕ) Act :=
  system.withHistory 0 fun k s a _ => if noRequeue s a then k else k + 1

/-- **The counter of the run queue** is too large by the number of times that a task was put on the run
queue while it was there; so it is the number of tasks on the run queue exactly as long as this did not
happen, or `2 ^ 64` times. -/
theorem run_queue_counter {x : St × ℕ} (hr : counting.Reachable x) :
    x.1.q.taskNum = .ofNat (x.1.runQueue.length + x.2) ∧
      (x.1.q.taskNum = .ofNat x.1.runQueue.length ↔ 2 ^ 64 ∣ x.2) := by
  have hcount : x.1.q.taskNum = .ofNat (x.1.runQueue.length + x.2) := by
    refine hr.invariant_of (I := fun x : St × ℕ => x.1.q.taskNum = .ofNat (x.1.runQueue.length + x.2))
      (J := fun x : St × ℕ => ∃ v, Formed x.1 v)
      (fun x hx => formed_of_reach (TS.ReachVia.fst (fun _ _ => True) hx)) ?_ ?_
    · rintro ⟨s, k⟩ ⟨⟨n, count, rfl⟩, rfl⟩
      exact start_counter n count
    · rintro x a x' ⟨v, hf⟩ hk - hstep
      obtain ⟨hs, hk'⟩ := TS.withHistory_step hstep
      rw [hk']
      exact counter_step hf hs hk
  refine ⟨hcount, ?_⟩
  rw [hcount, UInt64.ofNat_add, UInt64.add_eq_left, UInt64.ofNat_eq_iff_mod_eq_toNat,
    Nat.dvd_iff_mod_eq_zero]
  rfl

/-- One event for each of two tasks, and a dispatch. -/
theorem run_queue_counter_one_event_each : ∃ x : St × ℕ, counting.Reachable x ∧
    x.1.runQueue = [3] ∧ x.1.q.taskNum = .ofNat x.1.runQueue.length := by
  obtain ⟨x, hr, hx⟩ := TS.Reachable.exists_of_run (M := counting) (s := (start 2 fun _ => 0, 0))
    (pollTwoSockets ++ [.event (.sock 0) { epollin := true }, .event (.sock 2) { epollin := true },
      .dispatch])
    (fun x => decide (x.1.runQueue = [3] ∧ x.2 = 0)) ⟨⟨2, _, rfl⟩, rfl⟩ (by decide +kernel)
  obtain ⟨hq, hk⟩ := of_decide_eq_true hx
  exact ⟨x, hr, hq, (run_queue_counter hr).2.mpr (hk ▸ dvd_zero _)⟩

/-- Both sockets of the task 2 are ready: it is on the run queue once, and counted twice. -/
theorem counted_twice : ∃ s : St, system.Reachable s ∧ s.q.phase = .loop ∧ s.runQueue = [2] ∧
    s.q.taskNum = 2 := by
  obtain ⟨s, hr, hs⟩ := TS.Reachable.exists_of_run (M := system) (s := start 2 fun _ => 0)
    (pollTwoSockets ++ [.event (.sock 0) { epollin := true }, .event (.sock 1) { epollin := true }])
    (fun s => decide (s.q.phase = .loop ∧ s.runQueue = [2] ∧ s.q.taskNum = 2)) ⟨2, _, rfl⟩
    (by decide +kernel)
  exact ⟨s, hr, of_decide_eq_true hs⟩

end Libcask.Sched
