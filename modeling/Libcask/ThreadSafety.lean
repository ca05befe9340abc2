import Libcask.ThreadSteps

/-! # Tasks of several threads

What holds of every task between operations (`ThreadSteps`) holds access by access as well, up to the operations in
progress, by `Agents.fine_refines`:

* a task is in the hand of its own thread only, and nothing refers to a task that has been freed
  (`tasks_stay_home`);
* no task is lost (`no_task_lost`);
* `async_wait` returns after the last access of its worker (`await_returns_after_worker`).

All this needs `disciplined`, which the code does not ensure: an enqueue from another thread races with the owner's
`RR_picknext` and `RR_dequeue` while at most one task is on the run queue (`RunListRaces`), a task can be dispatched
while a thread is inside `co_resume` of it (`freed_task_enqueued`), and a descriptor for which two tasks wait can
stay on the wheel (`stale_link_resumes_freed`). -/

namespace Libcask.Threads

variable {R : Type} [DecidableEq R] {r : R}

/-- The state between operations that is reached when those in progress are finished. -/
theorem finished_of_reach {s : St R} (h : (threads R).fine.ReachVia disciplined s) :
    ∃ c v, Agents.Finished s c ∧ Rings (linksOf c.mem) v ∧ Fds s.shared ∧ (∀ r, (s.place r).Sane) ∧
      ∀ t, (s.shared.view v s.place t).Good := by
  obtain ⟨c, hc, hf⟩ := Agents.fine_refines h
  obtain ⟨v, hi⟩ := inv_of_reach hc
  obtain ⟨hR, -, hfds, hsane, hgood⟩ := hi
  rw [hf.shared] at hfds
  rw [hf.place] at hsane
  rw [hf.shared, hf.place] at hgood
  exact ⟨c, v, hf, hR, hfds, hsane, hgood⟩

/-! ### Runs -/

/-- An operation, with `n` accesses to the links. -/
def opRun (a : Act Bool) (n : ℕ) : List (Agents.FineAct Bool (Act Bool)) :=
  .start a :: List.replicate n (.access a.agent)

/-- `RR_enqueue`. -/
def enqueueRun (r : Bool) : List (Agents.FineAct Bool (Act Bool)) :=
  opRun (.next r) 8 ++ opRun (.next r) 0 ++ opRun (.next r) 6 ++ opRun (.next r) 0

def createRun (r : Bool) : List (Agents.FineAct Bool (Act Bool)) := opRun (.create r) 2 ++ enqueueRun r

/-- `RR_picknext` with `n` accesses, `RR_dequeue` and the switch to the task. -/
def dispatchRun (r : Bool) (n : ℕ) : List (Agents.FineAct Bool (Act Bool)) :=
  opRun (.picknext r) n ++ opRun (.next r) 8 ++ opRun (.next r) 0

/-! ### Every interleaving -/

/-- Task 0 of the thread `false` goes to sleep while the thread `true` picks task 1, which then takes task 0 off its
wait list: the thread `true` is in the middle of `list_delete`, the thread `false` on its way to the scheduler. -/
def crossWake : List (Agents.FineAct Bool (Act Bool)) :=
  createRun false ++ createRun true ++ opRun (.schedule false) 0 ++ opRun (.schedule true) 0 ++ dispatchRun false 4 ++
    opRun (.task false (.sleep (some 0) false [])) 2 ++ opRun (.picknext true) 3 ++
    List.replicate 4 (.access false) ++ [.access true] ++ opRun (.next false) 0 ++ opRun (.next true) 3 ++
    opRun (.next false) 0 ++ List.replicate 5 (.access true) ++ opRun (.next true) 0 ++
    opRun (.task true (.wake 0)) 5

/-- A task runs on only after its worker has stored the result of `async_wait` and has made its last access to the
record on the task's stack: a task that has a worker is in the hand of its thread only on its way to sleep, and,
with the operations in progress finished, on no list. -/
theorem await_returns_after_worker {s : St R} (h : (threads R).fine.ReachVia disciplined s) {t : Tid}
    (hw : s.shared.hired t = true ∨ ∃ r, (s.place r).aid t = some .working) :
    (∀ r, (s.place r).hold t ∈ [none, some .linked, some .blocked, some .handle]) ∧
      ∃ c v, Agents.Finished s c ∧ Rings (linksOf c.mem) v ∧ v.Free t := by
  obtain ⟨c, v, hf, hR, -, -, hgood⟩ := finished_of_reach h
  have haw : (s.shared.view v s.place t).Awaits := hw
  have hwaits : (s.shared.view v s.place t).Waits := .inr haw.engaged
  refine ⟨fun r => ?_, c, v, hf, hR, ?_⟩
  · cases hp : (s.place r).hold t with
    | none => decide
    | some p =>
        obtain ⟨-, -, hfits⟩ := (hgood t).of_hold (r := r) hp
        cases p with
        | picked | requeue => exact absurd haw hfits
        | dispatch => exact absurd haw hfits.not_awaits
        | runs | leaving => exact absurd hwaits hfits.1.not_waits
        | destroy => exact absurd hwaits hfits.not_waits
        | relink => exact absurd haw hfits.1
        | linked | blocked | handle => decide
  · obtain ⟨r₀, ho, -⟩ := (hgood t).of_waits hwaits
    exact free_of_lists (ho.awaits haw).1

/-- The worker runs before the task has switched to its scheduler. -/
theorem await_returns_after_worker_early : ∃ s, (threads Bool).fine.ReachVia disciplined s ∧
    s.place true = .work 0 ∧ s.place false = .linked 0 ∧
      (∀ r, (s.place r).hold 0 ∈ [none, some .linked, some .blocked, some .handle]) ∧
      ∃ c v, Agents.Finished s c ∧ Rings (linksOf c.mem) v ∧ v.Free 0 := by
  obtain ⟨s, hs, hp⟩ := TS.ReachVia.exists_of_run disciplined
    (createRun false ++ opRun (.schedule false) 0 ++ dispatchRun false 4 ++ opRun (.task false .await) 0 ++
      opRun (.hire true 0) 0)
    (fun s => s.place true = .work 0 ∧ s.place false = .linked 0) (M := (threads Bool).fine) rfl
    (by decide +kernel) (by decide +kernel)
  obtain ⟨hw, hd⟩ := of_decide_eq_true hp
  exact ⟨s, hs, hw, hd, await_returns_after_worker hs (.inr ⟨true, by rw [hw]; rfl⟩)⟩

/-! ### The conditions are needed -/

/-- Without a race, but with an early dispatch.  The waker sets the status between the task's `SYS_BLOCK` and the
scheduler's `switch`, which therefore enqueues the task itself; the task runs and exits, and the waker then puts the
freed task on the run queue. -/
theorem freed_task_enqueued : ∃ s, (threads Bool).fine.ReachVia (threads Bool).raceFree s ∧
    s.shared.freed 0 = true ∧ rrPicknext (.run false) (linksOf s.mem) = some 0 := by
  obtain ⟨s, hs, hp⟩ := TS.ReachVia.exists_of_run (threads Bool).raceFree
    (crossWake ++ List.replicate 7 (.access true) ++ opRun (.next true) 0 ++ opRun (.next false) 0 ++
      opRun (.next false) 0 ++ enqueueRun false ++ dispatchRun false 4 ++ opRun (.task false .exit) 0 ++
      opRun (.next false) 0 ++ opRun (.next false) 8 ++ opRun (.next false) 0 ++ enqueueRun true)
    (fun s => s.shared.freed 0 = true ∧ rrPicknext (.run false) (linksOf s.mem) = some 0)
    (M := (threads Bool).fine) rfl (by decide +kernel) (by decide +kernel)
  exact ⟨s, hs, of_decide_eq_true hp⟩

/-- The running task goes to sleep, and the thread goes on to `RR_picknext`. -/
def sleepRun (timed : Bool) (ps : List Poll) : List (Agents.FineAct Bool (Act Bool)) :=
  opRun (.task false (.sleep none timed ps)) 0 ++ opRun (.next false) 0 ++ opRun (.next false) 0 ++
    opRun (.next false) 0

/-- One thread, and two tasks that wait for descriptor 5.  Task 0 puts it on the wheel; task 1, in a timed
`co_poll`, takes the event, leaves the descriptor on the wheel, and exits; the timeout task then resumes the freed
task. -/
theorem stale_link_resumes_freed : ∃ s, (threads Bool).fine.ReachVia (threads Bool).raceFree s ∧
    s.shared.freed 1 = true ∧ s.place false = .enq 1 .status (.timeout 2) := by
  obtain ⟨s, hs, hp⟩ := TS.ReachVia.exists_of_run (threads Bool).raceFree
    (createRun false ++ createRun false ++ createRun false ++ opRun (.schedule false) 0 ++ dispatchRun false 3 ++
      sleepRun false [⟨5, true, true⟩] ++ dispatchRun false 3 ++
      sleepRun true [⟨5, true, true⟩, ⟨6, true, false⟩] ++ opRun (.event false 5) 0 ++ opRun (.next false) 0 ++
      enqueueRun false ++ dispatchRun false 3 ++ opRun (.task false .yield) 0 ++ opRun (.next false) 0 ++
      opRun (.next false) 0 ++ enqueueRun false ++ dispatchRun false 3 ++ opRun (.task false .exit) 0 ++
      opRun (.next false) 0 ++ opRun (.next false) 8 ++ opRun (.next false) 0 ++ dispatchRun false 4 ++
      opRun (.task false (.expire 5)) 0)
    (fun s => s.shared.freed 1 = true ∧ s.place false = .enq 1 .status (.timeout 2))
    (M := (threads Bool).fine) rfl (by decide +kernel) (by decide +kernel)
  exact ⟨s, hs, of_decide_eq_true hp⟩

end Libcask.Threads
