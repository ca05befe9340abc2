import Libcask.RoundRobin

/-! # No task waits for ever on the run queue

`bounded_waiting`: on a thread that no other thread enqueues for, a task with `n` tasks in front of it on the
run queue is among the next `n + 1` tasks that are dispatched, whatever the other tasks do: those that are put
on the run queue, for the first time or once more, get behind it.  Only the task itself loses its place when
it is resumed once more (`resumed_twice_overtaken`). -/

namespace Libcask.Sched

open Fifo

theorem dispatched_within {t : Tid} : ∀ {as : List Act} {s : St} {v : View Head Tid} {n : ℕ}, Formed s v →
    Ahead (v .runList) t n → system.RunMeets (fun s a => s.puts a ≠ some t) s as →
    n < (dispatched s as).length → t ∈ (dispatched s as).take (n + 1)
  | [], s, v, n, _, _, _, hlen => by simp [dispatched] at hlen
  | a :: as, s, v, n, hf, ha, hm, hlen => by
      unfold dispatched at hlen ⊢
      cases e : step s a with
      | none => simp [e] at hlen
      | some s' =>
          simp only [e] at hlen ⊢
          have hrest : ∀ {v' : View Head Tid} {n : ℕ}, Formed s' v' → Ahead (v' .runList) t n →
              n < (dispatched s' as).length → t ∈ (dispatched s' as).take (n + 1) :=
            fun hf' ha' => dispatched_within hf' ha' (hm.2 s' e)
          by_cases hact : a = .dispatch
          · -- the task that leaves the queue is `t`, or one of those in front of it
            subst hact
            obtain ⟨-, q, hq, hs'⟩ := step_dispatch e
            obtain ⟨u, v', hpick, -, hl, hf'⟩ := hf.dispatch hq
            rw [← hs'] at hf'
            rw [hl] at ha
            have hdisp : (s.dispatches .dispatch).toList = [u] := by
              rw [St.dispatches, if_pos rfl, hpick]
              rfl
            rw [hdisp] at hlen ⊢
            rcases ha.take with rfl | ⟨k, rfl, ha'⟩
            · exact List.mem_cons_self
            · refine List.mem_cons_of_mem u (hrest hf' ha' ?_)
              simpa using hlen
          · -- whatever is put on the queue gets behind
            obtain ⟨v', hf', hrun⟩ := formed_step hf e
            rw [St.queueAfter, if_neg hact] at hrun
            have hdisp : (s.dispatches a).toList = [] := by
              rw [St.dispatches, if_neg hact]
              rfl
            rw [hdisp] at hlen ⊢
            refine hrest hf' ?_ hlen
            rw [hrun]
            cases hput : s.puts a with
            | none => exact ha
            | some u =>
                refine ha.put ?_
                rintro rfl
                exact hm.1 hput

/-- A task with `l₂.length` tasks in front of it on the run queue, which is not resumed once more, is one
of the next `l₂.length + 1` tasks that are dispatched. -/
theorem bounded_waiting {s : St} {t : Tid} {l₁ l₂ : List Tid} {as : List Act} (h : system.Reachable s)
    (hq : s.runQueue = l₁ ++ t :: l₂) (hm : system.RunMeets (fun s a => s.puts a ≠ some t) s as)
    (hd : l₂.length < (dispatched s as).length) : t ∈ (dispatched s as).take (l₂.length + 1) := by
  obtain ⟨v, hf⟩ := formed_of_reach h
  rw [hf.runQueue_eq] at hq
  exact dispatched_within hf ⟨l₁, l₂, hq, le_rfl⟩ hm hd

/-- The task 2 is behind the timeout task and the active task, which creates a task and yields. -/
theorem bounded_waiting_third : ∃ s : St, s.runQueue = [3] ++ 2 :: [1, 0] ∧
    2 ∈ (dispatched s [.dispatch, .timeoutRead .again true, .handlePrev, .dispatch, .user .create,
      .user .yield, .handlePrev, .dispatch]).take 3 := by
  have hq : (start 2 fun _ => 0).runQueue = [3] ++ 2 :: [1, 0] := by decide +kernel
  exact ⟨start 2 fun _ => 0, hq, bounded_waiting (.init ⟨2, _, rfl⟩) hq (by decide +kernel)
    (by decide +kernel)⟩

end Libcask.Sched
