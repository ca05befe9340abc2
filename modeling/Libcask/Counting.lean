import Mathlib.Tactic

/-! # Counting over the tasks of a system

`tally f p` adds up `f` over the states `p t` of all tasks `t`.  A step of one task changes it by
the difference for that task (`tally_update`). -/

namespace Libcask

variable {T β : Type} [Fintype T] {p : T → β} {f : β → ℕ}

/-- The sum of `f` over the states of the tasks. -/
def tally (f : β → ℕ) (p : T → β) : ℕ := ∑ t, f (p t)

theorem le_tally (t : T) : f (p t) ≤ tally f p :=
  Finset.single_le_sum (f := fun t => f (p t)) (fun _ _ => Nat.zero_le _) (Finset.mem_univ t)

theorem tally_eq_zero (h : ∀ t, f (p t) = 0) : tally f p = 0 := Finset.sum_eq_zero fun t _ => h t

theorem tally_update [DecidableEq T] (t : T) (b : β) :
    tally f (Function.update p t b) + f (p t) = tally f p + f b := by
  have hrest : ∑ u ∈ Finset.univ.erase t, f (Function.update p t b u) =
      ∑ u ∈ Finset.univ.erase t, f (p u) := by
    apply Finset.sum_congr rfl
    intro u hu
    rw [Function.update_of_ne (Finset.ne_of_mem_erase hu)]
  unfold tally
  rw [← Finset.add_sum_erase _ _ (Finset.mem_univ t),
    ← Finset.add_sum_erase _ (fun u => f (p u)) (Finset.mem_univ t), Function.update_self, hrest]
  omega

end Libcask
