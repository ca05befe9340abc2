import Mathlib.Tactic.Common

/-! # The order of a queue

A queue is a list; elements enter it at the front and leave it at the end.  `Before q t x` says that
`x` is in the queue and that `t` is not on the way out before it.  Whatever is put on the queue keeps
this (`Before.put`), and what leaves it is `x`, or is not `t` (`Before.take`).  `Ahead q t n` says that
`t` is in the queue with at most `n` elements that leave it earlier: putting any other element on the
queue, wherever it was, keeps this (`Ahead.put`), and one that leaves it is `t` or one of them
(`Ahead.take`). -/

namespace Libcask.Fifo

variable {α : Type} {q : List α} {t u x : α}

/-- `x` leaves the queue before `t` does, which need not be in the queue yet. -/
def Before (q : List α) (t x : α) : Prop := ∃ l₁ l₂, q = l₁ ++ x :: l₂ ∧ t ∉ l₂

/-- What is in the queue leaves it before an element that is not. -/
theorem before_of_not_mem (hx : x ∈ q) (ht : t ∉ q) : Before q t x := by
  obtain ⟨l₁, l₂, rfl⟩ := List.append_of_mem hx
  exact ⟨l₁, l₂, rfl, fun hm => ht (List.mem_append_right l₁ (List.mem_cons_of_mem x hm))⟩

theorem Before.put (h : Before q t x) (u : α) : Before (u :: q) t x := by
  obtain ⟨l₁, l₂, rfl, ht⟩ := h
  exact ⟨u :: l₁, l₂, rfl, ht⟩

theorem Before.take (h : Before (q ++ [u]) t x) : u = x ∨ u ≠ t ∧ Before q t x := by
  obtain ⟨l₁, l₂, he, ht⟩ := h
  rcases List.eq_nil_or_concat l₂ with rfl | ⟨l, y, rfl⟩
  · exact .inl (List.append_inj_right' he rfl |> List.head_eq_of_cons_eq)
  · have he' : q ++ [u] = (l₁ ++ x :: l) ++ [y] := by simpa using he
    obtain ⟨rfl, hu⟩ := List.append_inj' he' rfl
    obtain rfl := List.head_eq_of_cons_eq hu
    refine .inr ⟨?_, l₁, l, rfl, fun hm => ht (by simp [hm])⟩
    rintro rfl
    exact ht (by simp)

/-- `t` is in the queue, and at most `n` elements leave it before `t` does. -/
def Ahead (q : List α) (t : α) (n : ℕ) : Prop := ∃ l₁ l₂, q = l₁ ++ t :: l₂ ∧ l₂.length ≤ n

theorem Ahead.put [DecidableEq α] {n : ℕ} (h : Ahead q t n) (hu : u ≠ t) : Ahead (u :: q.erase u) t n := by
  obtain ⟨l₁, l₂, rfl, hl⟩ := h
  by_cases hm : u ∈ l₁
  · rw [List.erase_append_left _ hm]
    exact ⟨u :: l₁.erase u, l₂, rfl, hl⟩
  · rw [List.erase_append_right _ hm, List.erase_cons_tail (by simpa using hu.symm)]
    exact ⟨u :: l₁, l₂.erase u, rfl, Nat.le_trans List.length_erase_le hl⟩

theorem Ahead.take {n : ℕ} (h : Ahead (q ++ [u]) t n) : u = t ∨ ∃ m, n = m + 1 ∧ Ahead q t m := by
  obtain ⟨l₁, l₂, he, hl⟩ := h
  rcases List.eq_nil_or_concat l₂ with rfl | ⟨l, y, rfl⟩
  · exact .inl (List.append_inj_right' he rfl |> List.head_eq_of_cons_eq)
  · have he' : q ++ [u] = (l₁ ++ t :: l) ++ [y] := by simpa using he
    obtain ⟨rfl, -⟩ := List.append_inj' he' rfl
    rw [List.concat_eq_append, List.length_append, List.length_singleton] at hl
    obtain ⟨m, rfl⟩ := Nat.exists_eq_succ_of_ne_zero (Nat.ne_of_gt (Nat.lt_of_lt_of_le (Nat.succ_pos _) hl))
    exact .inr ⟨m, rfl, l₁, l, rfl, Nat.le_of_succ_le_succ hl⟩

end Libcask.Fifo
