import Mathlib.Tactic

/-! # Machine integers

The conversions between mathematical integers and the C types `int` and `unsigned int`, both
32 bits wide, and `size_t` and `time_t`, 64 bits wide; signed arithmetic wraps around as the machine's
does.  The lemmas say when nothing wraps. -/

namespace Libcask

/-- The value of `n` as an `int`. -/
def toInt32 (n : ℤ) : ℤ := n.bmod (2 ^ 32)

/-- The value of `n` as an `unsigned int`. -/
def toUInt32 (n : ℤ) : ℕ := (n % 2 ^ 32).toNat

/-- The value of `n` as a `size_t` or an `unsigned long`. -/
def toUInt64 (n : ℤ) : ℕ := (n % 2 ^ 64).toNat

/-- The value of `n` as a `time_t`. -/
def toInt64 (n : ℤ) : ℤ := n.bmod (2 ^ 64)

/-- `n` is a value of the type `int`. -/
def IsInt32 (n : ℤ) : Prop := -2 ^ 31 ≤ n ∧ n < 2 ^ 31

instance (n : ℤ) : Decidable (IsInt32 n) := inferInstanceAs (Decidable (_ ∧ _))

theorem toInt32_of_isInt32 {n : ℤ} (h : IsInt32 n) : toInt32 n = n := by
  obtain ⟨h1, h2⟩ := h
  unfold toInt32
  rw [Int.bmod_def]
  split_ifs <;> omega

theorem isInt32_toInt32 (n : ℤ) : IsInt32 (toInt32 n) := by
  unfold IsInt32 toInt32
  rw [Int.bmod_def]
  split_ifs <;> omega

theorem toInt32_natCast {n : ℕ} (h : n < 2 ^ 31) : toInt32 n = n := by
  apply toInt32_of_isInt32
  unfold IsInt32
  omega

theorem toUInt64_natCast {n : ℕ} (h : n < 2 ^ 64) : toUInt64 n = n := by
  unfold toUInt64
  omega

theorem toInt64_natCast {n : ℕ} (h : n < 2 ^ 63) : toInt64 n = n := by
  unfold toInt64
  rw [Int.bmod_def]
  split_ifs <;> omega

theorem toUInt64_lt (n : ℤ) : toUInt64 n < 2 ^ 64 := by
  unfold toUInt64
  omega

theorem toInt32_add_one (n : ℤ) : toInt32 (toInt32 n + 1) = toInt32 (n + 1) := by
  simp [toInt32]

theorem toInt32_sub_one (n : ℤ) : toInt32 (toInt32 n - 1) = toInt32 (n - 1) := by
  simp [toInt32]

/-- Converting an `int` to `unsigned int` loses nothing of the value modulo `2 ^ 32`. -/
theorem toUInt32_toInt32 (n : ℕ) : toUInt32 (toInt32 n) = n % 2 ^ 32 := by
  unfold toUInt32 toInt32
  rw [Int.bmod_def]
  split_ifs <;> omega

theorem toInt32_eq_zero_iff (n : ℕ) : toInt32 n = 0 ↔ n % 2 ^ 32 = 0 := by
  unfold toInt32
  rw [Int.bmod_def]
  split_ifs <;> omega

end Libcask
