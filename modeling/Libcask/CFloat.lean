import Mathlib.Tactic

/-! # Integers as `float`s

A `float` has 24 significant bits.  `toFloat32 n` is the value of `(float) n` for a natural number `n`,
rounded to nearest with ties to even.  Numbers of 24 significant bits are kept
(`toFloat32_of_representable`), and rounding does not cross them (`le_toFloat32`). -/

namespace Libcask

/-- The value of `n` as a `float`. -/
def toFloat32 (n : ℕ) : ℕ :=
  let ulp := 2 ^ (Nat.log2 n - 23)
  let q := n / ulp
  let r := n % ulp
  if 2 * r > ulp ∨ 2 * r = ulp ∧ q % 2 = 1 then (q + 1) * ulp else q * ulp

/-- Rounding goes down at most to the next multiple of the unit. -/
theorem le_toFloat32_of_le {n b : ℕ}
    (h : b ≤ n / 2 ^ (Nat.log2 n - 23) * 2 ^ (Nat.log2 n - 23)) : b ≤ toFloat32 n := by
  unfold toFloat32
  dsimp only
  split_ifs
  · exact h.trans (Nat.mul_le_mul_right _ (Nat.le_succ _))
  · exact h

theorem toFloat32_of_dvd {n : ℕ} (h : 2 ^ (Nat.log2 n - 23) ∣ n) : toFloat32 n = n := by
  have hr : n % 2 ^ (Nat.log2 n - 23) = 0 := Nat.mod_eq_zero_of_dvd h
  have hpos : 0 < 2 ^ (Nat.log2 n - 23) := by positivity
  unfold toFloat32
  dsimp only
  rw [hr, if_neg (by omega)]
  exact Nat.div_mul_cancel h

variable {m j n : ℕ}

/-- The unit of a number of 24 significant bits divides it. -/
theorem log2_sub_le (hm : m < 2 ^ 24) (hn : m * 2 ^ j ≠ 0) : Nat.log2 (m * 2 ^ j) - 23 ≤ j := by
  have hlt : m * 2 ^ j < 2 ^ (24 + j) := by
    rw [pow_add]
    exact Nat.mul_lt_mul_of_pos_right hm (by positivity)
  have hlog := (Nat.log2_lt hn).mpr hlt
  omega

theorem toFloat32_of_representable (hm : m < 2 ^ 24) (j : ℕ) :
    toFloat32 (m * 2 ^ j) = m * 2 ^ j := by
  by_cases hn : m * 2 ^ j = 0
  · rw [hn]
    decide
  · apply toFloat32_of_dvd
    exact (pow_dvd_pow 2 (log2_sub_le hm hn)).trans (Dvd.intro_left m rfl)

theorem le_toFloat32 (hm : m < 2 ^ 24) (h : m * 2 ^ j ≤ n) : m * 2 ^ j ≤ toFloat32 n := by
  apply le_toFloat32_of_le
  by_cases hej : Nat.log2 n - 23 ≤ j
  · obtain ⟨c, hc⟩ := (pow_dvd_pow 2 hej).trans (Dvd.intro_left m rfl)
    rw [hc, Nat.mul_comm] at h ⊢
    exact Nat.mul_le_mul_right _ ((Nat.le_div_iff_mul_le (by positivity)).mpr h)
  · -- the unit is larger: `n` has at least as many bits as `2 ^ (24 + j)`
    have hn : n ≠ 0 := by
      rintro rfl
      exact hej (by simp)
    have hq : 2 ^ 23 ≤ n / 2 ^ (Nat.log2 n - 23) := by
      rw [Nat.le_div_iff_mul_le (by positivity), ← pow_add, Nat.add_sub_cancel' (by omega)]
      exact Nat.log2_self_le hn
    calc m * 2 ^ j ≤ 2 ^ 24 * 2 ^ j := Nat.mul_le_mul_right _ hm.le
      _ = 2 ^ 23 * 2 ^ (j + 1) := by ring
      _ ≤ 2 ^ 23 * 2 ^ (Nat.log2 n - 23) :=
          Nat.mul_le_mul_left _ (Nat.pow_le_pow_right (by omega) (by omega))
      _ ≤ n / 2 ^ (Nat.log2 n - 23) * 2 ^ (Nat.log2 n - 23) := Nat.mul_le_mul_right _ hq

end Libcask
