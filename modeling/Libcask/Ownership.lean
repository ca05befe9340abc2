import Mathlib.Tactic
import Mathlib.Data.Set.Card

/-! # Who holds which resource

`Owns holds live`: the resources in use are `live`, and every one of them has exactly one holder, where
`holds i` is what `i` holds.  A holder may give up its resource and take one that is not in use
(`Owns.exchange`, with `Owns.acquire` and `Owns.release` as cases); nothing is lost then, and nothing is held
twice.  There are as many resources in use as holders (`Owns.ncard_eq`). -/

namespace Libcask

variable {ι ρ : Type}

/-- Every resource in use has exactly one holder, and what is held is in use. -/
structure Owns (holds : ι → Option ρ) (live : Set ρ) : Prop where
  held : ∀ r, r ∈ live ↔ ∃ i, holds i = some r
  single : ∀ i j r, holds i = some r → holds j = some r → i = j

namespace Owns

variable {holds : ι → Option ρ} {live : Set ρ} {i : ι} {r : ρ}

theorem empty : Owns (fun _ : ι => (none : Option ρ)) ∅ := ⟨by simp, by simp⟩

theorem mem (h : Owns holds live) (hi : holds i = some r) : r ∈ live := (h.held r).mpr ⟨i, hi⟩

section exchange
variable [DecidableEq ι]

/-- A holder gives up what it holds, if anything, and takes `o`, which is not in use. -/
theorem exchange (h : Owns holds live) (i : ι) {o : Option ρ} (ho : ∀ r, o = some r → r ∉ live) :
    Owns (Function.update holds i o) {r | r ∈ live ∧ holds i ≠ some r ∨ o = some r} := by
  -- what another holder has is not `o`
  have hother : ∀ {j r}, j ≠ i → Function.update holds i o j = some r → holds j = some r :=
    fun hj hr => (Function.update_of_ne hj _ _).symm.trans hr
  constructor
  · intro r
    constructor
    · rintro (⟨hl, hne⟩ | hr)
      · obtain ⟨j, hj⟩ := (h.held r).mp hl
        have hji : j ≠ i := fun hji => hne (hji ▸ hj)
        exact ⟨j, (Function.update_of_ne hji _ _).trans hj⟩
      · exact ⟨i, (Function.update_self ..).trans hr⟩
    · rintro ⟨j, hj⟩
      by_cases hji : j = i
      · rw [hji, Function.update_self] at hj
        exact .inr hj
      · have hj' := hother hji hj
        exact .inl ⟨h.mem hj', fun hi => hji (h.single j i r hj' hi)⟩
  · intro j k r hj hk
    by_cases hji : j = i <;> by_cases hki : k = i
    · rw [hji, hki]
    · rw [hji, Function.update_self] at hj
      exact absurd (h.mem (hother hki hk)) (ho r hj)
    · rw [hki, Function.update_self] at hk
      exact absurd (h.mem (hother hji hj)) (ho r hk)
    · exact h.single j k r (hother hji hj) (hother hki hk)

/-- A holder without a resource takes one. -/
theorem acquire (h : Owns holds live) (hi : holds i = none) (hr : r ∉ live) :
    Owns (Function.update holds i (some r)) (insert r live) := by
  have h' := h.exchange i (o := some r) (by rintro _ ⟨⟩; exact hr)
  convert h' using 1
  ext x
  simp [hi, eq_comm, or_comm]

theorem release (h : Owns holds live) (hi : holds i = some r) :
    Owns (Function.update holds i none) (live \ {r}) := by
  have h' := h.exchange i (o := none) (by simp)
  convert h' using 1
  ext x
  simp [hi, eq_comm]

end exchange

/-- There are as many resources in use as there are holders. -/
theorem ncard_eq (h : Owns holds live) : live.ncard = {i | holds i ≠ none}.ncard := by
  refine (Set.ncard_congr (fun i (hi : holds i ≠ none) => (holds i).get (Option.isSome_iff_ne_none.mpr hi))
    ?_ ?_ ?_).symm
  · exact fun i hi => h.mem (Option.some_get _).symm
  · intro i j hi hj hij
    refine h.single i j _ (Option.some_get (Option.isSome_iff_ne_none.mpr hi)).symm ?_
    rw [hij]
    exact (Option.some_get _).symm
  · intro r hr
    obtain ⟨i, hi⟩ := (h.held r).mp hr
    exact ⟨i, fun h0 => Option.some_ne_none r (hi.symm.trans h0), by simp [hi]⟩

end Owns

end Libcask
