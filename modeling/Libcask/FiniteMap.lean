import Mathlib.Data.Set.Card
import Mathlib.Tactic.Common

/-! # Finite maps held in slots

`Presents E f`: the slots hold the finite map `f`, where `E i k a` says that the slot `i` holds the key
`k` with the value `a`.  A key is in at most one slot.  `Presents.set` and `Presents.erase` are the
changes of one slot, `Presents.card` counts the keys. -/

namespace Libcask

variable {ι κ α : Type} {E E' : ι → κ → α → Prop} {f : κ → Option α} {i : ι} {k : κ} {a : α}

structure Presents (E : ι → κ → α → Prop) (f : κ → Option α) : Prop where
  value : ∀ {i k a}, E i k a → f k = some a
  slot : ∀ {k a}, f k = some a → ∃ i, E i k a
  unique : ∀ {i j k a b}, E i k a → E j k b → i = j

namespace Presents

theorem empty (h : ∀ i k a, ¬E i k a) : Presents E fun _ => none where
  value hE := absurd hE (h _ _ _)
  slot hf := nomatch hf
  unique hE := absurd hE (h _ _ _)

/-- The slot `i`, which held nothing else than the key `k`, gets `k` with the value `a`. -/
theorem set [DecidableEq κ] (hp : Presents E f) (hk : ∀ {j b}, E j k b → j = i)
    (hi : ∀ {k' b}, E i k' b → k' = k)
    (hE : ∀ j k' b, E' j k' b ↔ j = i ∧ k' = k ∧ b = a ∨ j ≠ i ∧ E j k' b) :
    Presents E' (Function.update f k (some a)) where
  value {j k' b} h := by
    rcases (hE j k' b).mp h with ⟨-, rfl, rfl⟩ | ⟨hj, h⟩
    · exact Function.update_self ..
    · have hne : k' ≠ k := by
        rintro rfl
        exact hj (hk h)
      rw [Function.update_of_ne hne]
      exact hp.value h
  slot {k' b} h := by
    by_cases hkk : k' = k
    · subst hkk
      rw [Function.update_self] at h
      exact ⟨i, (hE i k' b).mpr (.inl ⟨rfl, rfl, (Option.some.inj h).symm⟩)⟩
    · rw [Function.update_of_ne hkk] at h
      obtain ⟨j, hj⟩ := hp.slot h
      refine ⟨j, (hE j k' b).mpr (.inr ⟨?_, hj⟩)⟩
      rintro rfl
      exact hkk (hi hj)
  unique {j j' k' b b'} h h' := by
    rcases (hE j k' b).mp h with ⟨rfl, rfl, -⟩ | ⟨hj, h⟩
    · rcases (hE j' k' b').mp h' with ⟨rfl, -⟩ | ⟨hj', h'⟩
      · rfl
      · exact absurd (hk h') hj'
    · rcases (hE j' k' b').mp h' with ⟨rfl, rfl, -⟩ | ⟨-, h'⟩
      · exact absurd (hk h) hj
      · exact hp.unique h h'

/-- The slot of the key `k` is emptied. -/
theorem erase [DecidableEq κ] (hp : Presents E f) (hik : E i k a) (hi : ∀ {k' b}, E i k' b → k' = k)
    (hE : ∀ j k' b, E' j k' b ↔ j ≠ i ∧ E j k' b) : Presents E' (Function.update f k none) where
  value {j k' b} h := by
    obtain ⟨hj, h⟩ := (hE j k' b).mp h
    have hne : k' ≠ k := by
      rintro rfl
      exact hj (hp.unique h hik)
    rw [Function.update_of_ne hne]
    exact hp.value h
  slot {k' b} h := by
    have hne : k' ≠ k := by
      rintro rfl
      rw [Function.update_self] at h
      cases h
    rw [Function.update_of_ne hne] at h
    obtain ⟨j, hj⟩ := hp.slot h
    refine ⟨j, (hE j k' b).mpr ⟨?_, hj⟩⟩
    rintro rfl
    exact hne (hi hj)
  unique h h' := hp.unique ((hE _ _ _).mp h).2 ((hE _ _ _).mp h').2

/-- A map has as many keys as slots in use. -/
theorem card (hp : Presents E f) (key : ι → κ) (hkey : ∀ {i k a}, E i k a → key i = k)
    {S : Finset ι} (hS : ∀ i, i ∈ S ↔ ∃ k a, E i k a) : S.card = {k | (f k).isSome}.ncard := by
  rw [← Set.ncard_coe_finset]
  refine Set.ncard_congr (fun i _ => key i) (fun i hi => ?_) (fun i j hi hj hij => ?_) fun k hk => ?_
  · obtain ⟨k, a, h⟩ := (hS i).mp hi
    show (f (key i)).isSome = true
    rw [hkey h, hp.value h]
    rfl
  · obtain ⟨k, a, h⟩ := (hS i).mp hi
    obtain ⟨k', a', h'⟩ := (hS j).mp hj
    rw [hkey h, hkey h'] at hij
    subst hij
    exact hp.unique h h'
  · obtain ⟨a, ha⟩ := Option.isSome_iff_exists.mp hk
    obtain ⟨i, h⟩ := hp.slot ha
    exact ⟨i, (hS i).mpr ⟨k, a, h⟩, hkey h⟩

end Presents

end Libcask
