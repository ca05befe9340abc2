import Mathlib.Logic.Equiv.Basic
import Mathlib.Order.RelClasses
import Mathlib.Tactic.Common

/-! # Binary heaps

A heap of `n` elements is a function `f` on the indices below `n`; the parent of `i` is `(i - 1) / 2`.
`Ordered` says that no element strictly precedes its parent.  Two states of a repair are described: one
element may precede its parent (`UpAt`), or one element may be preceded by its children (`DownAt`).

`best` is the index that a single level of "heapify" chooses, with a comparison that is strict, or
holds of equal elements too (`Compares`).  `up_step` and `down_step` say what exchanging an element
with its best child does to the two states. -/

namespace Libcask.HeapOrder

variable {α : Type} {lt : α → α → Prop} {cmp : α → α → Bool} {n : ℕ} {f : ℕ → α} {i j m r : ℕ}

def parent (i : ℕ) : ℕ := (i - 1) / 2

/-- No element precedes its parent. -/
def Ordered (lt : α → α → Prop) (n : ℕ) (f : ℕ → α) : Prop :=
  ∀ i, 0 < i → i < n → ¬lt (f i) (f (parent i))

theorem parent_lt (hi : 0 < i) : parent i < i := by
  unfold parent
  omega

theorem parent_eq_iff (hi : 0 < i) : parent i = r ↔ i = 2 * r + 1 ∨ i = 2 * r + 2 := by
  unfold parent
  omega

section order
variable [IsStrictWeakOrder α lt]

theorem not_lt_trans {a b c : α} (hab : ¬lt a b) (hbc : ¬lt b c) : ¬lt a c := by
  intro hac
  have hba : ¬lt b a := fun h => hbc (Trans.trans h hac)
  have hcb : ¬lt c b := fun h => hab (Trans.trans hac h)
  exact (IsStrictWeakOrder.incomp_trans a b c ⟨hab, hba⟩ ⟨hbc, hcb⟩).1 hac

/-- The root comes first. -/
theorem Ordered.root (h : Ordered lt n f) (i : ℕ) (hi : i < n) : ¬lt (f i) (f 0) := by
  induction i using Nat.strongRecOn with
  | ind i ih =>
      by_cases h0 : i = 0
      · subst h0
        exact irrefl _
      · have hp := parent_lt (Nat.pos_of_ne_zero h0)
        exact not_lt_trans (h i (Nat.pos_of_ne_zero h0) hi) (ih _ hp (by omega))

end order

/-! ### Repairs -/

/-- The element at `j` may precede its parent; whatever is below `j` does not. -/
structure UpAt (lt : α → α → Prop) (n : ℕ) (f : ℕ → α) (j : ℕ) : Prop where
  pos : 0 < j
  bound : j < n
  except : ∀ i, 0 < i → i < n → i ≠ j → ¬lt (f i) (f (parent i))
  grand : ∀ i, 0 < i → i < n → parent i = j → ¬lt (f i) (f (parent j))

/-- The element at `r` may be preceded by its children; its parent is not. -/
structure DownAt (lt : α → α → Prop) (n : ℕ) (f : ℕ → α) (r : ℕ) : Prop where
  except : ∀ i, 0 < i → i < n → parent i ≠ r → ¬lt (f i) (f (parent i))
  grand : 0 < r → ∀ i, 0 < i → i < n → parent i = r → ¬lt (f i) (f (parent r))

theorem UpAt.done (h : UpAt lt n f j) (hj : ¬lt (f j) (f (parent j))) : Ordered lt n f := by
  intro i hi hn
  by_cases hij : i = j
  · rw [hij]
    exact hj
  · exact h.except i hi hn hij

theorem DownAt.done (h : DownAt lt n f r)
    (hr : ∀ i, 0 < i → i < n → parent i = r → ¬lt (f i) (f r)) : Ordered lt n f := by
  intro i hi hn
  by_cases hir : parent i = r
  · rw [hir]
    exact hr i hi hn hir
  · exact h.except i hi hn hir

/-- The element at `r` changes places with a child that no other child precedes. -/
theorem DownAt.swap (h : DownAt lt n f r) (hm : 0 < m) (hmn : m < n) (hmr : parent m = r)
    (hmin : ∀ i, 0 < i → i < n → parent i = r → ¬lt (f i) (f m)) (hge : ¬lt (f r) (f m)) :
    DownAt lt n (f ∘ Equiv.swap r m) m := by
  have hrm : r < m := hmr ▸ parent_lt hm
  have hr : (f ∘ Equiv.swap r m) r = f m := by simp
  have hself : (f ∘ Equiv.swap r m) m = f r := by simp
  have hne : ∀ i, i ≠ r → i ≠ m → (f ∘ Equiv.swap r m) i = f i := by
    intro i h1 h2
    simp [Equiv.swap_apply_of_ne_of_ne h1 h2]
  generalize f ∘ Equiv.swap r m = f' at hr hself hne
  refine ⟨fun i hi hn him => ?_, fun _ i hi hn him => ?_⟩
  · have hi' := parent_lt hi
    by_cases hir : i = r
    · subst hir
      rw [hr, hne (parent i) (by omega) (by omega)]
      exact h.grand hi m hm hmn hmr
    · by_cases hmi : i = m
      · subst hmi
        rw [hself, hmr, hr]
        exact hge
      · rw [hne i hir hmi]
        by_cases hpr : parent i = r
        · rw [hpr, hr]
          exact hmin i hi hn hpr
        · rw [hne _ hpr him]
          exact h.except i hi hn hpr
  · have hi' := parent_lt hi
    rw [hmr, hr, hne i (by omega) (by omega)]
    have hold := h.except i hi hn (by omega)
    rwa [him] at hold

section order
variable [IsStrictWeakOrder α lt]

/-- The element at `j` changes places with its parent. -/
theorem UpAt.swap (h : UpAt lt n f j) (hlt : lt (f j) (f (parent j))) :
    Ordered lt n (f ∘ Equiv.swap (parent j) j) ∨
      0 < parent j ∧ UpAt lt n (f ∘ Equiv.swap (parent j) j) (parent j) := by
  have hj := parent_lt h.pos
  have hparent : (f ∘ Equiv.swap (parent j) j) (parent j) = f j := by simp
  have hself : (f ∘ Equiv.swap (parent j) j) j = f (parent j) := by simp
  have hne : ∀ i, i ≠ parent j → i ≠ j → (f ∘ Equiv.swap (parent j) j) i = f i := by
    intro i h1 h2
    simp [Equiv.swap_apply_of_ne_of_ne h1 h2]
  generalize f ∘ Equiv.swap (parent j) j = f' at hparent hself hne
  have hexcept : ∀ i, 0 < i → i < n → i ≠ parent j → ¬lt (f' i) (f' (parent i)) := by
    intro i hi hn hip
    by_cases hij : i = j
    · rw [hij, hself, hparent]
      exact asymm hlt
    · rw [hne i hip hij]
      by_cases hs : parent i = parent j
      · -- the other child of the parent
        rw [hs, hparent]
        have hold := h.except i hi hn hij
        rw [hs] at hold
        exact fun hc => hold (Trans.trans hc hlt)
      · by_cases hc : parent i = j
        · rw [hc, hself]
          exact h.grand i hi hn hc
        · rw [hne _ hs hc]
          exact h.except i hi hn hij
  by_cases h0 : parent j = 0
  · left
    intro i hi hn
    exact hexcept i hi hn (by omega)
  · have hpos : 0 < parent j := Nat.pos_of_ne_zero h0
    have hbound : parent j < n := Nat.lt_trans hj h.bound
    refine .inr ⟨hpos, hpos, hbound, hexcept, fun i hi hn hip => ?_⟩
    have hpp := parent_lt hpos
    have hup := h.except _ hpos hbound (by omega)
    rw [hne (parent (parent j)) (by omega) (by omega)]
    by_cases hij : i = j
    · rw [hij, hself]
      exact hup
    · have hi' := parent_lt hi
      have hold := h.except i hi hn hij
      rw [hip] at hold
      rw [hne i (by omega) hij]
      exact not_lt_trans hold hup

end order

/-! ### One level -/

/-- The comparison holds whenever the first element precedes the second, and beyond that at most of
equal elements. -/
structure Compares (cmp : α → α → Bool) (lt : α → α → Prop) : Prop where
  of_lt : ∀ {a b}, lt a b → cmp a b = true
  lt_or_eq : ∀ {a b}, cmp a b = true → lt a b ∨ a = b

/-- Among `r` and its children, the index of the element that comes first. -/
def best (cmp : α → α → Bool) (n : ℕ) (f : ℕ → α) (r : ℕ) : ℕ :=
  let m := if 2 * r + 1 < n ∧ cmp (f (2 * r + 1)) (f r) then 2 * r + 1 else r
  if 2 * r + 2 < n ∧ cmp (f (2 * r + 2)) (f m) then 2 * r + 2 else m

theorem best_lt (cmp : α → α → Bool) (f : ℕ → α) (hr : r < n) : best cmp n f r < n := by
  unfold best
  dsimp only
  split_ifs <;> omega

/-- What the choice `m` among `r` and its children says about the order. -/
inductive Choice (lt : α → α → Prop) (n : ℕ) (f : ℕ → α) (r m : ℕ) : Prop
  | stay (hm : m = r) (hr : ∀ i, 0 < i → i < n → parent i = r → ¬lt (f i) (f r))
  | child (hm : 0 < m) (hn : m < n) (hr : parent m = r) (hlt : lt (f m) (f r) ∨ f m = f r)
      (hmin : ∀ i, 0 < i → i < n → parent i = r → ¬lt (f i) (f m))

/-- A level that is in order stays as it is: at most equal elements change places. -/
theorem Choice.swap_eq (h : Choice lt n f r m)
    (hr : ∀ i, 0 < i → i < n → parent i = r → ¬lt (f i) (f r)) : f ∘ Equiv.swap r m = f := by
  cases h with
  | stay hm => simp [hm]
  | child hm hn hp hlt =>
      have heq : f m = f r := hlt.resolve_left (hr m hm hn hp)
      funext k
      by_cases h1 : k = r
      · simp [h1, heq]
      · by_cases h2 : k = m
        · simp [h2, heq]
        · simp [Equiv.swap_apply_of_ne_of_ne h1 h2]

section order
variable [IsStrictWeakOrder α lt]

theorem not_lt_of_lt_or_eq {a b : α} (h : lt a b ∨ a = b) : ¬lt b a := by
  rcases h with h | rfl
  · exact asymm h
  · exact irrefl _

theorem best_choice (hc : Compares cmp lt) (n : ℕ) (f : ℕ → α) (r : ℕ) :
    Choice lt n f r (best cmp n f r) := by
  have hno : ∀ {a b}, ¬cmp a b = true → ¬lt a b := fun h hlt => h (hc.of_lt hlt)
  have hchildren : ∀ {P : ℕ → Prop}, (2 * r + 1 < n → P (2 * r + 1)) →
      (2 * r + 2 < n → P (2 * r + 2)) → ∀ i, 0 < i → i < n → parent i = r → P i := by
    intro P h1 h2 i hi hn hp
    rcases (parent_eq_iff hi).mp hp with rfl | rfl
    · exact h1 hn
    · exact h2 hn
  have hp1 : parent (2 * r + 1) = r := (parent_eq_iff (by omega)).mpr (.inl rfl)
  have hp2 : parent (2 * r + 2) = r := (parent_eq_iff (by omega)).mpr (.inr rfl)
  unfold best
  dsimp only
  by_cases h1 : 2 * r + 1 < n ∧ cmp (f (2 * r + 1)) (f r) = true
  · have hleft := hc.lt_or_eq h1.2
    rw [if_pos h1]
    split_ifs with h2
    · have hright := hc.lt_or_eq h2.2
      refine .child (by omega) h2.1 hp2 ?_ (hchildren (fun _ => not_lt_of_lt_or_eq hright) fun _ => irrefl _)
      rcases hright with hright | hright
      · rcases hleft with hleft | hleft
        · exact .inl (Trans.trans hright hleft)
        · exact .inl (hleft ▸ hright)
      · rw [hright]
        exact hleft
    · refine .child (by omega) h1.1 hp1 hleft (hchildren (fun _ => irrefl _) fun hn => ?_)
      exact hno fun h => h2 ⟨hn, h⟩
  · have hleft : 2 * r + 1 < n → ¬lt (f (2 * r + 1)) (f r) := fun hn => hno fun h => h1 ⟨hn, h⟩
    rw [if_neg h1]
    split_ifs with h2
    · have hright := hc.lt_or_eq h2.2
      refine .child (by omega) h2.1 hp2 hright (hchildren (fun hn => ?_) fun _ => irrefl _)
      exact not_lt_trans (hleft hn) (not_lt_of_lt_or_eq hright)
    · refine .stay rfl (hchildren hleft fun hn => ?_)
      exact hno fun h => h2 ⟨hn, h⟩

/-- In order, but for an element that may precede its parent, an index below `k`. -/
def UpUnder (lt : α → α → Prop) (n : ℕ) (f : ℕ → α) (k : ℕ) : Prop :=
  Ordered lt n f ∨ ∃ j, parent j < k ∧ UpAt lt n f j

/-- One level of a pass from the last parent to the root. -/
theorem up_step (h : UpUnder lt n f (r + 1)) (hm : Choice lt n f r m) :
    UpUnder lt n (f ∘ Equiv.swap r m) r := by
  rcases h with h | ⟨j, hj, h⟩
  · left
    rwa [hm.swap_eq fun i hi hn hp => hp ▸ h i hi hn]
  · by_cases hjr : parent j = r
    · by_cases hlt : lt (f j) (f (parent j))
      · -- the best child is `j`: the other child does not precede `r`
        have hmj : m = j := by
          cases hm with
          | stay _ hr => exact absurd (hjr ▸ hlt) (hr j h.pos h.bound hjr)
          | child hm hn hp hmr hmin =>
              by_contra hne
              have hold := h.except m hm hn hne
              rw [hp] at hold
              have heq : f m = f r := hmr.resolve_left hold
              apply hmin j h.pos h.bound hjr
              rw [heq, ← hjr]
              exact hlt
        subst hmj
        rw [← hjr]
        rcases h.swap hlt with hord | ⟨hpos, hup⟩
        · exact .inl hord
        · exact .inr ⟨_, parent_lt hpos, hup⟩
      · left
        have hord := h.done hlt
        rwa [hm.swap_eq fun i hi hn hp => hp ▸ hord i hi hn]
    · right
      refine ⟨j, by omega, ?_⟩
      rwa [hm.swap_eq fun i hi hn hp => ?_]
      have hij : i ≠ j := by
        rintro rfl
        exact hjr hp
      exact hp ▸ h.except i hi hn hij

/-- One level of a walk from the root to a leaf. -/
theorem down_step (h : DownAt lt n f r) (hm : Choice lt n f r m) :
    m = r ∧ Ordered lt n f ∨ r < m ∧ m < n ∧ DownAt lt n (f ∘ Equiv.swap r m) m := by
  cases hm with
  | stay hm hr => exact .inl ⟨hm, h.done hr⟩
  | child hm hn hp hlt hmin =>
      refine .inr ⟨hp ▸ parent_lt hm, hn, h.swap hm hn hp hmin ?_⟩
      exact not_lt_of_lt_or_eq hlt

end order

/-- An element is added at the end. -/
theorem Ordered.upUnder_last {g : ℕ → α} (h : Ordered lt n f) (hg : ∀ i, i < n → g i = f i) :
    UpUnder lt (n + 1) g (parent n + 1) := by
  by_cases hn : n = 0
  · left
    intro i hi hlt
    omega
  · refine .inr ⟨n, Nat.lt_succ_self _, Nat.pos_of_ne_zero hn, Nat.lt_succ_self n,
      fun i hi hlt hin => ?_, fun i hi hlt hin => ?_⟩
    · have hp := parent_lt hi
      rw [hg i (by omega), hg (parent i) (by omega)]
      exact h i hi (by omega)
    · have hp := parent_lt hi
      omega

/-- The last element is taken out, and the root gets another one. -/
theorem Ordered.downAt_root {g : ℕ → α} (h : Ordered lt (n + 1) f)
    (hg : ∀ i, 0 < i → i < n → g i = f i) : DownAt lt n g 0 := by
  refine ⟨fun i hi hn hp => ?_, fun h0 => absurd h0 (Nat.lt_irrefl 0)⟩
  have hlt := parent_lt hi
  rw [hg i hi hn, hg (parent i) (Nat.pos_of_ne_zero hp) (by omega)]
  exact h i hi (by omega)

end Libcask.HeapOrder
