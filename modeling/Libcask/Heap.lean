import Libcask.CArray
import Libcask.HeapOrder
import Libcask.Transition

/-! # The heap

`heap.c` over the array of `array.c`.  A push repairs the heap with one `heapify` for each index from
the last parent down to the root, a pop follows the element it has put at the root down the tree.
Indices are `int`s; `parent(heap_size(hp) - 1)` is computed in `size_t`, and is -1 for an empty heap.

* `priority_queue`: after any pushes and pops no element precedes its parent, a pop returns an element
  that none of the others precedes, and nothing else enters or leaves the heap. -/

namespace Libcask

/-- `heap_t`. -/
structure Heap (α : Type) where
  array : CArray α
  cmp : α → α → Bool

namespace Heap

open CArray HeapOrder

variable {α : Type}

/-- `_default_cmp`; `addr` is the numerical value of a pointer. -/
def defaultCmp (addr : α → ℕ) (first second : α) : Bool :=
  if addr first > addr second then false else true

def heapInit (addr : α → ℕ) (comp : Option (α → α → Bool)) : Heap α :=
  ⟨arrayInit, comp.getD (defaultCmp addr)⟩

@[simp]
theorem heapInit_some_cmp (addr : α → ℕ) (comp : α → α → Bool) :
    (heapInit addr (some comp)).cmp = comp := rfl

def heapSize (hp : Heap α) : ℕ := hp.array.size

/-- `parent(heap_size(hp) - 1)` as an `int`. -/
def lastParent (hp : Heap α) : ℤ :=
  let idx := (heapSize hp + 2 ^ 64 - 1) % 2 ^ 64
  toInt32 (if idx ≤ 0 then 0 else (idx - 1) / 2 : ℕ)

def leftChild (idx : ℤ) : ℤ := toInt32 (2 * idx + 1)

def rightChild (idx : ℤ) : ℤ := toInt32 (2 * idx + 2)

def heapPut (hp : Heap α) (idx : ℤ) (elm : α) : Option (Heap α) :=
  (hp.array.arrayPut (toUInt64 idx) elm).map fun r => { hp with array := r.1 }

section code
variable [Inhabited α]

def heapGet (hp : Heap α) (idx : ℤ) : Option α := hp.array.arrayGet (toUInt64 idx)

def swap (hp : Heap α) (l r : ℤ) : Option (Heap α) :=
  match heapGet hp l, heapGet hp r with
  | some tmp, some x => (heapPut hp l x).bind fun hp => heapPut hp r tmp
  | _, _ => none

/-- `if(child > 0 && hp->cmp(heap_get(hp, child), heap_get(hp, max))) max = child;` -/
def candidate (hp : Heap α) (child max : ℤ) : Option ℤ :=
  if child > 0 then
    match heapGet hp child, heapGet hp max with
    | some x, some y => some (if hp.cmp x y then child else max)
    | _, _ => none
  else some max

/-- The heap and the index that `heapify` returns. -/
def heapify (hp : Heap α) (root : ℤ) : Option (Heap α × ℤ) :=
  let size := toInt32 (heapSize hp)
  if ¬root < size then some (hp, 0)
  else
    let left := if leftChild root < size then leftChild root else -1
    let right := if rightChild root < size then rightChild root else -1
    match (candidate hp left root).bind (candidate hp right) with
    | none => none
    | some max => (if max ≠ root then swap hp max root else some hp).map fun hp => (hp, max)

/-- The loop of `heap_fixup`, for the indices below `k`. -/
def fixupLoop : ℕ → Heap α → Option (Heap α)
  | 0, hp => some hp
  | start + 1, hp => (heapify hp start).bind fun r => fixupLoop start r.1

def heapFixup (hp : Heap α) : Option (Heap α) := fixupLoop (lastParent hp + 1).toNat hp

/-- The loop of `heap_fixdown`, with a bound on its passes. -/
def fixdownLoop (stop : ℤ) : ℕ → ℤ → Heap α → Option (Heap α)
  | 0, _, _ => none
  | passes + 1, root, hp =>
      if root ≤ stop then
        (heapify hp root).bind fun r =>
          if r.2 = root then some r.1 else fixdownLoop stop passes r.2 r.1
      else some hp

/-- Every pass goes to a larger index. -/
def heapFixdown (hp : Heap α) : Option (Heap α) :=
  fixdownLoop (lastParent hp) (heapSize hp + 1) 0 hp

def heapPush (hp : Heap α) (elm : α) : Option (Heap α × ℤ) :=
  (hp.array.arrayInsert (heapSize hp) elm).bind fun r =>
    (heapFixup { hp with array := r.1 }).map fun hp => (hp, 0)

/-- The heap, what the call returns, and the element it stores. -/
def heapPop (hp : Heap α) : Option (Heap α × ℤ × Option α) :=
  if heapSize hp = 0 then some (hp, -1, none)
  else
    match heapGet hp 0, hp.array.arrayDel (heapSize hp - 1) with
    | some elm, some (array, last) =>
        (heapPut { hp with array := array } 0 last).bind fun hp =>
          (heapFixdown hp).map fun hp => (hp, 0, some elm)
    | _, _ => none

end code

/-! ### One level -/

variable {hp : Heap α} {l : List α} {i j r : ℕ}

theorem heapPut_eq (h : Holds hp.array l) (hi : i < l.length) (hb : l.length < 2 ^ 31) (x : α) :
    ∃ hp', heapPut hp i x = some hp' ∧ hp'.cmp = hp.cmp ∧ Holds hp'.array (l.set i x) := by
  obtain ⟨a, he, ha⟩ := h.arrayPut hi x
  refine ⟨{ hp with array := a }, ?_, rfl, ha⟩
  rw [heapPut, toUInt64_natCast (by omega), he]
  rfl

/-- In an empty heap the subtraction wraps around, and the index is -1. -/
theorem lastParent_eq (h : Holds hp.array l) (hb : l.length < 2 ^ 31) :
    lastParent hp = if l.length = 0 then -1 else (parent (l.length - 1) : ℤ) := by
  unfold lastParent
  rw [heapSize, h.size]
  by_cases h0 : l.length = 0
  · rw [if_pos h0, h0]
    decide
  · have hidx : (l.length + 2 ^ 64 - 1) % 2 ^ 64 = l.length - 1 := by omega
    have hpar : (if l.length - 1 ≤ 0 then 0 else (l.length - 1 - 1) / 2) = parent (l.length - 1) := by
      unfold parent
      split_ifs <;> omega
    rw [if_neg h0]
    dsimp only
    rw [hidx, hpar, toInt32_natCast]
    unfold parent
    omega

section level
variable [Inhabited α]

/-- The elements by their indices. -/
def elmAt (l : List α) (i : ℕ) : α := l.getD i default

theorem elmAt_eq (hi : i < l.length) : elmAt l i = l[i] := by
  simp [elmAt, hi]

theorem heapGet_eq (h : Holds hp.array l) (hi : i < l.length) (hb : l.length < 2 ^ 31) :
    heapGet hp i = some (elmAt l i) := by
  rw [heapGet, toUInt64_natCast (by omega), h.arrayGet hi, elmAt_eq hi]

/-- The elements at two indices change places. -/
theorem elmAt_swap (hi : i < l.length) (hj : j < l.length) :
    elmAt ((l.set i (elmAt l j)).set j (elmAt l i)) = elmAt l ∘ Equiv.swap i j := by
  funext k
  simp only [elmAt, Function.comp_apply, List.getD_eq_getElem?_getD]
  by_cases hk : k = j
  · subst hk
    simp [hj]
  · rw [List.getElem?_set_ne (Ne.symm hk)]
    by_cases hk' : k = i
    · subst hk'
      simp [hi]
    · rw [List.getElem?_set_ne (Ne.symm hk'), Equiv.swap_apply_of_ne_of_ne hk' hk]

theorem swap_eq (h : Holds hp.array l) (hi : i < l.length) (hj : j < l.length)
    (hb : l.length < 2 ^ 31) : ∃ hp' l', swap hp i j = some hp' ∧ hp'.cmp = hp.cmp ∧
      Holds hp'.array l' ∧ l'.Perm l ∧ elmAt l' = elmAt l ∘ Equiv.swap i j := by
  obtain ⟨hp₁, he₁, hc₁, h₁⟩ := heapPut_eq h hi hb (elmAt l j)
  obtain ⟨hp₂, he₂, hc₂, h₂⟩ := heapPut_eq h₁ (by simpa using hj) (by simpa using hb) (elmAt l i)
  refine ⟨hp₂, _, ?_, hc₂.trans hc₁, h₂, ?_, elmAt_swap hi hj⟩
  · rw [swap, heapGet_eq h hi hb, heapGet_eq h hj hb]
    simp only [he₁, Option.bind_some]
    exact he₂
  · rw [elmAt_eq hi, elmAt_eq hj]
    exact List.set_set_perm hi hj

theorem candidate_eq (h : Holds hp.array l) (hb : l.length < 2 ^ 31) {c m : ℕ} (hc : 0 < c)
    (hm : m < l.length) :
    candidate hp (if (c : ℤ) < l.length then c else -1) m =
      some ((if c < l.length ∧ hp.cmp (elmAt l c) (elmAt l m) then c else m : ℕ) : ℤ) := by
  unfold candidate
  by_cases hlt : c < l.length
  · rw [if_pos (by omega : (c : ℤ) < l.length), if_pos (by omega : (c : ℤ) > 0),
      heapGet_eq h hlt hb, heapGet_eq h hm hb]
    by_cases hcmp : hp.cmp (elmAt l c) (elmAt l m) = true
    · simp [hlt, hcmp]
    · simp [hcmp]
  · rw [if_neg (by omega : ¬(c : ℤ) < l.length), if_neg (by omega)]
    simp [hlt]

/-- `heapify` exchanges an element with its best child. -/
theorem heapify_eq (h : Holds hp.array l) (hr : r < l.length) (hb : l.length < 2 ^ 31)
    (hchild : 2 * r + 2 < 2 ^ 31) :
    ∃ (hp' : Heap α) (l' : List α),
      heapify hp r = some (hp', ((best hp.cmp l.length (elmAt l) r : ℕ) : ℤ)) ∧
      hp'.cmp = hp.cmp ∧ Holds hp'.array l' ∧ l'.Perm l ∧
      elmAt l' = elmAt l ∘ Equiv.swap r (best hp.cmp l.length (elmAt l) r) := by
  have hsize : toInt32 (heapSize hp) = l.length := by
    rw [heapSize, h.size, toInt32_natCast (by omega)]
  have hleft : leftChild r = ((2 * r + 1 : ℕ) : ℤ) := by
    rw [← toInt32_natCast (n := 2 * r + 1) (by omega)]
    rfl
  have hright : rightChild r = ((2 * r + 2 : ℕ) : ℤ) := by
    rw [← toInt32_natCast (n := 2 * r + 2) (by omega)]
    rfl
  have hbest : (candidate hp (if leftChild r < toInt32 (heapSize hp) then leftChild r else -1) r).bind
      (candidate hp (if rightChild r < toInt32 (heapSize hp) then rightChild r else -1)) =
      some ((best hp.cmp l.length (elmAt l) r : ℕ) : ℤ) := by
    rw [hsize, hleft, hright, candidate_eq h hb (by omega) hr, Option.bind_some,
      candidate_eq h hb (by omega) (by split_ifs <;> omega)]
    rfl
  have hlt := best_lt hp.cmp (elmAt l) hr
  unfold heapify
  dsimp only
  rw [if_neg (by rw [hsize]; omega), hbest]
  generalize best hp.cmp l.length (elmAt l) r = m at hlt
  by_cases hm : m = r
  · refine ⟨hp, l, ?_, rfl, h, .refl l, by simp [hm]⟩
    simp [hm]
  · obtain ⟨hp', l', he, hc, h', hperm, hat⟩ := swap_eq h hlt hr hb
    refine ⟨hp', l', ?_, hc, h', hperm, by rw [hat, Equiv.swap_comm]⟩
    simp [hm, he]

/-! ### The two repairs -/

/-- The heap holds the elements `l`, and no element precedes its parent. -/
structure Valid (lt : α → α → Prop) (hp : Heap α) (l : List α) : Prop where
  holds : Holds hp.array l
  ordered : Ordered lt l.length (elmAt l)

/-- The result of a repair of the heap `hp` with the elements `l`. -/
def Repaired (lt : α → α → Prop) (hp : Heap α) (l : List α) (res : Option (Heap α)) : Prop :=
  ∃ hp' l', res = some hp' ∧ hp'.cmp = hp.cmp ∧ l'.Perm l ∧ Valid lt hp' l'

variable {lt : α → α → Prop}

/-- The last element takes the place of the first; in a heap of one element there is no such place. -/
theorem heapPut_zero {l₀ : List α} {x : α} (h : Holds hp.array l₀)
    (hord : Ordered lt (l₀ ++ [x]).length (elmAt (l₀ ++ [x]))) (hb : l₀.length < 2 ^ 31) :
    ∃ hp' l', heapPut hp 0 x = some hp' ∧ hp'.cmp = hp.cmp ∧ Holds hp'.array l' ∧
      (elmAt (l₀ ++ [x]) 0 :: l').Perm (l₀ ++ [x]) ∧ DownAt lt l'.length (elmAt l') 0 := by
  rw [List.length_append, List.length_singleton] at hord
  cases l₀ with
  | nil =>
      refine ⟨hp, [], ?_, rfl, h, .refl _, hord.downAt_root (by simp)⟩
      rw [heapPut, h.arrayPut_of_le (Nat.zero_le _)]
      rfl
  | cons y l₀ =>
      obtain ⟨hp', he, hc, h'⟩ := heapPut_eq (i := 0) h (by simp) hb x
      refine ⟨hp', x :: l₀, he, hc, h', ?_, hord.downAt_root fun i hi hn => ?_⟩
      · exact (List.perm_append_singleton x l₀).symm.cons y
      · rw [List.length_cons] at hn
        obtain ⟨i, rfl⟩ := Nat.exists_eq_add_of_lt hi
        rw [elmAt_eq (by simpa using hn), elmAt_eq (by simp; omega)]
        simp only [List.cons_append, List.getElem_cons_succ]
        rw [List.getElem_append_left]

variable [IsStrictWeakOrder α lt]

/-- The loop of `heap_fixup`: before the index `k - 1` all but one element are in order, and the
parent of that element is still to come. -/
theorem fixupLoop_spec : ∀ (k : ℕ) {hp : Heap α} {l : List α}, Compares hp.cmp lt →
    Holds hp.array l → l.length < 2 ^ 31 → k ≤ l.length → 2 * k < 2 ^ 31 →
    UpUnder lt l.length (elmAt l) k →
    Repaired lt hp l (fixupLoop k hp)
  | 0, hp, l, _, h, _, _, _, hup => by
      refine ⟨hp, l, rfl, rfl, .refl l, h, ?_⟩
      rcases hup with hord | ⟨j, hj, -⟩
      · exact hord
      · omega
  | k + 1, hp, l, hcmp, h, hb, hk, hchild, hup => by
      obtain ⟨hp₁, l₁, he, hc, h₁, hperm, hat⟩ := heapify_eq h (by omega : k < l.length) hb (by omega)
      have hlen := hperm.length_eq
      have hup₁ := up_step hup (best_choice hcmp l.length (elmAt l) k)
      rw [← hat, ← hlen] at hup₁
      obtain ⟨hp', l', he', hc', hperm', hv⟩ :=
        fixupLoop_spec k (hc ▸ hcmp) h₁ (by omega) (by omega) (by omega) hup₁
      refine ⟨hp', l', ?_, hc'.trans hc, hperm'.trans hperm, hv⟩
      rw [fixupLoop, he]
      exact he'

/-- The loop of `heap_fixdown`: all but the element at its index `r` are in order. -/
theorem fixdownLoop_spec {stop : ℤ} : ∀ (passes : ℕ) {r : ℕ} {hp : Heap α} {l : List α},
    Compares hp.cmp lt → Holds hp.array l → l.length < 2 ^ 31 → r ≤ l.length →
    l.length < passes + r → (∀ i, 0 < i → i < l.length → (parent i : ℤ) ≤ stop) →
    stop < l.length → 2 * stop + 2 < 2 ^ 31 → DownAt lt l.length (elmAt l) r →
    Repaired lt hp l (fixdownLoop stop passes r hp)
  | 0, r, hp, l, _, _, _, hr, hpass, _, _, _, _ => by omega
  | passes + 1, r, hp, l, hcmp, h, hb, hr, hpass, hpar, hstop, hchild, hdown => by
      by_cases hrs : (r : ℤ) ≤ stop
      · obtain ⟨hp₁, l₁, he, hc, h₁, hperm, hat⟩ := heapify_eq h (by omega : r < l.length) hb (by omega)
        have hlen := hperm.length_eq
        have hstep := down_step hdown (best_choice hcmp l.length (elmAt l) r)
        generalize best hp.cmp l.length (elmAt l) r = m at he hat hstep
        rcases hstep with ⟨hm, hord⟩ | ⟨hrm, hmn, hdown₁⟩
        · refine ⟨hp₁, l₁, ?_, hc, hperm, h₁, ?_⟩
          · rw [fixdownLoop, if_pos hrs, he, Option.bind_some, if_pos (by simp [hm])]
          · rw [hlen, hat, hm, Equiv.swap_self]
            exact hord
        · rw [← hat, ← hlen] at hdown₁
          obtain ⟨hp', l', he', hc', hperm', hv⟩ :=
            fixdownLoop_spec passes (hc ▸ hcmp) h₁ (by omega) (by omega) (by omega)
              (fun i hi hn => hpar i hi (by omega)) (by omega) hchild hdown₁
          refine ⟨hp', l', ?_, hc'.trans hc, hperm'.trans hperm, hv⟩
          rw [fixdownLoop, if_pos hrs, he, Option.bind_some, if_neg (by simp; omega)]
          exact he'
      · -- beyond the last parent there is nothing to repair
        refine ⟨hp, l, ?_, rfl, .refl l, h, hdown.done fun i hi hn hp => ?_⟩
        · rw [fixdownLoop, if_neg hrs]
        · have := hpar i hi hn
          omega

theorem heapFixup_spec (hcmp : Compares hp.cmp lt) (h : Holds hp.array l) (hb : l.length < 2 ^ 31)
    (hl : 0 < l.length) (hup : UpUnder lt l.length (elmAt l) (parent (l.length - 1) + 1)) :
    Repaired lt hp l (heapFixup hp) := by
  have hk : (lastParent hp + 1).toNat = parent (l.length - 1) + 1 := by
    rw [lastParent_eq h hb, if_neg (by omega)]
    omega
  unfold heapFixup
  rw [hk]
  unfold parent at hup ⊢
  exact fixupLoop_spec _ hcmp h hb (by omega) (by omega) hup

theorem heapFixdown_spec (hcmp : Compares hp.cmp lt) (h : Holds hp.array l)
    (hb : l.length < 2 ^ 31) (hdown : DownAt lt l.length (elmAt l) 0) :
    Repaired lt hp l (heapFixdown hp) := by
  have hstop := lastParent_eq h hb
  have hpar : ∀ i, 0 < i → i < l.length → (parent i : ℤ) ≤ lastParent hp := by
    intro i hi hn
    rw [hstop, if_neg (by omega)]
    unfold parent
    omega
  have hlt : lastParent hp < l.length := by
    rw [hstop]
    unfold parent
    split_ifs <;> omega
  have hchild : 2 * lastParent hp + 2 < 2 ^ 31 := by
    rw [hstop]
    unfold parent
    split_ifs <;> omega
  have hspec := fixdownLoop_spec (l.length + 1) (r := 0) hcmp h hb (Nat.zero_le _) (by omega) hpar
    hlt hchild hdown
  unfold heapFixdown
  rw [heapSize, h.size]
  exact hspec

/-! ### Push and pop -/

theorem heapPush_spec (hcmp : Compares hp.cmp lt) (h : Valid lt hp l) (hb : l.length + 1 < 2 ^ 31)
    (x : α) : ∃ hp' l', heapPush hp x = some (hp', 0) ∧ hp'.cmp = hp.cmp ∧ l'.Perm (x :: l) ∧
      Valid lt hp' l' := by
  obtain ⟨a, he, ha⟩ := h.holds.arrayInsert_last x
  have hlen : (l ++ [x]).length = l.length + 1 := by simp
  have hup : UpUnder lt (l.length + 1) (elmAt (l ++ [x])) (parent l.length + 1) := by
    refine h.ordered.upUnder_last fun i hi => ?_
    rw [elmAt_eq hi, elmAt_eq (by omega), List.getElem_append_left]
  have hrep : Repaired lt { hp with array := a } (l ++ [x]) (heapFixup { hp with array := a }) :=
    heapFixup_spec hcmp ha (by omega) (by omega) (by rw [hlen]; exact hup)
  obtain ⟨hp', l', he', hc, hperm, hv⟩ := hrep
  refine ⟨hp', l', ?_, hc, hperm.trans (List.perm_append_singleton x l), hv⟩
  rw [heapPush, heapSize, h.holds.size, he, Option.bind_some, he']
  rfl

theorem heapPop_spec (hcmp : Compares hp.cmp lt) (h : Valid lt hp l) (hb : l.length < 2 ^ 31)
    (hl : l ≠ []) : ∃ hp' l' x, heapPop hp = some (hp', 0, some x) ∧ hp'.cmp = hp.cmp ∧
      l.Perm (x :: l') ∧ Valid lt hp' l' ∧ ∀ y ∈ l', ¬lt y x := by
  have hfirst : ∀ y ∈ l, ¬lt y (elmAt l 0) := by
    intro y hy
    obtain ⟨i, hi, rfl⟩ := List.getElem_of_mem hy
    rw [← elmAt_eq hi]
    exact h.ordered.root i hi
  have hget := heapGet_eq h.holds (List.length_pos_of_ne_nil hl) hb
  obtain ⟨l₀, last, rfl⟩ : ∃ l₀ last, l = l₀ ++ [last] :=
    ⟨l.dropLast, l.getLast hl, (List.dropLast_append_getLast hl).symm⟩
  obtain ⟨a, he, ha⟩ := h.holds.arrayDel_last
  rw [List.length_append, List.length_singleton] at hb
  have ha' : Holds ({ hp with array := a } : Heap α).array l₀ := ha
  obtain ⟨hp₁, l₁, he₁, hc₁, h₁, hperm₁, hdown⟩ := heapPut_zero ha' h.ordered (by omega)
  have hlen := hperm₁.length_eq
  simp at hlen
  obtain ⟨hp', l', he', hc', hperm', hv⟩ :=
    heapFixdown_spec (by rw [hc₁]; exact hcmp) h₁ (by omega) hdown
  have hperm := hperm₁.symm.trans (hperm'.symm.cons _)
  refine ⟨hp', l', _, ?_, hc'.trans hc₁, hperm, hv, fun y hy => hfirst y ?_⟩
  · have hsize : heapSize hp = l₀.length + 1 := by
      rw [heapSize, h.holds.size]
      simp
    unfold heapPop
    rw [if_neg (by omega), hsize, Nat.add_sub_cancel, he]
    rw [Nat.cast_zero] at hget
    rw [hget]
    dsimp only
    rw [he₁, Option.bind_some, he']
    rfl
  · exact hperm.mem_iff.mpr (List.mem_cons_of_mem _ hy)

theorem heapPop_nil (h : Holds hp.array []) : heapPop hp = some (hp, -1, none) := by
  rw [heapPop, if_pos]
  exact h.size

end level

/-! ### Runs -/

/-- The argument of `heap_init` and the order of the heap: a comparator that is a strict weak order, or
none, and the order is that of the addresses. -/
inductive Orders (addr : α → ℕ) : Option (α → α → Bool) → (α → α → Prop) → Prop
  | strict (comp : α → α → Bool) (h : IsStrictWeakOrder α fun x y => comp x y = true) :
      Orders addr (some comp) fun x y => comp x y = true
  | default (h : Function.Injective addr) : Orders addr none fun x y => addr x < addr y

section runs
variable {addr : α → ℕ} {comp : Option (α → α → Bool)} {lt : α → α → Prop}

theorem Orders.isStrictWeakOrder (h : Orders addr comp lt) : IsStrictWeakOrder α lt := by
  cases h with
  | strict comp h => exact h
  | default =>
      exact
        { irrefl := fun x => Nat.lt_irrefl _
          trans := fun x y z => Nat.lt_trans
          incomp_trans := fun x y z => by omega }

/-- `_default_cmp` also holds of an element and itself. -/
theorem Orders.compares (h : Orders addr comp lt) : Compares (heapInit addr comp).cmp lt := by
  cases h with
  | strict comp h => exact ⟨id, .inl⟩
  | default hinj =>
      refine ⟨fun {x y} hlt => ?_, fun {x y} hc => ?_⟩
      · exact if_neg (by omega)
      · have hle : addr x ≤ addr y := by
          by_contra hgt
          exact absurd ((if_pos (by omega)).symm.trans hc) Bool.false_ne_true
        rcases Nat.lt_or_eq_of_le hle with hlt | heq
        · exact .inl hlt
        · exact .inr (hinj heq)

inductive Op (α : Type) where
  | push (elm : α)
  | pop
deriving DecidableEq, Repr

variable [Inhabited α]

def opStep (hp : Heap α) : Op α → Option (Heap α)
  | .push elm => (heapPush hp elm).map (·.1)
  | .pop => (heapPop hp).map (·.1)

def system (addr : α → ℕ) (comp : Option (α → α → Bool)) : TS (Heap α) (Op α) where
  init hp := hp = heapInit addr comp
  step := opStep

/-- The size stays below `2 ^ 30`. -/
def small (hp : Heap α) : Op α → Prop
  | .push _ => heapSize hp + 1 < 2 ^ 30
  | .pop => True

instance (hp : Heap α) (op : Op α) : Decidable (small hp op) :=
  match op with
  | .push _ => inferInstanceAs (Decidable (_ < _))
  | .pop => inferInstanceAs (Decidable True)

/-- What holds of the heap between the calls. -/
def Sound (addr : α → ℕ) (comp : Option (α → α → Bool)) (lt : α → α → Prop) (hp : Heap α) : Prop :=
  hp.cmp = (heapInit addr comp).cmp ∧ ∃ l, l.length < 2 ^ 30 ∧ Valid lt hp l

theorem valid_init : Valid lt (heapInit addr comp) [] :=
  ⟨holds_init, fun i _ hi => absurd hi (Nat.not_lt_zero i)⟩

theorem sound_init : Sound addr comp lt (heapInit addr comp) :=
  ⟨rfl, [], Nat.pos_of_neZero _, valid_init⟩

theorem sound_step (ho : Orders addr comp lt) {hp hp' : Heap α} {op : Op α}
    (h : Sound addr comp lt hp) (hs : small hp op) (he : opStep hp op = some hp') :
    Sound addr comp lt hp' := by
  have := ho.isStrictWeakOrder
  obtain ⟨hc, l, hb, hv⟩ := h
  have hcmp : Compares hp.cmp lt := hc ▸ ho.compares
  cases op with
  | push x =>
      have hb' : l.length + 1 < 2 ^ 30 := hv.holds.size ▸ hs
      obtain ⟨hp₁, l₁, he₁, hc₁, hperm, hv₁⟩ := heapPush_spec hcmp hv (by omega) x
      rw [opStep, he₁] at he
      obtain rfl := Option.some.inj he
      refine ⟨hc₁.trans hc, l₁, ?_, hv₁⟩
      rw [hperm.length_eq]
      exact hb'
  | pop =>
      by_cases hl : l = []
      · subst hl
        rw [opStep, heapPop_nil hv.holds] at he
        obtain rfl := Option.some.inj he
        exact ⟨hc, [], hb, hv⟩
      · obtain ⟨hp₁, l₁, x, he₁, hc₁, hperm, hv₁, -⟩ := heapPop_spec hcmp hv (by omega) hl
        rw [opStep, he₁] at he
        obtain rfl := Option.some.inj he
        refine ⟨hc₁.trans hc, l₁, ?_, hv₁⟩
        have hlen := hperm.length_eq
        rw [List.length_cons] at hlen
        omega

theorem sound_of_reach (ho : Orders addr comp lt) {hp : Heap α}
    (hr : (system addr comp).ReachVia small hp) : Sound addr comp lt hp := by
  refine hr.invariant (fun hp h0 => ?_) fun hp op hp' h hs he => sound_step ho h hs he
  obtain rfl : hp = heapInit addr comp := h0
  exact sound_init

/-- The heap is a priority queue. -/
theorem priority_queue (ho : Orders addr comp lt) {hp : Heap α}
    (hr : (system addr comp).ReachVia small hp) :
    heapSize hp = hp.array.toList.length ∧
    Ordered lt (heapSize hp) (elmAt hp.array.toList) ∧
    (∀ x, heapSize hp + 1 < 2 ^ 30 →
      ∃ hp', heapPush hp x = some (hp', 0) ∧ hp'.array.toList.Perm (x :: hp.array.toList)) ∧
    (heapSize hp = 0 → heapPop hp = some (hp, -1, none)) ∧
    (heapSize hp ≠ 0 → ∃ hp' x, heapPop hp = some (hp', 0, some x) ∧
      hp.array.toList.Perm (x :: hp'.array.toList) ∧ ∀ y ∈ hp'.array.toList, ¬lt y x) := by
  have := ho.isStrictWeakOrder
  obtain ⟨hc, l, hb, hv⟩ := sound_of_reach ho hr
  have hcmp : Compares hp.cmp lt := hc ▸ ho.compares
  have hsize : heapSize hp = l.length := hv.holds.size
  rw [hv.holds.toList_eq, hsize]
  refine ⟨rfl, hv.ordered, fun x hx => ?_, fun h0 => ?_, fun h0 => ?_⟩
  · obtain ⟨hp', l', he, -, hperm, hv'⟩ := heapPush_spec hcmp hv (by omega) x
    exact ⟨hp', he, hv'.holds.toList_eq ▸ hperm⟩
  · obtain rfl := List.length_eq_zero_iff.mp h0
    exact heapPop_nil hv.holds
  · obtain ⟨hp', l', x, he, -, hperm, hv', hfirst⟩ :=
      heapPop_spec hcmp hv (by omega) fun h => h0 (h ▸ rfl)
    refine ⟨hp', x, he, ?_⟩
    rw [hv'.holds.toList_eq]
    exact ⟨hperm, hfirst⟩

end runs

/-- Two equal elements, and the default comparator. -/
theorem priority_queue_equal_elements : ∃ hp hp' : Heap ℕ, ∃ x,
    (system id none).ReachVia small hp ∧ heapSize hp = 3 ∧ heapPop hp = some (hp', 0, some x) ∧
    hp.array.toList.Perm (x :: hp'.array.toList) ∧ ∀ y ∈ hp'.array.toList, ¬y < x := by
  obtain ⟨hp, hr, hl⟩ := TS.ReachVia.exists_of_run (M := system id none) small
    [.push 9, .push 5, .push 7, .pop, .push 7] (fun hp => heapSize hp == 3) rfl (by decide +kernel)
    (by decide +kernel)
  have hsize : heapSize hp = 3 := eq_of_beq hl
  obtain ⟨hp', x, hpop⟩ := (priority_queue (.default fun _ _ h => h) hr).2.2.2.2 (by omega)
  exact ⟨hp, hp', x, hr, hsize, hpop⟩

end Heap

end Libcask
