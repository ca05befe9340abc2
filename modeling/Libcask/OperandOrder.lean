import Libcask.CList
import Libcask.CArray

/-! # The order of operands

In two places an assignment depends on an order that C leaves open: in `p->next = n->prev = elm` of
`_list_add`, where `p` and `n` are macro arguments that are evaluated again, and in
`vector[idx] = vector[++idx]` of `array_del`.  Here both are taken in either order (`OperandOrder`); the
functions of `CList.lean` and `CArray.lean` are the ones that take the location of the left operand
first, an order that all other modules assume and the compiler need not take.

`operand_order_iff` says when the results are the same: always for `list_add_after`; for
`list_add_before` only if there is nothing to add; and for `array_del` only if the elements from the
index on are equal. -/

namespace Libcask

/-- Whether the location of the left operand is taken before the side effect of the right operand, or
after it. -/
inductive OperandOrder where
  | locationFirst | valueFirst
deriving DecidableEq, Repr

/-- The result is the same in both orders. -/
def Indifferent {β : Type} (f : OperandOrder → β) : Prop := f .locationFirst = f .valueFirst

/-! ### Lists -/

section lists
variable {α : Type} [DecidableEq α]

/-- `_list_add(elm, p, n)`.  The right operands of the first two assignments have no side effects. -/
def listAddMacroIn (o : OperandOrder) (L : Links α) (elm : α) (p n : Links α → α) : Links α :=
  let L := L.setPrev elm (p L)
  let L := L.setNext elm (n L)
  match o with
  | .locationFirst =>
      let loc := p L
      let L := L.setPrev (n L) elm
      L.setNext loc elm
  | .valueFirst =>
      let L := L.setPrev (n L) elm
      L.setNext (p L) elm

def listAddBeforeIn (o : OperandOrder) (L : Links α) (ls elm : α) : Links α :=
  listAddMacroIn o L elm (fun L => L.prev ls) (fun _ => ls)

def listAddAfterIn (o : OperandOrder) (L : Links α) (ls elm : α) : Links α :=
  listAddMacroIn o L elm (fun _ => ls) (fun L => L.next ls)

theorem listAddBeforeIn_locationFirst (L : Links α) (ls elm : α) :
    listAddBeforeIn .locationFirst L ls elm = listAddBefore L ls elm := rfl

theorem listAddAfterIn_locationFirst (L : Links α) (ls elm : α) :
    listAddAfterIn .locationFirst L ls elm = listAddAfter L ls elm := rfl

/-- The location `ls->next` does not depend on the links. -/
theorem listAddAfterIn_indifferent (L : Links α) (ls elm : α) :
    Indifferent fun o => listAddAfterIn o L ls elm := rfl

variable {L : Links α} {ls elm : α}

/-- With the location first, the node before `ls` gets a new successor. -/
theorem listAddBefore_next (L : Links α) (ls elm : α) :
    (listAddBeforeIn .locationFirst L ls elm).next =
      Function.update (Function.update L.next elm ls) (L.prev ls) elm := by
  by_cases h : ls = elm
  · simp [listAddBeforeIn, listAddMacroIn, h]
  · simp [listAddBeforeIn, listAddMacroIn, Function.update_of_ne h]

/-- In the other order `ls->prev` is `elm` already, which gets itself as successor. -/
theorem listAddBefore_next_valueFirst (L : Links α) (ls elm : α) :
    (listAddBeforeIn .valueFirst L ls elm).next = Function.update L.next elm elm := by
  simp [listAddBeforeIn, listAddMacroIn]

theorem listAddBefore_prev (o : OperandOrder) (L : Links α) (ls elm : α) :
    (listAddBeforeIn o L ls elm).prev =
      Function.update (Function.update L.prev elm (L.prev ls)) ls elm := by
  cases o <;> rfl

omit [DecidableEq α] in
theorem Links.ext_iff_next {L L' : Links α} (h : L.prev = L'.prev) : L = L' ↔ L.next = L'.next := by
  cases L
  cases L'
  simp_all

theorem listAddBeforeIn_indifferent_iff (hL : L.WellFormed) :
    (Indifferent fun o => listAddBeforeIn o L ls elm) ↔ elm = ls ∨ L.prev ls = elm := by
  have hprev : (listAddBeforeIn .locationFirst L ls elm).prev =
      (listAddBeforeIn .valueFirst L ls elm).prev := by rw [listAddBefore_prev, listAddBefore_prev]
  unfold Indifferent
  rw [Links.ext_iff_next hprev, listAddBefore_next, listAddBefore_next_valueFirst]
  constructor
  · -- the successor of `elm` is `ls` in the one order and `elm` in the other
    intro heq
    by_contra hne
    obtain ⟨h1, h2⟩ := not_or.mp hne
    have hat := congrFun heq elm
    rw [Function.update_of_ne (Ne.symm h2), Function.update_self, Function.update_self] at hat
    exact h1 hat.symm
  · rintro (rfl | h)
    · -- the node before `elm` has `elm` as its successor
      funext y
      by_cases hy : y = L.prev elm
      · rw [hy, Function.update_self]
        by_cases hp : L.prev elm = elm
        · rw [hp, Function.update_self]
        · rw [Function.update_of_ne hp, hL.next_prev]
      · rw [Function.update_of_ne hy]
    · rw [h, Function.update_idem]

end lists

/-! ### Arrays -/

namespace CArray

variable {α : Type}

/-- The loop of `array_del`: in the other order the location on the left is that of the index after the
increment. -/
def closeCellsIn (o : OperandOrder) : ℕ → ℕ → Cells α → Option (Cells α)
  | 0, _, b => some b
  | n + 1, idx, b =>
      match cellRead b (idx + 1) with
      | none => none
      | some x =>
          let loc := match o with
            | .locationFirst => idx
            | .valueFirst => idx + 1
          (cellWrite b loc x).bind (closeCellsIn o n (idx + 1))

def arrayDelIn [Inhabited α] (o : OperandOrder) (a : CArray α) (idx : ℕ) : Option (CArray α × α) :=
  if idx ≥ a.size then some (a, default)
  else
    match a.vector with
    | none => none
    | some b =>
        match cellRead b idx with
        | none => none
        | some elm =>
            (closeCellsIn o (a.size - 1 - idx) idx b).map fun b =>
              ({ a with vector := some b, size := a.size - 1 }, elm)

theorem closeCellsIn_locationFirst (n idx : ℕ) (b : Cells α) :
    closeCellsIn .locationFirst n idx b = closeCells n idx b := by
  induction n generalizing idx b with
  | zero => rfl
  | succ n ih =>
      rw [closeCellsIn, closeCells]
      cases cellRead b (idx + 1) with
      | none => rfl
      | some x =>
          cases hw : cellWrite b idx x with
          | none => simp [hw]
          | some b' => simpa [hw] using ih (idx + 1) b'

theorem arrayDelIn_locationFirst [Inhabited α] (a : CArray α) (idx : ℕ) :
    arrayDelIn .locationFirst a idx = a.arrayDel idx := by
  have hclose := fun b : Cells α => closeCellsIn_locationFirst (a.size - 1 - idx) idx b
  unfold arrayDelIn CArray.arrayDel
  split_ifs
  · rfl
  · cases a.vector with
    | none => rfl
    | some b =>
        dsimp only
        cases cellRead b idx with
        | none => rfl
        | some elm => rw [hclose b]

/-- In the other order every element is assigned to itself. -/
theorem closeCellsIn_valueFirst (p q : List α) (rest : Cells α) (x : α) :
    closeCellsIn .valueFirst q.length p.length ((p ++ x :: q).map some ++ rest) =
      some ((p ++ x :: q).map some ++ rest) := by
  induction q generalizing p x with
  | nil => rfl
  | cons y q ih =>
      have hread : cellRead ((p ++ x :: y :: q).map some ++ rest) (p.length + 1) = some y := by
        rw [cellRead_map (by simp)]
        simp
      have hwrite : cellWrite ((p ++ x :: y :: q).map some ++ rest) (p.length + 1) y =
          some (((p ++ [x]) ++ y :: q).map some ++ rest) := by
        rw [cellWrite_map (by simp)]
        simp
      have hrec := ih (p ++ [x]) y
      rw [List.length_append, List.length_singleton] at hrec
      rw [List.length_cons, closeCellsIn, hread, List.append_cons p x]
      rw [List.append_cons p x] at hwrite
      simp only [hwrite, Option.bind_some, hrec]

/-- Moving the elements one place changes nothing if they are equal. -/
theorem append_getLastD_eq_iff (q : List α) (x : α) :
    q ++ [q.getLastD x] = x :: q ↔ ∀ y ∈ q, y = x := by
  induction q generalizing x with
  | nil => simp
  | cons y q ih =>
      rw [List.getLastD_cons, List.cons_append, List.cons.injEq, ih, List.forall_mem_cons]
      constructor
      · rintro ⟨rfl, h⟩
        exact ⟨rfl, h⟩
      · rintro ⟨rfl, h⟩
        exact ⟨rfl, h⟩

/-- In range the order shows in the loop only. -/
theorem arrayDelIn_eq [Inhabited α] {a : CArray α} {p q : List α} {x : α} {rest : Cells α}
    (h : Holds a (p ++ x :: q)) (hv : a.vector = some ((p ++ x :: q).map some ++ rest))
    (o : OperandOrder) :
    arrayDelIn o a p.length =
      (closeCellsIn o q.length p.length ((p ++ x :: q).map some ++ rest)).map fun b =>
        ({ a with vector := some b, size := a.size - 1 }, x) := by
  have hs := h.size
  rw [List.length_append, List.length_cons] at hs
  have hleft : a.size - 1 - p.length = q.length := by omega
  have hread : cellRead ((p ++ x :: q).map some ++ rest) p.length = some x := by
    rw [cellRead_map (by simp)]
    simp
  unfold arrayDelIn
  rw [if_neg (by omega), hv]
  simp only [hread, hleft]

theorem arrayDelIn_indifferent_iff [Inhabited α] {a : CArray α} {l : List α} (h : Holds a l) (idx : ℕ) :
    (Indifferent fun o => arrayDelIn o a idx) ↔ ∀ x ∈ l.drop idx, ∀ y ∈ l.drop idx, x = y := by
  unfold Indifferent
  dsimp only
  by_cases hidx : idx < l.length
  · obtain ⟨p, x, q, rfl, rfl⟩ : ∃ p x q, l = p ++ x :: q ∧ p.length = idx :=
      ⟨l.take idx, l[idx], l.drop (idx + 1), by simp, by simp [hidx.le]⟩
    obtain ⟨rest, hv, -⟩ := h.exists_block (by simp)
    rw [arrayDelIn_eq h hv, arrayDelIn_eq h hv, closeCellsIn_locationFirst, closeCells_map,
      closeCellsIn_valueFirst, List.drop_left]
    have hcells : (p ++ q).map some ++ some (q.getLastD x) :: rest = (p ++ x :: q).map some ++ rest ↔
        q ++ [q.getLastD x] = x :: q := by
      rw [List.append_cons, ← List.map_singleton, ← List.map_append, List.append_left_inj,
        List.map_inj_right fun _ _ h => Option.some.inj h, List.append_assoc, List.append_right_inj]
    simp only [Option.map_some, Option.some.injEq, Prod.mk.injEq, CArray.mk.injEq, and_true, hcells,
      append_getLastD_eq_iff]
    constructor
    · intro hall
      have hx : ∀ y ∈ x :: q, y = x := List.forall_mem_cons.mpr ⟨rfl, hall⟩
      exact fun y hy z hz => (hx y hy).trans (hx z hz).symm
    · exact fun hall y hy => hall y (List.mem_cons_of_mem _ hy) x List.mem_cons_self
  · have hs := h.size
    have hout : idx ≥ a.size := by omega
    unfold arrayDelIn
    rw [List.drop_eq_nil_of_le (not_lt.mp hidx), if_pos hout, if_pos hout]
    simp

end CArray

/-- **When the order does not matter.**  `list_add_after` gives the same links in both orders;
`list_add_before` on a well-formed heap does so only if `elm` is `ls`, or before it already; `array_del`
only if the elements from the index on are equal. -/
theorem operand_order_iff {α β : Type} [DecidableEq α] [Inhabited β] :
    (∀ (L : Links α), L.WellFormed → ∀ ls elm,
      (Indifferent fun o => listAddAfterIn o L ls elm) ∧
      ((Indifferent fun o => listAddBeforeIn o L ls elm) ↔ elm = ls ∨ L.prev ls = elm)) ∧
    ∀ (a : CArray β) (l : List β), a.Holds l → ∀ idx,
      ((Indifferent fun o => CArray.arrayDelIn o a idx) ↔
        ∀ x ∈ l.drop idx, ∀ y ∈ l.drop idx, x = y) := by
  refine ⟨fun L hL ls elm => ⟨listAddAfterIn_indifferent L ls elm, ?_⟩, fun a l h idx => ?_⟩
  · exact listAddBeforeIn_indifferent_iff hL
  · exact CArray.arrayDelIn_indifferent_iff h idx

/-- Deleting from two equal elements. -/
theorem operand_order_equal : Indifferent fun o =>
    CArray.arrayDelIn o (⟨some [some 7, some 7, none], 2, 3⟩ : CArray ℕ) 0 := by
  have hholds : (⟨some [some 7, some 7, none], 2, 3⟩ : CArray ℕ).Holds [7, 7] :=
    ⟨rfl, by decide, rfl, [none], rfl⟩
  exact ((operand_order_iff (α := ℕ)).2 _ _ hholds 0).mpr (by decide)

/-- Adding a second node before the head of an empty list: in the other order the head does not reach it.
Deleting the first of two elements: in the other order the second one is gone. -/
theorem order_changes_result :
    (¬Indifferent fun o => listAddBeforeIn o (⟨id, id⟩ : Links ℕ) 0 1) ∧
    (listAddBeforeIn .locationFirst (⟨id, id⟩ : Links ℕ) 0 1).next 0 = 1 ∧
    (listAddBeforeIn .valueFirst (⟨id, id⟩ : Links ℕ) 0 1).next 0 = 0 ∧
    ((CArray.arrayDelIn .locationFirst (⟨some [some 5, some 7], 2, 2⟩ : CArray ℕ) 0).map
      fun x => x.1.toList) = some [7] ∧
    ((CArray.arrayDelIn .valueFirst (⟨some [some 5, some 7], 2, 2⟩ : CArray ℕ) 0).map
      fun x => x.1.toList) = some [5] := by
  refine ⟨fun h => ?_, by decide, by decide, by decide, by decide⟩
  have hlinks : listAddBeforeIn .locationFirst (⟨id, id⟩ : Links ℕ) 0 1 =
      listAddBeforeIn .valueFirst ⟨id, id⟩ 0 1 := h
  have hnext := congrArg (fun L => L.next 0) hlinks
  revert hnext
  decide

end Libcask
