import Libcask.Rings

/-! # The intrusive list of `list.c`

The functions of `list.c` on the link fields of a heap of `list_t` nodes, statement by
statement.  The two macros take *expressions*: `_list_add(elm, ls->prev, ls)` evaluates
`ls->prev` again at every use, so the macro arguments are functions of the current links.

**Assumption.** In `p->next = n->prev = elm` the location `p->next` is taken before the right
operand is stored.  C leaves the order open and compilers differ; in the other order
`list_add_before` does not link its node (`OperandOrder.lean`).  Whatever is said about lists that
are built with `list_add_before` rests on this order; `list_add_after` does not depend on it.

On distinct nodes the insertions are `Links.insertBetween` and the deletion is `Links.unlink`
(`listAddBefore_eq`, `listAddAfter_eq`, `listDelete_eq`); with the lemmas of `Rings.lean` the
functions of `list.c` implement the operations on plain lists (`rings_addBefore`,
`rings_addAfter`, `rings_delete`, `first_eq`, `last_eq`, `linked_iff`). -/

namespace Libcask

section nodes
variable {α : Type} [DecidableEq α]

/-- `_list_add(elm, p, n)`; `loc` is the location that the last statement assigns to. -/
def listAddMacro (L : Links α) (elm : α) (p n : Links α → α) : Links α :=
  let L := L.setPrev elm (p L)
  let L := L.setNext elm (n L)
  let loc := p L
  let L := L.setPrev (n L) elm
  L.setNext loc elm

/-- `_list_delete(p, n)`. -/
def listDeleteMacro (L : Links α) (p n : Links α → α) : Links α :=
  let L := L.setNext (p L) (n L)
  L.setPrev (n L) (p L)

def listInit (L : Links α) (ls : α) : Links α := (L.setNext ls ls).setPrev ls ls

def listAddBefore (L : Links α) (ls elm : α) : Links α :=
  listAddMacro L elm (fun L => L.prev ls) (fun _ => ls)

def listAddAfter (L : Links α) (ls elm : α) : Links α :=
  listAddMacro L elm (fun _ => ls) (fun L => L.next ls)

/-- `list_add` is `list_add_after`. -/
def listAdd (L : Links α) (ls elm : α) : Links α := listAddAfter L ls elm

def listDelete (L : Links α) (elm : α) : Links α :=
  listInit (listDeleteMacro L (fun L => L.prev elm) (fun L => L.next elm)) elm

def listNext (L : Links α) (ls : α) : α := L.next ls

def listPrev (L : Links α) (ls : α) : α := L.prev ls

def listEmpty (L : Links α) (ls : α) : Bool := L.prev ls = L.next ls ∧ L.prev ls = ls

theorem listAddBefore_eq (L : Links α) {ls elm : α} (h : elm ≠ ls) :
    listAddBefore L ls elm = L.insertBetween (L.prev ls) elm ls := by
  simp [listAddBefore, listAddMacro, Links.insertBetween, Function.update_of_ne h.symm]

theorem listAddAfter_eq (L : Links α) {ls elm : α} (h : elm ≠ ls) :
    listAddAfter L ls elm = L.insertBetween ls elm (L.next ls) := by
  simp [listAddAfter, listAddMacro, Links.insertBetween, Function.update_of_ne h.symm]

/-- The first store of `_list_delete` does not change the fields the second one reads. -/
theorem listDelete_eq (L : Links α) (elm : α) : listDelete L elm = L.unlink elm := by
  have hnext : Function.update L.next (L.prev elm) (L.next elm) elm = L.next elm := by
    by_cases hs : elm = L.prev elm
    · rw [← hs, Function.update_self]
    · rw [Function.update_of_ne hs]
  simp [listDelete, listInit, listDeleteMacro, Links.unlink, Links.setNext, Links.setPrev, hnext]

theorem listInit_eq_self (L : Links α) {ls : α} (h1 : L.next ls = ls) (h2 : L.prev ls = ls) :
    listInit L ls = L := by
  have e1 : Function.update L.next ls ls = L.next := by
    conv_rhs => rw [← Function.update_eq_self ls L.next, h1]
  have e2 : Function.update L.prev ls ls = L.prev := by
    conv_rhs => rw [← Function.update_eq_self ls L.prev, h2]
  simp [listInit, Links.setNext, Links.setPrev, e1, e2]

theorem listEmpty_iff (L : Links α) (ls : α) :
    listEmpty L ls = true ↔ L.prev ls = ls ∧ L.next ls = ls := by
  simp only [listEmpty, decide_eq_true_eq]
  constructor
  · rintro ⟨h1, h2⟩
    exact ⟨h2, h1.symm.trans h2⟩
  · rintro ⟨h1, h2⟩
    exact ⟨h1.trans h2.symm, h1⟩

end nodes

/-! ### Lists of elements -/

variable {H E : Type} [DecidableEq H] [DecidableEq E]

/-- `list_to_struct`: the element a link field belongs to. -/
def Node.toElem : Node H E → Option E
  | .head _ => none
  | .elem e => some e

/-- `list_next` or `list_prev` of a head, unless the loop test `list_empty(ls)` stops there. -/
def listPeek (L : Links (Node H E)) (ls : Node H E) : Option E :=
  if listEmpty L ls then none else ls.toElem

instance Links.listOps : ListOps (Links (Node H E)) H E where
  empty := ⟨id, id⟩
  addBefore L h e := listAddBefore L (.head h) (.elem e)
  addAfter L h e := listAddAfter L (.head h) (.elem e)
  delete L e := listDelete L (.elem e)
  first L h := listPeek L (listNext L (.head h))
  last L h := listPeek L (listPrev L (.head h))
  Linked L e := listEmpty L (.elem e) = false

variable {L : Links (Node H E)} {v : View H E}

theorem rings_empty : Rings (ListOps.empty : Links (Node H E)) (ListOps.empty : View H E) :=
  Rings.init

theorem rings_addBefore (hR : Rings L v) {h : H} {e : E} (he : v.Free e) :
    Rings (ListOps.addBefore L h e) (ListOps.addBefore v h e) := by
  have heq : ListOps.addBefore L h e = L.insertBetween (L.prev (.head h)) (.elem e) (.head h) :=
    listAddBefore_eq L (by simp)
  rw [heq]
  exact hR.addBefore he

theorem rings_addAfter (hR : Rings L v) {h : H} {e : E} (he : v.Free e) :
    Rings (ListOps.addAfter L h e) (ListOps.addAfter v h e) := by
  have heq : ListOps.addAfter L h e = L.insertBetween (.head h) (.elem e) (L.next (.head h)) :=
    listAddAfter_eq L (by simp)
  rw [heq]
  exact hR.addAfter he

theorem rings_delete (hR : Rings L v) (e : E) :
    Rings (ListOps.delete L e) (ListOps.delete v e) := by
  have heq : ListOps.delete L e = L.unlink (.elem e) := listDelete_eq L _
  rw [heq]
  exact hR.delete e

/-- `list_init` of an element that is on no list does nothing. -/
theorem listInit_of_free (hR : Rings L v) {e : E} (he : v.Free e) : listInit L (.elem e) = L := by
  obtain ⟨h1, h2⟩ := hR.free he
  exact listInit_eq_self L h1 h2

theorem linked_iff (hR : Rings L v) {e : E} : ListOps.Linked L e ↔ ListOps.Linked v e := by
  have h : listEmpty L (.elem e) = true ↔ v.Free e := by
    rw [listEmpty_iff]
    exact ⟨fun h => hR.next_elem_eq_iff.mp h.2, fun h => (hR.free h).symm⟩
  show listEmpty L (.elem e) = false ↔ ¬v.Free e
  rw [← h, Bool.not_eq_true]

/-- Peeking next to a head: the head itself only when its list is empty, where the loop test
stops; an element next to a head is never linked to itself. -/
theorem listPeek_eq (hR : Rings L v) {h : H} {o : Option E} (ho : o = none ↔ v h = [])
    (hmem : ∀ e, o = some e → e ∈ v h) :
    listPeek L ((o.map Node.elem).getD (.head h)) = o := by
  cases o with
  | none =>
      have hl := ho.mp rfl
      have : listEmpty L (.head h) = true :=
        (listEmpty_iff L _).mpr ⟨hR.prev_head_eq_iff.mpr hl, hR.next_head_eq_iff.mpr hl⟩
      simp [listPeek, this]
  | some e =>
      have : listEmpty L (.elem e) = false :=
        (linked_iff hR).mpr fun hf => hf h (hmem e rfl)
      simp [listPeek, this, Node.toElem]

theorem first_eq (hR : Rings L v) (h : H) : ListOps.first L h = ListOps.first v h := by
  show listPeek L (L.next (.head h)) = (v h).head?
  rw [hR.next_head h]
  exact listPeek_eq hR List.head?_eq_none_iff fun e he => List.mem_of_head? he

theorem last_eq (hR : Rings L v) (h : H) : ListOps.last L h = ListOps.last v h := by
  show listPeek L (L.prev (.head h)) = (v h).getLast?
  rw [hR.prev_head h]
  exact listPeek_eq hR List.getLast?_eq_none_iff fun e he => List.mem_of_getLast? he

/-! ### Emptying a list -/

/-- `while(!list_empty(ls)) { next = list_next(ls); list_delete(ls); ls = next; }`, with a bound on the
passes: the elements in the order in which they are unlinked, and the links after it. -/
def drain : ℕ → Node H E → Links (Node H E) → Option (List E × Links (Node H E))
  | 0, _, _ => none
  | passes + 1, ls, L =>
      if listEmpty L ls then some ([], L)
      else
        match ls.toElem with
        | none => none
        | some e =>
            (drain passes (listNext L ls) (listDelete L ls)).map fun r => (e :: r.1, r.2)

/-- The loop test at the place of a walk along the list of `h`, when all of it is still to come. -/
theorem listEmpty_cursor (hR : Rings L v) (h : H) :
    listEmpty L (Rings.cursor h (v h)) = (v h).isEmpty := by
  cases hv : v h with
  | nil =>
      rw [Rings.cursor_nil]
      exact (listEmpty_iff _ _).mpr ⟨hR.prev_head_eq_iff.mpr hv, hR.next_head_eq_iff.mpr hv⟩
  | cons e B =>
      rw [Rings.cursor_cons]
      exact (linked_iff hR).mpr fun hf => hf h (hv ▸ List.mem_cons_self)

/-- The loop test fails at the first node of a list only if that is an element. -/
theorem elem_of_not_empty (hR : Rings L v) {h : H} (hne : listEmpty L (L.next (.head h)) ≠ true) :
    ∃ e, e ∈ v h ∧ L.next (.head h) = .elem e := by
  rw [hR.next_head_cursor, listEmpty_cursor hR] at hne
  rw [hR.next_head_cursor]
  cases hl : v h with
  | nil => simp [hl] at hne
  | cons e B => exact ⟨e, List.mem_cons_self, rfl⟩

/-- The loop unlinks the elements of one list, and leaves the other lists as they are. -/
theorem drain_spec {h : H} : ∀ (B : List E) (passes : ℕ) {L : Links (Node H E)} {v : View H E},
    Rings L v → v h = B → B.length < passes →
    ∃ L', drain passes (Rings.cursor h B) L = some (B, L') ∧ Rings L' (Function.update v h [])
  | [], passes, L, v, hR, hv, hp => by
      obtain ⟨p, rfl⟩ := Nat.exists_eq_succ_of_ne_zero (Nat.ne_of_gt hp)
      have hempty := listEmpty_cursor hR h
      rw [hv] at hempty
      refine ⟨L, ?_, ?_⟩
      · rw [drain, hempty]
        rfl
      · rw [← hv, Function.update_eq_self]
        exact hR
  | e :: B, passes, L, v, hR, hv, hp => by
      obtain ⟨p, rfl⟩ := Nat.exists_eq_succ_of_ne_zero (Nat.ne_of_gt (Nat.zero_lt_of_lt hp))
      have hempty := listEmpty_cursor hR h
      rw [hv] at hempty
      have hmem : e ∈ v h := by simp [hv]
      have hnext : listNext L (.elem e) = Rings.cursor h B := hR.next_elem_cursor (A := []) hv
      have hvh : v.delete e h = B := by rw [View.delete, hv, List.erase_cons_head]
      obtain ⟨L', he, hR'⟩ := drain_spec B p (rings_delete hR e) hvh (Nat.lt_of_succ_lt_succ hp)
      refine ⟨L', ?_, ?_⟩
      · rw [drain, hempty, Rings.cursor_cons, hnext]
        exact congrArg (Option.map _) he
      · rw [← View.update_delete hR.ok hmem]
        exact hR'

end Libcask
