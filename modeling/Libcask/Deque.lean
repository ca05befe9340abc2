import Libcask.CList
import Libcask.CInt

/-! # The deque of `deque.c`

`deque_t` is a list head and a size; its nodes are allocated one by one and linked on the head.
The heap of one deque is the record `RawDeque`: the link fields, the element stored in every
allocated node, and the address that `malloc` returns next (no address is handed out twice).
The field `size` is an `int`.

`RawDeque.Repr d l` says that `d` holds the sequence `l`; a `Deque` is a heap that holds some
sequence, so the operations are total on it.  `Deque.toList` walks the links, and every operation
is the operation on lists that its name says (`toList_pushBack`, `toList_pushFront`,
`popFront_eq`, `popBack_eq`); the queue macros of `queue.h` push at the back and pop at the
front. -/

namespace Libcask

/-- A `deque_t` with the nodes it owns. -/
structure RawDeque (α : Type) where
  size : ℤ
  links : Links (Node Unit ℕ)
  elm : ℕ → Option α
  brk : ℕ

namespace RawDeque

variable {α : Type}

/-- `deque_init`. -/
def init : RawDeque α := ⟨0, ⟨id, id⟩, fun _ => none, 0⟩

/-- `new_node`: the address of the node, and the heap with the node in it. -/
def newNode (d : RawDeque α) (e : α) : ℕ × RawDeque α :=
  (d.brk, { d with
    elm := Function.update d.elm d.brk (some e)
    links := listInit d.links (.elem d.brk)
    brk := d.brk + 1 })

/-- `delete_node`: unlink and free. -/
def deleteNode (d : RawDeque α) (n : ℕ) : RawDeque α :=
  { d with links := listDelete d.links (.elem n), elm := Function.update d.elm n none }

/-- `deque_push_front`. -/
def pushFront (d : RawDeque α) (e : α) : RawDeque α :=
  let (n, d) := d.newNode e
  { d with links := listAddAfter d.links (.head ()) (.elem n), size := toInt32 (d.size + 1) }

/-- `deque_push_back`. -/
def pushBack (d : RawDeque α) (e : α) : RawDeque α :=
  let (n, d) := d.newNode e
  { d with links := listAddBefore d.links (.head ()) (.elem n), size := toInt32 (d.size + 1) }

/-- The end of `deque_pop`, on the node it found: the node is unlinked before its element is read,
and once more when it is freed. -/
def popNode (d : RawDeque α) (n : ℕ) : Option α × RawDeque α :=
  let d := { d with links := listDelete d.links (.elem n) }
  let e := d.elm n
  let d := d.deleteNode n
  (e, { d with size := toInt32 (d.size - 1) })

/-- `deque_pop(d, op)`: `op = 1` pops at the front. -/
def pop (d : RawDeque α) (op : ℕ) : Option α × RawDeque α :=
  if d.size = 0 then (none, d)
  else
    let l := if op = 1 then listNext d.links (.head ()) else listPrev d.links (.head ())
    match l.toElem with
    | none => (none, d)
    | some n => d.popNode n

/-- The sequence of elements, by walking the links from the head. -/
def toList (d : RawDeque α) : List α := (Rings.walk d.links d.brk (.head ())).filterMap d.elm

/-- The heap holds the sequence `l`, in the nodes `ns`. -/
structure Holds (d : RawDeque α) (ns : List ℕ) (l : List α) : Prop where
  rings : Rings d.links fun _ => ns
  elms : ns.map d.elm = l.map some
  lt_brk : ∀ n ∈ ns, n < d.brk
  size : d.size = toInt32 l.length

/-- The heap holds the sequence `l`. -/
def Repr (d : RawDeque α) (l : List α) : Prop := ∃ ns, d.Holds ns l

theorem init_repr : (init : RawDeque α).Repr [] :=
  ⟨[], Rings.init, rfl, fun _ h => absurd h List.not_mem_nil, by simp [init, toInt32]⟩

theorem Holds.toList {d : RawDeque α} {ns : List ℕ} {l : List α} (h : d.Holds ns l) :
    d.toList = l := by
  have hlen : ns.length ≤ d.brk := Rings.length_le (h.rings.ok.nodup ()) h.lt_brk
  rw [RawDeque.toList, h.rings.walk_eq hlen]
  have hmap := congrArg (List.filterMap id) h.elms
  simpa [List.filterMap_map] using hmap

/-- The node to be allocated is on no list, so `list_init` leaves its links as they are. -/
theorem Holds.newNode {d : RawDeque α} {ns : List ℕ} {l : List α} (h : d.Holds ns l) (e : α) :
    View.Free (fun _ : Unit => ns) d.brk ∧ (d.newNode e).2.links = d.links := by
  have hfree : View.Free (fun _ : Unit => ns) d.brk := fun _ hm => lt_irrefl _ (h.lt_brk _ hm)
  exact ⟨hfree, listInit_of_free h.rings hfree⟩

/-- The elements of the old nodes are not touched by an allocation. -/
theorem Holds.map_elm {d : RawDeque α} {ns : List ℕ} {l : List α} (h : d.Holds ns l) (e : α) :
    ns.map (Function.update d.elm d.brk (some e)) = l.map some := by
  rw [← h.elms]
  apply List.map_congr_left
  intro n hn
  exact Function.update_of_ne (h.lt_brk n hn).ne _ _

theorem pushBack_repr {d : RawDeque α} {l : List α} (h : d.Repr l) (e : α) :
    (d.pushBack e).Repr (l ++ [e]) := by
  obtain ⟨ns, hns⟩ := h
  obtain ⟨hfree, hlinks⟩ := hns.newNode e
  refine ⟨ns ++ [d.brk], ?_, ?_, ?_, ?_⟩
  · have hR := rings_addBefore (h := ()) hns.rings hfree
    have hv : ListOps.addBefore (fun _ : Unit => ns) () d.brk = fun _ => ns ++ [d.brk] := by
      funext x
      simp [ListOps.addBefore, View.addBefore]
    rwa [← hlinks, hv] at hR
  · simp [pushBack, RawDeque.newNode, hns.map_elm e]
  · intro n hn
    rcases List.mem_append.mp hn with hn | hn
    · exact Nat.lt_succ_of_lt (hns.lt_brk n hn)
    · rw [List.mem_singleton.mp hn]
      exact Nat.lt_succ_self _
  · simp [pushBack, RawDeque.newNode, hns.size, toInt32_add_one]

theorem pushFront_repr {d : RawDeque α} {l : List α} (h : d.Repr l) (e : α) :
    (d.pushFront e).Repr (e :: l) := by
  obtain ⟨ns, hns⟩ := h
  obtain ⟨hfree, hlinks⟩ := hns.newNode e
  refine ⟨d.brk :: ns, ?_, ?_, ?_, ?_⟩
  · have hR := rings_addAfter (h := ()) hns.rings hfree
    have hv : ListOps.addAfter (fun _ : Unit => ns) () d.brk = fun _ => d.brk :: ns := by
      funext x
      simp [ListOps.addAfter, View.addAfter]
    rwa [← hlinks, hv] at hR
  · simp [pushFront, RawDeque.newNode, hns.map_elm e]
  · intro n hn
    rcases List.mem_cons.mp hn with hn | hn
    · rw [hn]
      exact Nat.lt_succ_self _
    · exact Nat.lt_succ_of_lt (hns.lt_brk n hn)
  · simp [pushFront, RawDeque.newNode, hns.size, toInt32_add_one]

/-- Taking out one node, wherever it is. -/
theorem Holds.popNode {d : RawDeque α} {A B : List ℕ} {X Y : List α} {n : ℕ} {e : α}
    (h : d.Holds (A ++ n :: B) (X ++ e :: Y)) (hlen : A.length = X.length) :
    (d.popNode n).1 = some e ∧ (d.popNode n).2.Holds (A ++ B) (X ++ Y) := by
  have helms := h.elms
  simp only [List.map_append, List.map_cons] at helms
  obtain ⟨hA, hnB⟩ := List.append_inj helms (by simp [hlen])
  obtain ⟨hn, hB⟩ := List.cons.inj hnB
  have hnd := h.rings.ok.nodup ()
  obtain ⟨hnA, hnB'⟩ : n ∉ A ∧ n ∉ B := by
    simp only [List.nodup_append, List.nodup_cons, List.mem_cons] at hnd
    exact ⟨fun ha => hnd.2.2 n ha n (.inl rfl) rfl, hnd.2.1.1⟩
  refine ⟨hn, ?_, ?_, ?_, ?_⟩
  · -- the second `list_delete` finds the node linked to itself
    have hR := rings_delete (rings_delete h.rings n) n
    have hv : ListOps.delete (ListOps.delete (fun _ : Unit => A ++ n :: B) n) n =
        fun _ => A ++ B := by
      funext x
      show ((A ++ n :: B).erase n).erase n = A ++ B
      rw [List.erase_append_right _ hnA, List.erase_cons_head, List.erase_of_not_mem (by simp [hnA, hnB'])]
    rwa [hv] at hR
  · have hkeep : ∀ ns : List ℕ, n ∉ ns → ns.map (Function.update d.elm n none) = ns.map d.elm :=
      fun ns hns => List.map_congr_left fun m hm =>
        Function.update_of_ne (ne_of_mem_of_not_mem hm hns) _ _
    show (A ++ B).map (Function.update d.elm n none) = _
    rw [hkeep _ (by simp [hnA, hnB']), List.map_append, List.map_append, hA, hB]
  · intro m hm
    refine h.lt_brk m ?_
    rcases List.mem_append.mp hm with hm | hm <;> simp [hm]
  · show toInt32 (d.size - 1) = _
    rw [h.size, toInt32_sub_one]
    simp only [List.length_append, List.length_cons]
    congr 1
    push_cast
    ring

/-- The node next to the head, when the deque holds a sequence that is not empty. -/
theorem Holds.toElem_next {d : RawDeque α} {n : ℕ} {ns : List ℕ} {l : List α}
    (h : d.Holds (n :: ns) l) : (listNext d.links (.head ())).toElem = some n := by
  simp [listNext, h.rings.next_head (), Node.toElem]

theorem Holds.toElem_prev {d : RawDeque α} {n : ℕ} {ns : List ℕ} {l : List α}
    (h : d.Holds (ns ++ [n]) l) : (listPrev d.links (.head ())).toElem = some n := by
  simp [listPrev, h.rings.prev_head (), Node.toElem]

theorem popFront_repr {d : RawDeque α} {e : α} {l : List α} (h : d.Repr (e :: l))
    (hsize : d.size ≠ 0) : (d.pop 1).1 = some e ∧ (d.pop 1).2.Repr l := by
  obtain ⟨ns, hns⟩ := h
  cases ns with
  | nil => simpa using hns.elms
  | cons n ns =>
      obtain ⟨h1, h2⟩ := hns.popNode (A := []) (X := []) rfl
      simp only [pop, hsize, if_false, if_true, hns.toElem_next]
      exact ⟨h1, ns, h2⟩

theorem popBack_repr {d : RawDeque α} {e : α} {l : List α} (h : d.Repr (l ++ [e]))
    (hsize : d.size ≠ 0) : (d.pop 0).1 = some e ∧ (d.pop 0).2.Repr l := by
  obtain ⟨ns, hns⟩ := h
  have hlen : ns.length = l.length + 1 := by simpa using congrArg List.length hns.elms
  obtain rfl | ⟨ms, n, rfl⟩ := List.eq_nil_or_concat' ns
  · simp at hlen
  · obtain ⟨h1, h2⟩ := hns.popNode (by simpa using hlen)
    simp only [pop, hsize, if_false, hns.toElem_prev, zero_ne_one]
    exact ⟨h1, ms, by simpa using h2⟩

theorem pop_of_size_eq_zero {d : RawDeque α} (h : d.size = 0) (op : ℕ) : d.pop op = (none, d) := by
  simp [pop, h]

end RawDeque

/-! ### Deques that hold a sequence -/

/-- A deque whose links, nodes and size hold some sequence. -/
structure Deque (α : Type) where
  raw : RawDeque α
  wf : ∃ l, raw.Repr l

namespace Deque

variable {α : Type}

/-- The sequence a deque holds. -/
def toList (d : Deque α) : List α := d.raw.toList

theorem repr_toList (d : Deque α) : d.raw.Repr d.toList := by
  obtain ⟨l, ns, h⟩ := d.wf
  rw [toList, h.toList]
  exact ⟨ns, h⟩

theorem toList_eq_of_repr {d : Deque α} {l : List α} (h : d.raw.Repr l) : d.toList = l := by
  obtain ⟨ns, hns⟩ := h
  exact hns.toList

theorem size_eq (d : Deque α) : d.raw.size = toInt32 d.toList.length := by
  obtain ⟨ns, h⟩ := d.repr_toList
  exact h.size

/-- `deque_init`, `queue_init`. -/
def init : Deque α := ⟨RawDeque.init, [], RawDeque.init_repr⟩

/-- `deque_push_back`, `queue_push`. -/
def pushBack (d : Deque α) (e : α) : Deque α :=
  ⟨d.raw.pushBack e, _, RawDeque.pushBack_repr d.repr_toList e⟩

/-- `deque_push_front`. -/
def pushFront (d : Deque α) (e : α) : Deque α :=
  ⟨d.raw.pushFront e, _, RawDeque.pushFront_repr d.repr_toList e⟩

/-- `deque_size`, `queue_size`. -/
def size (d : Deque α) : ℤ := d.raw.size

/-- `deque_empty`, `queue_empty`. -/
def isEmpty (d : Deque α) : Bool := d.size = 0

/-- Popping keeps a deque well-formed: from either end, and when the size reads zero. -/
theorem pop_wf (d : Deque α) (op : ℕ) (hop : op = 0 ∨ op = 1) : ∃ l, (d.raw.pop op).2.Repr l := by
  by_cases hs : d.raw.size = 0
  · rw [RawDeque.pop_of_size_eq_zero hs]
    exact d.wf
  · have hr := d.repr_toList
    have hne : d.toList ≠ [] := fun hc => hs (by simp [d.size_eq, hc, toInt32])
    rcases hop with rfl | rfl
    · obtain ⟨l, e, hl⟩ := (List.eq_nil_or_concat' d.toList).resolve_left hne
      exact ⟨l, (RawDeque.popBack_repr (hl ▸ hr) hs).2⟩
    · obtain ⟨e, l, hl⟩ := List.exists_cons_of_ne_nil hne
      exact ⟨l, (RawDeque.popFront_repr (hl ▸ hr) hs).2⟩

/-- `deque_pop_front`, `queue_pop`. -/
def popFront (d : Deque α) : Option α × Deque α :=
  ((d.raw.pop 1).1, ⟨(d.raw.pop 1).2, d.pop_wf 1 (.inr rfl)⟩)

/-- `deque_pop_back`. -/
def popBack (d : Deque α) : Option α × Deque α :=
  ((d.raw.pop 0).1, ⟨(d.raw.pop 0).2, d.pop_wf 0 (.inl rfl)⟩)

@[simp] theorem toList_init : (init : Deque α).toList = [] := toList_eq_of_repr RawDeque.init_repr

@[simp] theorem toList_pushBack (d : Deque α) (e : α) : (d.pushBack e).toList = d.toList ++ [e] :=
  toList_eq_of_repr (RawDeque.pushBack_repr d.repr_toList e)

@[simp] theorem toList_pushFront (d : Deque α) (e : α) : (d.pushFront e).toList = e :: d.toList :=
  toList_eq_of_repr (RawDeque.pushFront_repr d.repr_toList e)

/-- Short of `2 ^ 32` elements the size field tells an empty deque from the others. -/
theorem isEmpty_iff {d : Deque α} (h : d.toList.length < 2 ^ 32) :
    d.isEmpty = true ↔ d.toList = [] := by
  simp only [isEmpty, decide_eq_true_eq, size, d.size_eq, toInt32_eq_zero_iff,
    Nat.mod_eq_of_lt h, List.length_eq_zero_iff]

theorem popFront_eq {d : Deque α} {e : α} {l : List α} (hl : d.toList = e :: l)
    (h : d.isEmpty = false) : d.popFront.1 = some e ∧ d.popFront.2.toList = l := by
  have hs : d.raw.size ≠ 0 := of_decide_eq_false h
  obtain ⟨h1, h2⟩ := RawDeque.popFront_repr (hl ▸ d.repr_toList) hs
  exact ⟨h1, toList_eq_of_repr h2⟩

theorem popBack_eq {d : Deque α} {e : α} {l : List α} (hl : d.toList = l ++ [e])
    (h : d.isEmpty = false) : d.popBack.1 = some e ∧ d.popBack.2.toList = l := by
  have hs : d.raw.size ≠ 0 := of_decide_eq_false h
  obtain ⟨h1, h2⟩ := RawDeque.popBack_repr (hl ▸ d.repr_toList) hs
  exact ⟨h1, toList_eq_of_repr h2⟩

end Deque

end Libcask
