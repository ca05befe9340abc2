import Libcask.Deque

/-! # The deque as a double-ended sequence

Runs of the functions of `deque.c` from `deque_init`, next to the same operations on a list
(`Op.onList`).

* `opStep_repr`: one call on a heap that holds `l`; `deque_clear` is a loop of `deque_pop_front`
  (`clearLoop_repr`).
* `execute_repr`: a whole run, with all that the calls return.
* `queue_fifo` and `stack_lifo` are about the operations on lists; `deque_sequence` carries them over to
  the macros of `queue.h` and `stack.h`. -/

namespace Libcask

namespace RawDeque

variable {α : Type}

/-! ### Definitions -/

/-- The loop of `deque_clear`. -/
def clearLoop : ℕ → RawDeque α → Option (RawDeque α)
  | 0, _ => none
  | passes + 1, d => if d.size = 0 then some d else clearLoop passes (d.pop 1).2

/-- `deque_clear`: there are no more nodes than were allocated. -/
def clear (d : RawDeque α) : Option (RawDeque α) := clearLoop (d.brk + 1) d

/-- The sequence of elements, by walking the links backwards from the head. -/
def toListBack (d : RawDeque α) : List α := (Rings.walk d.links.flip d.brk (.head ())).filterMap d.elm

/-- A call.  `queue_push` and `stack_push` are `pushBack`, `queue_pop` is `popFront`, and `stack_pop` is
`popBack`. -/
inductive Op (α : Type) where
  | pushFront (e : α) | pushBack (e : α) | popFront | popBack | clear
deriving DecidableEq

/-- The deque after a call, and what the call returns; `NULL` is `none`. -/
def opStep (d : RawDeque α) : Op α → Option (RawDeque α × Option α)
  | .pushFront e => some (d.pushFront e, none)
  | .pushBack e => some (d.pushBack e, none)
  | .popFront => some ((d.pop 1).2, (d.pop 1).1)
  | .popBack => some ((d.pop 0).2, (d.pop 0).1)
  | .clear => d.clear.map fun d => (d, none)

/-- Calls one after the other, with all that they return. -/
def execute (d : RawDeque α) : List (Op α) → Option (RawDeque α × List (Option α))
  | [] => some (d, [])
  | op :: ops =>
      (d.opStep op).bind fun (d, out) => (d.execute ops).map fun (d, outs) => (d, out :: outs)

/-- The operations on sequences. -/
def Op.onList (l : List α) : Op α → List α × Option α
  | pushFront e => (e :: l, none)
  | pushBack e => (l ++ [e], none)
  | popFront => (l.tail, l.head?)
  | popBack => (l.dropLast, l.getLast?)
  | clear => ([], none)

/-- The operations on sequences, one after the other. -/
def onLists (l : List α) : List (Op α) → List α × List (Option α)
  | [] => (l, [])
  | op :: ops => ((onLists (op.onList l).1 ops).1, (op.onList l).2 :: (onLists (op.onList l).1 ops).2)

/-- The operations of a queue. -/
def Op.isQueue : Op α → Bool
  | pushBack _ | popFront => true
  | _ => false

/-- The elements that are pushed at the back. -/
def pushed (ops : List (Op α)) : List α :=
  ops.filterMap fun | .pushBack e => some e | _ => none

/-- Operations of a stack in which every push has its pop. -/
inductive Balanced : List (Op α) → Prop
  | nil : Balanced []
  | wrap (e : α) {mid rest : List (Op α)} :
      Balanced mid → Balanced rest → Balanced (.pushBack e :: (mid ++ .popBack :: rest))

/-! ### Sequences -/

theorem onLists_append (l : List α) (ops₁ ops₂ : List (Op α)) :
    onLists l (ops₁ ++ ops₂) =
      ((onLists (onLists l ops₁).1 ops₂).1, (onLists l ops₁).2 ++ (onLists (onLists l ops₁).1 ops₂).2) := by
  induction ops₁ generalizing l with
  | nil => rfl
  | cons op ops₁ ih => simp [onLists, ih]

/-- A call adds at most one element. -/
theorem length_onLists_le (l : List α) (ops : List (Op α)) :
    (onLists l ops).1.length ≤ l.length + ops.length := by
  induction ops generalizing l with
  | nil => exact le_refl _
  | cons op ops ih =>
      have hone : (op.onList l).1.length ≤ l.length + 1 := by
        cases op <;> simp only [Op.onList, List.length_cons, List.length_append, List.length_tail,
          List.length_dropLast, List.length_nil] <;> omega
      have hrec := ih (op.onList l).1
      rw [List.length_cons]
      show (onLists (op.onList l).1 ops).1.length ≤ _
      omega

/-- What has been popped and what is still there is what was pushed, in order. -/
theorem queue_fifo (l : List α) (ops : List (Op α)) (h : ∀ op ∈ ops, op.isQueue = true) :
    l ++ pushed ops = (onLists l ops).2.filterMap id ++ (onLists l ops).1 := by
  induction ops generalizing l with
  | nil => simp [pushed, onLists]
  | cons op ops ih =>
      obtain ⟨hop, hops⟩ := List.forall_mem_cons.mp h
      have hrec := ih (op.onList l).1 hops
      cases op with
      | pushBack e =>
          simp only [Op.onList] at hrec
          simpa [pushed, onLists, Op.onList] using hrec
      | popFront =>
          cases l with
          | nil => simpa [pushed, onLists, Op.onList] using hrec
          | cons e l => simpa [pushed, onLists, Op.onList] using hrec
      | pushFront e => cases hop
      | popBack => cases hop
      | clear => cases hop

/-- A balanced run leaves the stack as it was. -/
theorem onLists_balanced {ops : List (Op α)} (h : Balanced ops) (l : List α) : (onLists l ops).1 = l := by
  induction h generalizing l with
  | nil => rfl
  | wrap e _ _ ih₁ ih₂ =>
      simp only [onLists, Op.onList, onLists_append, ih₁, List.dropLast_concat]
      exact ih₂ l

/-- The pop of a push returns what was pushed. -/
theorem stack_lifo {mid : List (Op α)} (h : Balanced mid) (l : List α) (e : α) :
    (onLists l (.pushBack e :: (mid ++ [.popBack]))).1 = l ∧
      (onLists l (.pushBack e :: (mid ++ [.popBack]))).2.getLast? = some (some e) := by
  simp only [onLists, Op.onList, onLists_append, onLists_balanced h]
  constructor
  · exact List.dropLast_concat
  · rw [← List.cons_append, List.getLast?_append]
    simp

/-! ### One call -/

variable {d : RawDeque α} {l : List α}

theorem Holds.length_eq {ns : List ℕ} (h : d.Holds ns l) : ns.length = l.length := by
  have hlen := congrArg List.length h.elms
  rwa [List.length_map, List.length_map] at hlen

theorem Repr.toList_eq (h : d.Repr l) : d.toList = l := by
  obtain ⟨ns, hns⟩ := h
  exact hns.toList

theorem Repr.toListBack_eq (h : d.Repr l) : d.toListBack = l.reverse := by
  obtain ⟨ns, hns⟩ := h
  have hle : ns.length ≤ d.brk := Rings.length_le (hns.rings.ok.nodup ()) hns.lt_brk
  rw [toListBack, hns.rings.flip.walk_eq (by rwa [List.length_reverse])]
  have hmap := congrArg (fun l => (List.filterMap id l).reverse) hns.elms
  simpa [List.filterMap_map, List.filterMap_reverse] using hmap

theorem Repr.size_eq (h : d.Repr l) (hlen : l.length < 2 ^ 31) : d.size = l.length := by
  obtain ⟨ns, hns⟩ := h
  rw [hns.size, toInt32_natCast hlen]

/-- The size says whether there is an element. -/
theorem Repr.size_ne_zero {e : α} (h : d.Repr (e :: l)) (hlen : (e :: l).length < 2 ^ 31) :
    d.size ≠ 0 := by
  rw [h.size_eq hlen]
  simp
  omega

theorem Repr.size_eq_zero (h : d.Repr []) : d.size = 0 := h.size_eq (by simp)

/-- The loop takes out one element in every pass. -/
theorem clearLoop_repr (h : d.Repr l) (hlen : l.length < 2 ^ 31) {passes : ℕ}
    (hpasses : l.length < passes) : ∃ d', clearLoop passes d = some d' ∧ d'.Repr [] := by
  induction l generalizing d passes with
  | nil =>
      obtain ⟨passes, rfl⟩ := Nat.exists_eq_add_one_of_ne_zero (by omega : passes ≠ 0)
      exact ⟨d, by rw [clearLoop, if_pos h.size_eq_zero], h⟩
  | cons e l ih =>
      obtain ⟨passes, rfl⟩ := Nat.exists_eq_add_one_of_ne_zero (by omega : passes ≠ 0)
      have hsize := h.size_ne_zero hlen
      rw [List.length_cons] at hlen hpasses
      obtain ⟨d', hd', hrepr⟩ := ih (popFront_repr h hsize).2 (by omega) (by omega : l.length < passes)
      exact ⟨d', by rw [clearLoop, if_neg hsize, hd'], hrepr⟩

theorem clear_repr (h : d.Repr l) (hlen : l.length < 2 ^ 31) : ∃ d', d.clear = some d' ∧ d'.Repr [] := by
  obtain ⟨ns, hns⟩ := id h
  have hle : ns.length ≤ d.brk := Rings.length_le (hns.rings.ok.nodup ()) hns.lt_brk
  rw [hns.length_eq] at hle
  exact clearLoop_repr h hlen (by omega)

/-- Every call does to the sequence what its name says, and returns the element of that end. -/
theorem opStep_repr (h : d.Repr l) (hlen : l.length < 2 ^ 31) (op : Op α) :
    ∃ d', d.opStep op = some (d', (op.onList l).2) ∧ d'.Repr (op.onList l).1 := by
  cases op with
  | pushFront e => exact ⟨_, rfl, pushFront_repr h e⟩
  | pushBack e => exact ⟨_, rfl, pushBack_repr h e⟩
  | popFront =>
      cases l with
      | nil =>
          refine ⟨d, ?_, h⟩
          rw [opStep, pop_of_size_eq_zero h.size_eq_zero]
          rfl
      | cons e l =>
          obtain ⟨helm, hrepr⟩ := popFront_repr h (h.size_ne_zero hlen)
          exact ⟨(d.pop 1).2, by rw [opStep, helm]; rfl, hrepr⟩
  | popBack =>
      rcases List.eq_nil_or_concat' l with rfl | ⟨l, e, rfl⟩
      · refine ⟨d, ?_, h⟩
        rw [opStep, pop_of_size_eq_zero h.size_eq_zero]
        rfl
      · have hsize : d.size ≠ 0 := by
          rw [h.size_eq hlen]
          simp
          omega
        obtain ⟨helm, hrepr⟩ := popBack_repr h hsize
        simp only [Op.onList, List.dropLast_concat, List.getLast?_concat]
        exact ⟨(d.pop 0).2, by rw [opStep, helm], hrepr⟩
  | clear =>
      obtain ⟨d', hd', hrepr⟩ := clear_repr h hlen
      exact ⟨d', by rw [opStep, hd']; rfl, hrepr⟩

/-! ### Runs -/

/-- A run on the heap is the run on the sequence, as long as the size fits into an `int`. -/
theorem execute_repr (ops : List (Op α)) (h : d.Repr l)
    (hfits : ∀ pre, pre <+: ops → (onLists l pre).1.length < 2 ^ 31) :
    ∃ d', d.execute ops = some (d', (onLists l ops).2) ∧ d'.Repr (onLists l ops).1 := by
  induction ops generalizing d l with
  | nil => exact ⟨d, rfl, h⟩
  | cons op ops ih =>
      obtain ⟨d₁, hop, h₁⟩ := opStep_repr h (hfits [] (List.nil_prefix)) op
      obtain ⟨d', hrest, h'⟩ := ih h₁ fun pre hpre => hfits (op :: pre) (List.cons_prefix_cons.mpr ⟨rfl, hpre⟩)
      refine ⟨d', ?_, h'⟩
      rw [execute, hop]
      show (d₁.execute ops).map _ = _
      rw [hrest]
      rfl

/-- **A double-ended sequence.**  As long as the size stays below `2 ^ 31`, every sequence of calls from
`deque_init` returns what the operations on the sequence return; then the links hold the sequence forwards
and its reverse backwards, and the size is its length.  A run of `queue_push` and `queue_pop` pops what
was pushed, first in, first out; after `stack_push` of an element and as many pops as pushes, the next
`stack_pop` returns that element. -/
theorem deque_sequence (ops : List (Op α))
    (hfits : ∀ pre, pre <+: ops → (onLists [] pre).1.length < 2 ^ 31) :
    ∃ d, init.execute ops = some (d, (onLists [] ops).2) ∧
      d.toList = (onLists [] ops).1 ∧ d.toListBack = (onLists [] ops).1.reverse ∧
      d.size = (onLists [] ops).1.length ∧
      ((∀ op ∈ ops, op.isQueue = true) → pushed ops = (onLists [] ops).2.filterMap id ++ d.toList) ∧
      ∀ pre e mid, ops = pre ++ .pushBack e :: (mid ++ [.popBack]) → Balanced mid →
        d.toList = (onLists [] pre).1 ∧ (onLists [] ops).2.getLast? = some (some e) := by
  obtain ⟨d, hrun, hrepr⟩ := execute_repr ops init_repr hfits
  have hlist := hrepr.toList_eq
  refine ⟨d, hrun, hlist, hrepr.toListBack_eq, hrepr.size_eq (hfits ops (List.prefix_refl _)),
    fun hqueue => ?_, ?_⟩
  · rw [hlist]
    exact queue_fifo [] ops hqueue
  · rintro pre e mid rfl hmid
    obtain ⟨hrest, hlast⟩ := stack_lifo hmid (onLists [] pre).1 e
    rw [hlist, onLists_append, hrest]
    refine ⟨rfl, ?_⟩
    rw [List.getLast?_append, hlast]
    rfl

/-- Both ends of a sequence, and a deque that is cleared. -/
theorem deque_sequence_ends : ∃ d, (init : RawDeque ℕ).execute
    [.pushBack 1, .pushBack 2, .pushFront 3, .popBack, .popFront, .clear, .popFront, .pushBack 4] =
      some (d, [none, none, none, some 2, some 3, none, none, none]) ∧ d.toList = [4] := by
  obtain ⟨d, hrun, hlist, -⟩ := deque_sequence
    [.pushBack 1, .pushBack 2, .pushFront 3, .popBack, .popFront, .clear, .popFront, .pushBack 4]
    (fun pre hpre => by
      have hlen := hpre.length_le
      have hle := length_onLists_le [] pre
      simp only [List.length_cons, List.length_nil] at hlen hle
      omega)
  exact ⟨d, hrun, hlist⟩

end RawDeque

end Libcask
