import Mathlib.Data.List.GetD
import Libcask.CArray
import Libcask.Transition

/-! # The array as a sequence

Runs of `array_insert`, `array_put`, `array_del` and `array_get` from `array_init`, next to the same
operations on a list (`Op.onList`).  The array is the list as long as the two loops move the elements
unchanged.  That of `array_del` does; that of `array_insert` goes upwards and reads every element after
the one below it has been written there.

* `opStep_spec`: what one operation does to the elements, for all operations and indices (`Op.written`).
* `written_eq_iff`: it is the operation on the list exactly if an insertion moves equal elements only
  (`Op.Even`).
* `array_sequence`: what follows for a whole run. -/

namespace Libcask.CArray

variable {α : Type} [Inhabited α]

/-- A call on the array. -/
inductive Op (α : Type) where
  | insert (idx : ℕ) (elm : α) | put (idx : ℕ) (elm : α) | del (idx : ℕ) | get (idx : ℕ)
deriving DecidableEq, Repr

/-- What a call returns. -/
inductive Out (α : Type) where
  | int (r : ℤ) | ptr (elm : α)
deriving DecidableEq, Repr

/-- The array after a call, and what the call returns. -/
def opStep (a : CArray α) : Op α → Option (CArray α × Out α)
  | .insert idx elm => (a.arrayInsert idx elm).map fun (a, r) => (a, .int r)
  | .put idx elm => (a.arrayPut idx elm).map fun (a, r) => (a, .int r)
  | .del idx => (a.arrayDel idx).map fun (a, elm) => (a, .ptr elm)
  | .get idx => (a.arrayGet idx).map fun elm => (a, .ptr elm)

namespace Op

/-- The index is in range for the call. -/
def inRange (l : List α) : Op α → Bool
  | insert idx _ => idx ≤ l.length
  | put idx _ => idx < l.length
  | del idx => idx < l.length
  | get idx => idx < l.length

/-- The operation on a list, and what it returns. -/
def onList (l : List α) : Op α → List α × Out α
  | insert idx elm => if idx ≤ l.length then (l.insertIdx idx elm, .int 0) else (l, .int (-1))
  | put idx elm => if idx < l.length then (l.set idx elm, .int 0) else (l, .int (-1))
  | del idx => if idx < l.length then (l.eraseIdx idx, .ptr (l.getD idx default)) else (l, .ptr default)
  | get idx => (l, .ptr (l.getD idx default))

/-- The elements of the array after the call. -/
def written (l : List α) : Op α → List α
  | insert idx elm => if idx ≤ l.length then l.take idx ++ elm :: smear (l.drop idx) else l
  | op => (op.onList l).1

/-- The elements that the call moves upwards are all equal. -/
def Even (l : List α) : Op α → Prop
  | insert idx _ => ∀ x ∈ l.drop idx, ∀ y ∈ l.drop idx, x = y
  | _ => True

/-- The `int` index of `realloc_array` reaches all elements. -/
def Fits (l : List α) : Op α → Prop
  | insert _ _ => l.length < 2 ^ 31
  | _ => True

instance [DecidableEq α] (l : List α) (op : Op α) : Decidable (op.Even l) :=
  match op with
  | insert idx _ => inferInstanceAs (Decidable (∀ x ∈ l.drop idx, ∀ y ∈ l.drop idx, x = y))
  | put _ _ | del _ | get _ => isTrue trivial

instance (l : List α) (op : Op α) : Decidable (op.Fits l) :=
  match op with
  | insert _ _ => inferInstanceAs (Decidable (l.length < 2 ^ 31))
  | put _ _ | del _ | get _ => isTrue trivial

end Op

/-- Calls on an array from `array_init` on.  The history is the list that the operations on lists give. -/
def system (α : Type) [Inhabited α] : TS (CArray α × List α) (Op α) :=
  TS.withHistory ⟨fun a => a = arrayInit, fun a op => (opStep a op).map Prod.fst⟩ []
    fun l _ op _ => (op.onList l).1

variable {a : CArray α} {l : List α}

omit [Inhabited α] in
theorem insertIdx_eq {idx : ℕ} (h : idx ≤ l.length) (x : α) :
    l.insertIdx idx x = l.take idx ++ x :: l.drop idx := by
  induction l generalizing idx with
  | nil =>
      obtain rfl : idx = 0 := Nat.le_zero.mp h
      rfl
  | cons y l ih =>
      cases idx with
      | zero => rfl
      | succ idx => simp [List.insertIdx_succ_cons, ih (Nat.le_of_succ_le_succ h)]

omit [Inhabited α] in
theorem smear_eq_iff (q : List α) : smear q = q ↔ ∀ x ∈ q, ∀ y ∈ q, x = y := by
  cases q with
  | nil => simp [smear]
  | cons x q =>
      rw [smear, List.replicate_succ, List.cons_inj_right, eq_comm, List.eq_replicate_iff]
      constructor
      · intro h y hy z hz
        have hx : ∀ y ∈ x :: q, y = x := by
          intro y hy
          rcases List.mem_cons.mp hy with rfl | hy
          · rfl
          · exact h.2 y hy
        rw [hx y hy, hx z hz]
      · intro h
        refine ⟨rfl, fun y hy => ?_⟩
        exact h y (List.mem_cons_of_mem _ hy) x List.mem_cons_self

/-- A call does to the elements what the operation on the list does exactly if the elements it moves
upwards are equal. -/
theorem written_eq_iff (l : List α) (op : Op α) : op.written l = (op.onList l).1 ↔ op.Even l := by
  cases op with
  | insert idx elm =>
      by_cases h : idx ≤ l.length
      · simp only [Op.written, Op.onList, if_pos h, Op.Even]
        rw [insertIdx_eq h, List.append_cancel_left_eq, List.cons_inj_right, smear_eq_iff]
      · simp only [Op.written, Op.onList, if_neg h, Op.Even]
        rw [List.drop_eq_nil_of_le (by omega)]
        simp
  | put idx elm => exact iff_of_true rfl trivial
  | del idx => exact iff_of_true rfl trivial
  | get idx => exact iff_of_true rfl trivial

/-- Every call is defined, returns what the operation on the list returns, and leaves the elements
`Op.written`; with an index out of range it leaves the array alone. -/
theorem opStep_spec (h : Holds a l) (op : Op α) : ∃ a', opStep a op = some (a', (op.onList l).2) ∧
    Holds a' (op.written l) ∧ (op.inRange l = false → a' = a) := by
  have hs := h.size
  cases op with
  | insert idx elm =>
      simp only [opStep, Op.written, Op.onList, Op.inRange, decide_eq_false_iff_not]
      by_cases hidx : idx ≤ l.length
      · have hl := h
        rw [← List.take_append_drop idx l] at hl
        obtain ⟨a', hins, ha'⟩ := hl.arrayInsert elm
        rw [List.length_take, Nat.min_eq_left hidx] at hins
        simp only [if_pos hidx]
        exact ⟨a', by rw [hins]; rfl, ha', fun hc => absurd hidx hc⟩
      · simp only [if_neg hidx]
        refine ⟨a, ?_, h, fun _ => rfl⟩
        rw [arrayInsert, if_pos (by omega)]
        rfl
  | put idx elm =>
      simp only [opStep, Op.written, Op.onList, Op.inRange, decide_eq_false_iff_not]
      by_cases hidx : idx < l.length
      · obtain ⟨a', hput, ha'⟩ := h.arrayPut hidx elm
        simp only [if_pos hidx]
        exact ⟨a', by rw [hput]; rfl, ha', fun hc => absurd hidx hc⟩
      · simp only [if_neg hidx]
        refine ⟨a, ?_, h, fun _ => rfl⟩
        rw [h.arrayPut_of_le (not_lt.mp hidx)]
        rfl
  | del idx =>
      simp only [opStep, Op.written, Op.onList, Op.inRange, decide_eq_false_iff_not]
      by_cases hidx : idx < l.length
      · have hl := h
        rw [← List.take_append_drop idx l, List.drop_eq_getElem_cons hidx] at hl
        obtain ⟨a', hdel, ha'⟩ := hl.arrayDel
        rw [List.length_take, Nat.min_eq_left hidx.le] at hdel
        rw [← List.eraseIdx_eq_take_drop_succ] at ha'
        simp only [if_pos hidx]
        refine ⟨a', ?_, ha', fun hc => absurd hidx hc⟩
        rw [hdel, List.getD_eq_getElem _ _ hidx]
        rfl
      · simp only [if_neg hidx]
        refine ⟨a, ?_, h, fun _ => rfl⟩
        rw [arrayDel, if_pos (by omega)]
        rfl
  | get idx =>
      refine ⟨a, ?_, h, fun _ => rfl⟩
      simp only [opStep, Op.onList]
      by_cases hidx : idx < l.length
      · rw [h.arrayGet hidx, List.getD_eq_getElem _ _ hidx]
        rfl
      · rw [arrayGet, if_pos (by omega), List.getD_eq_default _ _ (not_lt.mp hidx)]
        rfl

/-- As long as insertions move equal elements only, the array holds the list. -/
theorem holds_of_reach {x : CArray α × List α}
    (hr : (system α).ReachVia (fun x op => op.Fits x.2 ∧ op.Even x.2) x) : Holds x.1 x.2 := by
  refine hr.invariant (I := fun x => Holds x.1 x.2) ?_ ?_
  · rintro ⟨a, l⟩ ⟨rfl, rfl⟩
    exact holds_init
  · rintro x op x' hx ⟨-, heven⟩ hstep
    obtain ⟨hs, hl⟩ := TS.withHistory_step hstep
    obtain ⟨a', hop, ha', -⟩ := opStep_spec hx op
    have ha : a' = x'.1 := by
      simp only [hop, Option.map_some, Option.some.injEq] at hs
      exact hs
    rw [hl, ← ha, ← (written_eq_iff x.2 op).mpr heven]
    exact ha'

/-- **The array is a sequence.**  In every run whose insertions move equal elements only, the first
`size` slots are the list at every moment.  Every call then returns what the operation on the list
returns, leaves the array alone if its index is out of range, and does the operation on the list exactly
if it does not move different elements upwards. -/
theorem array_sequence {x : CArray α × List α}
    (hr : (system α).ReachVia (fun x op => op.Fits x.2 ∧ op.Even x.2) x) :
    x.1.size = x.2.length ∧ x.1.toList = x.2 ∧
      ∀ op : Op α, op.Fits x.2 → ∃ a', opStep x.1 op = some (a', (op.onList x.2).2) ∧
        (op.inRange x.2 = false → a' = x.1) ∧ (a'.toList = (op.onList x.2).1 ↔ op.Even x.2) := by
  have h := holds_of_reach hr
  refine ⟨h.size, h.toList_eq, fun op _ => ?_⟩
  obtain ⟨a', hop, ha', hout⟩ := opStep_spec h op
  refine ⟨a', hop, hout, ?_⟩
  rw [ha'.toList_eq]
  exact written_eq_iff x.2 op

/-- Insertions before the last element and after it, and a deletion. -/
theorem array_sequence_three : ∃ x : CArray ℕ × List ℕ, x.1.toList = x.2 ∧ x.2 = [7, 5] := by
  obtain ⟨x, hr, hx⟩ := TS.ReachVia.exists_of_run (M := system ℕ) (fun x op => op.Fits x.2 ∧ op.Even x.2)
    [.insert 0 5, .insert 0 6, .insert 1 7, .del 0, .put 9 1] (fun x => decide (x.2 = [7, 5]))
    (s := (arrayInit, [])) ⟨rfl, rfl⟩ (by decide +kernel) (by decide +kernel)
  exact ⟨x, (array_sequence hr).2.1, of_decide_eq_true hx⟩

/-- Before two different elements: the second one is lost. -/
theorem insertion_overwrites : ∃ x : CArray ℕ × List ℕ, (system ℕ).Reachable x ∧
    x.1.toList = [3, 1, 1] ∧ x.2 = [3, 1, 2] := by
  obtain ⟨x, hr, hx⟩ := TS.Reachable.exists_of_run (M := system ℕ)
    [.insert 0 1, .insert 1 2, .insert 0 3]
    (fun x => decide (x.1.toList = [3, 1, 1] ∧ x.2 = [3, 1, 2]))
    (s := (arrayInit, [])) ⟨rfl, rfl⟩ (by decide +kernel)
  exact ⟨x, hr, of_decide_eq_true hx⟩

end Libcask.CArray
