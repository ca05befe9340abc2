import Libcask.CInt

/-! # The dynamic array

`array.c`.  The allocated block is a list of cells, one for each of the `capcity` slots; a cell that was
not written since the allocation holds nothing.  An access outside of the block, or a read of a cell
that holds nothing, is undefined (`none`).  The elements are pointers, with `default` for `NULL`.

`Holds a l` says that the first `size` cells are the list `l`; the lemmas below it are what the
operations do to that list. -/

namespace Libcask

/-- A block of memory for elements. -/
abbrev Cells (α : Type) := List (Option α)

/-- `array_t`. -/
structure CArray (α : Type) where
  vector : Option (Cells α)
  size : ℕ
  capcity : ℕ
deriving DecidableEq, Repr

namespace CArray

variable {α : Type}

def cellRead (b : Cells α) (i : ℕ) : Option α := b[i]?.join

def cellWrite (b : Cells α) (i : ℕ) (elm : α) : Option (Cells α) :=
  if i < b.length then some (b.set i (some elm)) else none

def arrayInit : CArray α := ⟨none, 0, 0⟩

def minArrayCapcity : ℕ := 256

/-- The loop of `realloc_array`, from the index `i` on, with `n` cells to go. -/
def copyCells (ta : Cells α) : ℕ → ℕ → Cells α → Option (Cells α)
  | 0, _, b => some b
  | n + 1, i, b =>
      match cellRead ta i with
      | none => none
      | some x => (cellWrite b i x).bind (copyCells ta n (i + 1))

def reallocArray (a : CArray α) : Option (CArray α) :=
  match a.vector with
  | none =>
      let c := if a.capcity = 0 then minArrayCapcity else a.capcity
      some ⟨some (List.replicate c none), 0, c⟩
  | some ta =>
      let c := 2 * a.capcity
      (copyCells ta a.size 0 (List.replicate c none)).map fun b => ⟨some b, a.size, c⟩

/-- The loop of `array_insert`, from the location `loc` on, with `n` cells to go. -/
def shiftCells : ℕ → ℕ → Cells α → Option (Cells α)
  | 0, _, b => some b
  | n + 1, loc, b =>
      match cellRead b loc with
      | none => none
      | some x => (cellWrite b (loc + 1) x).bind (shiftCells n (loc + 1))

/-- The array and what the call returns. -/
def arrayInsert (a : CArray α) (idx : ℕ) (elm : α) : Option (CArray α × ℤ) :=
  if idx > a.size then some (a, -1)
  else
    match if a.vector.isNone ∨ a.capcity ≤ a.size then reallocArray a else some a with
    | none => none
    | some a =>
        match a.vector with
        | none => none
        | some b =>
            ((shiftCells (a.size - idx) idx b).bind fun b => cellWrite b idx elm).map fun b =>
              ({ a with vector := some b, size := a.size + 1 }, 0)

def arrayPut (a : CArray α) (idx : ℕ) (elm : α) : Option (CArray α × ℤ) :=
  if ¬idx < a.size then some (a, -1)
  else
    match a.vector with
    | none => none
    | some b => (cellWrite b idx elm).map fun b => ({ a with vector := some b }, 0)

def arrayGet [Inhabited α] (a : CArray α) (idx : ℕ) : Option α :=
  if idx ≥ a.size then some default
  else a.vector.bind fun b => cellRead b idx

/-- The loop of `array_del`, from the index `idx` on, with `n` cells to go.  It is assumed that the cell at
the left side of `vector[idx] = vector[++idx]` is taken first; C leaves this open (`OperandOrder.lean`). -/
def closeCells : ℕ → ℕ → Cells α → Option (Cells α)
  | 0, _, b => some b
  | n + 1, idx, b =>
      match cellRead b (idx + 1) with
      | none => none
      | some x => (cellWrite b idx x).bind (closeCells n (idx + 1))

/-- The array and the element that is taken out. -/
def arrayDel [Inhabited α] (a : CArray α) (idx : ℕ) : Option (CArray α × α) :=
  if idx ≥ a.size then some (a, default)
  else
    match a.vector with
    | none => none
    | some b =>
        match cellRead b idx with
        | none => none
        | some elm =>
            (closeCells (a.size - 1 - idx) idx b).map fun b =>
              ({ a with vector := some b, size := a.size - 1 }, elm)

/-! ### The array as a list -/

/-- The elements of the array. -/
def toList (a : CArray α) : List α := ((a.vector.getD []).take a.size).filterMap id

/-- The first `size` cells are the elements `l`, and the block has `capcity` cells. -/
structure Holds (a : CArray α) (l : List α) : Prop where
  size : a.size = l.length
  block : match a.vector with
    | none => a.capcity = 0 ∧ l = []
    | some b => 0 < a.capcity ∧ b.length = a.capcity ∧ ∃ rest, b = l.map some ++ rest

variable {a : CArray α} {l : List α} {i : ℕ} {x : α}

theorem Holds.toList_eq (h : Holds a l) : a.toList = l := by
  have hb := h.block
  unfold toList
  rw [h.size]
  cases hv : a.vector with
  | none =>
      rw [hv] at hb
      simp [hb.2]
  | some b =>
      rw [hv] at hb
      obtain ⟨-, -, rest, rfl⟩ := hb
      simp

theorem holds_init : Holds (arrayInit : CArray α) [] := ⟨rfl, rfl, rfl⟩

theorem cellRead_map {rest : Cells α} (hi : i < l.length) :
    cellRead (l.map some ++ rest) i = some l[i] := by
  simp [cellRead, List.getElem?_append_left, hi]

theorem cellWrite_map {rest : Cells α} (hi : i < l.length) :
    cellWrite (l.map some ++ rest) i x = some ((l.set i x).map some ++ rest) := by
  have hlen : i < (l.map some ++ rest).length := by
    simp
    omega
  rw [cellWrite, if_pos hlen, List.set_append_left _ _ (by simpa using hi), List.map_set]

/-- A list that holds an element has a block. -/
theorem Holds.exists_block (h : Holds a l) (hl : l ≠ []) :
    ∃ rest, a.vector = some (l.map some ++ rest) ∧ 0 < a.capcity ∧
      (l.map some ++ rest).length = a.capcity := by
  have hb := h.block
  cases hv : a.vector with
  | none =>
      rw [hv] at hb
      exact absurd hb.2 hl
  | some b =>
      rw [hv] at hb
      obtain ⟨hpos, hlen, rest, rfl⟩ := hb
      exact ⟨rest, rfl, hpos, hlen⟩

theorem Holds.arrayGet [Inhabited α] (h : Holds a l) (hi : i < l.length) : a.arrayGet i = some l[i] := by
  obtain ⟨rest, hv, -⟩ := h.exists_block (List.ne_nil_of_length_pos (by omega))
  unfold CArray.arrayGet
  rw [if_neg (by rw [h.size]; omega), hv]
  exact cellRead_map hi

theorem Holds.arrayPut (h : Holds a l) (hi : i < l.length) (x : α) :
    ∃ a', a.arrayPut i x = some (a', 0) ∧ Holds a' (l.set i x) := by
  obtain ⟨rest, hv, hpos, hlen⟩ := h.exists_block (List.ne_nil_of_length_pos (by omega))
  refine ⟨{ a with vector := some ((l.set i x).map some ++ rest) }, ?_, ?_, ?_⟩
  · unfold CArray.arrayPut
    rw [if_neg (by rw [h.size]; omega), hv]
    simp [cellWrite_map hi]
  · simpa using h.size
  · exact ⟨hpos, by simpa using hlen, rest, rfl⟩

/-- Nothing to do for the array when the index is not in range. -/
theorem Holds.arrayPut_of_le (h : Holds a l) (hi : l.length ≤ i) (x : α) :
    a.arrayPut i x = some (a, -1) := by
  rw [CArray.arrayPut, if_pos (by rw [h.size]; omega)]

/-- The loop of `realloc_array` copies the elements that are left. -/
theorem copyCells_map (rest : Cells α) : ∀ (l₂ l₁ : List α) (free : Cells α),
    copyCells ((l₁ ++ l₂).map some ++ rest) l₂.length l₁.length
      (l₁.map some ++ (List.replicate l₂.length none ++ free)) =
        some ((l₁ ++ l₂).map some ++ free)
  | [], l₁, free => by simp [copyCells]
  | x :: l₂, l₁, free => by
      have hread : cellRead ((l₁ ++ x :: l₂).map some ++ rest) l₁.length = some x := by
        rw [cellRead_map (by simp)]
        simp
      have hwrite : cellWrite (l₁.map some ++ (List.replicate (x :: l₂).length none ++ free))
          l₁.length x = some ((l₁ ++ [x]).map some ++ (List.replicate l₂.length none ++ free)) := by
        simp [cellWrite, List.replicate_succ]
      have hrest := copyCells_map rest l₂ (l₁ ++ [x]) free
      rw [List.length_append, List.append_assoc] at hrest
      show copyCells _ (l₂.length + 1) _ _ = _
      rw [copyCells, hread]
      simp only [hwrite, Option.bind_some]
      exact hrest

/-- `realloc_array` keeps the elements, and there is room for one more. -/
theorem Holds.reallocArray (h : Holds a l) :
    ∃ a', a.reallocArray = some a' ∧ Holds a' l ∧ a'.vector ≠ none ∧
      (a.capcity ≤ a.size → a'.size < a'.capcity) := by
  have hb := h.block
  have hs := h.size
  unfold CArray.reallocArray
  cases hv : a.vector with
  | none =>
      rw [hv] at hb
      obtain ⟨hc, rfl⟩ := hb
      refine ⟨_, rfl, ⟨rfl, ?_, by simp, _, rfl⟩, by simp, fun _ => ?_⟩
      · simp [hc, minArrayCapcity]
      · simp [hc, minArrayCapcity]
  | some ta =>
      rw [hv] at hb
      obtain ⟨hpos, hlen, rest, rfl⟩ := hb
      have hroom : l.length ≤ 2 * a.capcity := by
        simp at hlen
        omega
      have hcopy := copyCells_map rest l [] (List.replicate (2 * a.capcity - l.length) none)
      rw [List.map_nil, List.nil_append, List.replicate_append_replicate,
        Nat.add_sub_cancel' hroom, List.nil_append] at hcopy
      refine ⟨⟨some (l.map some ++ List.replicate (2 * a.capcity - l.length) none), l.length,
        2 * a.capcity⟩, ?_, ⟨rfl, ?_, ?_, _, rfl⟩, by simp, fun hfull => ?_⟩
      · dsimp only
        rw [hs]
        exact congrArg (Option.map _) hcopy
      · show 0 < 2 * a.capcity
        omega
      · simp
        omega
      · simp at hlen ⊢
        omega

theorem cellWrite_append {rest : Cells α} (hrest : rest ≠ []) :
    cellWrite (l.map some ++ rest) l.length x = some ((l ++ [x]).map some ++ rest.tail) := by
  cases rest with
  | nil => exact absurd rfl hrest
  | cons c rest => simp [cellWrite]

/-- After the reallocation of `array_insert`, if there is one, the block has room. -/
theorem Holds.room (h : Holds a l) :
    ∃ a₁, (if a.vector.isNone ∨ a.capcity ≤ a.size then a.reallocArray else some a) = some a₁ ∧
      Holds a₁ l ∧ a₁.vector ≠ none ∧ a₁.size < a₁.capcity := by
  split_ifs with hc
  · obtain ⟨a₁, he, h1, hv, hsize⟩ := h.reallocArray
    refine ⟨a₁, he, h1, hv, hsize ?_⟩
    rcases hc with hc | hc
    · have hb := h.block
      rw [Option.isNone_iff_eq_none.mp hc] at hb
      omega
    · exact hc
  · obtain ⟨h1, h2⟩ := not_or.mp hc
    exact ⟨a, rfl, h, by simpa using h1, by omega⟩

/-- The loop of `array_insert` reads every element after it has written over it: all places get the first
of the elements that were to be moved. -/
theorem shiftCells_map (p q : List α) (rest : Cells α) (hrest : rest ≠ []) :
    shiftCells (q.length + 1) p.length ((p ++ x :: q).map some ++ rest) =
      some ((p ++ x :: List.replicate (q.length + 1) x).map some ++ rest.tail) := by
  induction q generalizing p with
  | nil =>
      have hread : cellRead ((p ++ [x]).map some ++ rest) p.length = some x := by
        rw [cellRead_map (by simp)]
        simp
      have hwrite := cellWrite_append (l := p ++ [x]) (x := x) hrest
      rw [List.length_append, List.length_singleton, List.append_assoc] at hwrite
      rw [List.length_nil, shiftCells, hread]
      simp only [hwrite, Option.bind_some, shiftCells]
      simp
  | cons y q ih =>
      have hread : cellRead ((p ++ x :: y :: q).map some ++ rest) p.length = some x := by
        rw [cellRead_map (by simp)]
        simp
      have hwrite : cellWrite ((p ++ x :: y :: q).map some ++ rest) (p.length + 1) x =
          some (((p ++ [x]) ++ x :: q).map some ++ rest) := by
        rw [cellWrite_map (by simp)]
        simp
      have hrec := ih (p ++ [x])
      rw [List.length_append, List.length_singleton] at hrec
      rw [List.length_cons, shiftCells, hread]
      simp only [hwrite, Option.bind_some, hrec]
      simp [List.replicate_succ]

/-- What the loop of `array_insert` makes of the elements that it moves. -/
def smear : List α → List α
  | [] => []
  | x :: q => List.replicate (q.length + 1) x

@[simp] theorem length_smear (q : List α) : (smear q).length = q.length := by
  cases q <;> simp [smear]

/-- The loop of `array_insert` and the store after it. -/
theorem insertCells_map (p q : List α) (rest : Cells α) (hrest : rest ≠ []) (x : α) :
    ((shiftCells q.length p.length ((p ++ q).map some ++ rest)).bind fun b =>
      cellWrite b p.length x) = some ((p ++ x :: smear q).map some ++ rest.tail) := by
  cases q with
  | nil =>
      rw [List.length_nil, shiftCells, Option.bind_some, List.append_nil, cellWrite_append hrest]
      rfl
  | cons y q =>
      rw [List.length_cons, shiftCells_map p q rest hrest, Option.bind_some, cellWrite_map (by simp)]
      simp [smear]

/-- `array_insert` with an index in range. -/
theorem Holds.arrayInsert {p q : List α} (h : Holds a (p ++ q)) (x : α) :
    ∃ a', a.arrayInsert p.length x = some (a', 0) ∧ Holds a' (p ++ x :: smear q) := by
  obtain ⟨a₁, he, h1, hv, hlt⟩ := h.room
  have hb := h1.block
  have hs := h1.size
  have hsize := h.size
  rw [List.length_append] at hs hsize
  unfold CArray.arrayInsert
  rw [if_neg (by omega), he]
  cases hv' : a₁.vector with
  | none => exact absurd hv' hv
  | some b =>
      rw [hv'] at hb
      obtain ⟨hpos, hlen, rest, rfl⟩ := hb
      have hrest : rest ≠ [] := by
        rintro rfl
        simp at hlen
        omega
      have hcells := insertCells_map p q rest hrest x
      refine ⟨{ a₁ with vector := some ((p ++ x :: smear q).map some ++ rest.tail), size := a₁.size + 1 },
        ?_, ?_, hpos, ?_, _, rfl⟩
      · dsimp only
        rw [hv', hs, Nat.add_sub_cancel_left]
        dsimp only
        rw [hcells]
        rfl
      · simp
        omega
      · have := List.length_pos_of_ne_nil hrest
        simp at hlen ⊢
        omega

/-- `array_insert` at the end. -/
theorem Holds.arrayInsert_last (h : Holds a l) (x : α) :
    ∃ a', a.arrayInsert l.length x = some (a', 0) ∧ Holds a' (l ++ [x]) := by
  rw [← List.append_nil l] at h
  exact h.arrayInsert x

/-- The loop of `array_del` moves every element one place; the last one stays behind as well. -/
theorem closeCells_map (p q : List α) (rest : Cells α) (x : α) :
    closeCells q.length p.length ((p ++ x :: q).map some ++ rest) =
      some ((p ++ q).map some ++ some (q.getLastD x) :: rest) := by
  induction q generalizing p x with
  | nil => simp [closeCells]
  | cons y q ih =>
      have hread : cellRead ((p ++ x :: y :: q).map some ++ rest) (p.length + 1) = some y := by
        rw [cellRead_map (by simp)]
        simp
      have hwrite : cellWrite ((p ++ x :: y :: q).map some ++ rest) p.length y =
          some (((p ++ [y]) ++ y :: q).map some ++ rest) := by
        rw [cellWrite_map (by simp)]
        simp
      have hrec := ih (p ++ [y]) y
      rw [List.length_append, List.length_singleton] at hrec
      rw [List.length_cons, closeCells, hread, List.getLastD_cons, List.append_cons p y q]
      simp only [hwrite, Option.bind_some, hrec]

/-- `array_del` with an index in range. -/
theorem Holds.arrayDel [Inhabited α] {p q : List α} (h : Holds a (p ++ x :: q)) :
    ∃ a', a.arrayDel p.length = some (a', x) ∧ Holds a' (p ++ q) := by
  obtain ⟨rest, hv, hpos, hlen⟩ := h.exists_block (by simp)
  have hs := h.size
  rw [List.length_append, List.length_cons] at hs
  have hread : cellRead ((p ++ x :: q).map some ++ rest) p.length = some x := by
    rw [cellRead_map (by simp)]
    simp
  have hclose := closeCells_map p q rest x
  refine ⟨⟨some ((p ++ q).map some ++ some (q.getLastD x) :: rest), a.size - 1, a.capcity⟩,
    ?_, ?_, ?_⟩
  · have hleft : a.size - 1 - p.length = q.length := by omega
    unfold CArray.arrayDel
    rw [if_neg (by omega), hv]
    simp only [hread, hleft, hclose, Option.map_some]
  · rw [List.length_append]
    dsimp only
    omega
  · refine ⟨hpos, ?_, _, rfl⟩
    simp at hlen ⊢
    omega

/-- `array_del` at the end. -/
theorem Holds.arrayDel_last [Inhabited α] (h : Holds a (l ++ [x])) :
    ∃ a', a.arrayDel l.length = some (a', x) ∧ Holds a' l := by
  obtain ⟨a', hdel, ha'⟩ := h.arrayDel
  rw [List.append_nil] at ha'
  exact ⟨a', hdel, ha'⟩

end CArray

end Libcask
