import Libcask.ArraySequence
import Libcask.Logged

/-! # The slots that the array functions access

The functions of `array.c` once more, with a log of every slot they read and write (`Access`), and with
what a machine does where `CArray.lean` is undefined: an access goes through whatever its index is, a
slot that was not written gives an unknown element, the capacity and the argument of `malloc` are taken
modulo `2 ^ 64`, and the index of `realloc_array` is an `int`.

* **The same functions.** Where the functions of `CArray.lean` are defined and the index of
  `realloc_array` does not overflow, the ones here compute the same (`arrayInsertM_val`, `arrayPutM_val`,
  `arrayGetM_val`, `arrayDelM_val`).
* **Accesses.** `callM_spec`: a call on an array whose fields fit together (`Sized`) reads slots below
  `size` and writes slots of the vector only, and leaves such an array.  `array_index_safety` is what
  follows for runs. -/

namespace Libcask.CArray

open Logged

variable {α : Type}

/-- An access to a slot: its index, and the number of slots that the vector has. -/
inductive Access where
  | read (i slots : ℕ)
  | write (i slots : ℕ)
deriving DecidableEq, Repr

def load (b : Cells α) (i : ℕ) : Logged Access (Option α) := do
  tell (.read i b.length)
  pure (cellRead b i)

def store (b : Cells α) (i : ℕ) (c : Option α) : Logged Access (Cells α) := do
  tell (.write i b.length)
  pure (b.set i c)

/-- `dst[j] = src[i]`. -/
def moveSlot (dst : Cells α) (j : ℕ) (src : Cells α) (i : ℕ) : Logged Access (Cells α) := do
  let c ← load src i
  store dst j c

/-- The slots of the vector; `NULL` has none. -/
def slots (a : CArray α) : Cells α := a.vector.getD []

/-- The number of slots that `malloc(sizeof(void *) * capcity)` makes. -/
def slotsOf (capcity : ℕ) : ℕ := toUInt64 (8 * capcity) / 8

def mallocCells (capcity : ℕ) : Cells α := List.replicate (slotsOf capcity) none

/-- The loop of `realloc_array`, with the `int` index `i` and a bound on the passes. -/
def copyLoop (ta : Cells α) (size : ℕ) : ℕ → ℤ → Cells α → Logged Access (Option (Cells α))
  | 0, _, _ => pure none
  | passes + 1, i, b =>
      if toUInt64 i < size then do
        let b ← moveSlot b (toUInt64 i) ta (toUInt64 i)
        copyLoop ta size passes (toInt32 (i + 1)) b
      else pure (some b)

def reallocArrayM (a : CArray α) : Logged Access (Option (CArray α)) :=
  match a.vector with
  | none =>
      let c := if a.capcity = 0 then minArrayCapcity else a.capcity
      pure (some ⟨some (mallocCells c), 0, c⟩)
  | some ta => do
      let c := toUInt64 (2 * a.capcity)
      let b ← copyLoop ta a.size (a.size + 1) 0 (mallocCells c)
      pure (b.map fun b => ⟨some b, a.size, c⟩)

/-- The loop of `array_insert`, from the location `loc` on, with `n` slots to go. -/
def shiftLoop : ℕ → ℕ → Cells α → Logged Access (Cells α)
  | 0, _, b => pure b
  | n + 1, loc, b => do
      let b ← moveSlot b (loc + 1) b loc
      shiftLoop n (loc + 1) b

/-- The reallocation of `array_insert`, if there is one. -/
def makeRoomM (a : CArray α) : Logged Access (Option (CArray α)) :=
  if a.vector.isNone ∨ a.capcity ≤ a.size then reallocArrayM a else pure (some a)

/-- `array_insert` after the reallocation. -/
def insertIntoM (a : CArray α) (idx : ℕ) (elm : α) : Logged Access (CArray α) := do
  let b ← shiftLoop (a.size - idx) idx a.slots
  let b ← store b idx (some elm)
  pure { a with vector := some b, size := a.size + 1 }

/-- The array and what the call returns. -/
def arrayInsertM (a : CArray α) (idx : ℕ) (elm : α) : Logged Access (Option (CArray α × ℤ)) :=
  if idx > a.size then pure (some (a, -1))
  else do
    match ← makeRoomM a with
    | none => pure none
    | some a => do
        let a ← insertIntoM a idx elm
        pure (some (a, 0))

def arrayPutM (a : CArray α) (idx : ℕ) (elm : α) : Logged Access (CArray α × ℤ) :=
  if ¬idx < a.size then pure (a, -1)
  else do
    let b ← store a.slots idx (some elm)
    pure ({ a with vector := some b }, 0)

def arrayGetM [Inhabited α] (a : CArray α) (idx : ℕ) : Logged Access (Option α) :=
  if idx ≥ a.size then pure (some default) else load a.slots idx

/-- The loop of `array_del`, from the index `idx` on, with `n` slots to go. -/
def closeLoop : ℕ → ℕ → Cells α → Logged Access (Cells α)
  | 0, _, b => pure b
  | n + 1, idx, b => do
      let b ← moveSlot b idx b (idx + 1)
      closeLoop n (idx + 1) b

/-- The array and the element that is taken out. -/
def arrayDelM [Inhabited α] (a : CArray α) (idx : ℕ) : Logged Access (CArray α × Option α) :=
  if idx ≥ a.size then pure (a, some default)
  else do
    let elm ← load a.slots idx
    let b ← closeLoop (a.size - 1 - idx) idx a.slots
    pure ({ a with vector := some b, size := a.size - 1 }, elm)

/-- `array_destory` frees the vector and accesses none of its slots. -/
def arrayDestory (_ : CArray α) : CArray α := ⟨none, 0, 0⟩

/-- The calls of `ArraySequence.lean`; an element that they return may be unknown. -/
def opStepM [Inhabited α] (a : CArray α) :
    Op α → Logged Access (Option (CArray α × Out (Option α)))
  | .insert idx elm => do
      let r ← arrayInsertM a idx elm
      pure (r.map fun (a, r) => (a, .int r))
  | .put idx elm => do
      let (a, r) ← arrayPutM a idx elm
      pure (some (a, .int r))
  | .del idx => do
      let (a, elm) ← arrayDelM a idx
      pure (some (a, .ptr elm))
  | .get idx => do
      let elm ← arrayGetM a idx
      pure (some (a, .ptr elm))

/-- A call on an array, `array_destory` included. -/
inductive Call (α : Type) where
  | op (op : Op α)
  | destory
deriving DecidableEq, Repr

/-- The array after a call. -/
def callM [Inhabited α] (a : CArray α) : Call α → Logged Access (Option (CArray α))
  | .op op => do
      let r ← opStepM a op
      pure (r.map Prod.fst)
  | .destory => pure (some a.arrayDestory)

/-- The capacity does not overflow when the call doubles it. -/
def Call.Fits (a : CArray α) : Call α → Prop
  | .op (.insert idx _) => idx ≤ a.size → a.capcity ≤ a.size → 2 * a.capcity < 2 ^ 64
  | _ => True

instance (a : CArray α) (c : Call α) : Decidable (c.Fits a) :=
  match c with
  | .op (.insert idx _) =>
      inferInstanceAs (Decidable (idx ≤ a.size → a.capcity ≤ a.size → 2 * a.capcity < 2 ^ 64))
  | .op (.put _ _) | .op (.del _) | .op (.get _) | .destory => isTrue trivial

/-- Calls on an array from `array_init` on. -/
def calls (α : Type) [Inhabited α] : TS (CArray α) (Call α) where
  init a := a = arrayInit
  step a c := (callM a c).val

/-! ### The same functions -/

section val
variable {a a' : CArray α} {b b' ta : Cells α}

theorem cellWrite_eq {i : ℕ} {x : α} (h : cellWrite b i x = some b') :
    b' = b.set i (some x) := by
  unfold cellWrite at h
  obtain ⟨-, h⟩ := Option.ite_none_right_eq_some.mp h
  exact (Option.some.inj h).symm

/-- As long as the index does not overflow, the loop copies cell by cell. -/
theorem copyLoop_val {size : ℕ} (hsize : size < 2 ^ 31) : ∀ (n i : ℕ) {b : Cells α}, i + n = size →
    copyCells ta n i b = some b' → (copyLoop ta size (n + 1) i b).val = some b'
  | 0, i, b, hi, h => by
      rw [copyLoop, toUInt64_natCast (by omega), if_neg (by omega)]
      exact h
  | n + 1, i, b, hi, h => by
      rw [copyCells] at h
      cases hx : cellRead ta i with
      | none => simp [hx] at h
      | some x =>
          simp only [hx] at h
          obtain ⟨b₁, hw, h⟩ := Option.bind_eq_some_iff.mp h
          have hnext : toInt32 ((i : ℤ) + 1) = ((i + 1 : ℕ) : ℤ) := by
            rw [← Nat.cast_add_one, toInt32_natCast (by omega)]
          have hrec := copyLoop_val hsize n (i + 1) (by omega) h
          rw [copyLoop, toUInt64_natCast (by omega), if_pos (by omega), hnext]
          rw [cellWrite_eq hw, ← hx] at hrec
          exact hrec

theorem shiftLoop_val : ∀ (n loc : ℕ) {b : Cells α}, shiftCells n loc b = some b' →
    (shiftLoop n loc b).val = b'
  | 0, loc, b, h => Option.some.inj h
  | n + 1, loc, b, h => by
      rw [shiftCells] at h
      cases hx : cellRead b loc with
      | none => simp [hx] at h
      | some x =>
          simp only [hx] at h
          obtain ⟨b₁, hw, h⟩ := Option.bind_eq_some_iff.mp h
          have hrec := shiftLoop_val n (loc + 1) h
          rw [cellWrite_eq hw, ← hx] at hrec
          exact hrec

theorem closeLoop_val : ∀ (n idx : ℕ) {b : Cells α}, closeCells n idx b = some b' →
    (closeLoop n idx b).val = b'
  | 0, idx, b, h => Option.some.inj h
  | n + 1, idx, b, h => by
      rw [closeCells] at h
      cases hx : cellRead b (idx + 1) with
      | none => simp [hx] at h
      | some x =>
          simp only [hx] at h
          obtain ⟨b₁, hw, h⟩ := Option.bind_eq_some_iff.mp h
          have hrec := closeLoop_val n (idx + 1) h
          rw [cellWrite_eq hw, ← hx] at hrec
          exact hrec

theorem mallocCells_eq {c : ℕ} (hc : 8 * c < 2 ^ 64) :
    (mallocCells c : Cells α) = List.replicate c none := by
  have hfit := toUInt64_natCast hc
  rw [Nat.cast_mul, Nat.cast_ofNat] at hfit
  rw [mallocCells, slotsOf, hfit, Nat.mul_div_cancel_left c (by decide)]

theorem reallocArrayM_val (hsize : a.size < 2 ^ 31) (hcap : 16 * a.capcity < 2 ^ 64)
    (h : a.reallocArray = some a') : (reallocArrayM a).val = some a' := by
  unfold reallocArray at h
  unfold reallocArrayM
  cases hv : a.vector with
  | none =>
      simp only [hv] at h
      have hc : 8 * (if a.capcity = 0 then minArrayCapcity else a.capcity) < 2 ^ 64 := by
        unfold minArrayCapcity
        split_ifs <;> omega
      rw [pure_val, mallocCells_eq hc]
      exact h
  | some ta =>
      simp only [hv] at h
      obtain ⟨b, hb, rfl⟩ := Option.map_eq_some_iff.mp h
      have hc : toUInt64 (2 * a.capcity) = 2 * a.capcity := by
        have hfit := toUInt64_natCast (n := 2 * a.capcity) (by omega)
        rwa [Nat.cast_mul, Nat.cast_ofNat] at hfit
      have hcopy := copyLoop_val hsize a.size 0 (Nat.zero_add _) hb
      simp only [bind_val, pure_val, hc]
      rw [mallocCells_eq (by omega)]
      exact congrArg (Option.map _) hcopy

theorem makeRoomM_val (hsize : a.size < 2 ^ 31) (hcap : 16 * a.capcity < 2 ^ 64)
    (h : (if a.vector.isNone ∨ a.capcity ≤ a.size then a.reallocArray else some a) = some a') :
    (makeRoomM a).val = some a' := by
  unfold makeRoomM
  split_ifs at h ⊢
  · exact reallocArrayM_val hsize hcap h
  · exact h

theorem arrayInsertM_val {idx : ℕ} {x : α} {r : CArray α × ℤ} (hsize : a.size < 2 ^ 31)
    (hcap : 16 * a.capcity < 2 ^ 64) (h : a.arrayInsert idx x = some r) :
    (arrayInsertM a idx x).val = some r := by
  unfold arrayInsert at h
  unfold arrayInsertM
  by_cases hidx : idx > a.size
  · rw [if_pos hidx] at h ⊢
    exact h
  · rw [if_neg hidx] at h ⊢
    split at h
    · cases h
    · next a₁ hroom =>
      split at h
      · cases h
      · next b hb =>
        obtain ⟨b₁, hb₁, rfl⟩ := Option.map_eq_some_iff.mp h
        obtain ⟨b₀, hshift, hwrite⟩ := Option.bind_eq_some_iff.mp hb₁
        rw [bind_val, makeRoomM_val hsize hcap hroom]
        simp only [insertIntoM, slots, hb, Option.getD_some, bind_val, pure_val, store,
          shiftLoop_val _ _ hshift, cellWrite_eq hwrite]

theorem arrayPutM_val {idx : ℕ} {x : α} {r : CArray α × ℤ} (h : a.arrayPut idx x = some r) :
    (arrayPutM a idx x).val = r := by
  unfold arrayPut at h
  unfold arrayPutM
  split_ifs at h ⊢
  · split at h
    · cases h
    · next b hb =>
      obtain ⟨b', hwrite, rfl⟩ := Option.map_eq_some_iff.mp h
      simp [slots, hb, store, cellWrite_eq hwrite]
  · exact Option.some.inj h

section out
variable [Inhabited α]

theorem arrayGetM_val {idx : ℕ} {x : α} (h : a.arrayGet idx = some x) :
    (arrayGetM a idx).val = some x := by
  unfold arrayGet at h
  unfold arrayGetM
  split_ifs at h ⊢
  · exact h
  · obtain ⟨b, hb, hx⟩ := Option.bind_eq_some_iff.mp h
    simp [load, slots, hb, hx]

theorem arrayDelM_val {idx : ℕ} {x : α} (h : a.arrayDel idx = some (a', x)) :
    (arrayDelM a idx).val = (a', some x) := by
  unfold arrayDel at h
  unfold arrayDelM
  split_ifs at h ⊢
  · obtain ⟨rfl, rfl⟩ := Prod.mk.inj (Option.some.inj h)
    rfl
  · split at h
    · cases h
    · next b hb =>
      split at h
      · cases h
      · next elm helm =>
        obtain ⟨b', hclose, heq⟩ := Option.map_eq_some_iff.mp h
        obtain ⟨rfl, rfl⟩ := Prod.mk.inj heq
        simp [load, slots, hb, helm, closeLoop_val _ _ hclose]

/-- What a call returns, with a known element. -/
def Out.known : Out α → Out (Option α)
  | int r => int r
  | ptr elm => ptr (some elm)

/-- Where the calls of `ArraySequence.lean` are defined, and neither the index of `realloc_array` nor the
size of the vector in bytes overflows, the ones with the log compute the same. -/
theorem opStepM_val {op : Op α} {r : Out α} (hsize : a.size < 2 ^ 31) (hcap : 16 * a.capcity < 2 ^ 64)
    (h : opStep a op = some (a', r)) : (opStepM a op).val = some (a', r.known) := by
  cases op with
  | insert idx elm =>
      obtain ⟨⟨a₁, r₁⟩, hins, heq⟩ := Option.map_eq_some_iff.mp h
      obtain ⟨rfl, rfl⟩ := Prod.mk.inj heq
      rw [opStepM, bind_val, arrayInsertM_val hsize hcap hins]
      rfl
  | put idx elm =>
      obtain ⟨⟨a₁, r₁⟩, hput, heq⟩ := Option.map_eq_some_iff.mp h
      obtain ⟨rfl, rfl⟩ := Prod.mk.inj heq
      rw [opStepM, bind_val, arrayPutM_val hput]
      rfl
  | del idx =>
      obtain ⟨⟨a₁, elm⟩, hdel, heq⟩ := Option.map_eq_some_iff.mp h
      obtain ⟨rfl, rfl⟩ := Prod.mk.inj heq
      rw [opStepM, bind_val, arrayDelM_val hdel]
      rfl
  | get idx =>
      obtain ⟨elm, hget, heq⟩ := Option.map_eq_some_iff.mp h
      obtain ⟨rfl, rfl⟩ := Prod.mk.inj heq
      rw [opStepM, bind_val, arrayGetM_val hget]
      rfl

end out

end val

/-! ### The accesses -/

/-- The fields of the array fit together. -/
structure Sized (a : CArray α) : Prop where
  size_le : a.size ≤ a.capcity
  null_iff : a.vector = none ↔ a.capcity = 0
  length : ∀ b, a.vector = some b → b.length = slotsOf a.capcity

/-- A slot is read only below `size`, and written only below `capcity`.  Both are slots of the vector, as
long as the number of its bytes does not overflow. -/
def Access.Safe (size capcity : ℕ) : Access → Prop
  | .read i slots => i < size ∧ (8 * capcity < 2 ^ 64 → i < slots)
  | .write i slots => i < capcity ∧ (8 * capcity < 2 ^ 64 → slots = capcity)

theorem slotsOf_eq {c : ℕ} (hc : 8 * c < 2 ^ 64) : slotsOf c = c := by
  unfold slotsOf toUInt64
  omega

section accesses
variable {a : CArray α} {b ta : Cells α} {size c i : ℕ}

theorem every_load (hi : i < size) (hb : 8 * c < 2 ^ 64 → i < b.length) :
    Every (Access.Safe size c) (load b i) :=
  every_bind (every_tell ⟨hi, hb⟩) (every_pure _)

theorem every_store {x : Option α} (hi : i < c) (hb : 8 * c < 2 ^ 64 → b.length = c) :
    Every (Access.Safe size c) (store b i x) :=
  every_bind (every_tell ⟨hi, hb⟩) (every_pure _)

theorem every_moveSlot {j : ℕ} (hj : j < c) (hb : 8 * c < 2 ^ 64 → b.length = c) (hi : i < size)
    (hta : 8 * c < 2 ^ 64 → i < ta.length) : Every (Access.Safe size c) (moveSlot b j ta i) :=
  every_bind (every_load hi hta) (every_store hj hb)

theorem length_moveSlot (b : Cells α) (j : ℕ) (ta : Cells α) (i : ℕ) :
    (moveSlot b j ta i).val.length = b.length := List.length_set

theorem toUInt64_toInt32_overflow : toUInt64 (toInt32 (2 ^ 31)) = 2 ^ 64 - 2 ^ 31 := by decide

/-- The loop of `realloc_array` ends: after `2 ^ 31` slots its index is negative, which is no index below
`size`. -/
theorem copyLoop_spec (hsize : size < 2 ^ 63) (hc : size ≤ c)
    (hta : 8 * c < 2 ^ 64 → size ≤ ta.length) (n i : ℕ) (b : Cells α) (hi : i < 2 ^ 31)
    (hn : size ≤ i + n) (hb : 8 * c < 2 ^ 64 → b.length = c) :
    Every (Access.Safe size c) (copyLoop ta size (n + 1) i b) ∧
      ∃ b', (copyLoop ta size (n + 1) i b).val = some b' ∧ b'.length = b.length := by
  induction n generalizing i b with
  | zero =>
      rw [copyLoop, toUInt64_natCast (by omega), if_neg (by omega)]
      exact ⟨every_pure _, b, rfl, rfl⟩
  | succ n ih =>
      rw [copyLoop, toUInt64_natCast (by omega)]
      by_cases hlt : i < size
      · have hlen := length_moveSlot b i ta i
        have hmove : Every (Access.Safe size c) (moveSlot b i ta i) :=
          every_moveSlot (hlt.trans_le hc) hb hlt fun h => hlt.trans_le (hta h)
        rw [if_pos hlt, bind_val, ← hlen]
        -- the rest of the loop, from the index after the increment on
        refine And.imp_left (every_bind hmove) ?_
        by_cases hmax : i + 1 < 2 ^ 31
        · have hnext : toInt32 ((i : ℤ) + 1) = ((i + 1 : ℕ) : ℤ) := by
            rw [← Nat.cast_add_one, toInt32_natCast hmax]
          rw [hnext]
          exact ih (i + 1) _ hmax (by omega) fun h => hlen.trans (hb h)
        · have hlast : (i : ℤ) + 1 = 2 ^ 31 := by omega
          have hend : ¬toUInt64 (toInt32 ((i : ℤ) + 1)) < size := by
            rw [hlast, toUInt64_toInt32_overflow]
            omega
          rw [copyLoop, if_neg hend]
          exact ⟨every_pure _, _, rfl, rfl⟩
      · rw [if_neg hlt]
        exact ⟨every_pure _, b, rfl, rfl⟩

theorem shiftLoop_spec (hc : size < c) : ∀ (n loc : ℕ) (b : Cells α), loc + n ≤ size →
    (8 * c < 2 ^ 64 → b.length = c) →
      Every (Access.Safe size c) (shiftLoop n loc b) ∧ (shiftLoop n loc b).val.length = b.length
  | 0, _, b, _, _ => ⟨every_pure b, rfl⟩
  | n + 1, loc, b, hn, hb => by
      have hlen := length_moveSlot b (loc + 1) b loc
      obtain ⟨hrest, hlen'⟩ := shiftLoop_spec hc n (loc + 1) (moveSlot b (loc + 1) b loc).val (by omega)
        fun h => hlen.trans (hb h)
      refine ⟨every_bind (every_moveSlot (by omega) hb (by omega) fun h => ?_) hrest, hlen'.trans hlen⟩
      rw [hb h]
      omega

theorem closeLoop_spec (hc : size ≤ c) : ∀ (n idx : ℕ) (b : Cells α), idx + n < size →
    (8 * c < 2 ^ 64 → b.length = c) →
      Every (Access.Safe size c) (closeLoop n idx b) ∧ (closeLoop n idx b).val.length = b.length
  | 0, _, b, _, _ => ⟨every_pure b, rfl⟩
  | n + 1, idx, b, hn, hb => by
      have hlen := length_moveSlot b idx b (idx + 1)
      obtain ⟨hrest, hlen'⟩ := closeLoop_spec hc n (idx + 1) (moveSlot b idx b (idx + 1)).val (by omega)
        fun h => hlen.trans (hb h)
      refine ⟨every_bind (every_moveSlot (by omega) hb (by omega) fun h => ?_) hrest, hlen'.trans hlen⟩
      rw [hb h]
      omega

/-! ### The calls -/

theorem sized_init : Sized (arrayInit : CArray α) := ⟨le_rfl, iff_of_true rfl rfl, nofun⟩

theorem Sized.length_slots (hs : Sized a) : a.slots.length = slotsOf a.capcity := by
  unfold CArray.slots
  cases hv : a.vector with
  | none =>
      rw [hs.null_iff.mp hv]
      rfl
  | some b => exact hs.length b hv

theorem Sized.length_eq (hs : Sized a) (hc : 8 * a.capcity < 2 ^ 64) : a.slots.length = a.capcity := by
  rw [hs.length_slots, slotsOf_eq hc]

/-- After a change of the slots. -/
theorem Sized.withSlots {n : ℕ} (hb : b.length = slotsOf c) (hc : 0 < c) (hn : n ≤ c) :
    Sized ⟨some b, n, c⟩ := by
  refine ⟨hn, iff_of_false nofun hc.ne', fun b' hb' => ?_⟩
  rw [← Option.some.inj hb', hb]

theorem reallocArrayM_spec (hs : Sized a) (hfull : a.capcity ≤ a.size)
    (hfit : 2 * a.capcity < 2 ^ 64) : ∃ a', (reallocArrayM a).val = some a' ∧ Sized a' ∧
      a'.size = a.size ∧ a'.size < a'.capcity ∧
      Every (Access.Safe a.size a'.capcity) (reallocArrayM a) := by
  have hle := hs.size_le
  unfold reallocArrayM
  cases hv : a.vector with
  | none =>
      have hc := hs.null_iff.mp hv
      refine ⟨⟨some (mallocCells minArrayCapcity), 0, minArrayCapcity⟩, ?_, ?_, ?_, ?_, every_pure _⟩
      · simp [hc]
      · exact .withSlots List.length_replicate (by decide) (Nat.zero_le _)
      · dsimp only
        omega
      · show 0 < minArrayCapcity
        decide
  | some ta =>
      have hpos : a.capcity ≠ 0 := fun hc => by cases hv.symm.trans (hs.null_iff.mpr hc)
      have hcap : toUInt64 (2 * a.capcity) = 2 * a.capcity := by
        unfold toUInt64
        omega
      have hta : 8 * (2 * a.capcity) < 2 ^ 64 → a.size ≤ ta.length := by
        intro h
        rw [hs.length ta hv, slotsOf_eq (by omega)]
        exact hle
      have hmalloc : (mallocCells (2 * a.capcity) : Cells α).length = slotsOf (2 * a.capcity) :=
        List.length_replicate
      obtain ⟨hevery, b, hval, hlen⟩ := copyLoop_spec (by omega) (by omega) hta a.size 0
        (mallocCells (2 * a.capcity)) (by decide) (Nat.le_add_left _ _)
        fun h => hmalloc.trans (slotsOf_eq h)
      refine ⟨⟨some b, a.size, 2 * a.capcity⟩, ?_, ?_, rfl, ?_, ?_⟩
      · simp only [bind_val, pure_val, hcap]
        exact congrArg (Option.map _) hval
      · exact .withSlots (hlen.trans hmalloc) (by omega) (by omega)
      · dsimp only
        omega
      · dsimp only
        rw [hcap]
        exact every_bind hevery (every_pure _)

theorem makeRoomM_spec (hs : Sized a) (hfit : a.capcity ≤ a.size → 2 * a.capcity < 2 ^ 64) :
    ∃ a', (makeRoomM a).val = some a' ∧ Sized a' ∧ a'.size = a.size ∧ a'.size < a'.capcity ∧
      Every (Access.Safe a.size a'.capcity) (makeRoomM a) := by
  unfold makeRoomM
  split_ifs with h
  · have hfull : a.capcity ≤ a.size := by
      rcases h with h | h
      · have hc := hs.null_iff.mp (Option.isNone_iff_eq_none.mp h)
        omega
      · exact h
    exact reallocArrayM_spec hs hfull (hfit hfull)
  · exact ⟨a, rfl, hs, rfl, not_le.mp fun hc => h (.inr hc), every_pure _⟩

theorem insertIntoM_spec {idx : ℕ} {x : α} (hs : Sized a) (hlt : a.size < a.capcity)
    (hidx : idx ≤ a.size) : Sized (insertIntoM a idx x).val ∧
      (insertIntoM a idx x).val.capcity = a.capcity ∧
      Every (Access.Safe a.size a.capcity) (insertIntoM a idx x) := by
  obtain ⟨hshift, hlen⟩ := shiftLoop_spec hlt (a.size - idx) idx a.slots (by omega) hs.length_eq
  have hlen' := hlen.trans hs.length_slots
  refine ⟨.withSlots (List.length_set.trans hlen') (by omega) (by omega), rfl, ?_⟩
  exact every_bind hshift (every_bind (every_store (by omega) fun h => hlen.trans (hs.length_eq h))
    (every_pure _))

theorem arrayInsertM_spec {idx : ℕ} {x : α} (hs : Sized a)
    (hfit : idx ≤ a.size → a.capcity ≤ a.size → 2 * a.capcity < 2 ^ 64) :
    ∃ a' r, (arrayInsertM a idx x).val = some (a', r) ∧ Sized a' ∧
      Every (Access.Safe a.size a'.capcity) (arrayInsertM a idx x) := by
  unfold arrayInsertM
  by_cases hidx : idx > a.size
  · rw [if_pos hidx]
    exact ⟨a, -1, rfl, hs, every_pure _⟩
  · obtain ⟨a₁, hroom, hs₁, hsize, hlt, hevery⟩ := makeRoomM_spec hs (hfit (not_lt.mp hidx))
    have hidx₁ : idx ≤ a₁.size := by omega
    obtain ⟨hs', hcap, hinsert⟩ := insertIntoM_spec (x := x) hs₁ hlt hidx₁
    rw [hsize] at hinsert
    rw [if_neg hidx]
    refine ⟨(insertIntoM a₁ idx x).val, 0, ?_, hs', ?_⟩
    · rw [bind_val, hroom]
      rfl
    · rw [hcap]
      refine every_bind hevery ?_
      rw [hroom]
      exact every_bind hinsert (every_pure _)

theorem arrayPutM_spec (hs : Sized a) (idx : ℕ) (x : α) : Sized (arrayPutM a idx x).val.1 ∧
    Every (Access.Safe a.size (arrayPutM a idx x).val.1.capcity) (arrayPutM a idx x) := by
  have hle := hs.size_le
  unfold arrayPutM
  by_cases hidx : idx < a.size
  · rw [if_neg (not_not.mpr hidx)]
    refine ⟨.withSlots (List.length_set.trans hs.length_slots) (by omega) hle, ?_⟩
    exact every_bind (every_store (hidx.trans_le hle) hs.length_eq) (every_pure _)
  · rw [if_pos hidx]
    exact ⟨hs, every_pure _⟩

section out
variable [Inhabited α]

theorem arrayGetM_spec (hs : Sized a) (idx : ℕ) :
    Every (Access.Safe a.size a.capcity) (arrayGetM a idx) := by
  have hle := hs.size_le
  unfold arrayGetM
  split_ifs with hidx
  · exact every_pure _
  · refine every_load (not_le.mp hidx) fun h => ?_
    rw [hs.length_eq h]
    omega

theorem arrayDelM_spec (hs : Sized a) (idx : ℕ) : Sized (arrayDelM a idx).val.1 ∧
    Every (Access.Safe a.size (arrayDelM a idx).val.1.capcity) (arrayDelM a idx) := by
  have hle := hs.size_le
  unfold arrayDelM
  by_cases hidx : idx ≥ a.size
  · rw [if_pos hidx]
    exact ⟨hs, every_pure _⟩
  · obtain ⟨hclose, hlen⟩ := closeLoop_spec hle (a.size - 1 - idx) idx a.slots (by omega) hs.length_eq
    rw [if_neg hidx]
    refine ⟨.withSlots (hlen.trans hs.length_slots) (by omega) (by omega), ?_⟩
    refine every_bind (every_load (not_le.mp hidx) fun h => ?_) (every_bind hclose (every_pure _))
    rw [hs.length_eq h]
    omega

/-- Every call accesses the right slots, and leaves an array whose fields fit together. -/
theorem callM_spec {call : Call α} (hs : Sized a) (hfit : call.Fits a) :
    ∃ a', (callM a call).val = some a' ∧ Sized a' ∧
      Every (Access.Safe a.size a'.capcity) (callM a call) := by
  cases call with
  | destory => exact ⟨_, rfl, sized_init, every_pure _⟩
  | op op =>
      cases op with
      | insert idx elm =>
          obtain ⟨a', r, hval, hs', hevery⟩ := arrayInsertM_spec (x := elm) hs hfit
          refine ⟨a', ?_, hs', every_bind (every_bind hevery (every_pure _)) (every_pure _)⟩
          simp only [callM, opStepM, bind_val, pure_val, hval]
          rfl
      | put idx elm =>
          obtain ⟨hs', hevery⟩ := arrayPutM_spec hs idx elm
          exact ⟨_, rfl, hs', every_bind (every_bind hevery (every_pure _)) (every_pure _)⟩
      | del idx =>
          obtain ⟨hs', hevery⟩ := arrayDelM_spec hs idx
          exact ⟨_, rfl, hs', every_bind (every_bind hevery (every_pure _)) (every_pure _)⟩
      | get idx =>
          exact ⟨a, rfl, hs, every_bind (every_bind (arrayGetM_spec hs idx) (every_pure _)) (every_pure _)⟩

/-- **The array functions stay in the vector.**  In every run in which the capacity does not overflow,
`size` is at most `capcity`, and `vector` is `NULL` exactly if `capcity` is 0.  The next call returns; it
reads slots below the `size` it starts with only, and writes slots below the `capcity` of the vector it
leaves.  The vector has `capcity` slots, unless the number of its bytes overflows. -/
theorem array_index_safety (hr : (calls α).ReachVia (fun a call => call.Fits a) a) :
    a.size ≤ a.capcity ∧ (a.vector = none ↔ a.capcity = 0) ∧
      (8 * a.capcity < 2 ^ 64 → a.slots.length = a.capcity) ∧
      ∀ call : Call α, call.Fits a → ∃ a', (callM a call).val = some a' ∧
        Every (Access.Safe a.size a'.capcity) (callM a call) := by
  have hs : Sized a := by
    refine hr.invariant (I := Sized) ?_ ?_
    · rintro a rfl
      exact sized_init
    · intro a call a' hs hfit hstep
      obtain ⟨a₁, hval, hs₁, -⟩ := callM_spec hs hfit
      obtain rfl := Option.some.inj (hval.symm.trans hstep)
      exact hs₁
  refine ⟨hs.size_le, hs.null_iff, hs.length_eq, fun call hfit => ?_⟩
  obtain ⟨a', hval, -, hevery⟩ := callM_spec hs hfit
  exact ⟨a', hval, hevery⟩

end out

end accesses

/-- Two elements after an `array_destory`: an insertion before them reads both and writes three slots. -/
theorem array_index_safety_after_destory : ∃ a a' : CArray ℕ,
    (callM a (.op (.insert 0 8))).val = some a' ∧ a'.capcity = 256 ∧
    (callM a (.op (.insert 0 8))).log =
      [.read 0 256, .write 1 256, .read 1 256, .write 2 256, .write 0 256] ∧
    Every (Access.Safe 2 a'.capcity) (callM a (.op (.insert 0 8))) := by
  obtain ⟨a, hr, ha⟩ := TS.ReachVia.exists_of_run (M := calls ℕ) (fun a call => call.Fits a)
    [.op (.insert 0 5), .op (.get 0), .destory, .op (.insert 0 6), .op (.insert 1 7), .op (.del 5)]
    (fun a => decide (a.size = 2 ∧ Call.Fits a (.op (.insert 0 8)) ∧
      (callM a (.op (.insert 0 8))).val.map CArray.capcity = some 256 ∧
      (callM a (.op (.insert 0 8))).log =
        [.read 0 256, .write 1 256, .read 1 256, .write 2 256, .write 0 256]))
    (s := arrayInit) rfl (by decide +kernel) (by decide +kernel)
  obtain ⟨hsize, hfit, hcap, hlog⟩ := of_decide_eq_true ha
  obtain ⟨a', hval, hevery⟩ := (array_index_safety hr).2.2.2 _ hfit
  rw [hval] at hcap
  rw [hsize] at hevery
  exact ⟨a, a', hval, Option.some.inj hcap, hlog, hevery⟩

end Libcask.CArray
