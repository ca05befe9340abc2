import Mathlib.Data.Nat.Log
import Libcask.CInt
import Libcask.Transition

/-! # The bit map of `bit_map.c`

A map of `size` bytes holds one bit for each number below `8 * size`.  A byte is a signed `char`: the
macros widen it to an `int`, with the sign, and narrow the result to a `char` again.

* **A finite set.** `contents` is the set of the numbers whose bit is set; `bit_map_set`,
  `bit_map_unset` and `bit_map_clear` are `insert`, `erase` and `∅` on it (`contents_bitMapSet`,
  `contents_bitMapUnset`, `contents_bitMapClear`), and `finite_set` is about whole histories.
* **The size.** `bit_map_init` counts how often `8` can be doubled below `max_num` where it should count
  the bytes.  `sized_for_iff` says which numbers a map accepts. -/

namespace Libcask

/-! ### Bytes -/

/-- A `char` as an `int`. -/
def promote (c : BitVec 8) : BitVec 32 := c.signExtend 32

def setBit (c : BitVec 8) (n : ℕ) : BitVec 8 := (promote c ||| 1#32 <<< n).setWidth 8

def unsetBit (c : BitVec 8) (n : ℕ) : BitVec 8 := (promote c &&& ~~~(1#32 <<< n)).setWidth 8

def getBit (c : BitVec 8) (n : ℕ) : BitVec 32 := promote c &&& 1#32 <<< n

theorem getLsbD_promote (c : BitVec 8) {i : ℕ} (hi : i < 8) :
    (promote c).getLsbD i = c.getLsbD i := by
  rw [promote, BitVec.getLsbD_signExtend]
  simp [hi, show i < 32 by omega]

/-- The mask has one bit. -/
theorem getLsbD_mask {n i : ℕ} (hi : i < 32) : (1#32 <<< n).getLsbD i = decide (i = n) := by
  rw [BitVec.getLsbD_shiftLeft]
  simp only [hi, decide_true, Bool.true_and, BitVec.getLsbD_one]
  by_cases h : i < n
  · simp [h, show ¬i = n by omega]
  · simp only [h, decide_false, Bool.not_false, Bool.true_and]
    simp
    omega

theorem getLsbD_setBit (c : BitVec 8) (n : ℕ) {i : ℕ} (hi : i < 8) :
    (setBit c n).getLsbD i = (c.getLsbD i || decide (i = n)) := by
  rw [setBit, BitVec.getLsbD_setWidth, BitVec.getLsbD_or, getLsbD_promote c hi,
    getLsbD_mask (by omega)]
  simp [hi]

theorem getLsbD_unsetBit (c : BitVec 8) (n : ℕ) {i : ℕ} (hi : i < 8) :
    (unsetBit c n).getLsbD i = (c.getLsbD i && !decide (i = n)) := by
  have h32 : i < 32 := by omega
  rw [unsetBit, BitVec.getLsbD_setWidth, BitVec.getLsbD_and, BitVec.getLsbD_not,
    getLsbD_promote c hi, getLsbD_mask h32]
  simp [hi, h32]

/-- The sign that `promote` copies is cut off by the mask, also at the bit of the sign itself. -/
theorem getBit_eq (c : BitVec 8) {n : ℕ} (hn : n < 8) :
    getBit c n = if c.getLsbD n then 1#32 <<< n else 0#32 := by
  apply BitVec.eq_of_getLsbD_eq
  intro i hi
  rw [getBit, BitVec.getLsbD_and, getLsbD_mask hi]
  by_cases h : i = n
  · subst h
    rw [getLsbD_promote c hn]
    cases c.getLsbD i <;> simp [getLsbD_mask hi]
  · simp only [h, decide_false, Bool.and_false]
    split
    · rw [getLsbD_mask hi]
      simp [h]
    · simp

theorem mask_toInt : ∀ {n : ℕ}, n < 8 → (1#32 <<< n).toInt = 2 ^ n := by decide

theorem getBit_toInt (c : BitVec 8) {n : ℕ} (hn : n < 8) :
    (getBit c n).toInt = if c.getLsbD n then 2 ^ n else 0 := by
  rw [getBit_eq c hn]
  split
  · exact mask_toInt hn
  · rfl

/-! ### The map -/

/-- `bit_map_t` after `bit_map_init`. -/
structure BitMap where
  size : ℕ
  map : List (BitVec 8)
  length_map : map.length = size
  isSize : size < 2 ^ 64
deriving DecidableEq, Repr

def bitMapBase : ℕ := 8

def getBitMapIndex (num : ℕ) : ℕ := num / bitMapBase

def getBitMapLoc (num : ℕ) : ℕ := num &&& (bitMapBase - 1)

namespace BitMap

/-- `BIT_MAP_BASE * map->size`, a `size_t`. -/
def bound (map : BitMap) : ℕ := toUInt64 (bitMapBase * map.size)

/-- The map with another byte at `idx`. -/
def put (map : BitMap) (idx : ℕ) (c : BitVec 8) : BitMap :=
  { map with map := map.map.set idx c, length_map := by rw [List.length_set, map.length_map] }

/-- All bits are zero. -/
def zeroed (size : ℕ) (h : size < 2 ^ 64) : BitMap := ⟨size, .replicate size 0, List.length_replicate, h⟩

end BitMap

/-- `bit_map_set` and `bit_map_unset`: one byte is replaced.  An access outside of the map is `none`. -/
def bitMapStore (change : BitVec 8 → ℕ → BitVec 8) (map : BitMap) (num : ℕ) : Option (BitMap × ℤ) :=
  if map.bound ≤ num then some (map, -1)
  else
    map.map[getBitMapIndex num]?.map fun c =>
      (map.put (getBitMapIndex num) (change c (getBitMapLoc num)), 0)

def bitMapSet : BitMap → ℕ → Option (BitMap × ℤ) := bitMapStore setBit

def bitMapUnset : BitMap → ℕ → Option (BitMap × ℤ) := bitMapStore unsetBit

def bitMapGet (map : BitMap) (num : ℕ) : Option ℤ :=
  if map.bound ≤ num then some (-1)
  else map.map[getBitMapIndex num]?.map fun c => (getBit c (getBitMapLoc num)).toInt

/-- The difference is a `size_t`, the result an `unsigned int`. -/
def bitMapGetMaxNum (map : BitMap) : ℕ := toUInt32 (toUInt64 (map.size * bitMapBase - 1))

def bitMapClear (map : BitMap) : BitMap := BitMap.zeroed map.size map.isSize

/-- The loop of `get_bit_map_size`; `base` is a `size_t`. -/
def sizeLoop (maxNum : ℕ) : ℕ → ℕ → ℕ → Option ℕ
  | 0, _, _ => none
  | passes + 1, base, count =>
      let base := toUInt64 (base * 2)
      if base < maxNum then sizeLoop maxNum passes base (count + 1) else some count

/-- The loop ends before `base` has left the range of an `unsigned int` (`getBitMapSize_eq`). -/
def getBitMapSize (maxNum : ℕ) : Option ℕ := sizeLoop maxNum 32 bitMapBase 0

def bitMapInit (maxNum : ℕ) : Option BitMap :=
  (getBitMapSize maxNum).map fun size => .zeroed (toUInt64 size) (toUInt64_lt size)

/-! ### The set of a map -/

theorem getBitMapLoc_eq (num : ℕ) : getBitMapLoc num = num % 8 :=
  Nat.and_two_pow_sub_one_eq_mod num 3

namespace BitMap

variable {map : BitMap} {num : ℕ}

/-- The bit of a number. -/
def bit (map : BitMap) (num : ℕ) : Bool := map.map[num / 8]?.any fun c => c.getLsbD (num % 8)

/-- The numbers whose bit is set. -/
def contents (map : BitMap) : Finset ℕ := (Finset.range map.bound).filter fun num => map.bit num

theorem mem_contents : num ∈ map.contents ↔ num < map.bound ∧ map.bit num = true := by
  simp [contents]

theorem bound_le (map : BitMap) : map.bound ≤ 8 * map.size := by
  unfold bound toUInt64 bitMapBase
  omega

/-- The product wraps around for no map that fits into the memory. -/
theorem bound_eq (h : map.size < 2 ^ 61) : map.bound = 8 * map.size := by
  unfold bound toUInt64 bitMapBase
  omega

/-- A number below the bound has a byte. -/
theorem exists_byte (h : num < map.bound) : ∃ c, map.map[num / 8]? = some c := by
  have hle := map.bound_le
  have hlt : num / 8 < map.map.length := by
    rw [map.length_map]
    omega
  exact ⟨_, List.getElem?_eq_getElem hlt⟩

theorem bit_put {idx : ℕ} {c : BitVec 8} (hidx : idx < map.map.length) (n : ℕ) :
    (map.put idx c).bit n = if n / 8 = idx then c.getLsbD (n % 8) else map.bit n := by
  unfold bit put
  dsimp only
  by_cases h : n / 8 = idx
  · rw [if_pos h, h, List.getElem?_set_self hidx]
    rfl
  · rw [if_neg h, List.getElem?_set_ne (Ne.symm h)]

theorem contents_zeroed (size : ℕ) (h : size < 2 ^ 64) : (zeroed size h).contents = ∅ := by
  apply Finset.eq_empty_of_forall_notMem
  intro n hn
  have hbit := (mem_contents.mp hn).2
  obtain ⟨c, hc, hset⟩ := (Option.any_eq_true _ _).mp hbit
  obtain rfl : 0 = c := List.eq_of_mem_replicate (List.mem_of_getElem? hc) |>.symm
  simp at hset

end BitMap

section operations
variable {map : BitMap} {num : ℕ}

/-- Outside of the map nothing happens. -/
theorem bitMapStore_outside (change : BitVec 8 → ℕ → BitVec 8) (h : map.bound ≤ num) :
    bitMapStore change map num = some (map, -1) := if_pos h

theorem bitMapGet_outside (h : map.bound ≤ num) : bitMapGet map num = some (-1) := if_pos h

/-- Two numbers with the same byte and the same place in it are equal. -/
theorem eq_of_index_loc {n : ℕ} (hi : n / 8 = num / 8) (hl : n % 8 = num % 8) : n = num := by omega

/-- A change of one bit changes the membership of one number. -/
theorem bitMapStore_inside {change : BitVec 8 → ℕ → BitVec 8} {f : Bool → Bool → Bool}
    (hchange : ∀ c n i, i < 8 → (change c n).getLsbD i = f (c.getLsbD i) (decide (i = n)))
    (hf : ∀ b, f b false = b) (h : num < map.bound) :
    ∃ map', bitMapStore change map num = some (map', 0) ∧ map'.size = map.size ∧
      ∀ n, map'.bit n = f (map.bit n) (decide (n = num)) := by
  obtain ⟨c, hc⟩ := BitMap.exists_byte h
  have hlt : num / 8 < map.map.length := (List.getElem?_eq_some_iff.mp hc).1
  refine ⟨map.put (num / 8) (change c (getBitMapLoc num)), ?_, rfl, fun n => ?_⟩
  · rw [bitMapStore, if_neg (by omega), getBitMapIndex, bitMapBase, hc]
    rfl
  · rw [BitMap.bit_put hlt, getBitMapLoc_eq, hchange c _ _ (Nat.mod_lt n (by decide))]
    by_cases hi : n / 8 = num / 8
    · have hbit : map.bit n = c.getLsbD (n % 8) := by
        rw [BitMap.bit, hi, hc]
        rfl
      have hiff : n % 8 = num % 8 ↔ n = num := ⟨eq_of_index_loc hi, fun h => h ▸ rfl⟩
      rw [if_pos hi, hbit, decide_eq_decide.mpr hiff]
    · have hne : n ≠ num := fun h => hi (h ▸ rfl)
      rw [if_neg hi, decide_eq_false hne, hf]

/-- Maps of the same size have the same bound. -/
theorem BitMap.bound_congr {map map' : BitMap} (h : map'.size = map.size) : map'.bound = map.bound := by
  rw [bound, bound, h]

theorem contents_bitMapSet (h : num < map.bound) : ∃ map', bitMapSet map num = some (map', 0) ∧
    map'.size = map.size ∧ map'.contents = insert num map.contents := by
  obtain ⟨map', hset, hsize, hbit⟩ := bitMapStore_inside (f := fun b d => b || d)
    (fun c n i hi => getLsbD_setBit c n hi) (fun b => Bool.or_false b) h
  refine ⟨map', hset, hsize, ?_⟩
  ext n
  rw [Finset.mem_insert, BitMap.mem_contents, BitMap.mem_contents, BitMap.bound_congr hsize, hbit]
  by_cases hn : n = num
  · simp [hn, h]
  · simp [hn]

theorem contents_bitMapUnset (h : num < map.bound) : ∃ map', bitMapUnset map num = some (map', 0) ∧
    map'.size = map.size ∧ map'.contents = map.contents.erase num := by
  obtain ⟨map', hset, hsize, hbit⟩ := bitMapStore_inside (f := fun b d => b && !d)
    (fun c n i hi => getLsbD_unsetBit c n hi) (fun b => Bool.and_true b) h
  refine ⟨map', hset, hsize, ?_⟩
  ext n
  rw [Finset.mem_erase, BitMap.mem_contents, BitMap.mem_contents, BitMap.bound_congr hsize, hbit]
  by_cases hn : n = num
  · simp [hn]
  · simp [hn]

theorem contents_bitMapClear (map : BitMap) : (bitMapClear map).contents = ∅ :=
  BitMap.contents_zeroed map.size map.isSize

/-- `bit_map_get` gives a power of two for a member, also at the bit of the sign. -/
theorem bitMapGet_inside (h : num < map.bound) :
    bitMapGet map num = some (if num ∈ map.contents then 2 ^ (num % 8) else 0) := by
  obtain ⟨c, hc⟩ := BitMap.exists_byte h
  have hmem : num ∈ map.contents ↔ c.getLsbD (num % 8) = true := by
    rw [BitMap.mem_contents, and_iff_right h, BitMap.bit, hc]
    rfl
  rw [bitMapGet, if_neg (by omega), getBitMapIndex, bitMapBase, hc, getBitMapLoc_eq, Option.map_some,
    getBit_toInt c (Nat.mod_lt num (by decide))]
  simp only [hmem]

end operations

/-! ### Histories -/

namespace BitMap

/-- An operation on a map. -/
inductive Op where
  | set (num : ℕ) | unset (num : ℕ) | clear
deriving DecidableEq, Repr

/-- The map after an operation, and what the operation returns. -/
def opStep (map : BitMap) : Op → Option (BitMap × Option ℤ)
  | .set num => (bitMapSet map num).map fun (map, r) => (map, some r)
  | .unset num => (bitMapUnset map num).map fun (map, r) => (map, some r)
  | .clear => some (bitMapClear map, none)

/-- Operations on a map of any size and with any contents. -/
def system : TS BitMap Op where
  init _ := True
  step map op := (opStep map op).map Prod.fst

/-- The operation decides whether `n` is a member. -/
def Op.about (n : ℕ) : Op → Bool
  | .set num => num == n
  | .unset num => num == n
  | .clear => true

/-- The latest operation that decides about `n`. -/
def latest (n : ℕ) (ops : List Op) : Option Op := ops.reverse.find? (·.about n)

/-- The operations on sets of numbers below a bound. -/
def Op.onSet (bound : ℕ) (s : Finset ℕ) : Op → Finset ℕ
  | .set num => if num < bound then insert num s else s
  | .unset num => if num < bound then s.erase num else s
  | .clear => ∅

variable {map : BitMap}

/-- Every operation is the operation on the set. -/
theorem contents_step (map : BitMap) (op : Op) : ∃ map', system.step map op = some map' ∧
    map'.size = map.size ∧ map'.contents = op.onSet map.bound map.contents := by
  cases op with
  | clear => exact ⟨bitMapClear map, rfl, rfl, contents_bitMapClear map⟩
  | set num =>
      by_cases h : num < map.bound
      · obtain ⟨map', hset, hsize, hcont⟩ := contents_bitMapSet h
        refine ⟨map', ?_, hsize, by rw [hcont, Op.onSet, if_pos h]⟩
        simp [system, opStep, hset]
      · refine ⟨map, ?_, rfl, by rw [Op.onSet, if_neg h]⟩
        simp [system, opStep, bitMapSet, bitMapStore_outside setBit (not_lt.mp h)]
  | unset num =>
      by_cases h : num < map.bound
      · obtain ⟨map', hset, hsize, hcont⟩ := contents_bitMapUnset h
        refine ⟨map', ?_, hsize, by rw [hcont, Op.onSet, if_pos h]⟩
        simp [system, opStep, hset]
      · refine ⟨map, ?_, rfl, by rw [Op.onSet, if_neg h]⟩
        simp [system, opStep, bitMapUnset, bitMapStore_outside unsetBit (not_lt.mp h)]

theorem contents_run (ops : List Op) (map : BitMap) : ∃ map', system.run map ops = some map' ∧
    map'.size = map.size ∧ map'.contents = ops.foldl (Op.onSet map.bound) map.contents := by
  induction ops generalizing map with
  | nil => exact ⟨map, rfl, rfl, rfl⟩
  | cons op ops ih =>
      obtain ⟨map₁, hstep, hsize, hcont⟩ := contents_step map op
      obtain ⟨map', hrun, hsize', hcont'⟩ := ih map₁
      refine ⟨map', (TS.run_cons hstep ops).trans hrun, hsize'.trans hsize, ?_⟩
      rw [hcont', bound_congr hsize, hcont, List.foldl_cons]

/-- Membership after one operation on the set. -/
theorem mem_onSet {bound n : ℕ} (hn : n < bound) (s : Finset ℕ) (op : Op) :
    n ∈ op.onSet bound s ↔ if op.about n then op = .set n else n ∈ s := by
  cases op with
  | clear => simp [Op.onSet, Op.about]
  | set num =>
      by_cases h : num = n
      · simp [Op.onSet, Op.about, h, hn]
      · have hne : ¬n = num := fun hc => h hc.symm
        by_cases hb : num < bound <;> simp [Op.onSet, Op.about, h, hne, hb]
  | unset num =>
      by_cases h : num = n
      · simp [Op.onSet, Op.about, h, hn]
      · have hne : ¬n = num := fun hc => h hc.symm
        by_cases hb : num < bound <;> simp [Op.onSet, Op.about, h, hne, hb]

/-- The latest operation about a number decides whether it is a member. -/
theorem mem_foldl_onSet {bound n : ℕ} (hn : n < bound) (s : Finset ℕ) (ops : List Op) :
    n ∈ ops.foldl (Op.onSet bound) s ↔
      latest n ops = some (.set n) ∨ latest n ops = none ∧ n ∈ s := by
  induction ops using List.reverseRecOn with
  | nil => simp [latest]
  | append_singleton ops op ih =>
      rw [List.foldl_append, List.foldl_cons, List.foldl_nil, mem_onSet hn, latest, List.reverse_append,
        List.reverse_singleton, List.singleton_append, List.find?_cons]
      cases op.about n with
      | true => simp
      | false =>
          rw [if_neg (by decide)]
          exact ih

/-- **A finite set.**  After any sequence of operations on a map of any size, `bit_map_get` of a number
below the bound is non-zero exactly if the latest operation about it was to set it, or there was none and
the number was in the map from the beginning; in a zeroed map there are no such numbers.  On a number
outside of the map all three operations return `-1`, and the map stays as it is. -/
theorem finite_set (map : BitMap) (ops : List Op) : ∃ map', system.run map ops = some map' ∧
    map'.bound = map.bound ∧
    (∀ n < map.bound, ∃ r, bitMapGet map' n = some r ∧
      (r ≠ 0 ↔ latest n ops = some (.set n) ∨ latest n ops = none ∧ n ∈ map.contents) ∧
      (map = zeroed map.size map.isSize → (r ≠ 0 ↔ latest n ops = some (.set n)))) ∧
    ∀ n, map.bound ≤ n → bitMapSet map' n = some (map', -1) ∧ bitMapUnset map' n = some (map', -1) ∧
      bitMapGet map' n = some (-1) := by
  obtain ⟨map', hrun, hsize, hcont⟩ := contents_run ops map
  have hbound := bound_congr hsize
  refine ⟨map', hrun, hbound, fun n hn => ?_, fun n hn => ?_⟩
  · have hmem := mem_foldl_onSet hn map.contents ops
    rw [← hcont] at hmem
    have hiff : (if n ∈ map'.contents then (2 : ℤ) ^ (n % 8) else 0) ≠ 0 ↔ n ∈ map'.contents := by
      by_cases h : n ∈ map'.contents <;> simp [h]
    refine ⟨_, bitMapGet_inside (hbound.symm ▸ hn), hiff.trans hmem, fun hzero => ?_⟩
    have hempty : map.contents = ∅ := by rw [hzero, contents_zeroed]
    rw [hiff, hmem, hempty]
    simp
  · rw [← hbound] at hn
    exact ⟨bitMapStore_outside setBit hn, bitMapStore_outside unsetBit hn, bitMapGet_outside hn⟩

/-- The last bit of the second byte is set, and its neighbour is unset again. -/
example : (system.run (zeroed 2 (by decide)) [.set 15, .set 14, .unset 14, .set 99]).any
    (fun map => bitMapGet map 15 = some 128 ∧ bitMapGet map 14 = some 0) = true := by
  decide +kernel

/-! ### The size -/

/-- The number is accepted: none of the three operations returns `-1`. -/
def Accepts (map : BitMap) (num : ℕ) : Prop :=
  (∃ map', bitMapSet map num = some (map', 0)) ∧ (∃ map', bitMapUnset map num = some (map', 0)) ∧
    ∃ r, bitMapGet map num = some r ∧ r ≠ -1

theorem accepts_iff {num : ℕ} : map.Accepts num ↔ num < map.bound := by
  constructor
  · rintro ⟨⟨map', hset⟩, -, -⟩
    by_contra h
    rw [bitMapSet, bitMapStore_outside setBit (not_lt.mp h)] at hset
    cases hset
  · intro h
    obtain ⟨m₁, h₁, -⟩ := contents_bitMapSet h
    obtain ⟨m₂, h₂, -⟩ := contents_bitMapUnset h
    refine ⟨⟨m₁, h₁⟩, ⟨m₂, h₂⟩, _, bitMapGet_inside h, ?_⟩
    split
    · have hpos : (0 : ℤ) < 2 ^ (num % 8) := by positivity
      omega
    · decide

end BitMap

/-- `max_num` is more than the next doubling of `8` as long as the loop has not counted enough. -/
theorem doubling_lt_iff (maxNum count : ℕ) :
    2 ^ (count + 4) < maxNum ↔ count < Nat.clog 2 maxNum - 4 := by
  rw [← Nat.lt_clog_iff_pow_lt (by decide)]
  omega

/-- The loop counts the doublings of `8` that stay below `max_num`. -/
theorem sizeLoop_eq {maxNum : ℕ} (hmax : maxNum < 2 ^ 32) (passes count : ℕ)
    (hpasses : 28 < passes + count) (hcount : count ≤ Nat.clog 2 maxNum - 4) :
    sizeLoop maxNum passes (2 ^ (count + 3)) count = some (Nat.clog 2 maxNum - 4) := by
  have hclog : Nat.clog 2 maxNum ≤ 32 := Nat.clog_le_of_le_pow hmax.le
  induction passes generalizing count with
  | zero => omega
  | succ passes ih =>
      have hbase : toUInt64 ((2 ^ (count + 3) : ℕ) * 2) = 2 ^ (count + 4) := by
        have hlt : 2 ^ (count + 4) < 2 ^ 64 := Nat.pow_lt_pow_right (by decide) (by omega)
        have hpow : ((2 ^ (count + 3) : ℕ) : ℤ) * 2 = ((2 ^ (count + 4) : ℕ) : ℤ) := by
          push_cast
          ring
        rw [hpow, toUInt64_natCast hlt]
      rw [sizeLoop, hbase]
      by_cases h : count < Nat.clog 2 maxNum - 4
      · rw [if_pos ((doubling_lt_iff maxNum count).mpr h)]
        exact ih (count + 1) (by omega) h
      · rw [if_neg fun hlt => h ((doubling_lt_iff maxNum count).mp hlt)]
        congr 1
        omega

theorem getBitMapSize_eq {maxNum : ℕ} (hmax : maxNum < 2 ^ 32) :
    getBitMapSize maxNum = some (Nat.clog 2 maxNum - 4) :=
  sizeLoop_eq hmax 32 0 (by decide) (Nat.zero_le _)

/-- `bit_map_init` makes an empty map of as many bytes as `8` can be doubled below `max_num`. -/
theorem bitMapInit_eq {maxNum : ℕ} (hmax : maxNum < 2 ^ 32) : ∃ map, bitMapInit maxNum = some map ∧
    map.size = Nat.clog 2 maxNum - 4 ∧ map.bound = 8 * map.size := by
  have hclog : Nat.clog 2 maxNum ≤ 32 := Nat.clog_le_of_le_pow hmax.le
  have hsize : toUInt64 (Nat.clog 2 maxNum - 4 : ℕ) = Nat.clog 2 maxNum - 4 :=
    toUInt64_natCast (by omega)
  refine ⟨.zeroed _ (toUInt64_lt (Nat.clog 2 maxNum - 4 : ℕ)), ?_, hsize, BitMap.bound_eq ?_⟩
  · rw [bitMapInit, getBitMapSize_eq hmax]
    rfl
  · show toUInt64 (Nat.clog 2 maxNum - 4 : ℕ) < 2 ^ 61
    omega

/-- The largest number of a map is one less than its bound, unless the map has no bytes. -/
theorem bitMapGetMaxNum_eq {map : BitMap} (h : map.size < 2 ^ 29) :
    bitMapGetMaxNum map = if map.size = 0 then 2 ^ 32 - 1 else 8 * map.size - 1 := by
  unfold bitMapGetMaxNum toUInt32 toUInt64 bitMapBase
  split <;> omega

/-- The bytes hold fewer numbers than there are up to `max_num`. -/
theorem bytes_lt {maxNum : ℕ} (h : 16 < maxNum) : 8 * (Nat.clog 2 maxNum - 4) < maxNum := by
  obtain ⟨k, hk⟩ : ∃ k, Nat.clog 2 maxNum - 4 = k + 1 :=
    Nat.exists_eq_add_one_of_ne_zero fun hzero => by
      have := (doubling_lt_iff maxNum 0).mp h
      omega
  have hlt : 2 ^ (k + 4) < maxNum := (doubling_lt_iff maxNum k).mpr (by omega)
  have hpow : k + 1 < 2 ^ (k + 1) := Nat.lt_two_pow_self
  calc 8 * (Nat.clog 2 maxNum - 4) = 8 * (k + 1) := by rw [hk]
    _ ≤ 8 * 2 ^ (k + 1) := by omega
    _ = 2 ^ (k + 4) := by ring
    _ < maxNum := hlt

theorem size_eq_zero_iff {maxNum : ℕ} : Nat.clog 2 maxNum - 4 = 0 ↔ maxNum ≤ 16 := by
  have h := doubling_lt_iff maxNum 0
  simp only [Nat.zero_add, Nat.reducePow] at h
  omega

/-- **The numbers of a map.**  After `bit_map_init(map, max_num)` the map accepts the numbers below eight
times the number of doublings of `8` that stay below `max_num`; that is never all numbers up to `max_num`.
`bit_map_get_max_num` is at least `max_num` only if `max_num` is at most 16, where the map accepts nothing;
it is the largest accepted number exactly if `max_num` is more than 16. -/
theorem sized_for_iff (maxNum : ℕ) (hmax : maxNum < 2 ^ 32) : ∃ map, bitMapInit maxNum = some map ∧
    (∀ num, map.Accepts num ↔ num < 8 * (Nat.clog 2 maxNum - 4)) ∧
    (¬∀ num ≤ maxNum, map.Accepts num) ∧
    (maxNum ≤ bitMapGetMaxNum map ↔ maxNum ≤ 16) ∧
    ((∀ num < 2 ^ 32, (map.Accepts num ↔ num ≤ bitMapGetMaxNum map)) ↔ 16 < maxNum) := by
  obtain ⟨map, hinit, hsize, hbound⟩ := bitMapInit_eq hmax
  have hclog : Nat.clog 2 maxNum ≤ 32 := Nat.clog_le_of_le_pow hmax.le
  have haccepts : ∀ num, map.Accepts num ↔ num < 8 * (Nat.clog 2 maxNum - 4) := fun num => by
    rw [BitMap.accepts_iff, hbound, hsize]
  have hsmall : map.size < 2 ^ 29 := by omega
  have hlast := bitMapGetMaxNum_eq hsmall
  rw [hsize] at hlast
  refine ⟨map, hinit, haccepts, fun hall => ?_, ?_, ?_⟩
  · have h := (haccepts maxNum).mp (hall maxNum le_rfl)
    by_cases hsmall : maxNum ≤ 16
    · have hzero := size_eq_zero_iff.mpr hsmall
      omega
    · have hlt := bytes_lt (not_le.mp hsmall)
      omega
  · by_cases hsmall : maxNum ≤ 16
    · rw [if_pos (size_eq_zero_iff.mpr hsmall)] at hlast
      omega
    · have hlt := bytes_lt (not_le.mp hsmall)
      rw [if_neg fun hzero => hsmall (size_eq_zero_iff.mp hzero)] at hlast
      omega
  · by_cases hsmall : maxNum ≤ 16
    · -- nothing is accepted, but the size wraps around
      have hzero := size_eq_zero_iff.mpr hsmall
      rw [if_pos hzero] at hlast
      refine iff_of_false (fun hall => ?_) (by omega)
      have h := (haccepts 0).mp ((hall 0 (by decide)).mpr (Nat.zero_le _))
      omega
    · have hzero : Nat.clog 2 maxNum - 4 ≠ 0 := fun h => hsmall (size_eq_zero_iff.mp h)
      rw [if_neg hzero] at hlast
      refine iff_of_true (fun num _ => ?_) (by omega)
      rw [haccepts, hlast]
      omega

/-- The map for the numbers up to 1000 has six bytes. -/
theorem sized_for_thousand : ∃ map, bitMapInit 1000 = some map ∧ map.Accepts 47 ∧ ¬map.Accepts 48 := by
  obtain ⟨map, hinit, haccepts, -⟩ := sized_for_iff 1000 (by decide)
  have hclog : Nat.clog 2 1000 = 10 := by decide +kernel
  exact ⟨map, hinit, (haccepts 47).mpr (by omega), fun h => by have := (haccepts 48).mp h; omega⟩

/-- A map for the numbers up to 63 refuses 16; a map for the number 0 refuses it, although its largest
number is said to be `2 ^ 32 - 1`. -/
theorem number_refused :
    (∃ map, bitMapInit 63 = some map ∧ bitMapSet map 16 = some (map, -1) ∧
      bitMapUnset map 16 = some (map, -1) ∧ bitMapGet map 16 = some (-1) ∧ bitMapGetMaxNum map = 15) ∧
    ∃ map, bitMapInit 0 = some map ∧ bitMapSet map 0 = some (map, -1) ∧
      bitMapGetMaxNum map = 4294967295 := by
  refine ⟨⟨.zeroed 2 (by decide), ?_⟩, .zeroed 0 (by decide), ?_⟩
  · decide +kernel
  · decide +kernel

end Libcask
