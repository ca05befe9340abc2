import Libcask.HashMapContents
import Libcask.Ownership

/-! # The storage of a task

`co_specs.c`: a task keeps values under names in a hash map of its own, `co_spec_set` copies a value into
a block of memory, `co_spec_get` returns the pointer to the block, and `task_destory` frees everything
(`free_co_specs`).  `HashMap.lean` has the map with the values themselves; here the value of a node is a
pointer, and `hash_map_put`, `hash_map_del` and `hash_map_clearall` allocate and free the blocks as the
source does.  Freeing what is not allocated, and using a head after it was freed, is undefined (`none`).

The nodes of the map own the blocks (`Owned`, with the rules of `Ownership.lean`).

* `storage_freed`: no call frees a block twice or uses a freed node, at every moment there are as many
  blocks as entries, and `free_co_specs` leaves nothing allocated.
* `pointer_stable`: the pointer that `co_spec_get` returned stays valid, and what it points to stays the
  same, until its entry is set again or deleted. -/

namespace Libcask.CoSpecs

open CArray

/-- `co_specs_t`, with the memory that it owns besides the nodes: `blocks` are the copies of the values,
`blockBrk` is the address that `malloc` returns for the next one, `freedHeads` are the heads of the table
that have been freed. -/
structure Specs where
  map : HashMap ℕ
  blocks : ℕ → Option (List Char8)
  blockBrk : ℕ
  freedHeads : List ℕ

namespace Specs

/-- `malloc(len)`, and the `memcpy` of the value. -/
def mallocCopy (s : Specs) (value : List Char8) : ℕ × Specs :=
  (s.blockBrk, { s with
    blocks := Function.update s.blocks s.blockBrk (some value)
    blockBrk := s.blockBrk + 1 })

/-- `free(node->value)`. -/
def free (s : Specs) (p : ℕ) : Option Specs :=
  match s.blocks p with
  | none => none
  | some _ => some { s with blocks := Function.update s.blocks p none }

/-! ### `hash_map.c` with its memory -/

def hashMapPut (s : Specs) (keyname : Key) (value : List Char8) : Option (Specs × ℤ) :=
  match s.map.search keyname with
  | none => none
  | some (_, some n) =>
      match s.map.nodes n with
      | none => none
      | some node =>
          (s.free node.value).map fun s =>
            let (p, s) := s.mallocCopy value
            let nodes := Function.update s.map.nodes n (some { node with value := p })
            ({ s with map := { s.map with nodes := nodes } }, 0)
  | some (h, none) =>
      (s.map.makeRoom h (stringHash keyname)).map fun r =>
        let (p, s) := { s with map := r.1 }.mallocCopy value
        ({ s with map := s.map.addNode r.2 ⟨stringHash keyname, keyname, p⟩ }, 0)

def hashMapDel (s : Specs) (keyname : Key) : Option (Specs × ℤ) :=
  match s.map.search keyname with
  | none => none
  | some (_, none) => some (s, -1)
  | some (h, some n) =>
      match s.map.nodes n with
      | none => none
      | some node => (s.free node.value).map fun s => ({ s with map := s.map.dropNode h n }, 0)

/-- The inner loop of `hash_map_clearall`, on the list of `head`. -/
def clearChain (head : ℕ) : ℕ → Node ℕ ℕ → Specs → Option Specs
  | 0, _, _ => none
  | passes + 1, ls, s =>
      if listEmpty s.map.links ls then some s
      else
        match s.map.nodeAt ls with
        | none => none
        | some (n, node) =>
            (s.free node.value).bind fun s' =>
              clearChain head passes (listNext s.map.links ls) { s' with map := s'.map.dropNode head n }

/-- `NULL` is not freed. -/
def freeMapHead (s : Specs) : Option ℕ → Option Specs
  | none => some s
  | some h =>
      if h ∈ s.freedHeads then none
      else some { s with
        map := { s.map with links := listDelete s.map.links (.head h) }
        freedHeads := h :: s.freedHeads }

/-- `free_map_head((map_head_t *)array_del(&map->table, i))`. -/
def dropHead (s : Specs) (i : ℕ) : Option Specs :=
  (s.map.table.arrayDel i).bind fun r => { s with map := { s.map with table := r.1 } }.freeMapHead r.2

/-- The loop over the buckets below `k`, from the last to the first. -/
def clearBuckets (all : Bool) : ℕ → Specs → Option Specs
  | 0, s => some s
  | i + 1, s =>
      match s.map.getHead i with
      | none => none
      | some head =>
          if head ∈ s.freedHeads then none
          else
            (clearChain head (s.map.count + 1) (listNext s.map.links (.head head)) s).bind fun s =>
              (if all then s.dropHead i else some s).bind (clearBuckets all i)

def hashMapClearall (s : Specs) (all : Bool) : Option Specs :=
  (clearBuckets all (toInt32 ((s.map.capcity : ℤ) - 1) + 1).toNat s).map fun s =>
    if all then { s with map := { s.map with capcity := 0, table := arrayInit } } else s

def hashMapClear (s : Specs) : Option Specs := s.hashMapClearall false

def hashMapDestory (s : Specs) : Option Specs := s.hashMapClearall true

end Specs

/-! ### `co_specs.c` -/

def allocCoSpecs : Option Specs := HashMap.hashMapInit.map fun m => ⟨m, fun _ => none, 0, []⟩

def coSpecsSet (s : Specs) (key : Key) (value : List Char8) : Option (Specs × ℤ) := s.hashMapPut key value

/-- What the call returns, and the pointer that it stores. -/
def coSpecsGet (s : Specs) (key : Key) : Option (ℤ × Option ℕ) := s.map.hashMapGet key

def coSpecsDel (s : Specs) (key : Key) : Option (Specs × ℤ) := s.hashMapDel key

/-- The last part is `free(specs)`. -/
def freeCoSpecs (s : Specs) : Option Specs := s.hashMapDestory

/-- The calls on a storage; `clear` is `hash_map_clear`, which `co_specs.c` does not use. -/
inductive Op where
  | set (key : Key) (value : List Char8)
  | get (key : Key)
  | del (key : Key)
  | clear
deriving DecidableEq

def opStep (s : Specs) : Op → Option Specs
  | .set k value => (coSpecsSet s k value).map (·.1)
  | .get k => (coSpecsGet s k).map fun _ => s
  | .del k => (coSpecsDel s k).map (·.1)
  | .clear => s.hashMapClear

def system : TS Specs Op where
  init s := allocCoSpecs = some s
  step := opStep

/-- The capacity stays below `2 ^ 30`. -/
def bounded (s : Specs) (op : Op) : Prop :=
  ((opStep s op).all fun s' => decide (s'.map.capcity < 2 ^ 30)) = true

instance (s : Specs) (op : Op) : Decidable (bounded s op) := inferInstanceAs (Decidable (_ = true))

/-! ### The nodes own the blocks -/

/-- The block that a node points to. -/
def Specs.pointer (s : Specs) (n : ℕ) : Option ℕ := (s.map.nodes n).map MapNode.value

/-- The chains are those of a map with the table `T`, every node is on a chain, and owns its block. -/
structure Owned (T : CArray (Option ℕ)) (s : Specs) (v : View ℕ ℕ) : Prop where
  chains : HashMap.Chains { s.map with table := T } v
  linked : ∀ n, s.map.nodes n ≠ none → ∃ h, n ∈ v h
  owns : Owns s.pointer {p | s.blocks p ≠ none}
  fresh : ∀ p, s.blockBrk ≤ p → s.blocks p = none

theorem allocated_free (blocks : ℕ → Option (List Char8)) (q : ℕ) :
    {p | Function.update blocks q none p ≠ none} = {p | blocks p ≠ none} \ {q} := by
  ext p
  by_cases hp : p = q <;> simp [hp]

theorem allocated_malloc (blocks : ℕ → Option (List Char8)) (q : ℕ) (value : List Char8) :
    {p | Function.update blocks q (some value) p ≠ none} = insert q {p | blocks p ≠ none} := by
  ext p
  by_cases hp : p = q <;> simp [hp]

namespace Owned

variable {T : CArray (Option ℕ)} {s : Specs} {v : View ℕ ℕ} {h n : ℕ} {node : MapNode ℕ}

theorem pointer_eq (hn : s.map.nodes n = some node) : s.pointer n = some node.value := by
  rw [Specs.pointer, hn]
  rfl

theorem exists_node (ho : Owned T s v) (hmem : n ∈ v h) : ∃ node, s.map.nodes n = some node := by
  obtain ⟨node, hnode, -⟩ := ho.chains.hashed h n hmem
  exact ⟨node, hnode⟩

/-- The block of a node is allocated. -/
theorem free_eq (ho : Owned T s v) (hn : s.map.nodes n = some node) :
    s.free node.value = some { s with blocks := Function.update s.blocks node.value none } := by
  obtain ⟨value, hv⟩ := Option.ne_none_iff_exists'.mp (ho.owns.mem (pointer_eq hn))
  unfold Specs.free
  rw [hv]

/-- A node leaves its chain; it is freed together with its block. -/
theorem drop (ho : Owned T s v) (hn : s.map.nodes n = some node) (hmem : n ∈ v h)
    (hb : (v h).length < 2 ^ 64) : Owned T { s with
      map := s.map.dropNode h n, blocks := Function.update s.blocks node.value none } (v.delete n) := by
  have hok := ho.chains.rings.ok
  refine ⟨ho.chains.dropNode hmem hb, fun x hx => ?_, ?_, fun p hp => ?_⟩
  · have hne : x ≠ n := by
      rintro rfl
      exact hx (Function.update_self ..)
    change Function.update s.map.nodes n none x ≠ none at hx
    rw [Function.update_of_ne hne] at hx
    obtain ⟨h', hm⟩ := ho.linked x hx
    exact ⟨h', (View.mem_delete hok).mpr ⟨hne, hm⟩⟩
  · have hpointer : Specs.pointer { s with
        map := s.map.dropNode h n, blocks := Function.update s.blocks node.value none } =
        Function.update s.pointer n none := by
      funext x
      by_cases hx : x = n
      · simp [Specs.pointer, hx]
      · simp [Specs.pointer, hx]
    rw [hpointer, allocated_free]
    exact ho.owns.release (pointer_eq hn)
  · show Function.update s.blocks node.value none p = none
    rw [Function.update_apply, ho.fresh p hp, ite_self]

/-- A block that no node owned is not that of a node. -/
theorem value_ne_brk (ho : Owned T s v) (hn : s.map.nodes n = some node) : node.value ≠ s.blockBrk :=
  fun hc => ho.owns.mem (pointer_eq hn) (ho.fresh _ hc.ge)

/-! #### Clearing -/

/-- What clearing a chain leaves alone. -/
structure SameTable (s s' : Specs) : Prop where
  capcity : s'.map.capcity = s.map.capcity
  headBrk : s'.map.headBrk = s.map.headBrk
  table : s'.map.table = s.map.table
  freedHeads : s'.freedHeads = s.freedHeads

theorem clearChain_spec {i : ℕ} : ∀ (B : List ℕ) (passes : ℕ) {s : Specs} {v : View ℕ ℕ}, Owned T s v →
    v i = B → B.length < passes → B.length ≤ s.map.count → s.map.count < 2 ^ 64 →
    ∃ s', Specs.clearChain i passes (Rings.cursor i B) s = some s' ∧ Owned T s' (Function.update v i []) ∧
      s'.map.count = s.map.count - B.length ∧ SameTable s s'
  | [], passes, s, v, ho, hv, hp, _, _ => by
      obtain ⟨p, rfl⟩ := Nat.exists_eq_succ_of_ne_zero (Nat.ne_of_gt hp)
      have hempty : listEmpty s.map.links (Rings.cursor i (v i)) = _ := listEmpty_cursor ho.chains.rings i
      rw [hv] at hempty
      refine ⟨s, ?_, ?_, rfl, ⟨rfl, rfl, rfl, rfl⟩⟩
      · rw [Specs.clearChain, hempty]
        rfl
      · rw [← hv, Function.update_eq_self]
        exact ho
  | n :: B, passes, s, v, ho, hv, hp, hle, hb => by
      obtain ⟨p, rfl⟩ := Nat.exists_eq_succ_of_ne_zero (Nat.ne_of_gt (Nat.zero_lt_of_lt hp))
      have hempty : listEmpty s.map.links (Rings.cursor i (v i)) = _ := listEmpty_cursor ho.chains.rings i
      rw [hv] at hempty
      have hmem : n ∈ v i := by simp [hv]
      obtain ⟨node, hnode⟩ := ho.exists_node hmem
      have hnext : listNext s.map.links (.elem n) = Rings.cursor i B :=
        ho.chains.rings.next_elem_cursor (A := []) hv
      rw [List.length_cons] at hp hle
      have hcount : (s.map.dropNode i n).count = s.map.count - 1 :=
        HashMap.toUInt64_sub_one (c := s.map.count) (by omega) hb
      have hlen : (v i).length < 2 ^ 64 := by
        rw [hv, List.length_cons]
        omega
      have hvi : v.delete n i = B := by
        rw [View.delete, hv, List.erase_cons_head]
      obtain ⟨s', he, ho', hcnt, hsame⟩ := clearChain_spec B p (ho.drop hnode hmem hlen) hvi
        (by omega) (by dsimp only; omega) (by dsimp only; omega)
      refine ⟨s', ?_, ?_, ?_, ⟨hsame.capcity, hsame.headBrk, hsame.table, hsame.freedHeads⟩⟩
      · rw [Specs.clearChain, hempty, Rings.cursor_cons, HashMap.nodeAt_elem hnode]
        dsimp only
        rw [hnext, ho.free_eq hnode]
        exact he
      · rw [← View.update_delete ho.chains.rings.ok hmem]
        exact ho'
      · rw [hcnt, List.length_cons]
        dsimp only
        omega

/-- The inner loop, for one bucket. -/
theorem clearBucket_spec {i : ℕ} (ho : Owned T s v) (hle : (v i).length ≤ s.map.count)
    (hb : s.map.count < 2 ^ 64) :
    ∃ s', Specs.clearChain i (s.map.count + 1) (listNext s.map.links (.head i)) s = some s' ∧
      Owned T s' (Function.update v i []) ∧ s'.map.count = s.map.count - (v i).length ∧
      SameTable s s' := by
  have hnext : listNext s.map.links (.head i) = Rings.cursor i (v i) :=
    ho.chains.rings.next_head_cursor i
  rw [hnext]
  exact clearChain_spec (v i) (s.map.count + 1) ho rfl (by omega) hle hb

/-- The buckets below `i + 1` are cleared with the bucket `i` first. -/
theorem cleared_succ (v : View ℕ ℕ) (i : ℕ) :
    (fun h => if h < i then [] else Function.update v i [] h) = fun h => if h < i + 1 then [] else v h := by
  funext h
  rcases Nat.lt_trichotomy h i with hlt | rfl | hgt
  · rw [if_pos hlt, if_pos (by omega)]
  · simp
  · rw [if_neg (by omega), if_neg (by omega), Function.update_of_ne hgt.ne']

theorem sum_update (v : View ℕ ℕ) (i : ℕ) :
    ∑ h ∈ Finset.range i, (Function.update v i [] h).length = ∑ h ∈ Finset.range i, (v h).length :=
  Finset.sum_congr rfl fun h hh => by rw [Function.update_of_ne (Finset.mem_range.mp hh).ne]

theorem clearBuckets_spec : ∀ (i : ℕ) {s : Specs} {v : View ℕ ℕ}, Owned s.map.table s v →
    i ≤ s.map.headBrk → s.map.headBrk ≤ 2 ^ 64 → s.map.count < 2 ^ 64 →
    ∑ h ∈ Finset.range i, (v h).length ≤ s.map.count → s.freedHeads = [] →
    ∃ s', Specs.clearBuckets false i s = some s' ∧
      Owned s.map.table s' (fun h => if h < i then [] else v h) ∧
      s'.map.count = s.map.count - ∑ h ∈ Finset.range i, (v h).length ∧ SameTable s s'
  | 0, s, v, ho, _, _, _, _, _ => by
      refine ⟨s, rfl, ?_, by simp, ⟨rfl, rfl, rfl, rfl⟩⟩
      simpa using ho
  | i + 1, s, v, ho, hi, hb, hcb, hsum, hfreed => by
      rw [Finset.sum_range_succ] at hsum
      obtain ⟨s₁, he₁, ho₁, hcnt₁, hsame₁⟩ := ho.clearBucket_spec (i := i) (by omega) hcb
      have hbrk₁ := hsame₁.headBrk
      rw [← hsame₁.table] at ho₁
      obtain ⟨s', he, ho', hcnt, hsame⟩ := clearBuckets_spec i ho₁ (by omega) (by omega) (by omega)
        (by rw [sum_update]; omega) (hsame₁.freedHeads.trans hfreed)
      refine ⟨s', ?_, ?_, ?_, ?_⟩
      · rw [Specs.clearBuckets, ho.chains.getHead hi hb]
        dsimp only
        rw [if_neg (by simp [hfreed]), he₁]
        exact he
      · rw [← cleared_succ, ← hsame₁.table]
        exact ho'
      · rw [hcnt, hcnt₁, sum_update, Finset.sum_range_succ]
        omega
      · exact ⟨hsame.capcity.trans hsame₁.capcity, hsame.headBrk.trans hsame₁.headBrk,
          hsame.table.trans hsame₁.table, hsame.freedHeads.trans hsame₁.freedHeads⟩

/-- `list_delete` of a node that is linked to itself. -/
theorem listDelete_eq_self {β : Type} [DecidableEq β] (L : Links β) {ls : β} (h1 : L.next ls = ls)
    (h2 : L.prev ls = ls) : listDelete L ls = L := by
  have hnext : Function.update L.next ls ls = L.next := by
    conv_rhs => rw [← Function.update_eq_self ls L.next, h1]
  have hprev : Function.update L.prev ls ls = L.prev := by
    conv_rhs => rw [← Function.update_eq_self ls L.prev, h2]
  rw [listDelete_eq]
  simp only [Links.unlink, Links.setNext, Links.setPrev, h1, h2, hnext, hprev]

/-- The head of an empty bucket is freed; its links are its own. -/
theorem dropHead_spec {i : ℕ} (ho : Owned T s v) (hv : v i = [])
    (htable : Holds s.map.table ((List.range (i + 1)).map some)) (hfree : i ∉ s.freedHeads) :
    ∃ table, s.dropHead i = some { s with
      map := { s.map with table := table }, freedHeads := i :: s.freedHeads } ∧
      Holds table ((List.range i).map some) := by
  have hR : Rings s.map.links v := ho.chains.rings
  rw [List.range_succ, List.map_append, List.map_singleton] at htable
  obtain ⟨table, hdel, hlast⟩ := htable.arrayDel_last
  rw [List.length_map, List.length_range] at hdel
  have hlinks : listDelete s.map.links (.head i) = s.map.links :=
    listDelete_eq_self _ (hR.next_head_eq_iff.mpr hv) (hR.prev_head_eq_iff.mpr hv)
  refine ⟨table, ?_, hlast⟩
  rw [Specs.dropHead, hdel, Option.bind_some]
  dsimp only [Specs.freeMapHead]
  rw [if_neg hfree, hlinks]

/-- `hash_map_clearall` with `all`: the table is emptied from its end. -/
theorem clearBuckets_all_spec : ∀ (i : ℕ) {s : Specs} {v : View ℕ ℕ}, Owned T s v →
    Holds s.map.table ((List.range i).map some) → i ≤ s.map.headBrk → s.map.headBrk ≤ 2 ^ 64 →
    s.map.count < 2 ^ 64 → ∑ h ∈ Finset.range i, (v h).length ≤ s.map.count →
    (∀ h, h ∈ s.freedHeads ↔ i ≤ h ∧ h < s.map.headBrk) →
    ∃ s', Specs.clearBuckets true i s = some s' ∧ Owned T s' (fun h => if h < i then [] else v h) ∧
      s'.map.headBrk = s.map.headBrk ∧ ∀ h, h ∈ s'.freedHeads ↔ h < s.map.headBrk
  | 0, s, v, ho, _, _, _, _, _, hfreed => by
      refine ⟨s, rfl, ?_, rfl, fun h => ?_⟩
      · simpa using ho
      · rw [hfreed]
        simp
  | i + 1, s, v, ho, htable, hi, hb, hcb, hsum, hfreed => by
      rw [Finset.sum_range_succ] at hsum
      have hnot : i ∉ s.freedHeads := by
        rw [hfreed]
        omega
      have hget : s.map.getHead i = some i := by
        unfold HashMap.getHead
        rw [toUInt64_natCast (by omega), htable.arrayGet (by simp)]
        simp
      obtain ⟨s₁, he₁, ho₁, hcnt₁, hsame₁⟩ := ho.clearBucket_spec (i := i) (by omega) hcb
      have hbrk₁ := hsame₁.headBrk
      obtain ⟨table, hdrop, hlast⟩ := ho₁.dropHead_spec (Function.update_self ..)
        (hsame₁.table ▸ htable) (hsame₁.freedHeads ▸ hnot)
      have ho₂ : Owned T { s₁ with
          map := { s₁.map with table := table }, freedHeads := i :: s₁.freedHeads }
          (Function.update v i []) := ⟨ho₁.chains, ho₁.linked, ho₁.owns, ho₁.fresh⟩
      have hfreed₁ : ∀ h, h ∈ i :: s₁.freedHeads ↔ i ≤ h ∧ h < s₁.map.headBrk := by
        intro h
        rw [List.mem_cons, hsame₁.freedHeads, hfreed]
        omega
      obtain ⟨s', he, ho', hbrk, hall⟩ := clearBuckets_all_spec i ho₂ hlast
        (by dsimp only; omega) (by dsimp only; omega) (by dsimp only; omega)
        (by dsimp only; rw [sum_update]; omega) hfreed₁
      refine ⟨s', ?_, ?_, hbrk.trans hbrk₁, fun h => ?_⟩
      · rw [Specs.clearBuckets, hget]
        dsimp only
        rw [if_neg hnot, he₁, Option.bind_some, if_pos rfl, hdrop]
        exact he
      · rw [← cleared_succ]
        exact ho'
      · rw [hall, ← hbrk₁]

end Owned

/-! ### Calls -/

/-- The state between two calls. -/
structure Inv (s : Specs) (v : View ℕ ℕ) : Prop where
  rep : HashMap.Rep s.map v
  owned : Owned s.map.table s v
  heads : s.freedHeads = []

/-- Nothing is allocated any more. -/
structure Freed (s : Specs) : Prop where
  blocks : ∀ p, s.blocks p = none
  nodes : ∀ n, s.map.nodes n = none
  heads : ∀ h, h < s.map.headBrk → h ∈ s.freedHeads
  table : s.map.table.vector = none

/-- A call with the key `k` leaves the nodes that do not match it alone, with their blocks. -/
def Spares (s : Specs) (k : Key) (s' : Specs) : Prop :=
  ∀ n node, s.map.nodes n = some node → s.map.isMatch k n = false →
    s'.map.nodes n = some node ∧ s'.blocks node.value = s.blocks node.value

namespace Inv

variable {s : Specs} {v : View ℕ ℕ} {n : ℕ} {node : MapNode ℕ}

/-- Two nodes own two blocks. -/
theorem value_ne (hi : Inv s v) {x : ℕ} {node' : MapNode ℕ} (hn : s.map.nodes n = some node)
    (hx : s.map.nodes x = some node') (hne : x ≠ n) : node'.value ≠ node.value := fun hv =>
  hne (hi.owned.owns.single x n node'.value (Owned.pointer_eq hx) (hv ▸ Owned.pointer_eq hn))

/-- `hash_map_put` of a key that is found: the node gets a new block. -/
theorem setValue (hi : Inv s v) (hn : s.map.nodes n = some node) (value : List Char8) :
    Inv { s with
      map := { s.map with
        nodes := Function.update s.map.nodes n (some { node with value := s.blockBrk }) }
      blocks := Function.update (Function.update s.blocks node.value none) s.blockBrk (some value)
      blockBrk := s.blockBrk + 1 } v := by
  have ho := hi.owned
  have hr := hi.rep.setValue hn s.blockBrk
  refine ⟨hr, ⟨hr.toChains, fun x hx => ?_, ?_, fun p hp => ?_⟩, hi.heads⟩
  · by_cases hxn : x = n
    · exact hxn ▸ ho.linked n (hn ▸ Option.some_ne_none _)
    · change Function.update s.map.nodes n (some { node with value := s.blockBrk }) x ≠ none at hx
      rw [Function.update_of_ne hxn] at hx
      exact ho.linked x hx
  · have hpointer : Specs.pointer { s with
        map := { s.map with
          nodes := Function.update s.map.nodes n (some { node with value := s.blockBrk }) }
        blocks := Function.update (Function.update s.blocks node.value none) s.blockBrk (some value)
        blockBrk := s.blockBrk + 1 } =
        Function.update (Function.update s.pointer n none) n (some s.blockBrk) := by
      funext x
      by_cases hx : x = n <;> simp [Specs.pointer, hx]
    rw [hpointer, allocated_malloc, allocated_free]
    refine (ho.owns.release (Owned.pointer_eq hn)).acquire (Function.update_self ..) fun hm => ?_
    exact hm.1 (ho.fresh _ le_rfl)
  · change s.blockBrk + 1 ≤ p at hp
    show Function.update (Function.update s.blocks node.value none) s.blockBrk (some value) p = none
    rw [Function.update_of_ne (by omega), Function.update_apply, ho.fresh p (by omega), ite_self]

/-- `hash_map_put` of a key that is not found: a new node owns the new block. -/
theorem addNode (hi : Inv s v) {m : HashMap ℕ} {v' : View ℕ ℕ} (hr : HashMap.Rep m v') (hfree : v.Free n)
    (hvalue : node.value = s.blockBrk) (hnodes : m.nodes = Function.update s.map.nodes n (some node))
    (hmem : ∀ x, (∃ h, x ∈ v' h) ↔ x = n ∨ ∃ h, x ∈ v h) (value : List Char8) :
    Inv { s with
      map := m
      blocks := Function.update s.blocks s.blockBrk (some value)
      blockBrk := s.blockBrk + 1 } v' := by
  have ho := hi.owned
  have hnone : s.map.nodes n = none := by
    by_contra hne
    obtain ⟨h, hm⟩ := ho.linked n hne
    exact hfree h hm
  refine ⟨hr, ⟨hr.toChains, fun x hx => (hmem x).mpr ?_, ?_, fun p hp => ?_⟩, hi.heads⟩
  · by_cases hxn : x = n
    · exact .inl hxn
    · change m.nodes x ≠ none at hx
      rw [hnodes, Function.update_of_ne hxn] at hx
      exact .inr (ho.linked x hx)
  · have hpointer : Specs.pointer { s with
        map := m
        blocks := Function.update s.blocks s.blockBrk (some value)
        blockBrk := s.blockBrk + 1 } = Function.update s.pointer n (some s.blockBrk) := by
      funext x
      by_cases hx : x = n <;> simp [Specs.pointer, hnodes, hx, hvalue]
    rw [hpointer, allocated_malloc]
    refine ho.owns.acquire ?_ fun hm => hm (ho.fresh _ le_rfl)
    rw [Specs.pointer, hnone]
    rfl
  · change s.blockBrk + 1 ≤ p at hp
    show Function.update s.blocks s.blockBrk (some value) p = none
    rw [Function.update_of_ne (by omega), ho.fresh p (by omega)]

theorem hashMapPut (hi : Inv s v) (hb : s.map.capcity < 2 ^ 30) (k : Key) (value : List Char8) :
    ∃ s' v', s.hashMapPut k value = some (s', 0) ∧ Inv s' v' ∧ Spares s k s' := by
  obtain ⟨h, hlt, hidx, hs⟩ := hi.rep.search hb.le k
  cases hf : (v h).find? (s.map.isMatch k) with
  | some n =>
      obtain ⟨-, hmatch, node, hnode⟩ := hi.rep.found hf
      refine ⟨_, v, ?_, hi.setValue hnode value, fun x node' hx hno => ?_⟩
      · unfold Specs.hashMapPut
        rw [hs, hf]
        dsimp only
        rw [hnode]
        dsimp only
        rw [hi.owned.free_eq hnode]
        rfl
      · have hne : x ≠ n := by
          rintro rfl
          exact Bool.false_ne_true (hno.symm.trans hmatch)
        refine ⟨(Function.update_of_ne hne _ _).trans hx, ?_⟩
        show Function.update (Function.update s.blocks node.value none) s.blockBrk (some value) _ = _
        rw [Function.update_of_ne (hi.owned.value_ne_brk hx), Function.update_of_ne (hi.value_ne hnode hx hne)]
  | none =>
      rcases HashMap.hashMapPut_spec hi.rep hb k s.blockBrk with
        ⟨n, node, ⟨h', hidx', hfind⟩, -⟩ | ⟨m', v', n, -, hput, hr', hfree, hnodes, hmem⟩
      · obtain rfl : h' = h := by exact_mod_cast hidx'.symm.trans hidx
        cases hfind.symm.trans hf
      · unfold HashMap.hashMapPut at hput
        rw [hs, hf] at hput
        obtain ⟨r, hroom, hm⟩ := Option.map_eq_some_iff.mp hput
        obtain ⟨rfl, -⟩ := Prod.mk.inj hm
        refine ⟨_, v', ?_, hi.addNode hr' hfree rfl hnodes hmem value, fun x node' hx _ => ⟨?_, ?_⟩⟩
        · unfold Specs.hashMapPut
          rw [hs, hf]
          dsimp only
          rw [hroom]
          rfl
        · have hne : x ≠ n := by
            rintro rfl
            obtain ⟨h', hm'⟩ := hi.owned.linked x (hx ▸ Option.some_ne_none _)
            exact hfree h' hm'
          show HashMap.nodes _ x = _
          rw [hnodes, Function.update_of_ne hne]
          exact hx
        · exact Function.update_of_ne (hi.owned.value_ne_brk hx) _ _

theorem hashMapDel (hi : Inv s v) (hb : s.map.capcity < 2 ^ 30) (k : Key) :
    ∃ s' v' r, s.hashMapDel k = some (s', r) ∧ Inv s' v' ∧ Spares s k s' := by
  obtain ⟨h, hlt, hidx, hs⟩ := hi.rep.search hb.le k
  unfold Specs.hashMapDel
  rw [hs]
  cases hf : (v h).find? (s.map.isMatch k) with
  | none => exact ⟨s, v, -1, rfl, hi, fun _ _ hn _ => ⟨hn, rfl⟩⟩
  | some n =>
      obtain ⟨hmem, hmatch, node, hnode⟩ := hi.rep.found hf
      have hlen := hi.rep.length_le h
      have hload := hi.rep.load
      have hi' : Inv { s with
          map := s.map.dropNode h n, blocks := Function.update s.blocks node.value none } (v.delete n) :=
        ⟨HashMap.dropNode_spec hi.rep hb.le hmem, hi.owned.drop hnode hmem (by omega), hi.heads⟩
      refine ⟨_, _, 0, ?_, hi', fun x node' hx hno => ?_⟩
      · dsimp only
        rw [hnode]
        dsimp only
        rw [hi.owned.free_eq hnode]
        rfl
      · have hne : x ≠ n := by
          rintro rfl
          exact Bool.false_ne_true (hno.symm.trans hmatch)
        exact ⟨(Function.update_of_ne hne _ _).trans hx,
          Function.update_of_ne (hi.value_ne hnode hx hne) _ _⟩

/-- The loop of `hash_map_clearall` begins with the last bucket. -/
theorem last_bucket (hi : Inv s v) (hb : s.map.capcity ≤ 2 ^ 30) :
    (toInt32 ((s.map.capcity : ℤ) - 1) + 1).toNat = s.map.headBrk := by
  have hge := hi.rep.ge
  rw [toInt32_of_isInt32 (by unfold IsInt32; omega), hi.rep.heads]
  omega

theorem cleared (hi : Inv s v) : (fun h => if h < s.map.headBrk then [] else v h) = fun _ => [] := by
  funext h
  split_ifs with hh
  · rfl
  · exact hi.rep.outside h (not_lt.mp hh)

theorem hashMapClear (hi : Inv s v) (hb : s.map.capcity < 2 ^ 30) :
    ∃ s', s.hashMapClear = some s' ∧ Inv s' (fun _ => []) := by
  have hge := hi.rep.ge
  have hload := hi.rep.load
  have hheads := hi.rep.heads
  have hcount := hi.rep.count
  rw [← hheads] at hcount
  obtain ⟨s', he, ho, hcnt, hsame⟩ := Owned.clearBuckets_spec s.map.headBrk hi.owned le_rfl (by omega)
    (by omega) hcount.ge hi.heads
  rw [hi.cleared, ← hsame.table] at ho
  have hzero : s'.map.count = 0 := by
    rw [hcnt, ← hcount, Nat.sub_self]
  have hcap := hsame.capcity
  have hbrk := hsame.headBrk
  refine ⟨s', ?_, ⟨ho.chains, by omega, hcap ▸ hi.rep.pow, by omega, by simp, by simp [hzero], by omega⟩, ho,
    hsame.freedHeads.trans hi.heads⟩
  rw [Specs.hashMapClear, Specs.hashMapClearall, hi.last_bucket hb.le, he]
  rfl

theorem hashMapDestory (hi : Inv s v) (hb : s.map.capcity < 2 ^ 30) :
    ∃ s', s.hashMapDestory = some s' ∧ Freed s' := by
  have hge := hi.rep.ge
  have hload := hi.rep.load
  have hheads := hi.rep.heads
  have hcount := hi.rep.count
  rw [← hheads] at hcount
  obtain ⟨s', he, ho, hbrk, hfreed⟩ := Owned.clearBuckets_all_spec s.map.headBrk hi.owned hi.rep.table le_rfl
    (by omega) (by omega) hcount.ge fun h => by simp [hi.heads]
  rw [hi.cleared] at ho
  have hnodes : ∀ n, s'.map.nodes n = none := by
    intro n
    by_contra hne
    obtain ⟨h, hm⟩ := ho.linked n hne
    exact List.not_mem_nil hm
  refine ⟨{ s' with map := { s'.map with capcity := 0, table := arrayInit } }, ?_, fun p => ?_, hnodes,
    fun h hh => ?_, rfl⟩
  · rw [Specs.hashMapDestory, Specs.hashMapClearall, hi.last_bucket hb.le, he]
    rfl
  · show s'.blocks p = none
    by_contra hne
    obtain ⟨n, hn⟩ := (ho.owns.held p).mp hne
    rw [Specs.pointer, hnodes] at hn
    cases hn
  · exact (hfreed h).mpr (hbrk ▸ hh)

end Inv

theorem opStep_spec {s : Specs} {v : View ℕ ℕ} (hi : Inv s v) (hb : s.map.capcity < 2 ^ 30) (op : Op) :
    ∃ s' v', opStep s op = some s' ∧ Inv s' v' := by
  cases op with
  | set k value =>
      obtain ⟨s', v', he, hi', -⟩ := hi.hashMapPut hb k value
      exact ⟨s', v', by rw [opStep, coSpecsSet, he]; rfl, hi'⟩
  | get k =>
      rcases HashMap.hashMapGet_spec hi.rep hb k with ⟨-, he⟩ | ⟨n, node, -, -, he⟩
      · exact ⟨s, v, by rw [opStep, coSpecsGet, he]; rfl, hi⟩
      · exact ⟨s, v, by rw [opStep, coSpecsGet, he]; rfl, hi⟩
  | del k =>
      obtain ⟨s', v', r, he, hi', -⟩ := hi.hashMapDel hb k
      exact ⟨s', v', by rw [opStep, coSpecsDel, he]; rfl, hi'⟩
  | clear =>
      obtain ⟨s', he, hi'⟩ := hi.hashMapClear hb
      exact ⟨s', _, he, hi'⟩

/-- The storage that `alloc_co_specs` makes. -/
def initial : Specs := ⟨HashMap.initial ℕ, fun _ => none, 0, []⟩

theorem allocCoSpecs_eq : allocCoSpecs = some initial := by
  rw [allocCoSpecs, HashMap.hashMapInit_eq]
  rfl

theorem addHeads_nodes : ∀ (k i : ℕ) {m m' : HashMap ℕ}, HashMap.addHeads k i m = some m' →
    m'.nodes = m.nodes
  | 0, _, m, m', h => by
      obtain rfl := Option.some.inj h
      rfl
  | k + 1, i, m, m', h => by
      obtain ⟨r, -, h⟩ := Option.bind_eq_some_iff.mp h
      exact (addHeads_nodes k (i + 1) h).trans rfl

theorem inv_of_reach {s : Specs} (hs : system.ReachVia bounded s) :
    (∃ v, Inv s v) ∧ s.map.capcity < 2 ^ 30 := by
  refine hs.invariant (I := fun s => (∃ v, Inv s v) ∧ s.map.capcity < 2 ^ 30) (fun s h0 => ?_)
    fun s op s' h hb he => ?_
  · obtain ⟨m, hm, hr, hcap⟩ := HashMap.hashMapInit_spec (α := ℕ)
    change allocCoSpecs = some s at h0
    rw [allocCoSpecs, hm] at h0
    obtain rfl := Option.some.inj h0
    have hnodes : ∀ n, m.nodes n = none := fun n => congrFun (addHeads_nodes _ _ hm) n
    refine ⟨⟨_, hr, ⟨hr.toChains, fun n hn => absurd (hnodes n) hn, ?_, fun _ _ => rfl⟩, rfl⟩, ?_⟩
    · have hpointer : Specs.pointer ⟨m, fun _ => none, 0, []⟩ = fun _ => none := by
        funext n
        rw [Specs.pointer, hnodes]
        rfl
      rw [hpointer]
      convert Owns.empty using 1
      simp
    · show m.capcity < 2 ^ 30
      rw [hcap]
      decide
  · obtain ⟨⟨v, hi⟩, hcap⟩ := h
    obtain ⟨s₁, v₁, he₁, hi₁⟩ := opStep_spec hi hcap op
    obtain rfl : s₁ = s' := Option.some.inj (he₁.symm.trans he)
    rw [bounded, he₁] at hb
    exact ⟨⟨v₁, hi₁⟩, of_decide_eq_true hb⟩

/-- There are as many blocks as entries. -/
theorem Inv.ncard_blocks {s : Specs} {v : View ℕ ℕ} (hi : Inv s v) :
    {p | s.blocks p ≠ none}.ncard = s.map.hashMapSize := by
  have hr := hi.rep
  have hdisj : Set.PairwiseDisjoint ↑(Finset.range s.map.capcity) fun h => (v h).toFinset := by
    intro h _ h' _ hne
    refine Finset.disjoint_left.mpr fun n hn hn' => hne ?_
    exact hr.rings.ok.disjoint (List.mem_toFinset.mp hn) (List.mem_toFinset.mp hn')
  have hcard : ((Finset.range s.map.capcity).biUnion fun h => (v h).toFinset).card = s.map.count := by
    rw [Finset.card_biUnion hdisj, hr.count]
    exact Finset.sum_congr rfl fun h _ => List.toFinset_card_of_nodup (hr.rings.ok.nodup h)
  have hnodes : {n | s.pointer n ≠ none} =
      ((Finset.range s.map.capcity).biUnion fun h => (v h).toFinset : Finset ℕ) := by
    ext n
    simp only [Finset.coe_biUnion, Set.mem_iUnion, Finset.mem_coe, Finset.mem_range, List.mem_toFinset]
    constructor
    · intro hn
      obtain ⟨h, hm⟩ := hi.owned.linked n fun h0 => hn (by rw [Specs.pointer, h0]; rfl)
      exact ⟨h, hr.heads ▸ hr.lt_headBrk hm, hm⟩
    · rintro ⟨h, -, hm⟩
      obtain ⟨node, hnode⟩ := hi.owned.exists_node hm
      exact fun h0 => Option.some_ne_none _ ((Owned.pointer_eq hnode).symm.trans h0)
  rw [hi.owned.owns.ncard_eq, hnodes, Set.ncard_coe_finset, hcard]
  rfl

/-- No call on the storage of a task frees a block twice or uses what has been freed, there are never more
blocks than entries, and `free_co_specs` frees everything. -/
theorem storage_freed {s : Specs} (hs : system.ReachVia bounded s) :
    (∀ op, ∃ s', opStep s op = some s') ∧ {p | s.blocks p ≠ none}.ncard = s.map.hashMapSize ∧
      ∃ s', freeCoSpecs s = some s' ∧ Freed s' := by
  obtain ⟨⟨v, hi⟩, hcap⟩ := inv_of_reach hs
  refine ⟨fun op => ?_, hi.ncard_blocks, hi.hashMapDestory hcap⟩
  obtain ⟨s', -, he, -⟩ := opStep_spec hi hcap op
  exact ⟨s', he⟩

/-- An entry is set twice, another one deleted; two entries are left. -/
theorem storage_freed_two : ∃ s : Specs, system.ReachVia bounded s ∧ s.map.hashMapSize = 2 ∧
    {p | s.blocks p ≠ none}.ncard = s.map.hashMapSize ∧ ∃ s', freeCoSpecs s = some s' ∧ Freed s' := by
  obtain ⟨s, hs, hP⟩ := TS.ReachVia.exists_of_run (M := system) (s := initial) bounded
    [.set (HashMap.letter 0) [7], .set (HashMap.letter 1) [8, 8], .set (HashMap.letter 0) [9],
      .set (HashMap.letter 2) [], .del (HashMap.letter 1)]
    (fun s => s.map.hashMapSize = 2) allocCoSpecs_eq (by decide +kernel) (by decide +kernel)
  exact ⟨s, hs, of_decide_eq_true hP, (storage_freed hs).2⟩

/-! ### Pointers -/

/-- The call does not name the entry `name`: it has another hash, or is not a prefix of `name`. -/
def Op.spares (name : Key) : Op → Prop
  | .set k _ | .del k => ¬(stringHash k = stringHash name ∧ k.chars <+: name.chars)
  | .get _ => True
  | .clear => False

instance (name : Key) : DecidablePred (Op.spares name)
  | .set _ _ | .del _ => inferInstanceAs (Decidable (¬_))
  | .get _ => isTrue trivial
  | .clear => isFalse id

/-- A call that does not name the entry of a node leaves it alone. -/
theorem spares_step {s s' : Specs} {v : View ℕ ℕ} (hi : Inv s v) (hb : s.map.capcity < 2 ^ 30) {op : Op}
    {n : ℕ} {node : MapNode ℕ} (hn : s.map.nodes n = some node) (hop : op.spares node.keyname)
    (he : opStep s op = some s') :
    s'.map.nodes n = some node ∧ s'.blocks node.value = s.blocks node.value := by
  have hkey : node.key = stringHash node.keyname := by
    obtain ⟨h, hm⟩ := hi.owned.linked n (hn ▸ Option.some_ne_none _)
    obtain ⟨node', hn', hkey⟩ := hi.rep.hashed h n hm
    obtain rfl := Option.some.inj (hn.symm.trans hn')
    exact hkey
  have hno : ∀ {k : Key}, ¬(stringHash k = stringHash node.keyname ∧ k.chars <+: node.keyname.chars) →
      s.map.isMatch k n = false := by
    intro k hk
    rw [← Bool.not_eq_true, HashMap.isMatch_iff hn, hkey]
    exact hk
  cases op with
  | set k value =>
      obtain ⟨s₁, v₁, he₁, -, hspare⟩ := hi.hashMapPut hb k value
      rw [opStep, coSpecsSet, he₁] at he
      obtain rfl := Option.some.inj he
      exact hspare n node hn (hno hop)
  | get k =>
      obtain ⟨r, -, rfl⟩ := Option.map_eq_some_iff.mp he
      exact ⟨hn, rfl⟩
  | del k =>
      obtain ⟨s₁, v₁, r, he₁, -, hspare⟩ := hi.hashMapDel hb k
      rw [opStep, coSpecsDel, he₁] at he
      obtain rfl := Option.some.inj he
      exact hspare n node hn (hno hop)
  | clear => exact hop.elim

theorem spares_run {n : ℕ} {node : MapNode ℕ} : ∀ {ops : List Op} {s s' : Specs},
    system.ReachVia bounded s → s.map.nodes n = some node → system.RunMeets bounded s ops →
    (∀ op ∈ ops, op.spares node.keyname) → system.run s ops = some s' →
    s'.blocks node.value = s.blocks node.value
  | [], s, s', _, _, _, _, he => by
      obtain rfl : s = s' := Option.some.inj he
      rfl
  | op :: ops, s, s', hs, hn, hm, hop, he => by
      obtain ⟨hspare, hops⟩ := List.forall_mem_cons.mp hop
      obtain ⟨s₁, he₁, he⟩ := Option.bind_eq_some_iff.mp he
      obtain ⟨⟨v, hi⟩, hcap⟩ := inv_of_reach hs
      obtain ⟨hn₁, hb₁⟩ := spares_step hi hcap hn hspare he₁
      exact (spares_run (hs.step hm.1 he₁) hn₁ (hm.2 s₁ he₁) hops he).trans hb₁

/-- The pointer that `co_spec_get` returns points to the value of an entry whose name starts with the key,
and neither the block nor its bytes change while the calls do not name the entry, though the table grows
and other entries come and go. -/
theorem pointer_stable {s : Specs} (hs : system.ReachVia bounded s) {k : Key} {p : ℕ}
    (hget : coSpecsGet s k = some (0, some p)) :
    ∃ name value, stringHash name = stringHash k ∧ k.chars <+: name.chars ∧ s.blocks p = some value ∧
      ∀ ops s', system.RunMeets bounded s ops → (∀ op ∈ ops, op.spares name) →
        system.run s ops = some s' → s'.blocks p = some value := by
  obtain ⟨⟨v, hi⟩, hcap⟩ := inv_of_reach hs
  rcases HashMap.hashMapGet_spec hi.rep hcap k with ⟨-, he⟩ | ⟨n, node, ⟨h, -, hfind⟩, hn, he⟩
  · cases hget.symm.trans he
  · obtain rfl : p = node.value :=
      Option.some.inj (Prod.mk.inj (Option.some.inj (hget.symm.trans he))).2
    obtain ⟨hm, hmatch, -⟩ := hi.rep.found hfind
    obtain ⟨hhash, hpre⟩ := (HashMap.isMatch_iff hn).mp hmatch
    obtain ⟨node', hn', hkey⟩ := hi.rep.hashed h n hm
    obtain rfl := Option.some.inj (hn.symm.trans hn')
    obtain ⟨value, hvalue⟩ := Option.ne_none_iff_exists'.mp (hi.owned.owns.mem (Owned.pointer_eq hn))
    refine ⟨node.keyname, value, by rw [← hkey, hhash], hpre, hvalue, fun ops s' hmeets hops hrun => ?_⟩
    exact (spares_run hs hn hmeets hops hrun).trans hvalue

/-- The call names a key with the hash of `k`, or all keys. -/
def Op.hashIs (k : Key) : Op → Bool
  | .set k' _ | .del k' => stringHash k' = stringHash k
  | .get _ => false
  | .clear => true

theorem spares_of_hash {name k : Key} (h : stringHash name = stringHash k) {op : Op}
    (hop : op.hashIs k = false) : op.spares name := by
  cases op with
  | set k' value | del k' => exact fun hc => of_decide_eq_false hop (hc.1.trans h)
  | get k' => exact trivial
  | clear => cases hop

/-- The calls on the other letters, which make the table grow. -/
def others : List Op :=
  ((List.finRange 26).drop 1).map (fun i => .set (HashMap.letter i) [8]) ++
    [.del (HashMap.letter ⟨5, by decide⟩)]

theorem pointer_stable_grown : ∃ s s' : Specs, coSpecsGet s (HashMap.letter 0) = some (0, some 0) ∧
    system.run s others = some s' ∧ s'.map.capcity = 64 ∧ s'.blocks 0 = some [7] := by
  obtain ⟨s, hs, hP⟩ := TS.ReachVia.exists_of_run (M := system) (s := initial) bounded
    [.set (HashMap.letter 0) [7]]
    (fun s => decide (coSpecsGet s (HashMap.letter 0) = some (0, some 0) ∧ s.blocks 0 = some [7] ∧
      system.RunMeets bounded s others) && (system.run s others).any fun s' => s'.map.capcity = 64)
    allocCoSpecs_eq (by decide +kernel) (by decide +kernel)
  rw [Bool.and_eq_true] at hP
  obtain ⟨hget, hblock, hmeets⟩ := of_decide_eq_true hP.1
  obtain ⟨s', hrun, hcap⟩ := (Option.any_eq_true _ _).mp hP.2
  obtain ⟨name, value, hhash, hpre, hvalue, hstable⟩ := pointer_stable hs hget
  have hspares : ∀ op ∈ others, op.spares name := fun op hop =>
    spares_of_hash hhash ((by decide +kernel : ∀ op ∈ others, op.hashIs (HashMap.letter 0) = false) op hop)
  have hb := hstable others s' hmeets hspares hrun
  rw [hblock] at hvalue
  exact ⟨s, s', hget, hrun, of_decide_eq_true hcap, hb.trans hvalue.symm⟩

end Libcask.CoSpecs
