import Libcask.CArray
import Libcask.CFloat
import Libcask.CList

/-! # The hash map

`hash_map.c`.  The table is an array of pointers to heads, the head of a bucket is the head of an
intrusive list of nodes.  A map owns its heads and nodes: `links` are their link fields, `headCount` and
`nodes` the other fields, and `headBrk`, `nodeBrk` the addresses that `malloc` returns next.  Using an
address that holds nothing, or the head of a list as a node, is undefined (`none`).

Keys are strings that fit the buffer of a node, with `char` signed; the value of a node is a copy of
the caller's bytes, of which the model keeps the content (`α`).  A loop over a list has a bound on its
passes, one more than the number of nodes in the map. -/

namespace Libcask

/-- A `char`. -/
abbrev Char8 := BitVec 8

/-- A key name: its characters before the terminating `NUL`. -/
structure Key where
  chars : List Char8
  nonzero : ∀ c ∈ chars, c ≠ 0
  fits : chars.length < 1024
deriving DecidableEq

/-- `strncmp` on strings without their terminating `NUL`. -/
def strncmp : List Char8 → List Char8 → ℕ → ℤ
  | _, _, 0 => 0
  | [], [], _ + 1 => 0
  | [], d :: _, _ + 1 => -d.toNat
  | c :: _, [], _ + 1 => c.toNat
  | c :: s, d :: t, n + 1 => if c = d then strncmp s t n else c.toNat - d.toNat

/-- The loop of `string_hash`, in an `int`. -/
def hashChars (key : ℤ) : List Char8 → ℤ
  | [] => key
  | c :: s => hashChars (toInt32 (key * 31 + c.toInt)) s

def stringHash (keyname : Key) : ℤ := hashChars 0 keyname.chars

/-- `map_node_t`; its link is in `HashMap.links`. -/
structure MapNode (α : Type) where
  key : ℤ
  keyname : Key
  value : α
deriving DecidableEq

/-- `hash_map_t`, with the heads and nodes it owns. -/
structure HashMap (α : Type) where
  capcity : ℕ
  table : CArray (Option ℕ)
  count : ℕ
  links : Links (Node ℕ ℕ)
  headCount : ℕ → ℕ
  nodes : ℕ → Option (MapNode α)
  headBrk : ℕ
  nodeBrk : ℕ

namespace HashMap

open CArray

variable {α : Type}

/-- `key & (capcity - 1)`, as an `int`. -/
def bucketIndex (key : ℤ) (capcity : ℕ) : ℤ :=
  toInt32 ((toUInt64 key &&& toUInt64 ((capcity : ℤ) - 1) : ℕ) : ℤ)

/-- `array_get(&map->table, idx)`, as the address of a head. -/
def getHead (m : HashMap α) (idx : ℤ) : Option ℕ := (m.table.arrayGet (toUInt64 idx)).join

/-- `list_to_map_node`. -/
def nodeAt (m : HashMap α) (ls : Node ℕ ℕ) : Option (ℕ × MapNode α) :=
  ls.toElem.bind fun n => (m.nodes n).map fun node => (n, node)

def addHeadCount (m : HashMap α) (h : ℕ) (d : ℤ) : HashMap α :=
  { m with headCount := Function.update m.headCount h (toUInt64 (m.headCount h + d)) }

def addCount (m : HashMap α) (d : ℤ) : HashMap α := { m with count := toUInt64 (m.count + d) }

/-- The address of the head, and the map that owns it. -/
def allocMapHead (m : HashMap α) : ℕ × HashMap α :=
  (m.headBrk, { m with
    links := listInit m.links (.head m.headBrk)
    headCount := Function.update m.headCount m.headBrk 0
    headBrk := m.headBrk + 1 })

/-- `alloc_map_node` and the stores to the fields of the node after it. -/
def allocMapNode (m : HashMap α) (node : MapNode α) : ℕ × HashMap α :=
  (m.nodeBrk, { m with
    links := listInit m.links (.elem m.nodeBrk)
    nodes := Function.update m.nodes m.nodeBrk (some node)
    nodeBrk := m.nodeBrk + 1 })

def freeMapNode (m : HashMap α) (n : ℕ) : HashMap α :=
  { m with links := listDelete m.links (.elem n), nodes := Function.update m.nodes n none }

/-- `list_add_before(&h->head, &node->link)`. -/
def linkNode (m : HashMap α) (h n : ℕ) : HashMap α :=
  { m with links := listAddBefore m.links (.head h) (.elem n) }

def unlinkNode (m : HashMap α) (n : ℕ) : HashMap α :=
  { m with links := listDelete m.links (.elem n) }

/-- A node is freed and counted out, in `hash_map_del` and `hash_map_clearall`. -/
def dropNode (m : HashMap α) (h n : ℕ) : HashMap α :=
  ((m.freeMapNode n).addHeadCount h (-1)).addCount (-1)

@[simp]
theorem dropNode_nodes (m : HashMap α) (h n : ℕ) :
    (m.dropNode h n).nodes = Function.update m.nodes n none := rfl

/-! ### Init and resize -/

/-- The loop that allocates heads, from the index `i` on, with `n` heads to go. -/
def addHeads : ℕ → ℕ → HashMap α → Option (HashMap α)
  | 0, _, m => some m
  | n + 1, i, m =>
      let (h, m) := m.allocMapHead
      (m.table.arrayInsert i (some h)).bind fun r => addHeads n (i + 1) { m with table := r.1 }

def hashMapDefaultCapcity : ℕ := 16

def hashMapInit : Option (HashMap α) :=
  addHeads hashMapDefaultCapcity 0
    { capcity := hashMapDefaultCapcity, table := arrayInit, count := 0, links := ⟨id, id⟩,
      headCount := fun _ => 0, nodes := fun _ => none, headBrk := 0, nodeBrk := 0 }

/-- The inner loop of `hash_map_resize`, on the list of `head`, which is in the bucket `i`. -/
def moveNodes (i : ℤ) (head : ℕ) : ℕ → Node ℕ ℕ → HashMap α → Option (HashMap α)
  | 0, _, _ => none
  | passes + 1, ls, m =>
      if ls = .head head then some m
      else
        match m.nodeAt ls with
        | none => none
        | some (n, node) =>
            let ls := listNext m.links ls
            let idx := bucketIndex node.key m.capcity
            if idx = i then moveNodes i head passes ls m
            else
              let m := (m.unlinkNode n).addHeadCount head (-1)
              match m.getHead idx with
              | none => none
              | some h => moveNodes i head passes ls ((m.linkNode h n).addHeadCount h 1)

/-- The outer loop, from the bucket `i` on, with `k` buckets to go. -/
def moveAll : ℕ → ℕ → HashMap α → Option (HashMap α)
  | 0, _, m => some m
  | k + 1, i, m =>
      match m.getHead i with
      | none => none
      | some head =>
          (moveNodes i head (m.count + 1) (listNext m.links (.head head)) m).bind
            (moveAll k (i + 1))

def hashMapResize (m : HashMap α) : Option (HashMap α) :=
  let oldCap := toInt32 m.capcity
  let m := { m with capcity := toUInt64 (toInt32 (2 * oldCap)) }
  (addHeads (m.capcity - oldCap.toNat) oldCap.toNat m).bind (moveAll oldCap.toNat 0)

/-! ### Get, put and delete -/

/-- The loop that `hash_map_get`, `hash_map_put` and `hash_map_del` have in common. -/
def findNode (m : HashMap α) (h : ℕ) (key : ℤ) (keyname : Key) : ℕ → Node ℕ ℕ → Option (Option ℕ)
  | 0, _ => none
  | passes + 1, ls =>
      if ls = .head h then some none
      else
        match m.nodeAt ls with
        | none => none
        | some (n, node) =>
            if key = node.key ∧ strncmp keyname.chars node.keyname.chars keyname.chars.length = 0 then
              some (some n)
            else findNode m h key keyname passes (listNext m.links ls)

/-- The head of the bucket, and the node that is found. -/
def search (m : HashMap α) (keyname : Key) : Option (ℕ × Option ℕ) :=
  let key := stringHash keyname
  match m.getHead (bucketIndex key m.capcity) with
  | none => none
  | some h =>
      (m.findNode h key keyname (m.count + 1) (listNext m.links (.head h))).map fun r => (h, r)

/-- What the call returns, and the value it stores. -/
def hashMapGet (m : HashMap α) (keyname : Key) : Option (ℤ × Option α) :=
  match m.search keyname with
  | none => none
  | some (_, none) => some (-1, none)
  | some (_, some n) => (m.nodes n).map fun node => (0, some node.value)

/-- `map->count >= (map->capcity * map->load_factor)`: the load factor is `0.75`, and both sides are
`float`s. -/
def loaded (m : HashMap α) : Bool :=
  decide (toFloat32 (3 * toFloat32 m.capcity) ≤ 4 * toFloat32 m.count)

/-- The map and the head that a new node with the hash `key` is linked to. -/
def makeRoom (m : HashMap α) (h : ℕ) (key : ℤ) : Option (HashMap α × ℕ) :=
  if m.loaded then
    m.hashMapResize.bind fun m => (m.getHead (bucketIndex key m.capcity)).map fun h => (m, h)
  else some (m, h)

def addNode (m : HashMap α) (h : ℕ) (node : MapNode α) : HashMap α :=
  let (n, m) := m.allocMapNode node
  ((m.linkNode h n).addHeadCount h 1).addCount 1

def hashMapPut (m : HashMap α) (keyname : Key) (value : α) : Option (HashMap α × ℤ) :=
  match m.search keyname with
  | none => none
  | some (_, some n) =>
      (m.nodes n).map fun node =>
        ({ m with nodes := Function.update m.nodes n (some { node with value := value }) }, 0)
  | some (h, none) =>
      (m.makeRoom h (stringHash keyname)).map fun r =>
        (r.1.addNode r.2 ⟨stringHash keyname, keyname, value⟩, 0)

def hashMapDel (m : HashMap α) (keyname : Key) : Option (HashMap α × ℤ) :=
  match m.search keyname with
  | none => none
  | some (_, none) => some (m, -1)
  | some (h, some n) => some (m.dropNode h n, 0)

def hashMapSize (m : HashMap α) : ℕ := m.count

/-! ### Clear -/

/-- The inner loop of `hash_map_clearall`, on the list of `head`. -/
def clearChain (head : ℕ) : ℕ → Node ℕ ℕ → HashMap α → Option (HashMap α)
  | 0, _, _ => none
  | passes + 1, ls, m =>
      if listEmpty m.links ls then some m
      else
        match m.nodeAt ls with
        | none => none
        | some (n, _) => clearChain head passes (listNext m.links ls) (m.dropNode head n)

/-- `free_map_head((map_head_t *)array_del(&map->table, i))`. -/
def dropHead (m : HashMap α) (i : ℕ) : Option (HashMap α) :=
  (m.table.arrayDel i).bind fun r =>
    r.2.map fun h => { m with table := r.1, links := listDelete m.links (.head h) }

/-- The loop over the buckets below `k`, from the last to the first. -/
def clearBuckets (all : Bool) : ℕ → HashMap α → Option (HashMap α)
  | 0, m => some m
  | i + 1, m =>
      match m.getHead i with
      | none => none
      | some head =>
          (clearChain head (m.count + 1) (listNext m.links (.head head)) m).bind fun m =>
            (if all then m.dropHead i else some m).bind (clearBuckets all i)

def hashMapClearall (m : HashMap α) (all : Bool) : Option (HashMap α) :=
  (clearBuckets all (toInt32 ((m.capcity : ℤ) - 1) + 1).toNat m).map fun m =>
    if all then { m with capcity := 0, table := arrayInit } else m

def hashMapClear (m : HashMap α) : Option (HashMap α) := m.hashMapClearall false

def hashMapDestory (m : HashMap α) : Option (HashMap α) := m.hashMapClearall true

/-! ### Calls -/

inductive Op (α : Type) where
  | get (keyname : Key)
  | put (keyname : Key) (value : α)
  | del (keyname : Key)
  | clear
deriving DecidableEq

/-- The map after a call. -/
def opStep (m : HashMap α) : Op α → Option (HashMap α)
  | .get k => (m.hashMapGet k).map fun _ => m
  | .put k a => (m.hashMapPut k a).map (·.1)
  | .del k => (m.hashMapDel k).map (·.1)
  | .clear => m.hashMapClear

end HashMap

end Libcask
