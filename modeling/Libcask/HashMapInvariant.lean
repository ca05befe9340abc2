import Libcask.HashMapChains

/-! # The representation invariant of the hash map

`Rep m v`: the capacity is a power of two, the table holds one head for each bucket, every node is on
the chain of the bucket its hash selects, and the three counters agree with the chains `v`.  There is a
lemma for each operation; `hashMapResize_spec` gives the chains after a resize.

* `representation_invariant`: the invariant holds after any calls that keep the capacity below `2 ^ 30`,
  and every further call returns. -/

namespace Libcask.HashMap

open CArray

variable {α : Type}

structure Rep (m : HashMap α) (v : View ℕ ℕ) : Prop extends Chains m v where
  heads : m.headBrk = m.capcity
  pow : ∃ k, m.capcity = 2 ^ k
  ge : 16 ≤ m.capcity
  placed : ∀ h n node, n ∈ v h → m.nodes n = some node → bucketIndex node.key m.capcity = h
  count : m.count = ∑ h ∈ Finset.range m.capcity, (v h).length
  load : 4 * m.count ≤ 3 * m.capcity

variable {m : HashMap α} {v : View ℕ ℕ} {c h n : ℕ}

/-! ### Buckets -/

/-- Masking with a power of two less one. -/
theorem bucketIndex_eq (hc : ∃ k, c = 2 ^ k) (hb : c ≤ 2 ^ 31) (key : ℤ) :
    bucketIndex key c = (toUInt64 key % c : ℕ) := by
  obtain ⟨k, hk⟩ := hc
  have hpos : 0 < c := hk ▸ Nat.two_pow_pos k
  have hmask : toUInt64 ((c : ℤ) - 1) = c - 1 := by
    unfold toUInt64
    omega
  have hand : toUInt64 key &&& (c - 1) = toUInt64 key % c := by
    rw [hk]
    exact Nat.and_two_pow_sub_one_eq_mod _ _
  have hlt : toUInt64 key % c < c := Nat.mod_lt _ hpos
  rw [bucketIndex, hmask, hand, toInt32_natCast (by omega)]

theorem bucketIndex_lt (hc : ∃ k, c = 2 ^ k) (hb : c ≤ 2 ^ 31) (key : ℤ) :
    ∃ h, h < c ∧ bucketIndex key c = h := by
  refine ⟨toUInt64 key % c, Nat.mod_lt _ ?_, bucketIndex_eq hc hb key⟩
  obtain ⟨k, rfl⟩ := hc
  exact Nat.two_pow_pos k

/-- In a table of twice the size a key stays in its bucket or goes to the one `c` after it. -/
theorem bucketIndex_two_mul (hc : ∃ k, c = 2 ^ k) (hb : 2 * c ≤ 2 ^ 31) {key : ℤ}
    (hh : bucketIndex key c = h) :
    bucketIndex key (2 * c) = h ∨ bucketIndex key (2 * c) = (h + c : ℕ) := by
  have hc2 : ∃ k, 2 * c = 2 ^ k := by
    obtain ⟨k, rfl⟩ := hc
    exact ⟨k + 1, (pow_succ' 2 k).symm⟩
  rw [bucketIndex_eq hc (by omega)] at hh
  have hh' : toUInt64 key % c = h := by exact_mod_cast hh
  have hmod : toUInt64 key % (2 * c) = h + c * (toUInt64 key / c % 2) := by
    rw [Nat.mul_comm 2 c, Nat.mod_mul, hh']
  rw [bucketIndex_eq hc2 hb, hmod]
  rcases Nat.mod_two_eq_zero_or_one (toUInt64 key / c) with h0 | h1
  · left
    rw [h0, Nat.mul_zero, Nat.add_zero]
  · right
    rw [h1, Nat.mul_one]

/-- No chain is longer than the map counts. -/
theorem Rep.length_le (hr : Rep m v) (h : ℕ) : (v h).length ≤ m.count := by
  by_cases hh : h < m.capcity
  · rw [hr.count]
    exact Finset.single_le_sum (f := fun h => (v h).length) (fun _ _ => Nat.zero_le _)
      (Finset.mem_range.mpr hh)
  · rw [hr.outside h (by rw [hr.heads]; omega)]
    exact Nat.zero_le _

/-- The bucket of a key, and the node that the loop finds there. -/
theorem Rep.search (hr : Rep m v) (hb : m.capcity ≤ 2 ^ 30) (k : Key) :
    ∃ h, h < m.capcity ∧ bucketIndex (stringHash k) m.capcity = h ∧
      m.search k = some (h, (v h).find? (m.isMatch k)) := by
  obtain ⟨h, hlt, hidx⟩ := bucketIndex_lt hr.pow (by omega) (stringHash k)
  have hheads := hr.heads
  have hlen := hr.length_le h
  have hfind := findNode_eq hr.toChains k (v h) [] (m.count + 1) rfl (by omega)
  have hnext : listNext m.links (.head h) = Rings.cursor h (v h) := hr.rings.next_head_cursor h
  refine ⟨h, hlt, hidx, ?_⟩
  unfold HashMap.search
  dsimp only
  rw [hidx, hr.getHead (by omega) (by omega)]
  dsimp only
  rw [hnext, hfind]
  rfl

/-! ### Init -/

theorem hashMapInit_spec : ∃ m : HashMap α, hashMapInit = some m ∧ Rep m (fun _ => []) ∧
    m.capcity = hashMapDefaultCapcity := by
  have hc : Chains (α := α) ⟨hashMapDefaultCapcity, arrayInit, 0, ⟨id, id⟩, fun _ => 0, fun _ => none, 0, 0⟩
      fun _ => [] := by
    refine ⟨Rings.init, holds_init, ?_, ?_, ?_, ?_⟩ <;> simp
  obtain ⟨table, he, hc'⟩ := addHeads_eq hashMapDefaultCapcity hc
  exact ⟨_, he, ⟨hc', rfl, ⟨4, rfl⟩, Nat.le_refl _, by simp, by simp, Nat.zero_le _⟩, rfl⟩

/-- The map that `hash_map_init` makes. -/
def initial (α : Type) : HashMap α :=
  hashMapInit.get (by
    obtain ⟨m, he, -⟩ := hashMapInit_spec (α := α)
    rw [he]
    rfl)

theorem hashMapInit_eq : hashMapInit = some (initial α) := (Option.some_get _).symm

/-! ### Resize -/

/-- A bucket and the one `c` after it share what the bucket held. -/
theorem nodes_spread {idx : ℕ → ℤ} (hc : 0 < c)
    (hidx : ∀ i, ∀ n ∈ v i, idx n = i ∨ idx n = (i + c : ℕ)) :
    ∑ h ∈ Finset.range (2 * c), (spread idx c v c h : Multiset ℕ) =
      ∑ h ∈ Finset.range c, (v h : Multiset ℕ) := by
  rw [Nat.two_mul, Finset.sum_range_add, ← Finset.sum_add_distrib]
  refine Finset.sum_congr rfl fun i hi => ?_
  have hi := Finset.mem_range.mp hi
  have hlow : spread idx c v c i = (v i).filter fun n => idx n = i := by
    rw [spread, Nat.mod_eq_of_lt hi, if_pos (by omega)]
  have hhigh : spread idx c v c (c + i) = (v i).filter fun n => !decide (idx n = i) := by
    rw [spread, Nat.add_mod_left, Nat.mod_eq_of_lt hi, if_pos (by omega)]
    refine List.filter_congr fun n hn => ?_
    have := hidx i n hn
    rw [← decide_not, decide_eq_decide]
    omega
  rw [hlow, hhigh, Multiset.coe_add, Multiset.coe_eq_coe]
  exact List.filter_append_perm _ _

theorem length_spread {idx : ℕ → ℤ} (hc : 0 < c)
    (hidx : ∀ i, ∀ n ∈ v i, idx n = i ∨ idx n = (i + c : ℕ)) :
    ∑ h ∈ Finset.range (2 * c), (spread idx c v c h).length = ∑ h ∈ Finset.range c, (v h).length := by
  have hcard := congrArg Multiset.card (nodes_spread hc hidx)
  simpa using hcard

theorem Rep.idx (hr : Rep m v) (hb : 2 * m.capcity ≤ 2 ^ 31) (i : ℕ) (hn : n ∈ v i) :
    idxOf { m with capcity := 2 * m.capcity } n = i ∨
      idxOf { m with capcity := 2 * m.capcity } n = (i + m.capcity : ℕ) := by
  obtain ⟨node, hnode, -⟩ := hr.hashed i n hn
  rw [idxOf_eq (m := { m with capcity := 2 * m.capcity }) hnode]
  exact bucketIndex_two_mul hr.pow hb (hr.placed i n node hn hnode)

/-- The chains after a resize. -/
def resized (m : HashMap α) (v : View ℕ ℕ) : View ℕ ℕ :=
  spread (idxOf { m with capcity := 2 * m.capcity }) m.capcity v m.capcity

/-- A node that was on a chain is on the one that its hash selects in the larger table, and no other
node is. -/
theorem Rep.mem_resized (hr : Rep m v) (hb : m.capcity < 2 ^ 30) : n ∈ resized m v h ↔
    (∃ i, n ∈ v i) ∧ idxOf { m with capcity := 2 * m.capcity } n = h := by
  have hge := hr.ge
  unfold resized spread
  constructor
  · intro hn
    split_ifs at hn with hlt
    · obtain ⟨hn, hi⟩ := List.mem_filter.mp hn
      exact ⟨⟨_, hn⟩, by simpa using hi⟩
    · have hh : h < m.capcity := hr.heads ▸ hr.lt_headBrk hn
      have hmod := Nat.mod_lt h (show 0 < m.capcity by omega)
      omega
  · rintro ⟨⟨i, hn⟩, hi⟩
    have hic : i < m.capcity := hr.heads ▸ hr.lt_headBrk hn
    have hcase := hr.idx (by omega) i hn
    have hmod : h % m.capcity = i := (mod_eq_iff hic (by omega)).mpr (by omega)
    rw [hmod, if_pos (by omega)]
    exact List.mem_filter.mpr ⟨hn, by simpa using hi⟩

theorem hashMapResize_spec (hr : Rep m v) (hb : m.capcity < 2 ^ 30) :
    ∃ m', m.hashMapResize = some m' ∧ Rep m' (resized m v) ∧ m'.capcity = 2 * m.capcity ∧
      m'.count = m.count ∧ m'.nodes = m.nodes ∧ m'.nodeBrk = m.nodeBrk := by
  have hge := hr.ge
  have hload := hr.load
  have hheads := hr.heads
  have hidx : ∀ i, ∀ n ∈ v i, _ := fun i n hn => hr.idx (by omega) i hn
  have hout : ∀ h, m.capcity ≤ h → v h = [] := fun h hh => hr.outside h (by omega)
  -- the two conversions of the capacity change nothing
  have hold : toInt32 m.capcity = m.capcity := toInt32_natCast (by omega)
  have hcap : toUInt64 (toInt32 (2 * (m.capcity : ℤ))) = 2 * m.capcity := by
    have h2 : toInt32 (2 * (m.capcity : ℤ)) = (2 * m.capcity : ℕ) := by
      rw [← toInt32_natCast (n := 2 * m.capcity) (by omega), Nat.cast_mul]
      rfl
    rw [h2, toUInt64_natCast (by omega)]
  have hc : Chains { m with capcity := 2 * m.capcity } v := { hr.toChains with }
  obtain ⟨table, he₁, hc₁⟩ := addHeads_eq (2 * m.capcity - m.capcity) hc
  dsimp only at he₁ hc₁
  have hbrk : m.headBrk + (2 * m.capcity - m.capcity) = 2 * m.capcity := by omega
  rw [hbrk] at he₁ hc₁
  have hspread : spread (idxOf { m with capcity := 2 * m.capcity }) m.capcity v 0 = v := by
    funext h
    rw [spread, if_neg (by omega)]
  obtain ⟨L, cnt, he₂, hc₂⟩ := moveAll_spec hout hidx m.capcity 0
    (m := { m with capcity := 2 * m.capcity, table := table, headBrk := 2 * m.capcity }) rfl
    (Nat.zero_add _) rfl (by omega) (by show m.count < 2 ^ 64; omega) hr.length_le
    (by rw [hspread]; exact hc₁)
  refine ⟨_, ?_, ⟨hc₂, rfl, ?_, ?_, ?_, ?_, ?_⟩, rfl, rfl, rfl, rfl⟩
  · unfold hashMapResize
    dsimp only
    rw [hold, hcap, Int.toNat_natCast, ← hheads, hheads]
    rw [hheads] at he₁
    rw [he₁]
    exact he₂
  · obtain ⟨k, hk⟩ := hr.pow
    exact ⟨k + 1, by rw [hk, pow_succ']⟩
  · show 16 ≤ 2 * m.capcity
    omega
  · intro h n node hn hnode
    show bucketIndex node.key (2 * m.capcity) = h
    rw [← idxOf_eq (m := { m with capcity := 2 * m.capcity }) hnode]
    exact ((hr.mem_resized hb).mp hn).2
  · show m.count = _
    rw [hr.count]
    exact (length_spread (by omega) hidx).symm
  · show 4 * m.count ≤ 3 * (2 * m.capcity)
    omega

/-! ### Room for a node -/

/-- Short of the load test there is room for one more node: rounding to a `float` does not take the
count below three quarters of the capacity. -/
theorem Rep.load_of_not_loaded (hr : Rep m v) (hl : m.loaded = false) :
    4 * (m.count + 1) ≤ 3 * m.capcity := by
  obtain ⟨k, hk⟩ := hr.pow
  have hge := hr.ge
  have hk2 : 2 ≤ k := by
    by_contra hlt
    have hle : 2 ^ k ≤ 2 ^ 1 := Nat.pow_le_pow_right (by omega) (by omega)
    omega
  obtain ⟨j, rfl⟩ := Nat.exists_eq_add_of_le hk2
  have hcap : toFloat32 m.capcity = m.capcity := by
    have hf := toFloat32_of_representable (m := 1) (by decide) (2 + j)
    rwa [Nat.one_mul, ← hk] at hf
  have hthree : toFloat32 (3 * m.capcity) = 3 * m.capcity := by
    rw [hk]
    exact toFloat32_of_representable (by decide) (2 + j)
  rw [loaded, hcap, hthree, decide_eq_false_iff_not, Nat.not_le] at hl
  by_contra hgt
  have hpow : m.capcity = 4 * 2 ^ j := by
    rw [hk, pow_add]
    norm_num
  have hle := le_toFloat32 (m := 3) (j := j) (n := m.count) (by decide) (by omega)
  omega

theorem makeRoom_spec (hr : Rep m v) (hb : m.capcity < 2 ^ 30) {key : ℤ} (hh : h < m.capcity)
    (hidx : bucketIndex key m.capcity = h) :
    ∃ m' v' h', m.makeRoom h key = some (m', h') ∧ Rep m' v' ∧ h' < m'.capcity ∧
      bucketIndex key m'.capcity = h' ∧ 4 * (m'.count + 1) ≤ 3 * m'.capcity ∧
      m'.capcity ≤ 2 * m.capcity ∧ m'.nodes = m.nodes ∧ ∀ n, (∃ h, n ∈ v' h) ↔ ∃ h, n ∈ v h := by
  unfold makeRoom
  cases hl : m.loaded with
  | false =>
      exact ⟨m, v, h, rfl, hr, hh, hidx, hr.load_of_not_loaded hl, by omega, rfl, fun n => .rfl⟩
  | true =>
      obtain ⟨m', he, hr', hcap, hcount, hnodes, -⟩ := hashMapResize_spec hr hb
      obtain ⟨h', hlt, hidx'⟩ := bucketIndex_lt hr'.pow (by omega) key
      have hheads := hr'.heads
      have hload := hr.load
      have hge := hr.ge
      refine ⟨m', _, h', ?_, hr', hlt, hidx', by omega, hcap.le, hnodes, fun n => ?_⟩
      · rw [if_pos rfl, he, Option.bind_some, hidx', hr'.getHead (by omega) (by omega)]
        rfl
      · constructor
        · rintro ⟨x, hx⟩
          exact ((hr.mem_resized hb).mp hx).1
        · rintro ⟨x, hx⟩
          rcases hr.idx (by omega) x hx with hi | hi
          · exact ⟨_, (hr.mem_resized hb).mpr ⟨⟨x, hx⟩, hi⟩⟩
          · exact ⟨_, (hr.mem_resized hb).mpr ⟨⟨x, hx⟩, hi⟩⟩

/-! ### Put, delete and clear -/

/-- One chain is longer by one node. -/
theorem sum_length_succ {w w' : View ℕ ℕ} {i : ℕ} (hi : i < c)
    (hw : ∀ h, (w' h).length = (w h).length + if h = i then 1 else 0) :
    ∑ h ∈ Finset.range c, (w' h).length = ∑ h ∈ Finset.range c, (w h).length + 1 := by
  simp only [hw, Finset.sum_add_distrib, Finset.sum_ite_eq', Finset.mem_range, hi, if_true]

/-- The memory of a new node is on no chain, and its links are in order. -/
theorem Rep.allocMapNode (hr : Rep m v) (node : MapNode α) :
    m.allocMapNode node = (m.nodeBrk, { m with
      nodes := Function.update m.nodes m.nodeBrk (some node), nodeBrk := m.nodeBrk + 1 }) := by
  rw [HashMap.allocMapNode, listInit_of_free hr.rings hr.free_nodeBrk]

theorem addNode_spec (hr : Rep m v) (hh : h < m.capcity) (hb : m.capcity < 2 ^ 31) {node : MapNode α}
    (hkey : node.key = stringHash node.keyname) (hidx : bucketIndex node.key m.capcity = h)
    (hroom : 4 * (m.count + 1) ≤ 3 * m.capcity) :
    Rep (m.addNode h node) (v.addBefore h m.nodeBrk) ∧
      (m.addNode h node).nodes = Function.update m.nodes m.nodeBrk (some node) ∧
      (m.addNode h node).capcity = m.capcity := by
  have hheads := hr.heads
  have hlen := hr.length_le h
  have hold : ∀ h x, x ∈ v h → Function.update m.nodes m.nodeBrk (some node) x = m.nodes x :=
    fun h x hx => Function.update_of_ne (hr.fresh h x hx).ne _ _
  have hc : Chains { m with
      nodes := Function.update m.nodes m.nodeBrk (some node), nodeBrk := m.nodeBrk + 1 } v :=
    { hr.toChains with
      fresh := fun h x hx => Nat.lt_succ_of_lt (hr.fresh h x hx)
      hashed := fun h x hx => by
        obtain ⟨node₀, h₀, hkey₀⟩ := hr.hashed h x hx
        exact ⟨node₀, (hold h x hx).trans h₀, hkey₀⟩ }
  have hnew : Function.update m.nodes m.nodeBrk (some node) m.nodeBrk = some node :=
    Function.update_self ..
  have hc' := (hc.link hr.free_nodeBrk (by show h < m.headBrk; omega) (Nat.lt_succ_self _) hnew hkey
    (by omega)).addCount 1
  have hcount : toUInt64 ((m.count : ℤ) + 1) = m.count + 1 := toUInt64_add_one (by omega)
  have haddNode : m.addNode h node = ((({ m with
      nodes := Function.update m.nodes m.nodeBrk (some node), nodeBrk := m.nodeBrk + 1 } :
        HashMap α).linkNode h m.nodeBrk).addHeadCount h 1).addCount 1 := by
    rw [addNode, hr.allocMapNode]
  rw [haddNode]
  refine ⟨⟨hc', hheads, hr.pow, hr.ge, ?_, ?_, ?_⟩, rfl, rfl⟩
  · intro h' x node' hx hnode'
    change Function.update m.nodes m.nodeBrk (some node) x = some node' at hnode'
    rcases View.mem_addBefore.mp hx with ⟨rfl, rfl⟩ | hx
    · rw [hnew] at hnode'
      obtain rfl := Option.some.inj hnode'
      exact hidx
    · rw [hold h' x hx] at hnode'
      exact hr.placed h' x node' hx hnode'
  · show toUInt64 ((m.count : ℤ) + 1) = _
    rw [hcount, hr.count]
    refine (sum_length_succ hh fun x => ?_).symm
    rw [length_addBefore]
    split_ifs with hx
    · rw [hx]
    · rfl
  · show 4 * toUInt64 ((m.count : ℤ) + 1) ≤ 3 * m.capcity
    rw [hcount]
    exact hroom

theorem dropNode_spec (hr : Rep m v) (hb : m.capcity ≤ 2 ^ 30) (hn : n ∈ v h) :
    Rep (m.dropNode h n) (v.delete n) := by
  have hh : h < m.capcity := hr.heads ▸ hr.lt_headBrk hn
  have hload := hr.load
  have hlen := hr.length_le h
  have hpos : 0 < (v h).length := List.length_pos_of_mem hn
  have hcount : toUInt64 ((m.count : ℤ) + -1) = m.count - 1 := toUInt64_sub_one (by omega) (by omega)
  refine ⟨hr.dropNode hn (by omega), hr.heads, hr.pow, hr.ge, ?_, ?_, ?_⟩
  · intro h' x node hx hnode
    obtain ⟨hne, hx⟩ := (View.mem_delete hr.rings.ok).mp hx
    rw [dropNode_nodes, Function.update_of_ne hne] at hnode
    exact hr.placed h' x node hx hnode
  · have hsucc : ∀ x, (v x).length = (v.delete n x).length + if x = h then 1 else 0 := by
      intro x
      rw [length_delete hr.rings.ok hn]
      split_ifs with hx
      · rw [hx]
        omega
      · rfl
    have hsum := sum_length_succ hh hsucc
    rw [← hr.count] at hsum
    show toUInt64 ((m.count : ℤ) + -1) = ∑ x ∈ Finset.range m.capcity, (v.delete n x).length
    omega
  · show 4 * toUInt64 ((m.count : ℤ) + -1) ≤ 3 * m.capcity
    omega

/-- A new value for a node. -/
theorem Rep.setValue (hr : Rep m v) {node : MapNode α} (hn : m.nodes n = some node) (a : α) :
    Rep { m with nodes := Function.update m.nodes n (some { node with value := a }) } v := by
  refine { hr with hashed := fun h x hx => ?_, placed := fun h x node' hx hnode' => ?_ }
  · obtain ⟨node₀, h₀, hkey⟩ := hr.hashed h x hx
    by_cases hxn : x = n
    · subst hxn
      obtain rfl := Option.some.inj (hn.symm.trans h₀)
      exact ⟨_, Function.update_self .., hkey⟩
    · exact ⟨node₀, (Function.update_of_ne hxn _ _).trans h₀, hkey⟩
  · change Function.update m.nodes n (some { node with value := a }) x = some node' at hnode'
    by_cases hxn : x = n
    · subst hxn
      rw [Function.update_self] at hnode'
      obtain rfl := Option.some.inj hnode'
      exact hr.placed h x node hx hn
    · rw [Function.update_of_ne hxn] at hnode'
      exact hr.placed h x node' hx hnode'

theorem hashMapClear_spec (hr : Rep m v) (hb : m.capcity ≤ 2 ^ 30) :
    ∃ m', m.hashMapClear = some m' ∧ Rep m' (fun _ => []) ∧ m'.capcity = m.capcity := by
  have hge := hr.ge
  have hload := hr.load
  have hheads := hr.heads
  have hlast : (toInt32 ((m.capcity : ℤ) - 1) + 1).toNat = m.capcity := by
    rw [toInt32_of_isInt32 (by unfold IsInt32; omega)]
    omega
  obtain ⟨m', he, hc, hcount, hcap, hbrk⟩ := clearBuckets_spec m.capcity hr.toChains (by omega)
    (by omega) (by omega) hr.count.ge
  have hview : (fun h => if h < m.capcity then [] else v h) = fun _ => [] := by
    funext h
    split_ifs with hh
    · rfl
    · exact hr.outside h (by omega)
  rw [hview] at hc
  have hzero : m'.count = 0 := by
    rw [hcount, ← hr.count, Nat.sub_self]
  refine ⟨m', ?_, ⟨hc, by omega, hcap ▸ hr.pow, by omega, by simp, by simp [hzero], by omega⟩, hcap⟩
  rw [hashMapClear, hashMapClearall, hlast, he]
  rfl

/-! ### Calls -/

/-- The node that a call finds for a key, if there is one. -/
def Finds (m : HashMap α) (v : View ℕ ℕ) (k : Key) (o : Option ℕ) : Prop :=
  ∃ h : ℕ, bucketIndex (stringHash k) m.capcity = h ∧ (v h).find? (m.isMatch k) = o

/-- A node that is found is on a chain. -/
theorem Rep.found (hr : Rep m v) {k : Key} (hf : (v h).find? (m.isMatch k) = some n) :
    n ∈ v h ∧ m.isMatch k n = true ∧ ∃ node, m.nodes n = some node := by
  have hmem := List.mem_of_find?_eq_some hf
  obtain ⟨node, hnode, -⟩ := hr.hashed h n hmem
  exact ⟨hmem, List.find?_some hf, node, hnode⟩

theorem hashMapGet_spec (hr : Rep m v) (hb : m.capcity < 2 ^ 30) (k : Key) :
    Finds m v k none ∧ m.hashMapGet k = some (-1, none) ∨
      ∃ n node, Finds m v k (some n) ∧ m.nodes n = some node ∧
        m.hashMapGet k = some (0, some node.value) := by
  obtain ⟨h, -, hidx, hs⟩ := hr.search hb.le k
  unfold hashMapGet
  rw [hs]
  cases hf : (v h).find? (m.isMatch k) with
  | none => exact .inl ⟨⟨h, hidx, hf⟩, rfl⟩
  | some n =>
      obtain ⟨-, -, node, hnode⟩ := hr.found hf
      exact .inr ⟨n, node, ⟨h, hidx, hf⟩, hnode, by simp [hnode]⟩

theorem hashMapDel_spec (hr : Rep m v) (hb : m.capcity < 2 ^ 30) (k : Key) :
    Finds m v k none ∧ m.hashMapDel k = some (m, -1) ∨
      ∃ n h, Finds m v k (some n) ∧ n ∈ v h ∧ m.hashMapDel k = some (m.dropNode h n, 0) ∧
        Rep (m.dropNode h n) (v.delete n) := by
  obtain ⟨h, -, hidx, hs⟩ := hr.search hb.le k
  unfold hashMapDel
  rw [hs]
  cases hf : (v h).find? (m.isMatch k) with
  | none => exact .inl ⟨⟨h, hidx, hf⟩, rfl⟩
  | some n =>
      obtain ⟨hmem, -, -⟩ := hr.found hf
      exact .inr ⟨n, h, ⟨h, hidx, hf⟩, hmem, rfl, dropNode_spec hr hb.le hmem⟩

theorem hashMapPut_spec (hr : Rep m v) (hb : m.capcity < 2 ^ 30) (k : Key) (a : α) :
    (∃ n node, Finds m v k (some n) ∧ m.nodes n = some node ∧ m.hashMapPut k a =
      some ({ m with nodes := Function.update m.nodes n (some { node with value := a }) }, 0)) ∨
    ∃ m' v' n, Finds m v k none ∧ m.hashMapPut k a = some (m', 0) ∧ Rep m' v' ∧ v.Free n ∧
      m'.nodes = Function.update m.nodes n (some ⟨stringHash k, k, a⟩) ∧
      ∀ x, (∃ h, x ∈ v' h) ↔ x = n ∨ ∃ h, x ∈ v h := by
  obtain ⟨h, hlt, hidx, hs⟩ := hr.search hb.le k
  unfold hashMapPut
  rw [hs]
  cases hf : (v h).find? (m.isMatch k) with
  | some n =>
      obtain ⟨-, -, node, hnode⟩ := hr.found hf
      exact .inl ⟨n, node, ⟨h, hidx, hf⟩, hnode, by simp [hnode]⟩
  | none =>
      obtain ⟨m₁, v₁, h₁, he, hr₁, hlt₁, hidx₁, hroom, hcap₁, hnodes, hiff⟩ :=
        makeRoom_spec hr hb hlt hidx
      have hkey : (⟨stringHash k, k, a⟩ : MapNode α).key = stringHash k := rfl
      obtain ⟨hr', hnodes', -⟩ := addNode_spec hr₁ hlt₁ (by omega) hkey hidx₁ hroom
      refine .inr ⟨_, _, m₁.nodeBrk, ⟨h, hidx, hf⟩, ?_, hr', ?_, ?_, fun x => ?_⟩
      · dsimp only
        rw [he]
        rfl
      · intro h' hmem
        obtain ⟨h'', hmem'⟩ := (hiff _).mpr ⟨h', hmem⟩
        exact hr₁.free_nodeBrk h'' hmem'
      · rw [hnodes', hnodes]
      · simp only [View.mem_addBefore, exists_or, hiff]
        simp

theorem opStep_spec (hr : Rep m v) (hb : m.capcity < 2 ^ 30) (op : Op α) :
    ∃ m' v', opStep m op = some m' ∧ Rep m' v' := by
  cases op with
  | get k =>
      rcases hashMapGet_spec hr hb k with ⟨-, he⟩ | ⟨n, node, -, -, he⟩
      · exact ⟨m, v, by rw [opStep, he]; rfl, hr⟩
      · exact ⟨m, v, by rw [opStep, he]; rfl, hr⟩
  | put k a =>
      rcases hashMapPut_spec hr hb k a with ⟨n, node, -, hnode, he⟩ | ⟨m', v', n, -, he, hr', -⟩
      · exact ⟨_, v, by rw [opStep, he]; rfl, hr.setValue hnode a⟩
      · exact ⟨m', v', by rw [opStep, he]; rfl, hr'⟩
  | del k =>
      rcases hashMapDel_spec hr hb k with ⟨-, he⟩ | ⟨n, h, -, -, he, hr'⟩
      · exact ⟨m, v, by rw [opStep, he]; rfl, hr⟩
      · exact ⟨_, _, by rw [opStep, he]; rfl, hr'⟩
  | clear =>
      obtain ⟨m', he, hr', -⟩ := hashMapClear_spec hr hb.le
      exact ⟨m', _, he, hr'⟩

def system (α : Type) : TS (HashMap α) (Op α) where
  init m := hashMapInit = some m
  step := opStep

/-- The capacity stays below `2 ^ 30`. -/
def bounded (m : HashMap α) (op : Op α) : Prop :=
  ((opStep m op).all fun m' => decide (m'.capcity < 2 ^ 30)) = true

instance (m : HashMap α) (op : Op α) : Decidable (bounded m op) :=
  inferInstanceAs (Decidable (_ = true))

theorem capcity_of_bounded {m m' : HashMap α} {op : Op α} (hb : bounded m op)
    (he : opStep m op = some m') : m'.capcity < 2 ^ 30 := by
  rw [bounded, he] at hb
  exact of_decide_eq_true hb

theorem rep_of_reach (hm : (system α).ReachVia bounded m) :
    (∃ v, Rep m v) ∧ m.capcity < 2 ^ 30 := by
  refine hm.invariant (I := fun m => (∃ v, Rep m v) ∧ m.capcity < 2 ^ 30) (fun m h0 => ?_)
    fun m op m' h hb he => ?_
  · obtain ⟨m₀, he, hr, hcap⟩ := hashMapInit_spec (α := α)
    obtain rfl : m₀ = m := Option.some.inj (he.symm.trans h0)
    refine ⟨⟨_, hr⟩, ?_⟩
    rw [hcap]
    decide
  · obtain ⟨⟨v, hr⟩, hcap⟩ := h
    obtain ⟨m₁, v₁, he₁, hr₁⟩ := opStep_spec hr hcap op
    obtain rfl : m₁ = m' := Option.some.inj (he₁.symm.trans he)
    exact ⟨⟨v₁, hr₁⟩, capcity_of_bounded hb he⟩

/-- The invariant holds after any calls, and a further call of any kind returns. -/
theorem representation_invariant (hm : (system α).ReachVia bounded m) :
    (∃ v, Rep m v) ∧ ∀ op, ∃ m', opStep m op = some m' := by
  obtain ⟨⟨v, hr⟩, hcap⟩ := rep_of_reach hm
  refine ⟨⟨v, hr⟩, fun op => ?_⟩
  obtain ⟨m', -, he, -⟩ := opStep_spec hr hcap op
  exact ⟨m', he⟩

theorem letter_ne_zero (i : Fin 26) : BitVec.ofNat 8 (97 + i) ≠ 0 := by
  intro h
  have hn := congrArg BitVec.toNat h
  rw [BitVec.toNat_ofNat, Nat.mod_eq_of_lt (by omega)] at hn
  exact absurd hn (by simp)

/-- The keys `"a"`, `"b"`, and so on. -/
def letter (i : Fin 26) : Key :=
  ⟨[BitVec.ofNat 8 (97 + i)], by simpa using letter_ne_zero i, by simp⟩

/-- The thirteenth key makes the table grow. -/
theorem representation_invariant_grown : ∃ m : HashMap ℕ, (system ℕ).ReachVia bounded m ∧
    (m.capcity = 32 ∧ m.count = 13) ∧ (∃ v, Rep m v) ∧ ∀ op, ∃ m', opStep m op = some m' := by
  obtain ⟨m, hm, ht⟩ := TS.ReachVia.exists_of_run (M := system ℕ) bounded
    (((List.finRange 26).take 13).map fun i => .put (letter i) i)
    (fun m => decide (m.capcity = 32 ∧ m.count = 13)) hashMapInit_eq (by decide +kernel)
    (by decide +kernel)
  exact ⟨m, hm, of_decide_eq_true ht, representation_invariant hm⟩

end Libcask.HashMap
