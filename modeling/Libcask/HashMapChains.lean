import Libcask.HashMap
import Libcask.Transition

/-! # The chains of the hash map

`Chains m v` says that the links of the map `m` hold the lists `v`, one for each head, that the table
holds the heads in the order of their addresses, and that every head counts its list.  One lemma for each
change of a chain, and for each loop of `hash_map.c` that walks along chains: `findNode_eq`,
`addHeads_eq`, `moveAll_spec`, `clearBuckets_spec`. -/

namespace Libcask.HashMap

open CArray

variable {α : Type}

structure Chains (m : HashMap α) (v : View ℕ ℕ) : Prop where
  rings : Rings m.links v
  table : Holds m.table ((List.range m.headBrk).map some)
  outside : ∀ h, m.headBrk ≤ h → v h = []
  fresh : ∀ h n, n ∈ v h → n < m.nodeBrk
  hashed : ∀ h n, n ∈ v h → ∃ node, m.nodes n = some node ∧ node.key = stringHash node.keyname
  headCount : ∀ h, m.headCount h = (v h).length

variable {m : HashMap α} {v : View ℕ ℕ} {h i j n : ℕ}

theorem Chains.lt_headBrk (hc : Chains m v) (hn : n ∈ v h) : h < m.headBrk := by
  by_contra hge
  rw [hc.outside h (Nat.not_lt.mp hge)] at hn
  cases hn

/-- A node that is allocated next is on no chain. -/
theorem Chains.free_nodeBrk (hc : Chains m v) : v.Free m.nodeBrk :=
  fun h hm => Nat.lt_irrefl _ (hc.fresh h _ hm)

theorem Chains.getHead (hc : Chains m v) (hh : h < m.headBrk) (hb : m.headBrk ≤ 2 ^ 64) :
    m.getHead h = some h := by
  unfold HashMap.getHead
  rw [toUInt64_natCast (by omega), hc.table.arrayGet (by simpa using hh)]
  simp

theorem nodeAt_elem {node : MapNode α} (hn : m.nodes n = some node) :
    m.nodeAt (.elem n) = some (n, node) := by
  simp [nodeAt, Node.toElem, hn]

/-! ### Changes of one chain -/

/-- The count of a head that loses a node. -/
theorem toUInt64_sub_one {c : ℕ} (hc : 0 < c) (hb : c < 2 ^ 64) : toUInt64 ((c : ℤ) + -1) = c - 1 := by
  unfold toUInt64
  omega

theorem toUInt64_add_one {c : ℕ} (hb : c + 1 < 2 ^ 64) : toUInt64 ((c : ℤ) + 1) = c + 1 := by
  unfold toUInt64
  omega

/-- The length of a chain after a node was taken out. -/
theorem length_delete (hok : v.Ok) (hn : n ∈ v i) (h : ℕ) :
    (v.delete n h).length = if h = i then (v i).length - 1 else (v h).length := by
  by_cases hi : h = i
  · subst hi
    rw [if_pos rfl, View.delete, List.length_erase_of_mem hn]
  · rw [if_neg hi, View.delete, List.erase_of_not_mem]
    exact fun hm => hi (hok.disjoint hm hn)

theorem length_addBefore (v : View ℕ ℕ) (i n h : ℕ) :
    (v.addBefore i n h).length = if h = i then (v i).length + 1 else (v h).length := by
  by_cases hi : h = i
  · subst hi
    simp [View.addBefore]
  · simp [View.addBefore, hi]

/-- The node `n` leaves the chain of `i`. -/
theorem Chains.unlink (hc : Chains m v) (hn : n ∈ v i) (hb : (v i).length < 2 ^ 64) :
    Chains ((m.unlinkNode n).addHeadCount i (-1)) (v.delete n) where
  rings := rings_delete hc.rings n
  table := hc.table
  outside h hh := by
    rw [View.delete, hc.outside h hh]
    rfl
  fresh h x hx := hc.fresh h x (List.mem_of_mem_erase hx)
  hashed h x hx := hc.hashed h x (List.mem_of_mem_erase hx)
  headCount h := by
    have hpos : 0 < (v i).length := List.length_pos_of_mem hn
    rw [length_delete hc.rings.ok hn]
    by_cases hi : h = i
    · subst hi
      simp [addHeadCount, unlinkNode, hc.headCount, toUInt64_sub_one hpos hb]
    · simp [addHeadCount, unlinkNode, hc.headCount, hi]

/-- The node `n` leaves the chain of `i` and is freed. -/
theorem Chains.dropNode (hc : Chains m v) (hn : n ∈ v i) (hb : (v i).length < 2 ^ 64) :
    Chains (m.dropNode i n) (v.delete n) :=
  { hc.unlink hn hb with
    hashed := fun h x hx => by
      obtain ⟨hne, hx⟩ := (View.mem_delete hc.rings.ok).mp hx
      obtain ⟨node, hnode, hkey⟩ := hc.hashed h x hx
      refine ⟨node, ?_, hkey⟩
      rw [dropNode_nodes, Function.update_of_ne hne]
      exact hnode }

theorem Chains.addCount (hc : Chains m v) (d : ℤ) : Chains (m.addCount d) v := { hc with }

/-- A node that is on no chain is linked at the end of the chain of `j`. -/
theorem Chains.link (hc : Chains m v) (hn : v.Free n) (hj : j < m.headBrk) (hlt : n < m.nodeBrk)
    {node : MapNode α} (hnode : m.nodes n = some node) (hkey : node.key = stringHash node.keyname)
    (hb : (v j).length + 1 < 2 ^ 64) :
    Chains ((m.linkNode j n).addHeadCount j 1) (v.addBefore j n) where
  rings := rings_addBefore hc.rings hn
  table := hc.table
  outside h hh := by
    have hne : h ≠ j := by
      rintro rfl
      exact absurd hj (Nat.not_lt.mpr hh)
    rw [View.addBefore, Function.update_of_ne hne]
    exact hc.outside h hh
  fresh h x hx := by
    rcases View.mem_addBefore.mp hx with ⟨rfl, -⟩ | hx
    · exact hlt
    · exact hc.fresh h x hx
  hashed h x hx := by
    rcases View.mem_addBefore.mp hx with ⟨rfl, -⟩ | hx
    · exact ⟨node, hnode, hkey⟩
    · exact hc.hashed h x hx
  headCount h := by
    rw [length_addBefore]
    by_cases hi : h = j
    · subst hi
      simp [addHeadCount, linkNode, hc.headCount, toUInt64_add_one hb]
    · simp [addHeadCount, linkNode, hc.headCount, hi]

/-- `hash_map_resize` moves the node `n` from the chain of `i` to that of `j`. -/
theorem Chains.move (hc : Chains m v) (hn : n ∈ v i) (hij : j ≠ i) (hj : j < m.headBrk)
    (hbi : (v i).length < 2 ^ 64) (hbj : (v j).length + 1 < 2 ^ 64) :
    Chains ((((m.unlinkNode n).addHeadCount i (-1)).linkNode j n).addHeadCount j 1)
      ((v.delete n).addBefore j n) := by
  obtain ⟨node, hnode, hkey⟩ := hc.hashed i n hn
  have hc₁ : Chains ((m.unlinkNode n).addHeadCount i (-1)) (v.delete n) :=
    hc.unlink hn hbi
  refine hc₁.link (View.free_delete hc.rings.ok n) hj (hc.fresh i n hn) hnode hkey ?_
  rw [length_delete hc.rings.ok hn, if_neg hij]
  exact hbj

/-! ### Searching -/

/-- The test of a node against a key name. -/
def isMatch (m : HashMap α) (keyname : Key) (n : ℕ) : Bool :=
  (m.nodes n).any fun node => decide (stringHash keyname = node.key ∧
    strncmp keyname.chars node.keyname.chars keyname.chars.length = 0)

theorem isMatch_eq {node : MapNode α} (hn : m.nodes n = some node) (k : Key) :
    m.isMatch k n = decide (stringHash k = node.key ∧
      strncmp k.chars node.keyname.chars k.chars.length = 0) := by
  rw [isMatch, hn]
  rfl

/-- The loop finds the first node of the chain that matches. -/
theorem findNode_eq (hc : Chains m v) (k : Key) : ∀ (B A : List ℕ) (passes : ℕ), v h = A ++ B →
    B.length < passes →
    m.findNode h (stringHash k) k passes (Rings.cursor h B) = some (B.find? (m.isMatch k))
  | [], A, passes, _, hp => by
      obtain ⟨p, rfl⟩ := Nat.exists_eq_succ_of_ne_zero hp.ne_bot
      simp [findNode]
  | n :: B, A, passes, hv, hp => by
      obtain ⟨p, rfl⟩ := Nat.exists_eq_succ_of_ne_zero (Nat.ne_of_gt (Nat.zero_lt_of_lt hp))
      have hmem : n ∈ v h := by simp [hv]
      obtain ⟨node, hnode, -⟩ := hc.hashed h n hmem
      have hnext : listNext m.links (.elem n) = Rings.cursor h B := hc.rings.next_elem_cursor hv
      have hrest := findNode_eq hc k B (A ++ [n]) p (by simp [hv]) (by simpa using hp)
      rw [Rings.cursor_cons, findNode, if_neg (by simp), nodeAt_elem hnode]
      dsimp only
      rw [hnext, hrest, List.find?_cons, isMatch_eq hnode]
      split_ifs with hmatch
      · rw [decide_eq_true hmatch]
      · rw [decide_eq_false hmatch]

/-! ### New heads -/

/-- A head that is allocated next has no links and no nodes yet. -/
theorem allocMapHead_eq (hc : Chains m v) :
    m.allocMapHead = (m.headBrk, { m with headBrk := m.headBrk + 1 }) := by
  have hnil := hc.outside m.headBrk (Nat.le_refl _)
  have hlinks : listInit m.links (.head m.headBrk) = m.links :=
    listInit_eq_self _ (hc.rings.next_head_eq_iff.mpr hnil) (hc.rings.prev_head_eq_iff.mpr hnil)
  have hcount : Function.update m.headCount m.headBrk 0 = m.headCount := by
    rw [Function.update_eq_self_iff, hc.headCount, hnil]
    rfl
  rw [allocMapHead, hlinks, hcount]

theorem addHeads_eq : ∀ (k : ℕ) {m : HashMap α}, Chains m v →
    ∃ table, addHeads k m.headBrk m = some { m with table := table, headBrk := m.headBrk + k } ∧
      Chains { m with table := table, headBrk := m.headBrk + k } v
  | 0, m, hc => ⟨m.table, rfl, hc⟩
  | k + 1, m, hc => by
      obtain ⟨t, ht, hholds⟩ := hc.table.arrayInsert_last (some m.headBrk)
      rw [List.length_map, List.length_range] at ht
      have hrange : (List.range m.headBrk).map some ++ [some m.headBrk] =
          (List.range (m.headBrk + 1)).map some := by
        rw [List.range_succ, List.map_append]
        rfl
      have hc₁ : Chains { m with table := t, headBrk := m.headBrk + 1 } v :=
        { hc with
          table := hrange ▸ hholds
          outside := fun h hh => hc.outside h (Nat.le_of_succ_le hh) }
      obtain ⟨table, he, hc'⟩ := addHeads_eq k hc₁
      have hk : m.headBrk + 1 + k = m.headBrk + (k + 1) := by omega
      dsimp only at he hc'
      rw [hk] at he hc'
      refine ⟨table, ?_, hc'⟩
      rw [addHeads, allocMapHead_eq hc]
      dsimp only
      rw [ht]
      exact he

/-! ### Moving nodes -/

/-- The bucket of a node. -/
def idxOf (m : HashMap α) (n : ℕ) : ℤ :=
  ((m.nodes n).map fun node => bucketIndex node.key m.capcity).getD (-1)

theorem idxOf_eq {node : MapNode α} (hn : m.nodes n = some node) :
    m.idxOf n = bucketIndex node.key m.capcity := by
  rw [idxOf, hn, Option.map_some, Option.getD_some]

/-- The chains after the nodes `B` of the chain of `i` have been looked at; `A` are the nodes before. -/
def splitAt (idx : ℕ → ℤ) (i j : ℕ) (A B : List ℕ) (v : View ℕ ℕ) : View ℕ ℕ := fun h =>
  if h = i then A ++ B.filter (fun n => idx n = i)
  else if h = j then v j ++ B.filter (fun n => idx n = j)
  else v h

section splitAt

variable {idx : ℕ → ℤ} {A B : List ℕ}

theorem splitAt_nil (hv : v i = A) : splitAt idx i j A [] v = v := by
  funext h
  unfold splitAt
  split_ifs with h1 h2
  · rw [h1, hv]
    exact List.append_nil _
  · rw [h2]
    exact List.append_nil _
  · rfl

/-- A node that stays. -/
theorem splitAt_stay (hij : j ≠ i) (hn : idx n = i) :
    splitAt idx i j A (n :: B) v = splitAt idx i j (A ++ [n]) B v := by
  have hnj : idx n ≠ j := by omega
  funext h
  unfold splitAt
  rw [List.filter_cons_of_pos (by simpa using hn), List.filter_cons_of_neg (by simpa using hnj),
    List.append_assoc]
  rfl

theorem addBefore_delete_self (hok : View.Ok v) (hn : n ∈ v i) (hij : j ≠ i) :
    ((v.delete n).addBefore j n) j = v j ++ [n] := by
  rw [View.addBefore, Function.update_self, View.delete, List.erase_of_not_mem]
  exact fun hm => hij (hok.disjoint hm hn)

/-- A node that moves. -/
theorem splitAt_move (hok : View.Ok v) (hn : n ∈ v i) (hij : j ≠ i) (hgo : idx n = j) :
    splitAt idx i j A (n :: B) v = splitAt idx i j A B ((v.delete n).addBefore j n) := by
  have hni : idx n ≠ i := by omega
  funext h
  unfold splitAt
  split_ifs with h1 h2
  · rw [List.filter_cons_of_neg (by simpa using hni)]
  · rw [addBefore_delete_self hok hn hij, List.filter_cons_of_pos (by simpa using hgo),
      List.append_assoc]
    rfl
  · rw [View.addBefore, Function.update_of_ne h2, View.delete, List.erase_of_not_mem]
    exact fun hm => h1 (hok.disjoint hm hn)

end splitAt

/-- A move changes the links and the counts of the chains, and nothing else of the map. -/
theorem moved_eq (m : HashMap α) (i j n : ℕ) : ∃ links headCount,
    (((m.unlinkNode n).addHeadCount i (-1)).linkNode j n).addHeadCount j 1 =
      { m with links := links, headCount := headCount } := ⟨_, _, rfl⟩

theorem moveNodes_spec (hij : j ≠ i) : ∀ (B A : List ℕ) (passes : ℕ) {m : HashMap α}
    {v : View ℕ ℕ}, Chains m v → j < m.headBrk → m.headBrk ≤ 2 ^ 64 → v i = A ++ B →
    B.length < passes → (v i).length < 2 ^ 64 → (v j).length + B.length < 2 ^ 64 →
    (∀ n ∈ B, m.idxOf n = i ∨ m.idxOf n = j) →
    ∃ links headCount, moveNodes i i passes (Rings.cursor i B) m =
        some { m with links := links, headCount := headCount } ∧
      Chains { m with links := links, headCount := headCount } (splitAt m.idxOf i j A B v)
  | [], A, passes, m, v, hc, _, _, hv, hp, _, _, _ => by
      obtain ⟨p, rfl⟩ := Nat.exists_eq_succ_of_ne_zero (Nat.ne_of_gt hp)
      refine ⟨m.links, m.headCount, by simp [moveNodes], ?_⟩
      rw [splitAt_nil (hv.trans (List.append_nil A))]
      exact hc
  | n :: B, A, passes, m, v, hc, hj, hb, hv, hp, hbi, hbj, hidx => by
      obtain ⟨p, rfl⟩ := Nat.exists_eq_succ_of_ne_zero (Nat.ne_of_gt (Nat.zero_lt_of_lt hp))
      have hmem : n ∈ v i := by simp [hv]
      obtain ⟨node, hnode, -⟩ := hc.hashed i n hmem
      have hnext : listNext m.links (.elem n) = Rings.cursor i B := hc.rings.next_elem_cursor hv
      rw [List.length_cons] at hp hbj
      have hin := idxOf_eq hnode
      rw [Rings.cursor_cons, moveNodes, if_neg (by simp), nodeAt_elem hnode]
      dsimp only
      rw [hnext, ← hin]
      by_cases hstay : m.idxOf n = i
      · rw [if_pos hstay]
        obtain ⟨L, c, he, hc'⟩ := moveNodes_spec hij B (A ++ [n]) p hc hj hb (by simp [hv]) (by omega)
          hbi (by omega) fun x hx => hidx x (List.mem_cons_of_mem n hx)
        refine ⟨L, c, he, ?_⟩
        rw [splitAt_stay hij hstay]
        exact hc'
      · have hgo : m.idxOf n = j := (hidx n List.mem_cons_self).resolve_left hstay
        have hnotin : n ∉ A := by
          have hnd := hc.rings.ok.nodup i
          rw [hv] at hnd
          exact fun ha => (List.nodup_append.mp hnd).2.2 n ha n List.mem_cons_self rfl
        have hvi : ((v.delete n).addBefore j n) i = A ++ B := by
          rw [View.addBefore, Function.update_of_ne hij.symm, View.delete, hv,
            List.erase_append_right _ hnotin, List.erase_cons_head]
        have hvj := addBefore_delete_self hc.rings.ok hmem hij
        have hc₁ := hc.move hmem hij hj hbi (by omega)
        have hhead : ((m.unlinkNode n).addHeadCount i (-1)).getHead (m.idxOf n) = some j := by
          rw [hgo]
          exact hc.getHead hj hb
        obtain ⟨L₁, c₁, hmoved⟩ := moved_eq m i j n
        rw [hmoved] at hc₁
        obtain ⟨L, c, he, hc'⟩ := moveNodes_spec hij B A p hc₁ hj hb hvi (by omega)
          (by rw [hvi]; rw [hv] at hbi; simp at hbi ⊢; omega)
          (by rw [hvj]; simp; omega) fun x hx => hidx x (List.mem_cons_of_mem n hx)
        rw [if_neg hstay, hhead]
        dsimp only
        rw [hmoved]
        refine ⟨L, c, he, ?_⟩
        rw [splitAt_move hc.rings.ok hmem hij hgo]
        exact hc'

/-- The chains when the buckets below `k` of the `old` ones are done: a bucket and the one `old` after it
share the nodes. -/
def spread (idx : ℕ → ℤ) (old : ℕ) (v : View ℕ ℕ) (k : ℕ) : View ℕ ℕ := fun h =>
  if h < 2 * old ∧ h % old < k then (v (h % old)).filter (fun n => idx n = h) else v h

theorem mod_eq_iff {old : ℕ} (hi : i < old) (hh : h < 2 * old) : h % old = i ↔ h = i ∨ h = i + old := by
  by_cases hlt : h < old
  · rw [Nat.mod_eq_of_lt hlt]
    omega
  · rw [Nat.mod_eq_sub_mod (by omega), Nat.mod_eq_of_lt (by omega)]
    omega

theorem spread_succ {idx : ℕ → ℤ} {old : ℕ} (hout : ∀ h, old ≤ h → v h = []) (hi : i < old) :
    splitAt idx i (i + old) [] (v i) (spread idx old v i) = spread idx old v (i + 1) := by
  have hmod : (i + old) % old = i := by rw [Nat.add_mod_right, Nat.mod_eq_of_lt hi]
  funext h
  unfold splitAt
  split_ifs with h1 h2
  · subst h1
    rw [spread, Nat.mod_eq_of_lt hi, if_pos (by omega)]
    rfl
  · subst h2
    rw [spread, spread, hmod, if_neg (by omega), if_pos (by omega), hout _ (by omega)]
    rfl
  · unfold spread
    by_cases hh : h < 2 * old
    · have hne : h % old ≠ i := fun hc => ((mod_eq_iff hi hh).mp hc).elim h1 h2
      have hiff : h % old < i ↔ h % old < i + 1 := by omega
      simp only [hh, hiff]
    · rw [if_neg (by omega), if_neg (by omega)]

theorem moveAll_spec {idx : ℕ → ℤ} {old : ℕ} (hout : ∀ h, old ≤ h → v h = [])
    (hidx : ∀ i, ∀ n ∈ v i, idx n = i ∨ idx n = (i + old : ℕ)) (k : ℕ) : ∀ (i : ℕ) {m : HashMap α},
    m.idxOf = idx → i + k = old → m.headBrk = 2 * old → 2 * old ≤ 2 ^ 64 → m.count < 2 ^ 64 →
    (∀ h, (v h).length ≤ m.count) → Chains m (spread idx old v i) →
    ∃ links headCount, moveAll k i m = some { m with links := links, headCount := headCount } ∧
      Chains { m with links := links, headCount := headCount } (spread idx old v old) := by
  induction k with
  | zero =>
      intro i m _ hik _ _ _ _ hc
      obtain rfl : i = old := hik
      exact ⟨m.links, m.headCount, rfl, hc⟩
  | succ k ih =>
      intro i m hm hik hbrk hb hcb hlen hc
      have hi : i < old := by omega
      have hvi : spread idx old v i i = v i := by
        rw [spread, Nat.mod_eq_of_lt hi, if_neg (by omega)]
      have hvj : spread idx old v i (i + old) = [] := by
        rw [spread, Nat.add_mod_right, Nat.mod_eq_of_lt hi, if_neg (by omega), hout _ (by omega)]
      have hli := hlen i
      obtain ⟨L, c, he, hc₁⟩ := moveNodes_spec (j := i + old) (by omega) (v i) [] (m.count + 1) hc
        (by omega) (by omega) hvi (by omega) (by rw [hvi]; omega)
        (by rw [hvj, List.length_nil]; omega) (by rw [hm]; exact hidx i)
      rw [hm, spread_succ hout hi] at hc₁
      obtain ⟨L', c', he', hc'⟩ := ih (i + 1) (m := { m with links := L, headCount := c }) hm
        (by omega) hbrk hb hcb hlen hc₁
      refine ⟨L', c', ?_, hc'⟩
      have hnext : listNext m.links (.head i) = Rings.cursor i (v i) := by
        rw [← hvi]
        exact hc.rings.next_head_cursor i
      rw [moveAll, hc.getHead (by omega) (by omega)]
      dsimp only
      rw [hnext, he]
      exact he'

/-! ### Clearing -/

theorem clearChain_spec : ∀ (B : List ℕ) (passes : ℕ) {m : HashMap α} {v : View ℕ ℕ}, Chains m v →
    v i = B → B.length < passes → B.length ≤ m.count → m.count < 2 ^ 64 →
    ∃ m', clearChain i passes (Rings.cursor i B) m = some m' ∧ Chains m' (Function.update v i []) ∧
      m'.count = m.count - B.length ∧ m'.capcity = m.capcity ∧ m'.headBrk = m.headBrk
  | [], passes, m, v, hc, hv, hp, _, _ => by
      obtain ⟨p, rfl⟩ := Nat.exists_eq_succ_of_ne_zero (Nat.ne_of_gt hp)
      have hempty := listEmpty_cursor hc.rings i
      rw [hv] at hempty
      refine ⟨m, ?_, ?_, rfl, rfl, rfl⟩
      · rw [clearChain, hempty]
        rfl
      · rw [← hv, Function.update_eq_self]
        exact hc
  | n :: B, passes, m, v, hc, hv, hp, hle, hb => by
      obtain ⟨p, rfl⟩ := Nat.exists_eq_succ_of_ne_zero (Nat.ne_of_gt (Nat.zero_lt_of_lt hp))
      have hempty := listEmpty_cursor hc.rings i
      rw [hv] at hempty
      have hmem : n ∈ v i := by simp [hv]
      obtain ⟨node, hnode, -⟩ := hc.hashed i n hmem
      have hnext : listNext m.links (.elem n) = Rings.cursor i B :=
        hc.rings.next_elem_cursor (A := []) hv
      rw [List.length_cons] at hp hle
      have hcount : (m.dropNode i n).count = m.count - 1 :=
        toUInt64_sub_one (c := m.count) (by omega) hb
      have hlen : (v i).length < 2 ^ 64 := by
        rw [hv, List.length_cons]
        omega
      have hc₁ := hc.dropNode hmem hlen
      have hvi : v.delete n i = B := by
        rw [View.delete, hv, List.erase_cons_head]
      obtain ⟨m', he, hc', hcnt, hcap, hbrk⟩ :=
        clearChain_spec B p hc₁ hvi (by omega) (by omega) (by omega)
      refine ⟨m', ?_, ?_, ?_, hcap, hbrk⟩
      · rw [clearChain, hempty, Rings.cursor_cons, nodeAt_elem hnode]
        dsimp only
        rw [hnext]
        exact he
      · rw [← View.update_delete hc.rings.ok hmem]
        exact hc'
      · rw [hcnt, hcount, List.length_cons]
        omega

theorem clearBuckets_spec : ∀ (i : ℕ) {m : HashMap α} {v : View ℕ ℕ}, Chains m v →
    i ≤ m.headBrk → m.headBrk ≤ 2 ^ 64 → m.count < 2 ^ 64 →
    ∑ h ∈ Finset.range i, (v h).length ≤ m.count →
    ∃ m', clearBuckets false i m = some m' ∧ Chains m' (fun h => if h < i then [] else v h) ∧
      m'.count = m.count - ∑ h ∈ Finset.range i, (v h).length ∧ m'.capcity = m.capcity ∧
      m'.headBrk = m.headBrk
  | 0, m, v, hc, _, _, _, _ => by
      refine ⟨m, rfl, ?_, by simp, rfl, rfl⟩
      simpa using hc
  | i + 1, m, v, hc, hi, hb, hcb, hsum => by
      rw [Finset.sum_range_succ] at hsum
      have hnext : listNext m.links (.head i) = Rings.cursor i (v i) := hc.rings.next_head_cursor i
      obtain ⟨m₁, he₁, hc₁, hcnt₁, hcap₁, hbrk₁⟩ :=
        clearChain_spec (v i) (m.count + 1) hc rfl (by omega) (by omega) hcb
      have hrest : ∑ h ∈ Finset.range i, (Function.update v i [] h).length =
          ∑ h ∈ Finset.range i, (v h).length := by
        refine Finset.sum_congr rfl fun h hh => ?_
        rw [Function.update_of_ne (Finset.mem_range.mp hh).ne]
      obtain ⟨m', he, hc', hcnt, hcap, hbrk⟩ :=
        clearBuckets_spec i hc₁ (by omega) (by omega) (by omega) (by rw [hrest]; omega)
      refine ⟨m', ?_, ?_, ?_, hcap.trans hcap₁, hbrk.trans hbrk₁⟩
      · rw [clearBuckets, hc.getHead hi hb]
        dsimp only
        rw [hnext, he₁]
        exact he
      · have hview : (fun h => if h < i then [] else Function.update v i [] h) =
            fun h => if h < i + 1 then [] else v h := by
          funext h
          rcases Nat.lt_trichotomy h i with hlt | rfl | hgt
          · rw [if_pos hlt, if_pos (by omega)]
          · simp
          · rw [if_neg (by omega), if_neg (by omega), Function.update_of_ne hgt.ne']
        rwa [hview] at hc'
      · rw [hcnt, hcnt₁, hrest, Finset.sum_range_succ]
        omega

end Libcask.HashMap
