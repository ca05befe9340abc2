import Libcask.HashMapInvariant

/-! # Growing the hash map

What `hash_map_resize` does to the chains, and that no lookup notices it.  A key finds the first node of
its chain that matches; the nodes that match it have its hash, so they all go to the same bucket, and
their order stays.

* `resize_invisible`: for every map that calls can make with a capacity below `2 ^ 30`, the range in
  which the `int` of the new capacity does not overflow. -/

namespace Libcask.HashMap

variable {α : Type} {m m' : HashMap α} {v : View ℕ ℕ} {h i n : ℕ}

/-- The order of the nodes that share a bucket does not change. -/
theorem resized_sublist (hh : h < m.capcity ∨ m.capcity ≤ h ∧ h < 2 * m.capcity) :
    (resized m v h).Sublist (v (h % m.capcity)) := by
  have hmod := Nat.mod_lt h (show 0 < m.capcity by omega)
  rw [resized, spread, if_pos (by omega)]
  exact List.filter_sublist

/-- A node that matches a key has its hash. -/
theorem key_of_isMatch {k : Key} {node : MapNode α} (hn : m.nodes n = some node)
    (hm : m.isMatch k n = true) : node.key = stringHash k := by
  rw [isMatch_eq hn, decide_eq_true_eq] at hm
  exact hm.1.symm

theorem isMatch_congr (hnodes : m'.nodes = m.nodes) (k : Key) (n : ℕ) :
    m'.isMatch k n = m.isMatch k n := by
  rw [isMatch, isMatch, hnodes]

/-- A lookup in the larger table finds the same node. -/
theorem find_resized (hr : Rep m v) (hb : m.capcity < 2 ^ 30) (hnodes : m'.nodes = m.nodes)
    {k : Key} (hi : bucketIndex (stringHash k) m.capcity = i)
    (hh : bucketIndex (stringHash k) (2 * m.capcity) = h) :
    (resized m v h).find? (m'.isMatch k) = (v i).find? (m.isMatch k) := by
  have hge := hr.ge
  have hic : i < m.capcity := by
    obtain ⟨i', hlt, hi'⟩ := bucketIndex_lt hr.pow (by omega) (stringHash k)
    omega
  have hcase := bucketIndex_two_mul hr.pow (by omega) hi
  have hmod : h % m.capcity = i := (mod_eq_iff hic (by omega)).mpr (by omega)
  rw [resized, spread, hmod, if_pos (by omega), List.find?_filter]
  refine List.find?_congr fun n hn => ?_
  rw [isMatch_congr hnodes]
  cases hmatch : m.isMatch k n with
  | false => simp
  | true =>
      obtain ⟨node, hnode, -⟩ := hr.hashed i n hn
      have hidx : idxOf { m with capcity := 2 * m.capcity } n = h := by
        rw [idxOf_eq (m := { m with capcity := 2 * m.capcity }) hnode, key_of_isMatch hnode hmatch]
        exact hh
      simp [hidx]

/-- The capacity is a power of two. -/
theorem Rep.two_mul_le (hr : Rep m v) (hb : m.capcity < 2 ^ 30) : 2 * m.capcity ≤ 2 ^ 30 := by
  obtain ⟨k, hk⟩ := hr.pow
  rw [hk] at hb
  have hlt : k < 30 := (Nat.pow_lt_pow_iff_right (by decide)).mp hb
  rw [hk, ← pow_succ']
  exact Nat.pow_le_pow_right (by decide) hlt

theorem hashMapGet_resized (hr : Rep m v) (hb : m.capcity < 2 ^ 30)
    (hr' : Rep m' (resized m v)) (hcap : m'.capcity = 2 * m.capcity) (hnodes : m'.nodes = m.nodes)
    (k : Key) : m'.hashMapGet k = m.hashMapGet k := by
  obtain ⟨i, -, hi, hs⟩ := hr.search hb.le k
  obtain ⟨h, -, hh, hs'⟩ := hr'.search (hcap ▸ hr.two_mul_le hb) k
  rw [hcap] at hh
  rw [hashMapGet, hashMapGet, hs, hs', find_resized hr hb hnodes hi hh, hnodes]
  cases (v i).find? (m.isMatch k) <;> rfl

/-- `hash_map_resize` keeps the nodes, moves those that leave the bucket `i` to the bucket
`i + capcity`, keeps the order within the buckets, and changes the result of no `hash_map_get`. -/
theorem resize_invisible (hm : (system α).ReachVia bounded m) :
    ∃ v m' v', Rep m v ∧ m.hashMapResize = some m' ∧ Rep m' v' ∧ m'.capcity = 2 * m.capcity ∧
      m'.nodes = m.nodes ∧
      ∑ h ∈ Finset.range m'.capcity, (v' h : Multiset ℕ) =
        ∑ h ∈ Finset.range m.capcity, (v h : Multiset ℕ) ∧
      (∀ i, ∀ n ∈ v i, ∀ h, n ∈ v' h → h = i ∨ h = i + m.capcity) ∧
      (∀ h < m'.capcity, (v' h).Sublist (v (h % m.capcity))) ∧
      ∀ k, m'.hashMapGet k = m.hashMapGet k := by
  obtain ⟨⟨v, hr⟩, hb⟩ := rep_of_reach hm
  have hge := hr.ge
  obtain ⟨m', he, hr', hcap, -, hnodes, -⟩ := hashMapResize_spec hr hb
  refine ⟨v, m', resized m v, hr, he, hr', hcap, hnodes, ?_, fun i n hn h hn' => ?_, fun h hh => ?_,
    hashMapGet_resized hr hb hr' hcap hnodes⟩
  · rw [hcap]
    exact nodes_spread (by omega) fun i n hn => hr.idx (by omega) i hn
  · have hidx := ((hr.mem_resized hb).mp hn').2
    have hcase := hr.idx (by omega) i hn
    omega
  · exact resized_sublist (by omega)

/-- Twelve keys in sixteen buckets. -/
theorem resize_invisible_twelve : ∃ m : HashMap ℕ, (system ℕ).ReachVia bounded m ∧
    (m.capcity = 16 ∧ m.count = 12) ∧
    ∃ m', m.hashMapResize = some m' ∧ ∀ k, m'.hashMapGet k = m.hashMapGet k := by
  obtain ⟨m, hm, ht⟩ := TS.ReachVia.exists_of_run (M := system ℕ) bounded
    (((List.finRange 26).take 12).map fun i => .put (letter i) i)
    (fun m => decide (m.capcity = 16 ∧ m.count = 12)) hashMapInit_eq (by decide +kernel)
    (by decide +kernel)
  obtain ⟨v, m', v', -, he, -, -, -, -, -, -, hget⟩ := resize_invisible hm
  exact ⟨m, hm, of_decide_eq_true ht, m', he, hget⟩

end Libcask.HashMap
