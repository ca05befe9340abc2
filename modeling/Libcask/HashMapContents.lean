import Libcask.FiniteMap
import Libcask.HashMapInvariant

/-! # The hash map as a finite map

`contents ops` is the finite map that the calls `ops` describe.  A key matches a node when the hashes are
equal and the key is a *prefix* of the name of the node, since `strncmp` is limited to the length of
the key (`isMatch_iff`).  So a call on a key is about that key only if no longer name in the map with the
same hash starts with it (`unambiguous`).

* `finite_map`: in runs of such calls the hash map is the finite map.
* `prefix_found`: a key that was never put is found. -/

namespace Libcask.HashMap

variable {α : Type}

/-! ### The finite map -/

/-- What a call does to a finite map. -/
def apply (f : Key → Option α) : Op α → Key → Option α
  | .get _ => f
  | .put k a => Function.update f k (some a)
  | .del k => Function.update f k none
  | .clear => fun _ => none

/-- The value of the latest put of a key, unless a delete of the key or a clear follows. -/
def contents (ops : List (Op α)) : Key → Option α := ops.foldl apply fun _ => none

/-! ### Matching -/

/-- A comparison limited to the length of the first string. -/
theorem strncmp_eq_zero_iff : ∀ {s t : List Char8}, (∀ c ∈ s, c ≠ 0) →
    (strncmp s t s.length = 0 ↔ s <+: t)
  | [], t, _ => by simp [strncmp]
  | c :: s, [], hs => by
      have hc : c.toNat ≠ 0 := fun h => hs c List.mem_cons_self (BitVec.eq_of_toNat_eq h)
      simp [strncmp, hc]
  | c :: s, d :: t, hs => by
      have ih := strncmp_eq_zero_iff (t := t) fun x hx => hs x (List.mem_cons_of_mem c hx)
      rw [List.cons_prefix_cons]
      by_cases hcd : c = d
      · simp [strncmp, hcd, ih]
      · have hne : (c.toNat : ℤ) - d.toNat ≠ 0 := fun h => hcd (BitVec.eq_of_toNat_eq (by omega))
        simp [strncmp, hcd, hne]

variable {m : HashMap α} {v : View ℕ ℕ} {k : Key} {n : ℕ}

theorem isMatch_iff {node : MapNode α} (hn : m.nodes n = some node) :
    m.isMatch k n = true ↔ stringHash k = node.key ∧ k.chars <+: node.keyname.chars := by
  rw [isMatch_eq hn, decide_eq_true_eq, strncmp_eq_zero_iff k.nonzero]

/-- The nodes on the chains. -/
def linkedNodes (m : HashMap α) : List (MapNode α) :=
  ((List.range m.headBrk).flatMap fun h => Rings.walk m.links m.nodeBrk (.head h)).filterMap m.nodes

/-- No longer name with the same hash starts with the key. -/
def Distinguished (m : HashMap α) (k : Key) : Prop :=
  ∀ node ∈ m.linkedNodes, node.key = stringHash k → k.chars <+: node.keyname.chars → node.keyname = k

instance (m : HashMap α) (k : Key) : Decidable (Distinguished m k) :=
  inferInstanceAs (Decidable (∀ node ∈ m.linkedNodes, _))

/-- The key of the call is distinguished, and the capacity stays below `2 ^ 30`. -/
def unambiguous (m : HashMap α) (op : Op α) : Prop :=
  (match op with
    | .get k | .put k _ | .del k => Distinguished m k
    | .clear => True) ∧ bounded m op

instance (m : HashMap α) (op : Op α) : Decidable (unambiguous m op) :=
  match op with
  | .get _ | .put _ _ | .del _ => inferInstanceAs (Decidable (_ ∧ _))
  | .clear => inferInstanceAs (Decidable (True ∧ _))

theorem mem_linkedNodes (hr : Rep m v) {node : MapNode α} :
    node ∈ m.linkedNodes ↔ ∃ n, (∃ h, n ∈ v h) ∧ m.nodes n = some node := by
  have hwalk : ∀ h, Rings.walk m.links m.nodeBrk (.head h) = v h := fun h =>
    hr.rings.walk_eq (Rings.length_le (hr.rings.ok.nodup h) (hr.fresh h))
  simp only [linkedNodes, hwalk, List.mem_filterMap, List.mem_flatMap, List.mem_range]
  constructor
  · rintro ⟨n, ⟨h, -, hn⟩, hnode⟩
    exact ⟨n, ⟨h, hn⟩, hnode⟩
  · rintro ⟨n, ⟨h, hn⟩, hnode⟩
    exact ⟨n, ⟨h, hr.lt_headBrk hn, hn⟩, hnode⟩

/-! ### Entries -/

/-- The node `n` is on a chain and holds the key `k` with the value `a`. -/
def Entry (m : HashMap α) (v : View ℕ ℕ) (n : ℕ) (k : Key) (a : α) : Prop :=
  (∃ h, n ∈ v h) ∧ ∃ node, m.nodes n = some node ∧ node.keyname = k ∧ node.value = a

theorem Entry.key_eq {k' : Key} {a a' : α} (h : Entry m v n k a) (h' : Entry m v n k' a') : k = k' := by
  obtain ⟨-, node, hn, rfl, -⟩ := h
  obtain ⟨-, node', hn', rfl, -⟩ := h'
  rw [Option.some.inj (hn.symm.trans hn')]

variable {f : Key → Option α}

/-- What is found for a distinguished key is the key. -/
theorem found_entry (hr : Rep m v) (hd : Distinguished m k) (hf : Finds m v k (some n))
    {node : MapNode α} (hn : m.nodes n = some node) : (∃ h, n ∈ v h) ∧ node.keyname = k := by
  obtain ⟨h, -, hfind⟩ := hf
  obtain ⟨hmem, hmatch, -⟩ := hr.found hfind
  obtain ⟨hkey, hpre⟩ := (isMatch_iff hn).mp hmatch
  exact ⟨⟨h, hmem⟩, hd node ((mem_linkedNodes hr).mpr ⟨n, ⟨h, hmem⟩, hn⟩) hkey.symm hpre⟩

/-- A key that is present is found. -/
theorem not_entry (hr : Rep m v) (hf : Finds m v k none) {a : α} : ¬Entry m v n k a := by
  rintro ⟨⟨h, hmem⟩, node, hn, rfl, -⟩
  obtain ⟨h', hidx, hfind⟩ := hf
  obtain ⟨node', hn', hkey⟩ := hr.hashed h n hmem
  obtain rfl : node = node' := Option.some.inj (hn.symm.trans hn')
  have hplaced := hr.placed h n node hmem hn
  rw [hkey, hidx] at hplaced
  obtain rfl : h' = h := by exact_mod_cast hplaced
  have hmatch : m.isMatch node.keyname n = true := (isMatch_iff hn).mpr ⟨hkey.symm, List.prefix_refl _⟩
  exact List.find?_eq_none.mp hfind n hmem hmatch

/-! ### Calls -/

/-- `hash_map_put` changes the entry of its key. -/
theorem put_presents (hr : Rep m v) (hb : m.capcity < 2 ^ 30) (hp : Presents (Entry m v) f)
    (hd : Distinguished m k) (a : α) : ∃ m' v', m.hashMapPut k a = some (m', 0) ∧ Rep m' v' ∧
      Presents (Entry m' v') (Function.update f k (some a)) := by
  rcases hashMapPut_spec hr hb k a with ⟨n, node, hf, hn, he⟩ | ⟨m', v', n, hf, he, hr', hfree, hnodes, hiff⟩
  · obtain ⟨hlinked, hname⟩ := found_entry hr hd hf hn
    have hentry : Entry m v n k node.value := ⟨hlinked, node, hn, hname, rfl⟩
    refine ⟨_, v, he, hr.setValue hn a, hp.set (i := n) (fun h => hp.unique h hentry)
      (fun h => h.key_eq hentry) fun j k' b => ?_⟩
    unfold Entry
    dsimp only
    by_cases hj : j = n
    · subst hj
      simp [hlinked, hname, eq_comm]
    · simp [hj]
  · have hout : ∀ {k' b}, ¬Entry m v n k' b := fun h => by
      obtain ⟨⟨h', hmem⟩, -⟩ := h
      exact hfree h' hmem
    refine ⟨m', v', he, hr', hp.set (i := n) (fun h => absurd h (not_entry hr hf))
      (fun h => absurd h hout) fun j k' b => ?_⟩
    unfold Entry
    rw [hiff, hnodes]
    by_cases hj : j = n
    · subst hj
      simp [eq_comm]
    · simp [hj]

theorem del_presents (hr : Rep m v) (hb : m.capcity < 2 ^ 30) (hp : Presents (Entry m v) f)
    (hd : Distinguished m k) :
    ∃ m' v', m.hashMapDel k = some (m', if (f k).isSome then 0 else -1) ∧ Rep m' v' ∧
      Presents (Entry m' v') (Function.update f k none) := by
  rcases hashMapDel_spec hr hb k with ⟨hf, he⟩ | ⟨n, h, hf, hmem, he, hr'⟩
  · have hnone : f k = none := by
      cases hfk : f k with
      | none => rfl
      | some a =>
          obtain ⟨n, hn⟩ := hp.slot hfk
          exact absurd hn (not_entry hr hf)
    refine ⟨m, v, by rw [he, hnone]; rfl, hr, ?_⟩
    rw [← hnone, Function.update_eq_self]
    exact hp
  · obtain ⟨node, hn, -⟩ := hr.hashed h n hmem
    obtain ⟨hlinked, hname⟩ := found_entry hr hd hf hn
    have hentry : Entry m v n k node.value := ⟨hlinked, node, hn, hname, rfl⟩
    refine ⟨_, _, by rw [he, hp.value hentry]; rfl, hr', hp.erase hentry (fun h => h.key_eq hentry)
      fun j k' b => ?_⟩
    unfold Entry
    simp only [View.mem_delete hr.rings.ok, dropNode_nodes]
    by_cases hj : j = n
    · simp [hj]
    · simp [hj]

theorem get_presents (hr : Rep m v) (hb : m.capcity < 2 ^ 30) (hp : Presents (Entry m v) f)
    (hd : Distinguished m k) :
    m.hashMapGet k = some (if (f k).isSome then 0 else -1, f k) := by
  rcases hashMapGet_spec hr hb k with ⟨hf, he⟩ | ⟨n, node, hf, hn, he⟩
  · cases hfk : f k with
    | none => exact he
    | some a =>
        obtain ⟨n, hn⟩ := hp.slot hfk
        exact absurd hn (not_entry hr hf)
  · obtain ⟨hlinked, hname⟩ := found_entry hr hd hf hn
    rw [he, hp.value ⟨hlinked, node, hn, hname, rfl⟩]
    rfl

theorem presents_step (hr : Rep m v) (hb : m.capcity < 2 ^ 30) (hp : Presents (Entry m v) f) {op : Op α}
    (hu : unambiguous m op) : ∃ m' v', opStep m op = some m' ∧ Rep m' v' ∧ m'.capcity < 2 ^ 30 ∧
      Presents (Entry m' v') (apply f op) := by
  obtain ⟨hd, hbound⟩ := hu
  cases op with
  | get k =>
      have he : opStep m (.get k) = some m := by rw [opStep, get_presents hr hb hp hd, Option.map_some]
      exact ⟨m, v, he, hr, hb, hp⟩
  | put k a =>
      obtain ⟨m', v', hput, hr', hp'⟩ := put_presents hr hb hp hd a
      have he : opStep m (.put k a) = some m' := by rw [opStep, hput, Option.map_some]
      exact ⟨m', v', he, hr', capcity_of_bounded hbound he, hp'⟩
  | del k =>
      obtain ⟨m', v', hdel, hr', hp'⟩ := del_presents hr hb hp hd
      have he : opStep m (.del k) = some m' := by rw [opStep, hdel, Option.map_some]
      exact ⟨m', v', he, hr', capcity_of_bounded hbound he, hp'⟩
  | clear =>
      obtain ⟨m', he, hr', hcap⟩ := hashMapClear_spec hr hb.le
      exact ⟨m', _, he, hr', capcity_of_bounded hbound he, .empty fun n k a h => by simp [Entry] at h⟩

theorem presents_run : ∀ (ops : List (Op α)) {m : HashMap α} {v : View ℕ ℕ} {f : Key → Option α},
    Rep m v → m.capcity < 2 ^ 30 → Presents (Entry m v) f → (system α).RunMeets unambiguous m ops →
    ∃ m' v', (system α).run m ops = some m' ∧ Rep m' v' ∧ m'.capcity < 2 ^ 30 ∧
      Presents (Entry m' v') (ops.foldl apply f)
  | [], m, v, f, hr, hb, hp, _ => ⟨m, v, rfl, hr, hb, hp⟩
  | op :: ops, m, v, f, hr, hb, hp, hm => by
      obtain ⟨m₁, v₁, he, hr₁, hb₁, hp₁⟩ := presents_step hr hb hp hm.1
      obtain ⟨m', v', he', hfinal⟩ := presents_run ops hr₁ hb₁ hp₁ (hm.2 m₁ he)
      refine ⟨m', v', ?_, hfinal⟩
      rw [TS.run]
      exact Option.bind_eq_some_iff.mpr ⟨m₁, he, he'⟩

/-! ### Size -/

/-- The name of a node. -/
def nameOf (m : HashMap α) (n : ℕ) : Key :=
  ((m.nodes n).map (·.keyname)).getD ⟨[], by simp, by simp⟩

theorem size_eq (hr : Rep m v) (hp : Presents (Entry m v) f) :
    m.hashMapSize = {k | (f k).isSome}.ncard := by
  have hdisj : Set.PairwiseDisjoint ↑(Finset.range m.capcity) fun h => (v h).toFinset := by
    intro h _ h' _ hne
    refine Finset.disjoint_left.mpr fun n hn hn' => hne ?_
    exact hr.rings.ok.disjoint (List.mem_toFinset.mp hn) (List.mem_toFinset.mp hn')
  have hcard : ((Finset.range m.capcity).biUnion fun h => (v h).toFinset).card = m.count := by
    rw [Finset.card_biUnion hdisj, hr.count]
    exact Finset.sum_congr rfl fun h _ => List.toFinset_card_of_nodup (hr.rings.ok.nodup h)
  rw [hashMapSize, ← hcard]
  refine hp.card (nameOf m) (fun {n k a} h => ?_) fun n => ?_
  · obtain ⟨-, node, hn, rfl, -⟩ := h
    rw [nameOf, hn]
    rfl
  · simp only [Finset.mem_biUnion, Finset.mem_range, List.mem_toFinset]
    constructor
    · rintro ⟨h, -, hmem⟩
      obtain ⟨node, hn, -⟩ := hr.hashed h n hmem
      exact ⟨_, _, ⟨h, hmem⟩, node, hn, rfl, rfl⟩
    · rintro ⟨k, a, ⟨h, hmem⟩, -⟩
      exact ⟨h, hr.heads ▸ hr.lt_headBrk hmem, hmem⟩

/-! ### Runs -/

/-- A run of calls on distinguished keys: the hash map is the finite map. -/
theorem finite_map {ops : List (Op α)} (hm : (system α).RunMeets unambiguous (initial α) ops) :
    ∃ m, (system α).run (initial α) ops = some m ∧
      (∀ k, Distinguished m k →
        m.hashMapGet k = some (if (contents ops k).isSome then 0 else -1, contents ops k)) ∧
      (∀ k, Distinguished m k →
        ∃ m', m.hashMapDel k = some (m', if (contents ops k).isSome then 0 else -1)) ∧
      m.hashMapSize = {k | (contents ops k).isSome}.ncard := by
  obtain ⟨m₀, he, hr₀, hcap₀⟩ := hashMapInit_spec (α := α)
  have hinit : m₀ = initial α := Option.some.inj (he.symm.trans hashMapInit_eq)
  rw [hinit] at hr₀ hcap₀
  have hempty : Presents (Entry (initial α) fun _ => []) fun _ => none :=
    .empty fun n k a h => by simp [Entry] at h
  obtain ⟨m, v, hrun, hr, hb, hp⟩ := presents_run ops hr₀ (by rw [hcap₀]; decide) hempty hm
  refine ⟨m, hrun, fun k hd => get_presents hr hb hp hd, fun k hd => ?_, size_eq hr hp⟩
  obtain ⟨m', -, hdel, -⟩ := del_presents hr hb hp hd
  exact ⟨m', hdel⟩

/-- A key is put twice, another one is put and deleted. -/
def overwrites : List (Op ℕ) :=
  [.put (letter 0) 1, .put (letter 1) 2, .put (letter 0) 3, .del (letter 1)]

theorem finite_map_overwrites : (system ℕ).RunMeets unambiguous (initial ℕ) overwrites ∧
    ∃ m, (system ℕ).run (initial ℕ) overwrites = some m ∧
      m.hashMapGet (letter 0) = some (0, some 3) ∧ m.hashMapGet (letter 1) = some (-1, none) := by
  have hmeets : (system ℕ).RunMeets unambiguous (initial ℕ) overwrites := by decide +kernel
  have hkeys : ((system ℕ).run (initial ℕ) overwrites).any (fun m =>
      decide (Distinguished m (letter 0) ∧ Distinguished m (letter 1))) = true := by decide +kernel
  obtain ⟨m, hrun, hget, -⟩ := finite_map hmeets
  rw [hrun] at hkeys
  obtain ⟨h0, h1⟩ := of_decide_eq_true hkeys
  exact ⟨hmeets, m, hrun, hget _ h0, hget _ h1⟩

/-- The keys `"\x01\xe2"` and `"\x01"` have the same hash: the first is put, and the second is found. -/
theorem prefix_found : ∃ (long short : Key) (m : HashMap ℕ),
    (system ℕ).run (initial ℕ) [.put long 7] = some m ∧
    m.hashMapGet short = some (0, some 7) ∧ contents [.put long 7] short = none := by
  have hrun : ((system ℕ).run (initial ℕ) [.put ⟨[0x01, 0xe2], by decide, by decide⟩ 7]).any (fun m =>
      decide (m.hashMapGet ⟨[0x01], by decide, by decide⟩ = some (0, some 7))) = true := by
    decide +kernel
  obtain ⟨m, hm, hget⟩ := (Option.any_eq_true _ _).mp hrun
  exact ⟨_, _, m, hm, of_decide_eq_true hget, by decide⟩

end Libcask.HashMap
