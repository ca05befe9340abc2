import Mathlib.Dynamics.PeriodicPts.Lemmas
import Mathlib.GroupTheory.Perm.Cycle.Basic
import Libcask.Rings

/-! # Links as permutations

In a heap whose two link fields are inverse to each other (`Links.WellFormed`), `next` is a permutation of
the nodes, and the circular lists are its cycles.  Nothing is said about which nodes are heads, how many
lists there are or how long they are.

* **Splicing.** `Links.insertBetween` and `Links.unlink` move one node, `e`.  `Splices` says that the rest
  stays: the links are well formed, every other node is followed by the same node as before if `e` is
  skipped (`skip`), the other nodes are on the same lists, and the links of the other lists are the same.
* **Lists.** `exists_ring`: a node that `next` comes back to is on a ring of different nodes, which are
  those of its cycle; in a finite heap every node is such a node (`mem_periodicPts`). -/

namespace Libcask.Links

variable {α : Type} {L L' : Links α} {x y e : α} {l : List α}

namespace WellFormed

theorem flip (hL : L.WellFormed) : L.flip.WellFormed := ⟨hL.prev_next, hL.next_prev⟩

/-- The permutation that maps every node to the next one; its cycles are the lists. -/
def perm (hL : L.WellFormed) : Equiv.Perm α := ⟨L.next, L.prev, hL.prev_next, hL.next_prev⟩

@[simp] theorem perm_apply (hL : L.WellFormed) (x : α) : hL.perm x = L.next x := rfl

theorem next_eq_iff (hL : L.WellFormed) : L.next x = y ↔ x = L.prev y := by
  constructor
  · rintro rfl
    exact (hL.prev_next x).symm
  · rintro rfl
    exact hL.next_prev y

theorem adj_prev (hL : L.WellFormed) (x : α) : L.Adj (L.prev x) x := ⟨hL.next_prev x, rfl⟩

theorem adj_next (hL : L.WellFormed) (x : α) : L.Adj x (L.next x) := ⟨rfl, hL.prev_next x⟩

/-- A node is linked to itself in both directions or in none. -/
theorem prev_eq_self (hL : L.WellFormed) (h : L.next x = x) : L.prev x = x :=
  (hL.next_eq_iff.mp h).symm

/-- No other node is next to a node that is linked to itself. -/
theorem next_ne_of_self (hL : L.WellFormed) (he : L.next e = e) (hne : e ≠ x) : L.next x ≠ e := by
  intro h
  exact hne ((hL.prev_eq_self he).symm.trans (hL.next_eq_iff.mp h).symm)

theorem prev_ne_of_self (hL : L.WellFormed) (he : L.next e = e) (hne : e ≠ x) : L.prev x ≠ e :=
  hL.flip.next_ne_of_self (hL.prev_eq_self he) hne

theorem sameCycle_next (hL : L.WellFormed) (x : α) : hL.perm.SameCycle x (L.next x) :=
  Equiv.Perm.sameCycle_apply_right.mpr (.refl _ x)

theorem sameCycle_prev (hL : L.WellFormed) (x : α) : hL.perm.SameCycle x (L.prev x) := by
  have h := hL.sameCycle_next (L.prev x)
  rw [hL.next_prev] at h
  exact h.symm

/-- In a finite heap `next` comes back to every node. -/
theorem mem_periodicPts [Finite α] (hL : L.WellFormed) (x : α) : x ∈ Function.periodicPts L.next :=
  hL.perm.injective.mem_periodicPts x

end WellFormed

/-! ### Well-formed links -/

section splice
variable [DecidableEq α] {p n : α}

/-- One half of `WellFormed` after `insertBetween`; the other one is the same read backwards. -/
theorem WellFormed.next_prev_insertBetween (hL : L.WellFormed) (hadj : L.Adj p n) (he : L.next e = e)
    (hp : p ≠ e) (x : α) :
    (L.insertBetween p e n).next ((L.insertBetween p e n).prev x) = x := by
  simp only [insertBetween, setNext_next, setNext_prev, setPrev_next, setPrev_prev]
  by_cases hxn : x = n
  · rw [hxn, Function.update_self, Function.update_of_ne hp.symm, Function.update_self]
  · rw [Function.update_of_ne hxn]
    by_cases hxe : x = e
    · rw [hxe, Function.update_self, Function.update_self]
    · have hp' : L.prev x ≠ p := fun h => hxn (by rw [← hL.next_prev x, h, hadj.1])
      have he' : L.prev x ≠ e := fun h => hxe (by rw [← hL.next_prev x, h, he])
      rw [Function.update_of_ne hxe, Function.update_of_ne hp', Function.update_of_ne he', hL.next_prev]

theorem WellFormed.insertBetween (hL : L.WellFormed) (hadj : L.Adj p n) (he : L.next e = e)
    (hp : p ≠ e) (hn : n ≠ e) : (L.insertBetween p e n).WellFormed where
  next_prev := hL.next_prev_insertBetween hadj he hp
  prev_next := hL.flip.next_prev_insertBetween ⟨hadj.2, hadj.1⟩ (hL.prev_eq_self he) hn

/-- One half of `WellFormed` after `unlink`. -/
theorem WellFormed.next_prev_unlink (hL : L.WellFormed) (e x : α) :
    (L.unlink e).next ((L.unlink e).prev x) = x := by
  simp only [Links.unlink, setNext_next, setNext_prev, setPrev_next, setPrev_prev]
  by_cases hxe : x = e
  · rw [hxe, Function.update_self, Function.update_self]
  · rw [Function.update_of_ne hxe]
    by_cases hxn : x = L.next e
    · have hpe : L.prev e ≠ e := fun h => hxe (hxn.trans (hL.next_eq_iff.mpr h.symm))
      rw [hxn, Function.update_self, Function.update_of_ne hpe, Function.update_self]
    · have hpe : L.prev x ≠ e := fun h => hxn (hL.next_eq_iff.mpr h.symm).symm
      have hpp : L.prev x ≠ L.prev e := fun h => hxe (hL.flip.perm.injective h)
      rw [Function.update_of_ne hxn, Function.update_of_ne hpe, Function.update_of_ne hpp, hL.next_prev]

theorem WellFormed.unlink (hL : L.WellFormed) (e : α) : (L.unlink e).WellFormed where
  next_prev := hL.next_prev_unlink e
  prev_next := hL.flip.next_prev_unlink e

end splice

/-! ### The order of the other nodes -/

section order
variable [DecidableEq α] {p n near : α}

/-- The node that follows `x` when `e` is skipped. -/
def skip (L : Links α) (e x : α) : α := if L.next x = e then L.next e else L.next x

/-- From `L` to `L'` the node `e` was moved, from or to a place on the list of `near`; the other nodes
stay in their order and on their lists. -/
structure Splices (hL : L.WellFormed) (L' : Links α) (e near : α) : Prop where
  wellFormed : L'.WellFormed
  order : ∀ x, x ≠ e → L'.skip e x = L.skip e x
  lists : ∀ x y, x ≠ e → y ≠ e → (wellFormed.perm.SameCycle x y ↔ hL.perm.SameCycle x y)
  others : ∀ x, x ≠ e → ¬hL.perm.SameCycle near x → L'.next x = L.next x ∧ L'.prev x = L.prev x

omit [DecidableEq α] in
/-- An equivalence that relates every node to the next one relates the nodes of a cycle. -/
theorem sameCycle_induction {σ : Equiv.Perm α} {R : α → α → Prop} (hR : Equivalence R)
    (hstep : ∀ z, R z (σ z)) (h : σ.SameCycle x y) : R x y := by
  obtain ⟨i, rfl⟩ := h
  induction i using Int.induction_on with
  | zero => exact hR.refl x
  | succ i ih =>
      rw [zpow_add_one, (Commute.self_zpow σ i).symm.eq]
      exact hR.trans ih (hstep _)
  | pred i ih =>
      have hback := hstep ((σ ^ (-(i : ℤ) - 1)) x)
      rw [← Equiv.Perm.mul_apply, ← zpow_one_add, add_sub_cancel] at hback
      exact hR.trans ih (hR.symm hback)

theorem WellFormed.sameCycle_skip (hL : L.WellFormed) (e x : α) :
    hL.perm.SameCycle x (L.skip e x) := by
  unfold skip
  split_ifs with h
  · rw [← h]
    exact (hL.sameCycle_next x).trans (hL.sameCycle_next _)
  · exact hL.sameCycle_next x

/-- If the order without `e` is the same, nodes that were on one list are on one list. -/
theorem sameCycle_of_skip (hL : L.WellFormed) (hL' : L'.WellFormed)
    (hskip : ∀ z, z ≠ e → L'.skip e z = L.skip e z) (hx : x ≠ e) (hy : y ≠ e)
    (h : hL.perm.SameCycle x y) : hL'.perm.SameCycle x y := by
  -- in place of `e` stands the node after it
  let rep : α → α := fun z => if z = e then L.next e else z
  have hrep : hL'.perm.SameCycle (rep x) (rep y) := by
    refine sameCycle_induction (R := fun z w => hL'.perm.SameCycle (rep z) (rep w))
      ⟨fun _ => .refl _ _, .symm, .trans⟩ (fun z => ?_) h
    by_cases hz : z = e
    · have hnext : rep (L.next e) = rep e := by
        simp only [rep, if_true]
        exact ite_id _
      rw [hz, hL.perm_apply, hnext]
    · have hnext : rep (L.next z) = L'.skip e z := (hskip z hz).symm
      have hself : rep z = z := if_neg hz
      rw [hL.perm_apply, hnext, hself]
      exact hL'.sameCycle_skip e z
  simpa only [rep, if_neg hx, if_neg hy] using hrep

/-- It is enough to look at the order and at the links that change. -/
theorem Splices.of_skip (hL : L.WellFormed) (hL' : L'.WellFormed)
    (hskip : ∀ x, x ≠ e → L'.skip e x = L.skip e x)
    (hothers : ∀ x, x ≠ e → ¬hL.perm.SameCycle near x → L'.next x = L.next x ∧ L'.prev x = L.prev x) :
    Splices hL L' e near where
  wellFormed := hL'
  order := hskip
  lists _ _ hx hy := ⟨sameCycle_of_skip hL' hL (fun z hz => (hskip z hz).symm) hx hy,
    sameCycle_of_skip hL hL' hskip hx hy⟩
  others := hothers

/-- Linking a node that is linked to itself between two neighbours. -/
theorem WellFormed.splices_insertBetween (hL : L.WellFormed) (hadj : L.Adj p n) (he : L.next e = e)
    (hp : p ≠ e) (hn : n ≠ e) (hnear : hL.perm.SameCycle near p) :
    Splices hL (L.insertBetween p e n) e near := by
  have hnext : (L.insertBetween p e n).next = Function.update (Function.update L.next e n) p e := rfl
  have hprev : (L.insertBetween p e n).prev = Function.update (Function.update L.prev e p) n e := rfl
  refine .of_skip hL (hL.insertBetween hadj he hp hn) (fun x hx => ?_) fun x hx hfar => ⟨?_, ?_⟩
  · unfold skip
    rw [hnext, if_neg (hL.next_ne_of_self he hx.symm)]
    by_cases hxp : x = p
    · rw [hxp, Function.update_self, if_pos rfl, Function.update_of_ne hp.symm, Function.update_self,
        hadj.1]
    · rw [Function.update_of_ne hxp, Function.update_of_ne hx, if_neg (hL.next_ne_of_self he hx.symm)]
  · have hxp : x ≠ p := fun h => hfar (h ▸ hnear)
    rw [hnext, Function.update_of_ne hxp, Function.update_of_ne hx]
  · have hxn : x ≠ n := by
      rintro rfl
      exact hfar (hnear.trans (hadj.1 ▸ hL.sameCycle_next p))
    rw [hprev, Function.update_of_ne hxn, Function.update_of_ne hx]

/-- Unlinking a node. -/
theorem WellFormed.splices_unlink (hL : L.WellFormed) (e : α) : Splices hL (L.unlink e) e e := by
  have hnext : (L.unlink e).next =
      Function.update (Function.update L.next (L.prev e) (L.next e)) e e := rfl
  have hprev : (L.unlink e).prev =
      Function.update (Function.update L.prev (L.next e) (L.prev e)) e e := rfl
  refine .of_skip hL (hL.unlink e) (fun x hx => ?_) fun x hx hfar => ⟨?_, ?_⟩
  · unfold skip
    rw [hnext, Function.update_of_ne hx, Function.update_self]
    by_cases hxp : x = L.prev e
    · have hself : L.next e ≠ e := fun h => hx (hxp.trans (hL.prev_eq_self h))
      rw [hxp, Function.update_self, if_neg hself, hL.next_prev, if_pos rfl]
    · have hne : L.next x ≠ e := fun h => hxp (hL.next_eq_iff.mp h)
      rw [Function.update_of_ne hxp, if_neg hne, if_neg hne]
  · have hxp : x ≠ L.prev e := by
      rintro rfl
      exact hfar (hL.sameCycle_prev e)
    rw [hnext, Function.update_of_ne hx, Function.update_of_ne hxp]
  · have hxn : x ≠ L.next e := by
      rintro rfl
      exact hfar (hL.sameCycle_next e)
    rw [hprev, Function.update_of_ne hx, Function.update_of_ne hxn]

end order

/-! ### The ring of a node -/

section ring

/-- The nodes of a ring are those of the cycle. -/
theorem Ring.mem_iff (hL : L.WellFormed) (hr : L.Ring x l) :
    y ∈ x :: l ↔ hL.perm.SameCycle x y := by
  constructor
  · intro hy
    have hchain : List.IsChain hL.perm.SameCycle (x :: (l ++ [x])) :=
      List.IsChain.imp (fun a b (hab : L.Adj a b) => hab.1 ▸ hL.sameCycle_next a) hr
    have htrans : Trans hL.perm.SameCycle hL.perm.SameCycle hL.perm.SameCycle := ⟨.trans⟩
    rcases List.mem_cons.mp hy with rfl | hy
    · exact .refl _ _
    · exact hchain.rel_cons (List.mem_append_left _ hy)
  · intro h
    have hiff := sameCycle_induction (R := fun z w => z ∈ x :: l ↔ w ∈ x :: l)
      ⟨fun _ => Iff.rfl, Iff.symm, Iff.trans⟩ (fun z => ⟨hr.next_mem, fun hz => ?_⟩) h
    · exact hiff.mp List.mem_cons_self
    · rw [← hL.prev_next z]
      exact hr.prev_mem hz

/-- A node that `next` comes back to is on a ring of different nodes. -/
theorem WellFormed.exists_ring (hL : L.WellFormed) (hx : x ∈ Function.periodicPts L.next) :
    ∃ l, L.Ring x l ∧ (x :: l).Nodup := by
  obtain ⟨n, hn⟩ := Nat.exists_eq_succ_of_ne_zero
    (Function.minimalPeriod_pos_of_mem_periodicPts hx).ne'
  have hback : L.next^[n + 1] x = x := by
    rw [← Nat.succ_eq_add_one, ← hn]
    exact Function.iterate_minimalPeriod
  have hring : x :: ((List.range n).map fun k => L.next^[k + 1] x) =
      (List.range (n + 1)).map fun k => L.next^[k] x := by
    rw [List.range_succ_eq_map, List.map_cons, List.map_map]
    rfl
  refine ⟨(List.range n).map fun k => L.next^[k + 1] x, ?_, ?_⟩
  · have hclosed : x :: (((List.range n).map fun k => L.next^[k + 1] x) ++ [x]) =
        (List.range (n + 1 + 1)).map fun k => L.next^[k] x := by
      rw [← List.cons_append, hring, List.range_succ (n := n + 1), List.map_append]
      simp [hback]
    unfold Links.Ring
    rw [hclosed, List.isChain_map, List.isChain_range_succ]
    intro m _
    rw [Nat.succ_eq_add_one, Function.iterate_succ_apply']
    exact hL.adj_next _
  · rw [hring]
    refine List.Nodup.map_on (fun a ha b hb hab => ?_) List.nodup_range
    rw [List.mem_range, ← Nat.succ_eq_add_one, ← hn] at ha hb
    exact Function.iterate_injOn_Iio_minimalPeriod ha hb hab

end ring

end Libcask.Links
