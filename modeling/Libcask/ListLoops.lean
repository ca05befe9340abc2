import Libcask.Cycles
import Libcask.HashMap
import Libcask.SchedFds

/-! # Splicing and walking the lists of `list.c`

* **Splicing.** On well-formed links the functions of `list.c` move one node and leave the rest
  (`splices_listAddBefore`, `splices_listAddAfter`, `splices_listDelete`).
* **Walking.** Three functions walk along a list and unlink every node: `_co_cond_signal_all`,
  `_timeout_task` and `hash_map_clearall` (`Walk`).  Their loops test `list_empty` of the node they have
  come to and not whether it is the head.  This is right because the head is linked to itself when the
  last node has been unlinked (`Walk.run_spec`).

`list_splices` says both for every well-formed heap.  The loops of the other modules make the same passes:
`drain_eq_run`, `clearChain_eq_run`, `broadcastLoop_pass`, `timeoutLoop_pass`. -/

namespace Libcask

variable {α : Type} [DecidableEq α] {L : Links α} {ls e head c rq n : α} {l S : List α}

/-! ### Splicing -/

section splice
variable (hL : L.WellFormed)
include hL

theorem splices_listAddBefore (he : L.next e = e) (hne : e ≠ ls) :
    L.Splices hL (listAddBefore L ls e) e ls ∧ (listAddBefore L ls e).Adj (L.prev ls) e ∧
      (listAddBefore L ls e).Adj e ls := by
  have hp := hL.prev_ne_of_self he hne
  rw [listAddBefore_eq L hne]
  refine ⟨?_, Links.insertBetween_adj_left hne.symm, Links.insertBetween_adj_right hp⟩
  exact hL.splices_insertBetween (hL.adj_prev ls) he hp hne.symm (hL.sameCycle_prev ls)

theorem splices_listAddAfter (he : L.next e = e) (hne : e ≠ ls) :
    L.Splices hL (listAddAfter L ls e) e ls ∧ (listAddAfter L ls e).Adj ls e ∧
      (listAddAfter L ls e).Adj e (L.next ls) := by
  have hn := hL.next_ne_of_self he hne
  rw [listAddAfter_eq L hne]
  refine ⟨?_, Links.insertBetween_adj_left hn, Links.insertBetween_adj_right hne.symm⟩
  exact hL.splices_insertBetween (hL.adj_next ls) he hne.symm hn (.refl _ ls)

theorem splices_listDelete (e : α) :
    Links.Splices hL (listDelete L e) e e ∧ (listDelete L e).Adj e e := by
  rw [listDelete_eq]
  exact ⟨hL.splices_unlink e, Links.unlink_self e⟩

end splice

/-! ### Walking -/

/-- The links after `RR_enqueue`. -/
def enqueueLink (L : Links α) (rq n : α) : Links α := listAddAfter (listDelete L n) rq n

/-- The loops that unlink all nodes of a list. -/
inductive Walk (α : Type) where
  /-- `hash_map_clearall`. -/
  | clear
  /-- `_co_cond_signal_all`, with the run list of the task of every link. -/
  | signal (rq : α → α)
  /-- `_timeout_task`, with the run link of the task of every descriptor, and the run list of that task. -/
  | timeout (rq link : α → α)

namespace Walk

/-- One pass of the loop: the new value of its variable `ls`, and the links after it. -/
def pass : Walk α → α → Links α → α × Links α
  | clear, ls, L => (listNext L ls, listDelete L ls)
  | signal rq, ls, L => (listNext L ls, enqueueLink (listDelete L ls) (rq ls) ls)
  | timeout rq link, ls, L =>
      let L := enqueueLink L (rq ls) (link ls)
      (listNext L ls, listDelete L ls)

/-- The loop, with a bound on the passes: the nodes in the order in which they are visited, and the links
after it. -/
def run (w : Walk α) : ℕ → α → Links α → Option (List α × Links α)
  | 0, _, _ => none
  | passes + 1, ls, L =>
      if listEmpty L ls then some ([], L)
      else (w.run passes (w.pass ls L).1 (w.pass ls L).2).map fun r => (ls :: r.1, r.2)

/-- What the loop links elsewhere is not on the list `S`, and is not linked there. -/
def Apart (S : List α) : Walk α → Prop
  | clear => True
  | signal rq => ∀ x ∈ S, rq x ∉ S
  | timeout rq link => ∀ x ∈ S, rq x ∉ S ∧ link x ∉ S ∧ link x ≠ rq x

end Walk

omit [DecidableEq α] in
theorem Links.Ring.next_head (hr : L.Ring head l) : L.next head = l.headD head := by
  unfold Links.Ring at hr
  cases l with
  | nil | cons c l => exact (List.isChain_cons_cons.mp hr).1.1

omit [DecidableEq α] in
theorem Links.Ring.next_first (hr : L.Ring head (c :: l)) : L.next c = l.headD head := by
  unfold Links.Ring at hr
  have hr := (List.isChain_cons_cons.mp hr).2
  cases l with
  | nil | cons b l => exact (List.isChain_cons_cons.mp hr).1.1

/-- Linking another node on another list keeps the ring. -/
theorem ring_enqueueLink (hL : L.WellFormed) (hr : L.Ring head l) (hn : n ∉ head :: l)
    (hrq : rq ∉ head :: l) (hne : n ≠ rq) :
    (enqueueLink L rq n).WellFormed ∧ (enqueueLink L rq n).Ring head l := by
  have hL₁ := hL.unlink n
  have hr₁ := hr.unlink_of_not_mem (hL.next_prev n) (hL.prev_next n) hn
  have hself := (Links.unlink_self (L := L) n).1
  unfold enqueueLink
  rw [listDelete_eq]
  refine ⟨(splices_listAddAfter hL₁ hself hne).1.wellFormed, ?_⟩
  rw [listAddAfter_eq _ hne]
  exact hr₁.insertBetween (hL₁.adj_next rq) hrq hn

/-- Unlinking the first node. -/
theorem ring_listDelete (hL : L.WellFormed) (hr : L.Ring head (c :: l)) (hnd : (head :: c :: l).Nodup) :
    (listDelete L c).WellFormed ∧ (listDelete L c).Ring head l := by
  rw [List.nodup_cons, List.nodup_cons, List.mem_cons, not_or] at hnd
  rw [listDelete_eq]
  refine ⟨hL.unlink c, ?_⟩
  have hr' : L.Ring head ([] ++ c :: l) := hr
  exact hr'.unlink (hL.next_prev c) (hL.prev_next c) (by simpa using Ne.symm hnd.1.1) hnd.2.1

namespace Walk

variable {w : Walk α}

/-- A pass at the first node of the list takes it off and goes to the next one. -/
theorem pass_spec (hw : w.Apart S) (hS : ∀ x ∈ head :: c :: l, x ∈ S) (hL : L.WellFormed)
    (hr : L.Ring head (c :: l)) (hnd : (head :: c :: l).Nodup) :
    (w.pass c L).1 = l.headD head ∧ (w.pass c L).2.WellFormed ∧ (w.pass c L).2.Ring head l := by
  have hc : c ∈ S := hS c (by simp)
  have hcl : c ∉ head :: l := by
    rw [List.nodup_cons, List.nodup_cons, List.mem_cons, not_or] at hnd
    simpa using ⟨Ne.symm hnd.1.1, hnd.2.1⟩
  have hsub : ∀ x, x ∉ S → x ∉ head :: c :: l := fun x hx hm => hx (hS x hm)
  have hsub' : ∀ x, x ∉ S → x ∉ head :: l := fun x hx hm => hsub x hx (by
    rcases List.mem_cons.mp hm with h | h <;> simp [h])
  cases w with
  | clear => exact ⟨hr.next_first, ring_listDelete hL hr hnd⟩
  | signal rq =>
      obtain ⟨hL', hr'⟩ := ring_listDelete hL hr hnd
      have hrq : rq c ∉ S := hw c hc
      exact ⟨hr.next_first, ring_enqueueLink hL' hr' hcl (hsub' _ hrq) (fun h => hrq (h ▸ hc))⟩
  | timeout rq link =>
      obtain ⟨hrq, hlink, hne⟩ := hw c hc
      obtain ⟨hL', hr'⟩ := ring_enqueueLink hL hr (hsub _ hlink) (hsub _ hrq) hne
      exact ⟨hr'.next_first, ring_listDelete hL' hr' hnd⟩

/-- The loop visits the nodes of the list in their order, and ends with the head linked to itself. -/
theorem run_spec (hw : w.Apart S) {passes : ℕ} (hS : ∀ x ∈ head :: l, x ∈ S) (hL : L.WellFormed)
    (hr : L.Ring head l) (hnd : (head :: l).Nodup) (hp : l.length < passes) :
    ∃ L', w.run passes (l.headD head) L = some (l, L') ∧ L'.WellFormed ∧ L'.Adj head head := by
  induction l generalizing L passes with
  | nil =>
      obtain ⟨k, rfl⟩ := Nat.exists_eq_succ_of_ne_zero hp.ne'
      have hself : L.Adj head head := (List.isChain_cons_cons.mp hr).1
      have hempty : listEmpty L head = true := (listEmpty_iff L head).mpr ⟨hself.2, hself.1⟩
      exact ⟨L, by simp [run, hempty], hL, hself⟩
  | cons c l ih =>
      obtain ⟨k, rfl⟩ := Nat.exists_eq_succ_of_ne_zero (Nat.ne_of_gt (Nat.zero_lt_of_lt hp))
      obtain ⟨hnext, hL', hr'⟩ := pass_spec hw hS hL hr hnd
      -- the first node is not linked to itself: it is between the head and another node
      have hempty : ¬listEmpty L c = true := by
        rw [listEmpty_iff]
        rintro ⟨hprev, -⟩
        have hhead : L.prev c = head := (List.isChain_cons_cons.mp hr).1.2
        exact (List.nodup_cons.mp hnd).1 (by simp [← hhead, hprev])
      have hnd' : (head :: l).Nodup := hnd.sublist (List.Sublist.cons_cons _ (List.sublist_cons_self c l))
      obtain ⟨L₁, hrun, hL₁, hself⟩ := ih (fun x hx => hS x (by
        rcases List.mem_cons.mp hx with h | h <;> simp [h])) hL' hr' hnd' (Nat.lt_of_succ_lt_succ hp)
      refine ⟨L₁, ?_, hL₁, hself⟩
      rw [List.headD_cons, run, if_neg hempty, hnext, hrun]
      rfl

end Walk

/-! ### The loops of the other modules -/

section loops
variable {H E : Type} [DecidableEq H] [DecidableEq E]

omit [DecidableEq H] [DecidableEq E] in
theorem toElem_eq_some {ls : Node H E} {x : E} (h : ls.toElem = some x) : ls = .elem x := by
  cases ls with
  | head h' => cases h
  | elem y => rw [Option.some.inj h]

theorem drain_eq_run : ∀ {passes : ℕ} {ls : Node H E} {L L' : Links (Node H E)} {es : List E},
    drain passes ls L = some (es, L') → Walk.clear.run passes ls L = some (es.map .elem, L')
  | 0, ls, L, L', es, h => nomatch h
  | passes + 1, ls, L, L', es, h => by
      rw [drain] at h
      rw [Walk.run]
      split_ifs at h ⊢
      · obtain ⟨rfl, rfl⟩ := Prod.mk.inj (Option.some.inj h)
        rfl
      · cases hx : ls.toElem with
        | none => simp [hx] at h
        | some x =>
            simp only [hx] at h
            obtain ⟨⟨es', L₁⟩, hrest, heq⟩ := Option.map_eq_some_iff.mp h
            obtain ⟨rfl, rfl⟩ := Prod.mk.inj heq
            obtain rfl := toElem_eq_some hx
            rw [Walk.pass, drain_eq_run hrest]
            rfl

theorem clearChain_eq_run {β : Type} {head : ℕ} : ∀ {passes : ℕ} {ls : Node ℕ ℕ} {m m' : HashMap β},
    HashMap.clearChain head passes ls m = some m' →
      ∃ ns, Walk.clear.run passes ls m.links = some (ns, m'.links)
  | 0, ls, m, m', h => nomatch h
  | passes + 1, ls, m, m', h => by
      rw [HashMap.clearChain] at h
      rw [Walk.run]
      split_ifs at h ⊢
      · obtain rfl := Option.some.inj h
        exact ⟨[], rfl⟩
      · cases hx : m.nodeAt ls with
        | none => simp [hx] at h
        | some x =>
            simp only [hx] at h
            obtain ⟨n, hn, hx⟩ := Option.bind_eq_some_iff.mp hx
            obtain ⟨node, -, rfl⟩ := Option.map_eq_some_iff.mp hx
            obtain rfl := toElem_eq_some hn
            obtain ⟨ns, hrest⟩ := clearChain_eq_run h
            exact ⟨.elem n :: ns, congrArg (Option.map _) hrest⟩

open Sched in
theorem broadcastLoop_pass {s s' : St} {t : Tid} {ls : Node Head Tid}
    (e : s.broadcastLoop t ls = some s') (hls : listEmpty s.q.links ls = false) :
    s'.cont t = .broadcast ((Walk.signal fun _ => .head .runList).pass ls s.q.links).1 ∧
      s'.q.links = ((Walk.signal fun _ => .head .runList).pass ls s.q.links).2 := by
  rcases broadcastLoop_eq e with ⟨hempty, -⟩ | ⟨-, u, rfl, rfl⟩
  · cases hls.symm.trans hempty
  · exact ⟨Function.update_self .., rfl⟩

open Sched in
/-- The links of the descriptors and those of the tasks are two heaps here. -/
theorem timeoutLoop_pass {s s' : St} {t : Tid} {ls : Node ℕ Fd} (e : s.timeoutLoop t ls = some s')
    (hls : listEmpty s.io.wheel ls = false) :
    s'.cont t = .timeoutList (Walk.clear.pass ls s.io.wheel).1 ∧
      s'.io.wheel = (Walk.clear.pass ls s.io.wheel).2 ∧
      ∃ u, s'.q.links = enqueueLink s.q.links (.head .runList) (.elem u) := by
  rcases timeoutLoop_eq e with ⟨hempty, -⟩ | ⟨-, fd, r, u, rfl, -, -, rfl⟩
  · cases hls.symm.trans hempty
  · exact ⟨Function.update_self .., rfl, u, rfl⟩

end loops

/-- **Splicing and walking.**  On every well-formed heap, `list_add_before` and `list_add_after` link a node
that is linked to itself right before or after another one, `list_delete` links a node to itself, and the
order of all other nodes and all other lists stay.  If `next` comes back to the head, as it does in every
finite heap, the walking loops visit every node of its list once and in order, and end with the head linked
to itself. -/
theorem list_splices (hL : L.WellFormed) :
    (∀ ls e, L.next e = e → e ≠ ls →
      (Links.Splices hL (listAddBefore L ls e) e ls ∧ (listAddBefore L ls e).Adj (L.prev ls) e ∧
        (listAddBefore L ls e).Adj e ls) ∧
      (Links.Splices hL (listAddAfter L ls e) e ls ∧ (listAddAfter L ls e).Adj ls e ∧
        (listAddAfter L ls e).Adj e (L.next ls))) ∧
    (∀ e, Links.Splices hL (listDelete L e) e e ∧ (listDelete L e).Adj e e) ∧
    (∀ head, head ∈ Function.periodicPts L.next → ∃ l, L.Ring head l ∧ (head :: l).Nodup ∧
      (∀ x, x ∈ head :: l ↔ hL.perm.SameCycle head x) ∧
      ∀ w : Walk α, w.Apart (head :: l) → ∀ passes, l.length < passes →
        ∃ L', w.run passes (listNext L head) L = some (l, L') ∧ L'.WellFormed ∧ L'.Adj head head) ∧
    (Finite α → ∀ x, x ∈ Function.periodicPts L.next) := by
  refine ⟨fun ls e he hne => ⟨splices_listAddBefore hL he hne, splices_listAddAfter hL he hne⟩,
    splices_listDelete hL, fun head hhead => ?_, fun _ => hL.mem_periodicPts⟩
  obtain ⟨l, hr, hnd⟩ := hL.exists_ring hhead
  refine ⟨l, hr, hnd, fun x => hr.mem_iff hL, fun w hw passes hp => ?_⟩
  rw [listNext, hr.next_head]
  exact Walk.run_spec hw (fun _ h => h) hL hr hnd hp

/-- The nodes 0, 1 and 2 on one list, 3 and 4 on another one, 5 alone. -/
def twoLists : Links (Fin 6) := ⟨![1, 2, 0, 4, 3, 5], ![2, 0, 1, 4, 3, 5]⟩

theorem twoLists_wellFormed : twoLists.WellFormed := ⟨by decide, by decide⟩

/-- Adding the node 5 before the node 0, and moving the nodes of the list of 0 to the list of 3. -/
theorem list_splices_two_lists : (listAddBefore twoLists 0 5).Adj 2 5 ∧
    ∃ L', (Walk.signal fun _ => 3).run 6 1 twoLists = some ([1, 2], L') ∧ L'.Adj 0 0 := by
  obtain ⟨hadd, -, hwalk, hfin⟩ := list_splices twoLists_wellFormed
  refine ⟨(hadd 0 5 rfl (by decide)).1.2.1, ?_⟩
  obtain ⟨l, -, hnd, hmem, hrun⟩ := hwalk 0 (hfin inferInstance 0)
  have hlen : l.length < 6 := hnd.length_le_card
  have hapart : 3 ∉ 0 :: l := by
    rw [hmem]
    decide
  obtain ⟨L', hL', -, hself⟩ := hrun (.signal fun _ => 3) (fun _ _ => hapart) 6 hlen
  have hvisited : ((Walk.signal fun _ => 3).run 6 1 twoLists).map Prod.fst = some [1, 2] := by decide
  have hl : l = [1, 2] := by
    rw [show (1 : Fin 6) = listNext twoLists 0 from rfl, hL'] at hvisited
    exact Option.some.inj hvisited
  exact ⟨L', hl ▸ hL', hself⟩

end Libcask
