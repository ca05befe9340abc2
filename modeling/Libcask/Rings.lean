import Mathlib.Data.List.Chain
import Mathlib.Data.List.Nodup
import Mathlib.Tactic

/-! # Families of intrusive circular lists

A heap of list nodes is given by its two link fields (`Links`).  The nodes are the heads of
the lists and the elements that can be linked on them (`Node H E`); one element has one pair of
link fields, so it is on at most one list at a time.

* **Representation.** `Rings L v`: for every head `h` the heap `L` holds the circular list
  `h, v h`, in both directions; no element is on two lists or twice on one; an element on no
  list is linked to itself.  The abstract side `v : View H E` is a plain family of lists.
* **Splicing.** `insertBetween` and `unlink` are the only two changes of the links.
  `Rings.addAfter`, `Rings.addBefore` and `Rings.delete` say which change of the family they
  are.
* **Lists as an interface.** `ListOps` collects the operations a program uses on such a
  family, so that one program text runs on links and on plain lists (`View`). -/

namespace Libcask

/-- The link fields of a heap of list nodes. -/
structure Links (α : Type) where
  next : α → α
  prev : α → α

/-- A list node: a list head, or an element. -/
inductive Node (H E : Type) where
  | head (h : H)
  | elem (e : E)
deriving DecidableEq, Repr

namespace Links

variable {α : Type} [DecidableEq α] (L : Links α)

def setNext (a b : α) : Links α := { L with next := Function.update L.next a b }

def setPrev (a b : α) : Links α := { L with prev := Function.update L.prev a b }

@[simp] theorem setNext_next (a b : α) : (L.setNext a b).next = Function.update L.next a b := rfl
@[simp] theorem setNext_prev (a b : α) : (L.setNext a b).prev = L.prev := rfl
@[simp] theorem setPrev_prev (a b : α) : (L.setPrev a b).prev = Function.update L.prev a b := rfl
@[simp] theorem setPrev_next (a b : α) : (L.setPrev a b).next = L.next := rfl

/-- The links in the other direction. -/
def flip : Links α := ⟨L.prev, L.next⟩

/-- Link `e` between `p` and `n`. -/
def insertBetween (p e n : α) : Links α :=
  (((L.setPrev e p).setNext e n).setPrev n e).setNext p e

/-- Take `e` out of its list and link it to itself. -/
def unlink (e : α) : Links α :=
  (((L.setNext (L.prev e) (L.next e)).setPrev (L.next e) (L.prev e)).setPrev e e).setNext e e

/-- `b` follows `a`, in both directions. -/
def Adj (a b : α) : Prop := L.next a = b ∧ L.prev b = a

/-- The circular list through `x` with the further nodes `l`. -/
def Ring (x : α) (l : List α) : Prop := List.IsChain L.Adj (x :: (l ++ [x]))

/-- Every node is between the one before it and the one after it. -/
structure WellFormed : Prop where
  next_prev : ∀ x, L.next (L.prev x) = x
  prev_next : ∀ x, L.prev (L.next x) = x

variable {L}

theorem Adj.insertBetween {a b p e n : α} (h : L.Adj a b) (hap : a ≠ p) (hae : a ≠ e)
    (hbn : b ≠ n) (hbe : b ≠ e) : (L.insertBetween p e n).Adj a b := by
  simp [Adj, Links.insertBetween, Function.update_of_ne, hap, hae, hbn, hbe, h.1, h.2]

theorem insertBetween_adj_left {p e n : α} (hn : n ≠ e) :
    (L.insertBetween p e n).Adj p e := by
  simp [Adj, Links.insertBetween, Function.update_of_ne, hn.symm]

theorem insertBetween_adj_right {p e n : α} (hp : p ≠ e) :
    (L.insertBetween p e n).Adj e n := by
  simp [Adj, Links.insertBetween, Function.update_of_ne, hp.symm]

/-- Unlinking `e` keeps every adjacency that does not involve `e`: the two link fields it
writes in the neighbours of `e` only pointed to `e`. -/
theorem Adj.unlink {a b e : α} (h : L.Adj a b) (hp : L.next (L.prev e) = e)
    (hn : L.prev (L.next e) = e) (hae : a ≠ e) (hbe : b ≠ e) : (L.unlink e).Adj a b := by
  have hap : a ≠ L.prev e := fun hc => hbe (by rw [← h.1, hc, hp])
  have hbn : b ≠ L.next e := fun hc => hae (by rw [← h.2, hc, hn])
  simp [Adj, Links.unlink, Function.update_of_ne, hap, hbn, hae, hbe, h.1, h.2]

theorem unlink_adj {p e n : α} (hp : L.Adj p e) (hn : L.Adj e n) (hpe : p ≠ e) (hne : n ≠ e) :
    (L.unlink e).Adj p n := by
  simp [Adj, Links.unlink, Function.update_of_ne, hpe, hne, hp.2, hn.1]

theorem unlink_self (e : α) : (L.unlink e).next e = e ∧ (L.unlink e).prev e = e := by
  simp [Links.unlink]

/-! #### Rings -/

section ring
variable {x y e : α} {l A B : List α}

omit [DecidableEq α] in
/-- A change of the links that keeps the adjacencies among the nodes of a ring keeps the ring. -/
theorem Ring.imp {L' : Links α} (hr : L.Ring x l)
    (hL : ∀ a b, a ∈ x :: l → b ∈ x :: l → L.Adj a b → L'.Adj a b) : L'.Ring x l := by
  refine List.IsChain.imp_of_mem_imp (fun a b ha hb hab => hL a b ?_ ?_ hab) hr
  · simpa [or_comm, or_assoc] using ha
  · simpa [or_comm, or_assoc] using hb

omit [DecidableEq α] in
/-- Read backwards, a ring is the ring of the reversed list. -/
theorem Ring.flip (hr : L.Ring x l) : L.flip.Ring x l.reverse := by
  have hback : (x :: (l ++ [x])).reverse = x :: (l.reverse ++ [x]) := by simp
  unfold Links.Ring at hr ⊢
  rw [← hback, List.isChain_reverse]
  exact hr.imp fun a b hab => ⟨hab.2, hab.1⟩

omit [DecidableEq α] in
theorem Ring.next_mem (hr : L.Ring x l) (hy : y ∈ x :: l) : L.next y ∈ x :: l := by
  obtain ⟨A, B, hl⟩ := List.append_of_mem hy
  unfold Links.Ring at hr
  rw [← List.cons_append, hl, List.append_assoc, List.cons_append, List.isChain_split] at hr
  have hhead := (List.isChain_cons.mp hr.2).1
  cases B with
  | nil =>
      rw [(hhead x rfl).1]
      exact List.mem_cons_self
  | cons b B =>
      rw [(hhead b rfl).1, hl]
      simp

omit [DecidableEq α] in
theorem Ring.prev_mem (hr : L.Ring x l) (hy : y ∈ x :: l) : L.prev y ∈ x :: l := by
  have h : L.prev y ∈ x :: l.reverse := hr.flip.next_mem (by simpa using hy)
  simpa using h

/-- A splice away from a ring keeps it. -/
theorem Ring.insertBetween {p n : α} (hr : L.Ring x l) (hadj : L.Adj p n)
    (hp : p ∉ x :: l) (he : e ∉ x :: l) : (L.insertBetween p e n).Ring x l := by
  have hn : n ∉ x :: l := fun h => hp (hadj.2 ▸ hr.prev_mem h)
  exact hr.imp fun a b ha hb hab => hab.insertBetween (fun h => hp (h ▸ ha)) (fun h => he (h ▸ ha))
    (fun h => hn (h ▸ hb)) (fun h => he (h ▸ hb))

/-- Unlinking a node that is not on the ring. -/
theorem Ring.unlink_of_not_mem (hr : L.Ring x l) (hp : L.next (L.prev e) = e)
    (hn : L.prev (L.next e) = e) (he : e ∉ x :: l) : (L.unlink e).Ring x l :=
  hr.imp fun _ _ ha hb hab =>
    hab.unlink hp hn (fun h => he (h ▸ ha)) (fun h => he (h ▸ hb))

/-- Unlinking a node of the ring other than the one it starts with. -/
theorem Ring.unlink (hr : L.Ring x (A ++ e :: B)) (hp : L.next (L.prev e) = e)
    (hn : L.prev (L.next e) = e) (hA : e ∉ x :: A) (hB : e ∉ B) : (L.unlink e).Ring x (A ++ B) := by
  have hB' : e ∉ B ++ [x] := by
    simp only [List.mem_cons, not_or] at hA
    simp [hB, hA.1]
  unfold Links.Ring at hr ⊢
  rw [List.append_assoc, List.cons_append, ← List.cons_append, List.isChain_split] at hr
  obtain ⟨hchainA, -, hlast⟩ := List.isChain_append.mp hr.1
  obtain ⟨hhead, hchainB⟩ := List.isChain_cons.mp hr.2
  -- away from `e` the adjacencies stay
  have keep : ∀ {m : List α}, e ∉ m → List.IsChain L.Adj m → List.IsChain (L.unlink e).Adj m :=
    fun hm hc => List.IsChain.imp_of_mem_imp (fun a b ha hb hab => hab.unlink hp hn
      (fun h => hm (h ▸ ha)) (fun h => hm (h ▸ hb))) hc
  rw [List.append_assoc, ← List.cons_append]
  refine List.isChain_append.mpr ⟨keep hA hchainA, keep hB' hchainB, fun a ha b hb => ?_⟩
  exact unlink_adj (hlast a ha e rfl) (hhead b hb) (fun h => hA (h ▸ List.mem_of_getLast? ha))
    (fun h => hB' (h ▸ List.mem_of_head? hb))

end ring

end Links

/-! ### Plain families of lists -/

/-- A family of lists, one for every head. -/
abbrev View (H E : Type) := H → List E

namespace View

variable {H E : Type}

/-- `e` is on none of the lists. -/
def Free (v : View H E) (e : E) : Prop := ∀ h, e ∉ v h

/-- No element is on two lists, or twice on one. -/
structure Ok (v : View H E) : Prop where
  nodup : ∀ h, (v h).Nodup
  disjoint : ∀ {h h' : H} {e : E}, e ∈ v h → e ∈ v h' → h = h'

section add
variable [DecidableEq H] {v : View H E}

def addAfter (v : View H E) (h : H) (e : E) : View H E := Function.update v h (e :: v h)

def addBefore (v : View H E) (h : H) (e : E) : View H E := Function.update v h (v h ++ [e])

theorem mem_addAfter {h h' : H} {e x : E} :
    x ∈ v.addAfter h e h' ↔ (x = e ∧ h' = h) ∨ x ∈ v h' := by
  by_cases hh : h' = h
  · subst hh
    simp [addAfter]
  · simp [addAfter, hh]

theorem mem_addBefore {h h' : H} {e x : E} :
    x ∈ v.addBefore h e h' ↔ (x = e ∧ h' = h) ∨ x ∈ v h' := by
  by_cases hh : h' = h
  · subst hh
    simp [addBefore, or_comm]
  · simp [addBefore, hh]

omit [DecidableEq H] in
/-- Adding a free element, at either end, keeps the lists disjoint. -/
theorem Ok.disjoint_add (hv : v.Ok) {w : View H E} {h : H} {e : E} (he : v.Free e)
    (hw : ∀ h' x, x ∈ w h' ↔ (x = e ∧ h' = h) ∨ x ∈ v h') {h₁ h₂ : H} {x : E}
    (m₁ : x ∈ w h₁) (m₂ : x ∈ w h₂) : h₁ = h₂ := by
  rcases (hw h₁ x).mp m₁ with ⟨rfl, e₁⟩ | m₁ <;> rcases (hw h₂ _).mp m₂ with ⟨h', e₂⟩ | m₂
  · rw [e₁, e₂]
  · exact absurd m₂ (he h₂)
  · exact absurd (h' ▸ m₁) (he h₁)
  · exact hv.disjoint m₁ m₂

theorem Ok.addAfter (hv : v.Ok) {h : H} {e : E} (he : v.Free e) : (v.addAfter h e).Ok where
  nodup h' := by
    by_cases hh : h' = h
    · subst hh
      simpa [View.addAfter] using ⟨he h', hv.nodup h'⟩
    · simpa [View.addAfter, Function.update_of_ne hh] using hv.nodup h'
  disjoint := hv.disjoint_add he fun _ _ => mem_addAfter

theorem Ok.addBefore (hv : v.Ok) {h : H} {e : E} (he : v.Free e) : (v.addBefore h e).Ok where
  nodup h' := by
    by_cases hh : h' = h
    · subst hh
      simp only [View.addBefore, Function.update_self]
      refine List.nodup_append.mpr ⟨hv.nodup h', List.nodup_singleton e, ?_⟩
      rintro a ha b hb rfl
      exact he h' (List.mem_singleton.mp hb ▸ ha)
    · simpa [View.addBefore, Function.update_of_ne hh] using hv.nodup h'
  disjoint := hv.disjoint_add he fun _ _ => mem_addBefore

end add

section delete
variable [DecidableEq E] {v : View H E}

def delete (v : View H E) (e : E) : View H E := fun h => (v h).erase e

theorem mem_delete (hv : v.Ok) {h : H} {e x : E} : x ∈ v.delete e h ↔ x ≠ e ∧ x ∈ v h :=
  (hv.nodup h).mem_erase_iff

theorem Ok.delete (hv : v.Ok) (e : E) : (v.delete e).Ok where
  nodup h := (hv.nodup h).erase e
  disjoint h₁ h₂ := hv.disjoint (List.mem_of_mem_erase h₁) (List.mem_of_mem_erase h₂)

theorem free_delete (hv : v.Ok) (e : E) : (v.delete e).Free e :=
  fun _ hm => ((mem_delete hv).mp hm).1 rfl

/-- Only the list that holds `e` changes. -/
theorem update_delete [DecidableEq H] (hv : v.Ok) {h : H} {e : E} (he : e ∈ v h) (l : List E) :
    Function.update (v.delete e) h l = Function.update v h l := by
  funext h'
  by_cases hh : h' = h
  · rw [hh, Function.update_self, Function.update_self]
  · rw [Function.update_of_ne hh, Function.update_of_ne hh, delete, List.erase_of_not_mem]
    exact fun hm => hh (hv.disjoint hm he)

theorem delete_of_free {e : E} (he : v.Free e) : v.delete e = v :=
  funext fun h => List.erase_of_not_mem (he h)

end delete

end View

/-! ### Representation -/

variable {H E : Type}

/-- The links hold the family `v` of circular lists. -/
structure Rings (L : Links (Node H E)) (v : View H E) : Prop where
  ok : v.Ok
  ring : ∀ h, L.Ring (.head h) ((v h).map .elem)
  free : ∀ {e : E}, v.Free e → L.next (.elem e) = .elem e ∧ L.prev (.elem e) = .elem e

namespace Rings

variable {L : Links (Node H E)} {v : View H E}

/-- The links of a heap in which every node is linked to itself. -/
theorem init : Rings ⟨id, id⟩ (fun _ : H => ([] : List E)) where
  ok := ⟨fun _ => List.nodup_nil, fun h => absurd h List.not_mem_nil⟩
  ring _ := by simp [Links.Ring, Links.Adj]
  free _ := ⟨rfl, rfl⟩

/-- The head and its successor; the rest of the ring goes from there back to the head. -/
theorem uncons (hR : Rings L v) (h : H) :
    L.prev (L.next (.head h)) = .head h ∧
      List.IsChain L.Adj ((v h).map .elem ++ [.head h]) ∧
      L.next (.head h) = ((v h).head?.map Node.elem).getD (.head h) := by
  have hr := hR.ring h
  unfold Links.Ring at hr
  cases hl : v h with
  | nil =>
      simp only [hl, List.map_nil, List.nil_append, List.isChain_cons_cons] at hr
      obtain ⟨⟨h1, h2⟩, h3⟩ := hr
      exact ⟨by rw [h1, h2], h3, by simp [h1]⟩
  | cons e l =>
      simp only [hl, List.map_cons, List.cons_append, List.isChain_cons_cons] at hr
      obtain ⟨⟨h1, h2⟩, h3⟩ := hr
      exact ⟨by rw [h1, h2], h3, by simp [h1]⟩

/-- Around an element, the two link fields are inverse to each other. -/
theorem elem_links (hR : Rings L v) (e : E) :
    L.next (L.prev (.elem e)) = .elem e ∧ L.prev (L.next (.elem e)) = .elem e := by
  by_cases he : v.Free e
  · obtain ⟨h1, h2⟩ := hR.free he
    exact ⟨by rw [h2, h1], by rw [h1, h2]⟩
  · obtain ⟨h, hm⟩ := not_forall_not.mp he
    obtain ⟨A, B, hl⟩ := List.append_of_mem hm
    have hr := hR.ring h
    simp only [Links.Ring, hl, List.map_append, List.map_cons, List.append_assoc,
      List.cons_append] at hr
    rw [← List.cons_append, List.isChain_split] at hr
    obtain ⟨h1, h2⟩ := hr
    constructor
    · have hx := (List.isChain_append.mp h1).2.2
      obtain ⟨x, hlast⟩ : ∃ x, x ∈ (Node.head h :: A.map Node.elem).getLast? :=
        ⟨_, List.getLast?_eq_some_getLast (List.cons_ne_nil _ _)⟩
      obtain ⟨h3, h4⟩ := hx x hlast _ rfl
      rw [h4, h3]
    · have hx := (List.isChain_cons.mp h2).1
      obtain ⟨y, hhead⟩ : ∃ y, y ∈ (B.map Node.elem ++ [Node.head h]).head? := by
        cases B <;> simp
      obtain ⟨h3, h4⟩ := hx y hhead
      rw [h3, h4]

/-- Read backwards, the links hold the reversed lists. -/
theorem flip (hR : Rings L v) : Rings L.flip fun h => (v h).reverse where
  ok := ⟨fun h => List.nodup_reverse.mpr (hR.ok.nodup h),
    fun h₁ h₂ => hR.ok.disjoint (List.mem_reverse.mp h₁) (List.mem_reverse.mp h₂)⟩
  ring h := by
    rw [List.map_reverse]
    exact (hR.ring h).flip
  free he := (hR.free fun h hm => he h (List.mem_reverse.mpr hm)).symm

section splice
variable [DecidableEq H] [DecidableEq E]

/-- A splice after a head keeps the self-linked elements other than `e`. -/
theorem insertBetween_free (hR : Rings L v) {n : Node H E} {h : H} {e x : E} (hx : v.Free x)
    (hxe : x ≠ e) (hadj : L.Adj (.head h) n) :
    (L.insertBetween (.head h) (.elem e) n).Adj (.elem x) (.elem x) := by
  have hself : L.Adj (.elem x) (.elem x) := hR.free hx
  have hxn : Node.elem x ≠ n := by
    rintro rfl
    exact absurd (hself.2.symm.trans hadj.2) (by simp)
  exact hself.insertBetween (by simp) (by simpa using hxe) hxn (by simpa using hxe)

/-- Linking a free element right after the head `h`. -/
theorem addAfter (hR : Rings L v) {h : H} {e : E} (he : v.Free e) :
    Rings (L.insertBetween (.head h) (.elem e) (L.next (.head h))) (v.addAfter h e) := by
  obtain ⟨hprev, hchain, hnext⟩ := hR.uncons h
  have hadj : L.Adj (.head h) (L.next (.head h)) := ⟨rfl, hprev⟩
  refine ⟨hR.ok.addAfter he, fun h' => ?_, fun {x} hx => ?_⟩
  · by_cases hh : h' = h
    · subst hh
      -- the old chain from the first element on, with the two new adjacencies before it
      have htail : L.next (.head h') ∉ ((v h').map Node.elem ++ [Node.head h']).tail := by
        rw [hnext]
        have hnd := hR.ok.nodup h'
        cases hl : v h' with
        | nil => simp
        | cons x l => simpa [hl] using (List.nodup_cons.mp (hl ▸ hnd)).1
      have hne : ∀ x ∈ (v h').map Node.elem ++ [Node.head h'], x ≠ .elem e := by
        rintro x hx rfl
        exact he h' (by simpa using hx)
      simp only [View.addAfter, Function.update_self, Links.Ring, List.map_cons,
        List.cons_append, List.isChain_cons_cons]
      refine ⟨Links.insertBetween_adj_left (fun hc => ?_), ?_⟩
      · exact hne _ (by rw [← hc, hnext]; cases v h' <;> simp) rfl
      refine List.isChain_cons.mpr ⟨fun y hy => ?_, ?_⟩
      · have hy' : y = L.next (.head h') := by
          rw [hnext]
          cases hl : v h' with
          | nil => simpa [hl, eq_comm] using hy
          | cons x l => simpa [hl, eq_comm] using hy
        rw [hy']
        exact Links.insertBetween_adj_right (by simp)
      · refine List.IsChain.imp_of_mem_tail_imp (fun a b ha hb hab => ?_) hchain
        have hbn : b ≠ L.next (.head h') := fun hc => htail (hc ▸ hb)
        exact hab.insertBetween (fun hc => hbn (by rw [← hab.1, hc])) (hne a ha) hbn
          (hne b (List.mem_of_mem_tail hb))
    · rw [View.addAfter, Function.update_of_ne hh]
      exact (hR.ring h').insertBetween hadj (by simp [Ne.symm hh]) (by simpa using he h')
  · have hx' : ∀ h', ¬((x = e ∧ h' = h) ∨ x ∈ v h') := fun h' hc => hx h' (View.mem_addAfter.mpr hc)
    exact hR.insertBetween_free (fun h' hm => hx' h' (.inr hm)) (fun hc => hx' h (.inl ⟨hc, rfl⟩))
      hadj

/-- Linking a free element right before the head `h`, that is, at the end of its list. -/
theorem addBefore (hR : Rings L v) {h : H} {e : E} (he : v.Free e) :
    Rings (L.insertBetween (L.prev (.head h)) (.elem e) (.head h)) (v.addBefore h e) := by
  -- backwards it is linked right after the head
  have hflip := (hR.flip.addAfter (h := h) (e := e) fun h' hm => he h' (List.mem_reverse.mp hm)).flip
  have hview : v.addBefore h e =
      fun h' => (View.addAfter (fun h' => (v h').reverse) h e h').reverse := by
    funext h'
    by_cases hh : h' = h
    · rw [hh]
      simp [View.addAfter, View.addBefore]
    · simp [View.addAfter, View.addBefore, Function.update_of_ne hh]
  rw [hview]
  exact hflip

/-- Unlinking an element, wherever it is. -/
theorem delete (hR : Rings L v) (e : E) : Rings (L.unlink (.elem e)) (v.delete e) := by
  obtain ⟨hp, hn⟩ := hR.elem_links e
  refine ⟨hR.ok.delete e, fun h => ?_, fun {x} hx => ?_⟩
  · by_cases hm : e ∈ v h
    · obtain ⟨A, B, hl⟩ := List.append_of_mem hm
      have hnd := hR.ok.nodup h
      rw [hl] at hnd
      obtain ⟨heA, heB⟩ : e ∉ A ∧ e ∉ B := by
        simp only [List.nodup_append, List.nodup_cons, List.mem_cons] at hnd
        exact ⟨fun ha => hnd.2.2 e ha e (.inl rfl) rfl, hnd.2.1.1⟩
      have hr := hR.ring h
      rw [hl, List.map_append, List.map_cons] at hr
      rw [View.delete, hl, List.erase_append_right _ heA, List.erase_cons_head, List.map_append]
      exact hr.unlink hp hn (by simpa using heA) (by simpa using heB)
    · rw [View.delete, List.erase_of_not_mem hm]
      exact (hR.ring h).unlink_of_not_mem hp hn (by simpa using hm)
  · by_cases hxe : x = e
    · rw [hxe]
      exact Links.unlink_self _
    · have hx' : v.Free x := fun h hm => hx h ((View.mem_delete hR.ok).mpr ⟨hxe, hm⟩)
      have hself : (L.unlink (.elem e)).Adj (.elem x) (.elem x) :=
        Links.Adj.unlink (hR.free hx') hp hn (by simpa using hxe) (by simpa using hxe)
      exact hself

end splice

/-! ### Reading the lists off the links -/

/-- An element is linked to itself exactly when it is on no list. -/
theorem next_elem_eq_iff (hR : Rings L v) {e : E} :
    L.next (.elem e) = .elem e ↔ v.Free e := by
  refine ⟨fun hself h hm => ?_, fun he => (hR.free he).1⟩
  obtain ⟨A, B, hl⟩ := List.append_of_mem hm
  have hnd := hR.ok.nodup h
  have hr := hR.ring h
  simp only [Links.Ring, hl, List.map_append, List.map_cons, List.append_assoc,
    List.cons_append] at hr
  rw [← List.cons_append, List.isChain_split] at hr
  have hx := (List.isChain_cons.mp hr.2).1
  cases B with
  | nil =>
      have := (hx (.head h) (by simp)).1
      rw [hself] at this
      cases this
  | cons b B =>
      have := (hx (.elem b) (by simp)).1
      rw [hself] at this
      cases this
      simp [hl, List.nodup_append] at hnd

theorem next_head (hR : Rings L v) (h : H) :
    L.next (.head h) = ((v h).head?.map Node.elem).getD (.head h) := (hR.uncons h).2.2

theorem prev_head (hR : Rings L v) (h : H) :
    L.prev (.head h) = ((v h).getLast?.map Node.elem).getD (.head h) := by
  have hback := hR.flip.next_head h
  rw [List.head?_reverse] at hback
  exact hback

theorem prev_head_eq_iff (hR : Rings L v) {h : H} : L.prev (.head h) = .head h ↔ v h = [] := by
  rw [hR.prev_head h]
  rcases List.eq_nil_or_concat' (v h) with hl | ⟨l, x, hl⟩ <;> simp [hl]

theorem next_head_eq_iff (hR : Rings L v) {h : H} : L.next (.head h) = .head h ↔ v h = [] := by
  rw [hR.next_head h]
  cases v h <;> simp

/-- Where a walk along the list of `h` stands when the elements `l` are still to come. -/
def cursor (h : H) (l : List E) : Node H E := (l.head?.map Node.elem).getD (.head h)

@[simp] theorem cursor_nil (h : H) : cursor h ([] : List E) = .head h := rfl

@[simp] theorem cursor_cons (h : H) (e : E) (l : List E) : cursor h (e :: l) = .elem e := rfl

theorem next_head_cursor (hR : Rings L v) (h : H) : L.next (.head h) = cursor h (v h) :=
  hR.next_head h

theorem next_elem_cursor (hR : Rings L v) {h : H} {A B : List E} {e : E} (hl : v h = A ++ e :: B) :
    L.next (.elem e) = cursor h B := by
  have hr := hR.ring h
  simp only [Links.Ring, hl, List.map_append, List.map_cons, List.append_assoc,
    List.cons_append] at hr
  rw [← List.cons_append, List.isChain_split] at hr
  have hx := (List.isChain_cons.mp hr.2).1
  cases B with
  | nil => exact (hx (.head h) (by simp)).1
  | cons b B => exact (hx (.elem b) (by simp)).1

/-- The first node after a head is the first element of the list, and leads to the rest of it. -/
theorem next_of_first (hR : Rings L v) {h : H} {e : E} (he : L.next (.head h) = .elem e) :
    ∃ B, v h = e :: B ∧ L.next (.elem e) = cursor h B := by
  rw [hR.next_head_cursor] at he
  cases hl : v h with
  | nil => simp [hl] at he
  | cons x B =>
      rw [hl, cursor_cons] at he
      obtain rfl := Node.elem.inj he
      exact ⟨B, rfl, hR.next_elem_cursor (A := []) hl⟩

/-- The elements met on the way from `x` along `next` up to the next head, at most `k`. -/
def walk (L : Links (Node H E)) : ℕ → Node H E → List E
  | 0, _ => []
  | k + 1, x =>
      match L.next x with
      | .head _ => []
      | .elem e => e :: walk L k (.elem e)

theorem walk_chain {h : H} : ∀ (l : List E) (k : ℕ) (x : Node H E), l.length ≤ k →
    List.IsChain L.Adj (x :: (l.map Node.elem ++ [Node.head h])) → walk L k x = l
  | [], 0, _, _, _ => rfl
  | [], k + 1, x, _, hc => by
      have hx : L.next x = .head h := (List.isChain_cons_cons.mp hc).1.1
      simp [walk, hx]
  | e :: l, k + 1, x, hk, hc => by
      simp only [List.map_cons, List.cons_append, List.isChain_cons_cons] at hc
      have hx : L.next x = .elem e := hc.1.1
      simp only [walk, hx]
      rw [walk_chain l k (.elem e) (by simpa using hk) hc.2]

/-- A bound on the passes of a walk when the elements are different numbers below `b`. -/
theorem length_le {l : List ℕ} {b : ℕ} (hl : l.Nodup) (hlt : ∀ n ∈ l, n < b) : l.length ≤ b := by
  have hsub : l ⊆ List.range b := fun n hn => List.mem_range.mpr (hlt n hn)
  have hle := (hl.subperm hsub).length_le
  rwa [List.length_range] at hle

/-- Walking from a head visits its list. -/
theorem walk_eq (hR : Rings L v) {h : H} {k : ℕ} (hk : (v h).length ≤ k) :
    walk L k (.head h) = v h :=
  walk_chain (v h) k (.head h) hk (hR.ring h)

/-- Links hold one family of lists. -/
theorem unique {w : View H E} (hR : Rings L v) (hR' : Rings L w) (h : H) : v h = w h :=
  (hR.walk_eq (le_max_left _ (w h).length)).symm.trans (hR'.walk_eq (le_max_right _ _))

end Rings

/-! ### Lists as an interface -/

/-- The operations on a family of lists with heads `H` and elements `E`: the empty lists, link an
element next to a head, unlink it, the elements next to a head, and whether an element is on some
list. -/
class ListOps (L : Type) (H E : outParam Type) where
  empty : L
  addBefore : L → H → E → L
  addAfter : L → H → E → L
  delete : L → E → L
  first : L → H → Option E
  last : L → H → Option E
  Linked : L → E → Prop

instance View.listOps {H E : Type} [DecidableEq H] [DecidableEq E] :
    ListOps (View H E) H E where
  empty := fun _ => []
  addBefore := View.addBefore
  addAfter := View.addAfter
  delete := View.delete
  first v h := (v h).head?
  last v h := (v h).getLast?
  Linked v e := ¬v.Free e

end Libcask
