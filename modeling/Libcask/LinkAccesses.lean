import Libcask.Accesses
import Libcask.CList

/-! # The list functions, access by access

The link fields of the nodes as the cells of a memory, and the functions of `list.c` as programs that access one
field after the other, in the order of the source; each is followed by what the caller does next.  Run alone
they are the functions of `CList.lean` (`run_listDelete` and its like), and on well-formed lists `listPeek` goes
on with the first or the last element (`run_listPeek_next`, `run_listPeek_prev`). -/

namespace Libcask

/-- A field of `list_t`. -/
inductive Field where
  | next | prev
deriving DecidableEq, Repr

/-- A program on the link fields of nodes. -/
abbrev LinkProg (α ρ : Type) := Prog (Field × α) α ρ

/-- The links in a memory. -/
def linksOf {α : Type} (m : Field × α → α) : Links α := ⟨fun x => m (.next, x), fun x => m (.prev, x)⟩

/-- The memory that holds the links. -/
def cellsOf {α : Type} (L : Links α) : Field × α → α
  | (.next, x) => L.next x
  | (.prev, x) => L.prev x

namespace LinkProg

variable {α ρ : Type}

/-- `_list_delete(elm->prev, elm->next)` and `list_init(elm)`. -/
def listDelete (elm : α) (k : LinkProg α ρ) : LinkProg α ρ :=
  .read (.prev, elm) fun p => .read (.next, elm) fun n => .write (.next, p) n <|
  .read (.next, elm) fun n => .read (.prev, elm) fun p => .write (.prev, n) p <|
  .write (.next, elm) elm <| .write (.prev, elm) elm k

def listInit (ls : α) (k : LinkProg α ρ) : LinkProg α ρ := .write (.next, ls) ls <| .write (.prev, ls) ls k

/-- `_list_add(elm, ls, ls->next)`. -/
def listAddAfter (ls elm : α) (k : LinkProg α ρ) : LinkProg α ρ :=
  .write (.prev, elm) ls <| .read (.next, ls) fun n => .write (.next, elm) n <|
  .read (.next, ls) fun n => .write (.prev, n) elm <| .write (.next, ls) elm k

/-- `_list_add(elm, ls->prev, ls)`, with the location of the last assignment read first. -/
def listAddBefore (ls elm : α) (k : LinkProg α ρ) : LinkProg α ρ :=
  .read (.prev, ls) fun p => .write (.prev, elm) p <| .write (.next, elm) ls <|
  .read (.prev, ls) fun p => .write (.prev, ls) elm <| .write (.next, p) elm k

variable [DecidableEq α]

/-- `list_empty`: the second comparison is made only if the first one holds. -/
def listEmpty (ls : α) (k : Bool → LinkProg α ρ) : LinkProg α ρ :=
  .read (.prev, ls) fun p => .read (.next, ls) fun n =>
    if p = n then .read (.prev, ls) fun p => k (decide (p = ls)) else k false

/-- The field `f` of a head is read, and `list_empty` is tested of what was read: `none` is an empty list.  A
head that is not found empty is taken for an element (`wild`). -/
def listPeek {H E : Type} [DecidableEq H] [DecidableEq E] (f : Field) (h : H)
    (k : Option E → LinkProg (Node H E) ρ) (wild : LinkProg (Node H E) ρ) : LinkProg (Node H E) ρ :=
  .read (f, .head h) fun ls => listEmpty ls fun
    | true => k none
    | false =>
        match ls with
        | .elem e => k (some e)
        | .head _ => wild

end LinkProg

/-! ### What the programs do -/

section specs
variable {α ρ : Type}

theorem cellsOf_linksOf (m : Field × α → α) : cellsOf (linksOf m) = m := by
  funext ⟨f, x⟩
  cases f <;> rfl

variable [DecidableEq α]

theorem update_cellsOf_next (L : Links α) (x y : α) :
    Function.update (cellsOf L) (.next, x) y = cellsOf (L.setNext x y) := by
  funext ⟨f, z⟩
  cases f with
  | next => simp [cellsOf, Function.update_apply]
  | prev => simp [cellsOf]

theorem update_cellsOf_prev (L : Links α) (x y : α) :
    Function.update (cellsOf L) (.prev, x) y = cellsOf (L.setPrev x y) := by
  funext ⟨f, z⟩
  cases f with
  | next => simp [cellsOf]
  | prev => simp [cellsOf, Function.update_apply]

theorem run_listDelete (elm : α) (k : LinkProg α ρ) (m : Field × α → α) :
    (LinkProg.listDelete elm k).run m = k.run (cellsOf (listDelete (linksOf m) elm)) := by
  rw [← cellsOf_linksOf m]
  simp only [LinkProg.listDelete, Prog.run_read, Prog.run_write, update_cellsOf_next, update_cellsOf_prev]
  rfl

theorem run_listInit (ls : α) (k : LinkProg α ρ) (m : Field × α → α) :
    (LinkProg.listInit ls k).run m = k.run (cellsOf (listInit (linksOf m) ls)) := by
  rw [← cellsOf_linksOf m]
  simp only [LinkProg.listInit, Prog.run_write, update_cellsOf_next, update_cellsOf_prev]
  rfl

theorem run_listAddAfter (ls elm : α) (k : LinkProg α ρ) (m : Field × α → α) :
    (LinkProg.listAddAfter ls elm k).run m = k.run (cellsOf (listAddAfter (linksOf m) ls elm)) := by
  rw [← cellsOf_linksOf m]
  simp only [LinkProg.listAddAfter, Prog.run_read, Prog.run_write, update_cellsOf_next, update_cellsOf_prev]
  rfl

theorem run_listAddBefore (ls elm : α) (k : LinkProg α ρ) (m : Field × α → α) :
    (LinkProg.listAddBefore ls elm k).run m = k.run (cellsOf (listAddBefore (linksOf m) ls elm)) := by
  rw [← cellsOf_linksOf m]
  simp only [LinkProg.listAddBefore, Prog.run_read, Prog.run_write, update_cellsOf_next, update_cellsOf_prev]
  rfl

theorem run_listEmpty (ls : α) (k : Bool → LinkProg α ρ) (m : Field × α → α) :
    (LinkProg.listEmpty ls k).run m = (k (listEmpty (linksOf m) ls)).run m := by
  rw [LinkProg.listEmpty, Prog.run_read, Prog.run_read]
  by_cases h : m (.prev, ls) = m (.next, ls)
  · rw [if_pos h, Prog.run_read]
    simp only [listEmpty, linksOf, h, true_and]
  · rw [if_neg h]
    simp only [listEmpty, linksOf, h, false_and, decide_false]

variable {H E : Type} [DecidableEq H] [DecidableEq E] {m : Field × Node H E → Node H E} {v : View H E}

theorem run_listPeek {f : Field} {h : H} {o : Option E} (hR : Rings (linksOf m) v)
    (hls : m (f, .head h) = (o.map Node.elem).getD (.head h)) (ho : o = none ↔ v h = [])
    (hmem : ∀ e, o = some e → e ∈ v h) (k : Option E → LinkProg (Node H E) ρ) (w : LinkProg (Node H E) ρ) :
    (LinkProg.listPeek f h k w).run m = (k o).run m := by
  rw [LinkProg.listPeek, Prog.run_read, run_listEmpty, hls]
  cases o with
  | none =>
      have hl := ho.mp rfl
      have hempty : listEmpty (linksOf m) (.head h) = true :=
        (listEmpty_iff _ _).mpr ⟨hR.prev_head_eq_iff.mpr hl, hR.next_head_eq_iff.mpr hl⟩
      simp only [Option.map_none, Option.getD_none, hempty]
  | some e =>
      have hempty : listEmpty (linksOf m) (.elem e) = false := (linked_iff hR).mpr fun hf => hf h (hmem e rfl)
      simp only [Option.map_some, Option.getD_some, hempty]

/-- The first element of a list. -/
theorem run_listPeek_next (hR : Rings (linksOf m) v) (h : H) (k : Option E → LinkProg (Node H E) ρ)
    (w : LinkProg (Node H E) ρ) : (LinkProg.listPeek .next h k w).run m = (k (v h).head?).run m :=
  run_listPeek hR (hR.next_head h) List.head?_eq_none_iff (fun _ he => List.mem_of_head? he) k w

/-- The last element of a list. -/
theorem run_listPeek_prev (hR : Rings (linksOf m) v) (h : H) (k : Option E → LinkProg (Node H E) ρ)
    (w : LinkProg (Node H E) ρ) : (LinkProg.listPeek .prev h k w).run m = (k (v h).getLast?).run m :=
  run_listPeek hR (hR.prev_head h) List.getLast?_eq_none_iff (fun _ he => List.mem_of_getLast? he) k w

end specs

end Libcask
