import Libcask.CList

/-! # Run queue and wait lists

Every task has one link field, `run_link`, which is either on the run queue of its scheduler or on
the wait list of the mutex, condition or semaphore it sleeps on.  The functions of `sched_RR.c`
and the wake-up loop that mutex, condition and semaphore share are written once, for any
implementation of the lists (`ListOps`): on links they are the code, on plain lists (`View`) they
say what the code does.  `rings_rrEnqueue`, `rings_wakeFirst` and `rrPicknext_eq` relate the two,
and `wakeFirst_eq` computes a wake-up on plain lists (`rings_wake` on links). -/

namespace Libcask

/-- Tasks, numbered in the order of their creation. -/
abbrev Tid := ℕ

section code
variable {L H : Type} [ListOps L H Tid]

/-- `RR_enqueue`: unlink the task wherever it is, then link it right after the head. -/
def rrEnqueue (rq : H) (l : L) (t : Tid) : L := ListOps.addAfter (ListOps.delete l t) rq t

/-- `RR_dequeue`. -/
def rrDequeue (l : L) (t : Tid) : L := ListOps.delete l t

/-- The task `RR_picknext` chooses: the one before the head, that is, the oldest entry. -/
def rrPicknext (rq : H) (l : L) : Option Tid := ListOps.last l rq

/-- The loop `while(!list_empty(ls)) { t = list_to_task(ls); list_delete(ls); ... break; }`
followed by `co_resume(t)`: the first waiter of a wait list is unlinked and resumed. -/
def wakeFirst (rq h : H) (l : L) : L :=
  match ListOps.first l h with
  | none => l
  | some t => rrEnqueue rq (ListOps.delete l t) t

end code

/-! ### Links and plain lists -/

section rings
variable {H : Type} [DecidableEq H] {L : Links (Node H Tid)} {v : View H Tid}

theorem rings_rrEnqueue (hR : Rings L v) (rq : H) (t : Tid) :
    Rings (rrEnqueue rq L t) (rrEnqueue rq v t) :=
  rings_addAfter (rings_delete hR t) (View.free_delete hR.ok t)

theorem rings_rrDequeue (hR : Rings L v) (t : Tid) : Rings (rrDequeue L t) (rrDequeue v t) :=
  rings_delete hR t

theorem rrPicknext_eq (hR : Rings L v) (rq : H) : rrPicknext rq L = rrPicknext rq v :=
  last_eq hR rq

theorem rings_wakeFirst (hR : Rings L v) (rq h : H) :
    Rings (wakeFirst rq h L) (wakeFirst rq h v) := by
  unfold wakeFirst
  rw [first_eq hR h]
  cases ListOps.first v h with
  | none => exact hR
  | some t => exact rings_rrEnqueue (rings_delete hR t) rq t

end rings

/-! ### Plain lists -/

namespace View

variable {H : Type} [DecidableEq H] {v : View H Tid}

theorem Ok.rrEnqueue (hv : v.Ok) (rq : H) (t : Tid) : View.Ok (rrEnqueue rq v t) :=
  (hv.delete t).addAfter (free_delete hv t)

theorem mem_rrEnqueue (hv : v.Ok) {rq h : H} {t x : Tid} :
    x ∈ Libcask.rrEnqueue rq v t h ↔ (x = t ∧ h = rq) ∨ (x ≠ t ∧ x ∈ v h) := by
  rw [← mem_delete hv]
  exact mem_addAfter

/-- Enqueueing a task that is on no list. -/
theorem rrEnqueue_of_free {rq : H} {t : Tid} (ht : v.Free t) :
    rrEnqueue rq v t = Function.update v rq (t :: v rq) := by
  show (v.delete t).addAfter rq t = _
  rw [delete_of_free ht]
  rfl

theorem wakeFirst_nil {rq h : H} (hl : v h = []) : wakeFirst rq h v = v := by
  simp [wakeFirst, ListOps.first, hl]

/-- Waking the first waiter moves it to the front of the run queue. -/
theorem wakeFirst_eq (hv : v.Ok) {rq h : H} {t : Tid} {r : List Tid} (hl : v h = t :: r)
    (hne : h ≠ rq) :
    wakeFirst rq h v = Function.update (Function.update v h r) rq (t :: v rq) := by
  have hdel : v.delete t = Function.update v h r := by
    funext x
    by_cases hx : x = h
    · subst hx
      simp [View.delete, hl]
    · rw [Function.update_of_ne hx, View.delete]
      refine List.erase_of_not_mem fun hm => hx ?_
      exact hv.disjoint hm (hl ▸ List.mem_cons_self)
  have hfree : (v.delete t).Free t := free_delete hv t
  have hw : wakeFirst rq h v = rrEnqueue rq (v.delete t) t := by
    simp [wakeFirst, ListOps.first, hl, ListOps.delete]
  rw [hw, rrEnqueue_of_free hfree, hdel, Function.update_of_ne hne.symm]

/-- The links after the first waiter has been unlinked and resumed. -/
theorem rings_wake {L : Links (Node H Tid)} (hR : Rings L v) {rq h : H} {t : Tid} {r : List Tid}
    (hl : v h = t :: r) (hne : h ≠ rq) : Rings (rrEnqueue rq (ListOps.delete L t) t)
      (Function.update (Function.update v h r) rq (t :: v rq)) := by
  have hlinks : Libcask.wakeFirst rq h L = rrEnqueue rq (ListOps.delete L t) t := by
    unfold Libcask.wakeFirst
    rw [first_eq hR]
    simp [ListOps.first, hl]
  rw [← hlinks, ← wakeFirst_eq hR.ok hl hne]
  exact rings_wakeFirst hR rq h

theorem Ok.wakeFirst (hv : v.Ok) (rq h : H) : View.Ok (wakeFirst rq h v) := by
  unfold Libcask.wakeFirst
  cases ListOps.first v h with
  | none => exact hv
  | some t => exact (hv.delete t).rrEnqueue rq t

/-- A task that is on no list stays off the lists when another one is woken. -/
theorem Free.wakeFirst (hv : v.Ok) {x : Tid} (hx : v.Free x) (rq h : H) :
    View.Free (wakeFirst rq h v) x := by
  unfold Libcask.wakeFirst
  cases hf : ListOps.first v h with
  | none => exact hx
  | some t =>
      have hne : x ≠ t := fun hc => hx h (hc ▸ List.mem_of_head? hf)
      intro h' hm
      rcases (mem_rrEnqueue (hv.delete t)).mp hm with ⟨hc, -⟩ | ⟨-, hm⟩
      · exact hne hc
      · exact hx h' ((mem_delete hv).mp hm).2

end View

end Libcask
