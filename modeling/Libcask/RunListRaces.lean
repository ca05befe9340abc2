import Libcask.LinkAccesses
import Libcask.RunQueue

/-! # The run queue between several threads, access by access

`RR_enqueue` unlinks a task and then links it under the lock of the run queue; any thread may call it.
`RR_picknext` and `RR_dequeue` of the thread that owns the queue look for the oldest task and take it off, without
the lock (`sched_RR.c`, `list.c`).  Here every access to a link field is a step of its own, those of `list_empty`
in `RR_picknext` included, and the threads may overlap anywhere.

The owner and an enqueuer write different fields as long as a second task is linked: the enqueuer the newest
task's `prev` and the head's `next`, the owner the second oldest task's `next`, the head's `prev` and the fields
of the task it takes.  In runs without a race the queue is first-in first-out (`run_list_fifo`).  The code does
not exclude the races: with one task linked, or with none, the two threads meet at the head (`lone_task_race`,
`empty_queue_race`). -/

namespace Libcask.RunList

/-- What a thread does next. -/
inductive Place where
  | idle
  /-- In `RR_enqueue`, before `spin_lock`. -/
  | unlinked (t : Tid)
  | locked (t : Tid)
  | linked
  /-- `RR_picknext` has returned the task. -/
  | found (t : Tid)
  /-- `RR_picknext` has taken the head of the list for a task. -/
  | wild
deriving DecidableEq, Repr

/-- The lock of the run queue, and as history the tasks that have been linked and those that have been taken
off. -/
structure Shared where
  lock : Bool
  entered : List Tid
  left : List Tid
deriving DecidableEq, Repr

/-- The actions of the threads of `ι`; the last two are the owner's. -/
inductive Act (ι : Type) where
  | enqueue (i : ι) (t : Tid)
  | spinLock (i : ι)
  | link (i : ι)
  | spinUnlock (i : ι)
  | picknext
  | dequeue
deriving DecidableEq, Repr

variable {ι : Type}

def Act.agent (owner : ι) : Act ι → ι
  | .enqueue i _ | .spinLock i | .link i | .spinUnlock i => i
  | .picknext | .dequeue => owner

/-- `rq->run_list`. -/
def runList : Node Unit Tid := .head ()

def start (s : Shared) : Place → Act ι → Option (Shared × LinkProg (Node Unit Tid) Place)
  | .idle, .enqueue _ t => some (s, .listDelete (.elem t) (.done (.unlinked t)))
  | .unlinked t, .spinLock _ => if s.lock then none else some ({ s with lock := true }, .done (.locked t))
  | .locked t, .link _ =>
      some ({ s with entered := s.entered ++ [t] }, .listAddAfter runList (.elem t) (.done .linked))
  | .linked, .spinUnlock _ => some ({ s with lock := false }, .done .idle)
  | .idle, .picknext =>
      some (s, .listPeek .prev () (fun o => .done (o.elim .idle .found)) (.done .wild))
  | .found t, .dequeue => some ({ s with left := s.left ++ [t] }, .listDelete (.elem t) (.done .idle))
  | _, _ => none

/-- The run queue of the thread `owner`, at first empty. -/
def threads (owner : ι) : Agents ι Shared Place (Act ι) (Field × Node Unit Tid) (Node Unit Tid) where
  agent := Act.agent owner
  start := start
  shared₀ := ⟨false, [], []⟩
  mem₀ := cellsOf ⟨id, id⟩
  place₀ _ := .idle

/-- The task that is being enqueued. -/
def Place.entering : Place → Option Tid
  | .unlinked t | .locked t => some t
  | _ => none

/-- A task that is enqueued is not on the queue, and no other thread enqueues it. -/
def fresh (s : Shared) (place : ι → Place) : Act ι → Prop
  | .enqueue _ t => s.entered.count t = s.left.count t ∧ ∀ j, (place j).entering ≠ some t
  | _ => True

instance [Fintype ι] (s : Shared) (place : ι → Place) : ∀ a, Decidable (fresh s place a)
  | .enqueue _ t => inferInstanceAs
      (Decidable (s.entered.count t = s.left.count t ∧ ∀ j, (place j).entering ≠ some t))
  | .spinLock _ | .link _ | .spinUnlock _ | .picknext | .dequeue => isTrue trivial

variable [DecidableEq ι]

/-- The runs without races in which the enqueued tasks are fresh. -/
def apart (owner : ι) (s : Agents.Fine ι Shared Place (Field × Node Unit Tid) (Node Unit Tid))
    (a : Agents.FineAct ι (Act ι)) : Prop :=
  (threads owner).raceFree s a ∧ Agents.meets fresh s a

instance [Fintype ι] (owner : ι) (s : Agents.Fine ι Shared Place (Field × Node Unit Tid) (Node Unit Tid)) :
    ∀ a, Decidable (apart owner s a) :=
  fun a => inferInstanceAs (Decidable ((threads owner).raceFree s a ∧ Agents.meets fresh s a))

/-! ### Whole operations -/

/-- The tasks `q` are on the queue, oldest first. -/
structure Inv (owner : ι) (s : Agents.Coarse ι Shared Place (Field × Node Unit Tid) (Node Unit Tid))
    (q : List Tid) : Prop where
  rings : Rings (linksOf s.mem) fun _ => q.reverse
  history : s.shared.entered = s.shared.left ++ q
  entering : ∀ i t, (s.place i).entering = some t → t ∉ q ∧ ∀ j, (s.place j).entering = some t → j = i
  found : ∀ i t, s.place i = .found t → i = owner ∧ q.head? = some t
  tame : ∀ i, s.place i ≠ .wild

variable {owner i : ι} {s s' : Agents.Coarse ι Shared Place (Field × Node Unit Tid) (Node Unit Tid)}
  {q q' : List Tid} {t : Tid}

namespace Inv

/-- The thread `i` goes on at `p`. -/
theorem goto {x : Shared} {m : Field × Node Unit Tid → Node Unit Tid} {p : Place} (hi : Inv owner s q)
    (hR : Rings (linksOf m) fun _ => q'.reverse) (hhist : x.entered = x.left ++ q')
    (hothers : ∀ j t, j ≠ i → (s.place j).entering = some t → t ∉ q' ∧ p.entering ≠ some t)
    (hown : ∀ t, p.entering = some t → t ∉ q')
    (hfound : ∀ j t, j ≠ i → s.place j = .found t → q'.head? = some t)
    (hp : ∀ t, p = .found t → i = owner ∧ q'.head? = some t) (hw : p ≠ .wild) :
    Inv owner ⟨x, m, Function.update s.place i p⟩ q' where
  rings := hR
  history := hhist
  entering j t (hj : (Function.update s.place i p j).entering = some t) := by
    show _ ∧ ∀ l, (Function.update s.place i p l).entering = some t → l = j
    by_cases hji : j = i
    · subst hji
      rw [Function.update_self] at hj
      refine ⟨hown t hj, fun l hl => ?_⟩
      by_contra hlj
      rw [Function.update_of_ne hlj] at hl
      exact (hothers l t hlj hl).2 hj
    · rw [Function.update_of_ne hji] at hj
      refine ⟨(hothers j t hji hj).1, fun l hl => ?_⟩
      by_cases hli : l = i
      · rw [hli, Function.update_self] at hl
        exact absurd hl (hothers j t hji hj).2
      · rw [Function.update_of_ne hli] at hl
        exact (hi.entering j t hj).2 l hl
  found j t (hj : Function.update s.place i p j = .found t) := by
    by_cases hji : j = i
    · rw [hji, Function.update_self] at hj
      exact hji ▸ hp t hj
    · rw [Function.update_of_ne hji] at hj
      exact ⟨(hi.found j t hj).1, hfound j t hji hj⟩
  tame j := by
    show Function.update s.place i p j ≠ .wild
    by_cases hji : j = i
    · rwa [hji, Function.update_self]
    · rw [Function.update_of_ne hji]
      exact hi.tame j

/-- The thread goes on without a change of the queue, and enqueues no other task than before. -/
theorem stay {x : Shared} {m : Field × Node Unit Tid → Node Unit Tid} {p : Place} (hi : Inv owner s q)
    (hR : Rings (linksOf m) fun _ => q.reverse) (hhist : x.entered = x.left ++ q)
    (hent : ∀ t, p.entering = some t → (s.place i).entering = some t)
    (hp : ∀ t, p = .found t → i = owner ∧ q.head? = some t) (hw : p ≠ .wild) :
    Inv owner ⟨x, m, Function.update s.place i p⟩ q := by
  refine hi.goto hR hhist (fun j t hj ht => ⟨(hi.entering j t ht).1, fun hc => ?_⟩) (fun t ht => ?_)
    (fun j t _ ht => (hi.found j t ht).2) hp hw
  · exact hj.symm ((hi.entering j t ht).2 i (hent t hc))
  · exact (hi.entering i t (hent t ht)).1

theorem enqueue (hi : Inv owner s q) (hok : fresh s.shared s.place (.enqueue i t)) :
    Inv owner ⟨s.shared, cellsOf (listDelete (linksOf s.mem) (.elem t)),
      Function.update s.place i (.unlinked t)⟩ q := by
  obtain ⟨hcount, hnobody⟩ := hok
  have ht : t ∉ q := by
    rw [hi.history, List.count_append] at hcount
    exact List.count_eq_zero.mp (by omega)
  have hR := rings_delete hi.rings t
  rw [show (ListOps.delete (fun _ : Unit => q.reverse) t : View Unit Tid) = fun _ => q.reverse from
    View.delete_of_free fun _ hm => ht (List.mem_reverse.mp hm)] at hR
  refine hi.goto hR hi.history (fun j u _ hu => ⟨(hi.entering j u hu).1, ?_⟩) ?_
    (fun j u _ hu => (hi.found j u hu).2) nofun nofun
  · rintro ⟨⟩
    exact hnobody j hu
  · rintro u ⟨⟩
    exact ht

theorem link (hi : Inv owner s q) (hp : s.place i = .locked t) :
    Inv owner ⟨{ s.shared with entered := s.shared.entered ++ [t] },
      cellsOf (listAddAfter (linksOf s.mem) runList (.elem t)), Function.update s.place i .linked⟩
      (q ++ [t]) := by
  obtain ⟨ht, honly⟩ := hi.entering i t (by rw [hp]; rfl)
  have hfree : View.Free (fun _ : Unit => q.reverse) t := fun _ hm => ht (List.mem_reverse.mp hm)
  have hR := rings_addAfter (h := ()) hi.rings hfree
  have hview : (ListOps.addAfter (fun _ : Unit => q.reverse) () t : View Unit Tid) =
      fun _ => (q ++ [t]).reverse := by
    funext u
    rw [List.reverse_append]
    exact Function.update_self () (t :: q.reverse) fun _ => q.reverse
  rw [hview] at hR
  refine hi.goto hR ?_ (fun j u hj hu => ⟨fun hm => ?_, nofun⟩) nofun (fun j u _ hu => ?_) nofun nofun
  · show s.shared.entered ++ [t] = _
    rw [hi.history, List.append_assoc]
  · rcases List.mem_append.mp hm with hm | hm
    · exact (hi.entering j u hu).1 hm
    · obtain rfl := List.mem_singleton.mp hm
      exact hj (honly j hu)
  · rw [List.head?_append, (hi.found j u hu).2]
    rfl

theorem dequeue (hi : Inv owner s q) (hp : s.place owner = .found t) :
    ∃ q', Inv owner ⟨{ s.shared with left := s.shared.left ++ [t] },
      cellsOf (listDelete (linksOf s.mem) (.elem t)), Function.update s.place owner .idle⟩ q' := by
  obtain ⟨q', rfl⟩ := List.head?_eq_some_iff.mp (hi.found owner t hp).2
  have hnodup : (t :: q').Nodup := List.nodup_reverse.mp (hi.rings.ok.nodup ())
  have hR := rings_delete hi.rings t
  have hview : (ListOps.delete (fun _ : Unit => (t :: q').reverse) t : View Unit Tid) =
      fun _ => q'.reverse := by
    funext u
    show (t :: q').reverse.erase t = _
    rw [List.reverse_cons, List.erase_append_right _ (mt List.mem_reverse.mp (List.nodup_cons.mp hnodup).1)]
    simp
  rw [hview] at hR
  refine ⟨q', hi.goto hR ?_ (fun j u _ hu => ⟨?_, nofun⟩) nofun (fun j u hj hu => ?_) nofun nofun⟩
  · show s.shared.entered = (s.shared.left ++ [t]) ++ q'
    rw [hi.history, List.append_assoc]
    rfl
  · exact fun hm => (hi.entering j u hu).1 (List.mem_cons_of_mem t hm)
  · exact absurd (hi.found j u hu).1 hj

theorem step {a : Act ι} (hi : Inv owner s q) (hok : fresh s.shared s.place a)
    (hs : (threads owner).coarse.step s a = some s') : ∃ q', Inv owner s' q' := by
  obtain ⟨x, p, hx, rfl⟩ := Agents.exists_of_coarseStep hs
  simp only [threads, start] at hx
  split at hx
  · next i t hp =>
      cases hx
      rw [run_listDelete]
      exact ⟨q, hi.enqueue hok⟩
  · next t i hp =>
      simp only [Option.ite_none_left_eq_some, Option.some.injEq] at hx
      obtain ⟨-, rfl, rfl⟩ := hx
      exact ⟨q, hi.stay hi.rings hi.history (fun u hu => (congrArg Place.entering hp).trans hu) nofun nofun⟩
  · next t i hp =>
      cases hx
      rw [run_listAddAfter]
      exact ⟨q ++ [t], hi.link hp⟩
  · next i hp =>
      cases hx
      exact ⟨q, hi.stay hi.rings hi.history nofun nofun nofun⟩
  · next hp =>
      cases hx
      rw [run_listPeek_prev hi.rings, List.getLast?_reverse]
      refine ⟨q, hi.stay hi.rings hi.history ?_ ?_ ?_⟩
      · cases q <;> exact nofun
      · rintro t ht
        cases q with
        | nil => cases ht
        | cons u q =>
            cases ht
            exact ⟨rfl, rfl⟩
      · cases q <;> exact nofun
  · next t hp =>
      cases hx
      rw [run_listDelete]
      exact hi.dequeue hp
  · cases hx

end Inv

theorem inv_of_reach (hr : (threads owner).coarse.ReachVia (fun s a => fresh s.shared s.place a) s) :
    ∃ q, Inv owner s q := by
  refine hr.invariant (I := fun s => ∃ q, Inv owner s q) ?_ fun s a s' ⟨q, hi⟩ hok hs => hi.step hok hs
  rintro s rfl
  exact ⟨[], Rings.init, rfl, nofun, nofun, nofun⟩

/-! ### Access by access -/

/-- The run queue is first-in first-out between the threads: at every moment the tasks that have been taken off
are the first ones that were linked, in their order; `RR_picknext` finds the oldest of the others, and never
takes the head for a task; and when no operation is in progress the links are the ring of the others.  The
operations do not race, and no task is enqueued that is on the queue or being enqueued. -/
theorem run_list_fifo {s : Agents.Fine ι Shared Place (Field × Node Unit Tid) (Node Unit Tid)}
    (hr : (threads owner).fine.ReachVia (apart owner) s) :
    ∃ q, s.shared.entered = s.shared.left ++ q ∧ q.Nodup ∧
      (∀ i, s.place i ≠ .wild) ∧ (∀ i t, s.place i = .found t → i = owner ∧ q.head? = some t) ∧
      ((∀ i, (s.prog i).isDone = true) → (linksOf s.mem).Ring runList (q.reverse.map .elem)) := by
  obtain ⟨c, hc, hf⟩ := Agents.fine_refines hr
  obtain ⟨q, hi⟩ := inv_of_reach hc
  have hplace : ∀ i, c.place i = s.place i := fun i => congrFun hf.place i
  refine ⟨q, hf.shared ▸ hi.history, List.nodup_reverse.mp (hi.rings.ok.nodup ()), fun i => ?_, fun i t ht => ?_,
    fun hd => ?_⟩
  · exact hplace i ▸ hi.tame i
  · exact hi.found i t ((hplace i).trans ht)
  · have hring := hi.rings.ring ()
    rwa [hf.mem_eq hd] at hring

/-- `n` accesses of a thread. -/
def accesses (i : Bool) (n : ℕ) : List (Agents.FineAct Bool (Act Bool)) := List.replicate n (.access i)

/-- A thread enqueues a task without another one in the way. -/
def add (i : Bool) (t : Tid) : List (Agents.FineAct Bool (Act Bool)) :=
  .start (.enqueue i t) :: accesses i 8 ++ .start (.spinLock i) :: .start (.link i) :: accesses i 6 ++
    [.start (.spinUnlock i)]

/-- The thread `false` takes task 1 off while the thread `true` links task 3 behind task 2. -/
def overlap : List (Agents.FineAct Bool (Act Bool)) :=
  add true 1 ++ add true 2 ++ .start (.enqueue true 3) :: accesses true 8 ++
    [.start (.spinLock true), .start (.link true), .access true, .access true, .start .picknext, .access true] ++
    accesses false 3 ++ [.access true, .start .dequeue] ++ accesses false 4 ++ accesses true 2 ++
    accesses false 4 ++ [.start (.spinUnlock true)]

theorem run_list_fifo_overlap : ∃ s, (threads false).fine.ReachVia (apart false) s ∧
    s.shared.left = [1] ∧ s.shared.entered = [1, 2, 3] ∧
      (linksOf s.mem).Ring runList [.elem 3, .elem 2] := by
  obtain ⟨s, hs, hp⟩ := TS.ReachVia.exists_of_run (apart false) overlap
    (fun s => s.shared.left = [1] ∧ s.shared.entered = [1, 2, 3] ∧ ∀ i, (s.prog i).isDone = true)
    (M := (threads false).fine) rfl (by decide +kernel) (by decide +kernel)
  obtain ⟨hleft, hent, hd⟩ := of_decide_eq_true hp
  obtain ⟨q, hq, -, -, -, hring⟩ := run_list_fifo hs
  obtain rfl : q = [2, 3] := by
    rw [hleft, hent] at hq
    exact (List.cons.inj hq).2.symm
  exact ⟨s, hs, hleft, hent, hring hd⟩

/-- With one task linked the two threads meet at the head: task 2 is linked between the owner's reads of
task 1 and its write of the head's `prev`.  Task 2 is not found any more, and `RR_picknext` takes the head of
the queue for a task. -/
theorem lone_task_race : ∃ s, (threads false).fine.Reachable s ∧ (∀ i, (s.prog i).isDone = true) ∧
    s.shared.entered = [1, 2] ∧ s.shared.left = [1] ∧ s.place false = .wild := by
  obtain ⟨s, hs, hp⟩ := TS.Reachable.exists_of_run
    (add true 1 ++ .start .picknext :: accesses false 4 ++ .start .dequeue :: accesses false 5 ++ add true 2 ++
      accesses false 3 ++ .start .picknext :: accesses false 3)
    (fun s => (∀ i, (s.prog i).isDone = true) ∧ s.shared.entered = [1, 2] ∧ s.shared.left = [1] ∧
      s.place false = .wild) (M := (threads false).fine) rfl (by decide +kernel)
  exact ⟨s, hs, of_decide_eq_true hp⟩

/-- With no task linked they meet at the head as well: task 1 is linked between the owner's read of the head's
`prev` and its call of `list_empty`, which does not find the head empty. -/
theorem empty_queue_race : ∃ s, (threads false).fine.Reachable s ∧ (∀ i, (s.prog i).isDone = true) ∧
    s.shared.entered = [1] ∧ s.shared.left = [] ∧ s.place false = .wild := by
  obtain ⟨s, hs, hp⟩ := TS.Reachable.exists_of_run
    (.start .picknext :: .access false :: add true 1 ++ accesses false 3)
    (fun s => (∀ i, (s.prog i).isDone = true) ∧ s.shared.entered = [1] ∧ s.shared.left = [] ∧
      s.place false = .wild) (M := (threads false).fine) rfl (by decide +kernel)
  exact ⟨s, hs, of_decide_eq_true hp⟩

end Libcask.RunList
