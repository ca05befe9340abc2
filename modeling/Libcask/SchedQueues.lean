import Libcask.Sched

/-! # The run queue and the wait lists

`Lists q v away`: the links hold the lists `v`; only live tasks are on them; and every live task,
except those in `away`, is either runnable and on the run queue, or blocked and off it.  The tasks in
`away` are the ones in transit: the running task, or a task that is being created.

`Settled q v` says what holds between two steps, by who has control.  The lemmas below it are the
changes of the queues that the steps are made of. -/

namespace Libcask.Sched

namespace Queues

/-- The tasks created, exited and destroyed so far. -/
def history (q : Queues) : ℕ × List Tid × List Tid := (q.created, q.exited, q.destroyed)

/-- Created and not exited. -/
def Live (q : Queues) (t : Tid) : Prop := t < q.created ∧ t ∉ q.exited

def Blocked (q : Queues) (t : Tid) : Prop := q.status t = .ioBlock ∨ q.status t = .sysBlock

/-- The lists `v` are well formed and account for the live tasks, except those in `away`. -/
structure Lists (q : Queues) (v : View Head Tid) (away : Tid → Prop) : Prop where
  rings : Rings q.links v
  live : ∀ {h t}, t ∈ v h → q.Live t
  placed : ∀ t, q.Live t → ¬away t →
    (t ∈ v .runList ∧ q.status t = .runnable) ∨ (q.Blocked t ∧ t ∉ v .runList)
  off : ∀ t, away t → t ∉ v .runList
  known : ∀ t ∈ q.exited, t < q.created
  once : q.exited.Nodup

/-- The task `t` has, or had last, control: it is runnable and on no list. -/
structure Runs (q : Queues) (v : View Head Tid) (t : Tid) : Prop where
  lists : Lists q v (· = t)
  free : v.Free t
  live : q.Live t
  status : q.status t = .runnable
  done : q.exited = q.destroyed

/-- What holds between two steps. -/
inductive Settled (q : Queues) (v : View Head Tid) : Prop
  | loop (hphase : q.phase = .loop) (hl : Lists q v fun _ => False) (hd : q.exited = q.destroyed)
  | running (t : Tid) (hphase : q.phase = .running t) (hr : Runs q v t)
  | yielded (t : Tid) (hphase : q.phase = .handle t) (hr : Runs q v t)
  | blocked (t : Tid) (hphase : q.phase = .handle t) (hl : Lists q v fun _ => False)
      (hst : q.Blocked t) (hd : q.exited = q.destroyed)
  | killed (t : Tid) (hphase : q.phase = .handle t) (hl : Lists q v fun _ => False)
      (hfree : v.Free t) (hst : q.status t = .killed) (hd : q.exited = q.destroyed ++ [t])

variable {q : Queues} {v : View Head Tid} {away : Tid → Prop} {t : Tid} {h : Head}

namespace Lists

/-- Who has control does not matter. -/
theorem setPhase (hl : Lists q v away) (p : Phase) : Lists { q with phase := p } v away :=
  ⟨hl.rings, hl.live, hl.placed, hl.off, hl.known, hl.once⟩

/-- A task is put on the run queue, wherever it was. -/
theorem enqueue (hl : Lists q v away) {l : Links (Node Head Tid)} {v' : View Head Tid}
    (hR : Rings l v') (hv : ∀ {x h}, x ≠ t → (x ∈ v' h ↔ x ∈ v h)) (hlive : q.Live t)
    {B : Tid → Prop} (hB : ∀ x, x ≠ t → (B x ↔ away x)) (hBt : ¬B t) :
    Lists (coResume { q with links := l } t) (rrEnqueue .runList v' t) B := by
  have hmem : ∀ {x h}, x ≠ t → (x ∈ rrEnqueue Head.runList v' t h ↔ x ∈ v h) := by
    intro x h hx
    rw [View.mem_rrEnqueue hR.ok, ← hv hx]
    simp [hx]
  refine ⟨rings_rrEnqueue hR .runList t, fun {h x} hx => ?_, fun x hx hxB => ?_, fun x hx => ?_,
    hl.known, hl.once⟩
  · by_cases hxt : x = t
    · rw [hxt]
      exact hlive
    · exact hl.live ((hmem hxt).mp hx)
  · by_cases hxt : x = t
    · subst hxt
      exact .inl ⟨(View.mem_rrEnqueue hR.ok).mpr (.inl ⟨rfl, rfl⟩), Function.update_self ..⟩
    · have hst : (coResume { q with links := l } t).status x = q.status x :=
        Function.update_of_ne hxt _ _
      unfold Blocked
      rw [hmem hxt, hst]
      exact hl.placed x hx fun ha => hxB ((hB x hxt).mpr ha)
  · have hxt : x ≠ t := fun hc => hBt (hc ▸ hx)
    rw [hmem hxt]
    exact hl.off x ((hB x hxt).mp hx)

/-- `co_resume` of a task that is not in transit. -/
theorem coResume (hl : Lists q v away) (hlive : q.Live t) (ht : ¬away t) :
    Lists (q.coResume t) (rrEnqueue .runList v t) away :=
  hl.enqueue hl.rings (fun _ => Iff.rfl) hlive (fun _ _ => Iff.rfl) ht

/-- A task is unlinked and resumed. -/
theorem wake (hl : Lists q v away) (hlive : q.Live t) (ht : ¬away t) :
    Lists (Queues.coResume { q with links := ListOps.delete q.links t } t)
      (rrEnqueue .runList (v.delete t) t) away := by
  refine hl.enqueue (rings_delete hl.rings t) (fun {x h} hx => ?_) hlive (fun _ _ => Iff.rfl) ht
  exact (View.mem_delete hl.rings.ok).trans (and_iff_right hx)

/-- A task that is on no list stays off the lists when another one is resumed. -/
theorem free_enqueue {v' : View Head Tid} (hv : v'.Ok) {x : Tid} (hx : v'.Free x) (hne : x ≠ t) :
    View.Free (rrEnqueue Head.runList v' t) x := by
  intro h hm
  rcases (View.mem_rrEnqueue hv).mp hm with ⟨hc, -⟩ | ⟨-, hm⟩
  · exact hne hc
  · exact hx h hm

theorem free_wake (hl : Lists q v away) {x : Tid} (hx : v.Free x) (hne : x ≠ t) :
    View.Free (rrEnqueue Head.runList (v.delete t) t) x :=
  free_enqueue (hl.rings.ok.delete t) (fun h hm => hx h ((View.mem_delete hl.rings.ok).mp hm).2) hne

/-- The first waiter of a list is resumed; a task in transit is not on that list. -/
theorem wakeFirst (hl : Lists q v away) (haway : ∀ t, away t → t ∉ v h) :
    ∃ v', Lists (q.wakeFirst h) v' away ∧ ∀ x, v.Free x → v'.Free x := by
  unfold Queues.wakeFirst
  rw [first_eq hl.rings h]
  cases hf : ListOps.first v h with
  | none => exact ⟨v, hl, fun _ hx => hx⟩
  | some t =>
      have hm : t ∈ v h := List.mem_of_head? hf
      refine ⟨_, hl.wake (hl.live hm) fun ha => haway t ha hm, fun x hx => hl.free_wake hx ?_⟩
      rintro rfl
      exact hx h hm

/-- The running task links itself on a wait list. -/
theorem addWaiter (hl : Lists q v (· = t)) (hfree : v.Free t) (hlive : q.Live t)
    (hh : h ≠ .runList) : Lists (q.addWaiter h t) (v.addBefore h t) (· = t) := by
  have hrun : ∀ x, x ∈ v.addBefore h t .runList ↔ x ∈ v .runList := by
    intro x
    rw [View.mem_addBefore]
    simp [hh.symm]
  refine ⟨rings_addBefore hl.rings hfree, fun {h' x} hx => ?_, fun x hx hxt => ?_, fun x hx => ?_,
    hl.known, hl.once⟩
  · rcases View.mem_addBefore.mp hx with ⟨rfl, -⟩ | hx
    · exact hlive
    · exact hl.live hx
  · rw [hrun]
    exact hl.placed x hx hxt
  · rw [hrun]
    exact hl.off x hx

/-- The running task leaves its processor, blocked. -/
theorem block (hl : Lists q v (· = t)) {st : Status} (hst : st = .ioBlock ∨ st = .sysBlock) :
    Lists (q.yield t st) v fun _ => False := by
  refine ⟨hl.rings, hl.live, fun x hx _ => ?_, fun _ hx => hx.elim, hl.known, hl.once⟩
  by_cases hxt : x = t
  · subst hxt
    have hself : (q.yield x st).status x = st := Function.update_self ..
    refine .inr ⟨?_, hl.off x rfl⟩
    unfold Blocked
    rw [hself]
    exact hst
  · have hne : (q.yield t st).status x = q.status x := Function.update_of_ne hxt _ _
    unfold Blocked
    rw [hne]
    exact hl.placed x hx hxt

/-- The running task exits. -/
theorem exit (hl : Lists q v (· = t)) (hfree : v.Free t) (hq : q.Live t) :
    Lists (q.taskExit t) v fun _ => False := by
  have hlive : ∀ {x}, x ≠ t → ((q.taskExit t).Live x ↔ q.Live x) := by
    intro x hx
    simp [Live, taskExit, yield, setStatus, hx]
  refine ⟨hl.rings, fun {h x} hx => ?_, fun x hx _ => ?_, fun _ hx => hx.elim, fun x hx => ?_,
    List.nodup_append.mpr ⟨hl.once, List.nodup_singleton t, fun x hx y hy => ?_⟩⟩
  · exact (hlive (ne_of_mem_of_not_mem hx (hfree h))).mpr (hl.live hx)
  · have hxt : x ≠ t := by
      rintro rfl
      exact hx.2 (List.mem_append_right _ (List.mem_singleton_self x))
    have hne : (q.taskExit t).status x = q.status x := Function.update_of_ne hxt _ _
    unfold Blocked
    rw [hne]
    exact hl.placed x ((hlive hxt).mp hx) hxt
  · rcases List.mem_append.mp hx with hx | hx
    · exact hl.known x hx
    · rw [List.mem_singleton.mp hx]
      exact hq.1
  · rw [List.mem_singleton.mp hy]
    exact ne_of_mem_of_not_mem hx hq.2

/-- A new task is linked on the run queue. -/
theorem coCreate (hl : Lists q v away) (haway : ∀ t, away t → q.Live t) :
    Lists q.coCreate (rrEnqueue .runList v q.created) away := by
  have hfree : v.Free q.created := fun h hm => lt_irrefl _ (hl.live hm).1
  have hinit := listInit_of_free hl.rings hfree
  have hnew : ¬away q.created := fun ha => lt_irrefl _ (haway _ ha).1
  have hgrow : ∀ {x}, q.Live x → x < q.created + 1 ∧ x ∉ q.exited :=
    fun hx => ⟨hx.1.trans (Nat.lt_succ_self _), hx.2⟩
  have hmid : Lists { q.setStatus q.created .ready with created := q.created + 1 } v
      (fun x => x = q.created ∨ away x) := by
    refine ⟨hl.rings, fun {h x} hx => hgrow (hl.live hx), fun x hx hxa => ?_, fun x hx => ?_,
      fun x hx => (hl.known x hx).trans (Nat.lt_succ_self _), hl.once⟩
    · obtain ⟨hx1, hx2⟩ := not_or.mp hxa
      have hne : (q.setStatus q.created .ready).status x = q.status x :=
        Function.update_of_ne hx1 _ _
      have hlt : x < q.created := lt_of_le_of_ne (Nat.lt_succ_iff.mp hx.1) hx1
      unfold Blocked
      dsimp only
      rw [hne]
      exact hl.placed x ⟨hlt, hx.2⟩ hx2
    · rcases hx with rfl | hx
      · exact hfree .runList
      · exact hl.off x hx
  have hlive : q.created < q.created + 1 ∧ q.created ∉ q.exited :=
    ⟨Nat.lt_succ_self _, fun hm => lt_irrefl _ (hl.known _ hm)⟩
  refine hmid.enqueue (l := listInit q.links (.elem q.created)) ?_ (fun _ => Iff.rfl) hlive
    (fun x hx => ?_) hnew
  · rw [hinit]
    exact hl.rings
  · simp [hx]

/-- The task that ran last is put back on the run queue. -/
theorem requeue (hl : Lists q v (· = t)) (hlive : q.Live t) :
    Lists (q.schedRqEnqueue t) (rrEnqueue .runList v t) fun _ => False := by
  refine hl.enqueue hl.rings (fun _ => Iff.rfl) hlive (fun x hx => ?_) id
  simp [hx]

/-- The next task is taken off the run queue. -/
theorem dequeue (hl : Lists q v fun _ => False) :
    Lists ((q.schedRqDequeue t).setStatus t .runnable) (v.delete t) (· = t) := by
  have hok := hl.rings.ok
  refine ⟨rings_rrDequeue hl.rings t, fun {h x} hx => hl.live ((View.mem_delete hok).mp hx).2,
    fun x hx hxt => ?_, fun x hx => ?_, hl.known, hl.once⟩
  · have hne : ((q.schedRqDequeue t).setStatus t .runnable).status x = q.status x :=
      Function.update_of_ne hxt _ _
    unfold Blocked
    rw [hne, View.mem_delete hok, and_iff_right hxt]
    exact hl.placed x hx id
  · rw [hx]
    exact View.free_delete hok t .runList

end Lists

/-! ### The scheduler loop -/

theorem settled_handlePrev (hs : Settled q v) (hphase : q.phase = .handle t) :
    ∃ v', Settled (q.handlePrev t) v' := by
  unfold handlePrev
  cases hs with
  | loop hp | running u hp => cases hphase.symm.trans hp
  | yielded u hp hr =>
      cases hphase.symm.trans hp
      rw [hr.status]
      exact ⟨_, .loop rfl ((hr.lists.requeue hr.live).setPhase .loop) hr.done⟩
  | blocked u hp hl hst hd =>
      cases hphase.symm.trans hp
      rcases hst with hst | hst
      · rw [hst]
        exact ⟨v, .loop rfl (hl.setPhase .loop) hd⟩
      · rw [hst]
        exact ⟨v, .loop rfl (hl.setPhase .loop) hd⟩
  | killed u hp hl hfree hst hd =>
      cases hphase.symm.trans hp
      have hR : Rings (ListOps.delete q.links t) v := by
        have hR := rings_delete hl.rings t
        rwa [show ListOps.delete v t = v from View.delete_of_free hfree] at hR
      rw [hst]
      exact ⟨v, .loop rfl ⟨hR, hl.live, hl.placed, hl.off, hl.known, hl.once⟩ hd⟩

/-- The task that is dispatched is on no list. -/
theorem settled_dispatch {q' : Queues} (hs : Settled q v) (hphase : q.phase = .loop)
    (h : q.dispatch = some q') : ∃ t v', q'.phase = .running t ∧ Runs q' v' t := by
  cases hs with
  | running u hp | yielded u hp | blocked u hp | killed u hp => cases hphase.symm.trans hp
  | loop _ hl hd =>
      unfold dispatch at h
      rw [rrPicknext_eq hl.rings] at h
      cases hpick : rrPicknext Head.runList v with
      | none => simp [hpick] at h
      | some t =>
          rw [hpick] at h
          obtain rfl := Option.some.inj h
          have hlive : q.Live t := hl.live (List.mem_of_getLast? hpick)
          exact ⟨t, _, rfl, hl.dequeue.setPhase _, View.free_delete hl.rings.ok t, hlive,
            Function.update_self .., hd⟩

/-- `event_wait` resumes a task. -/
theorem settled_coResume (hs : Settled q v) (hphase : q.phase = .loop) (hlive : q.Live t) :
    ∃ v', Settled (q.coResume t) v' := by
  cases hs with
  | running u hp | yielded u hp | blocked u hp | killed u hp => cases hphase.symm.trans hp
  | loop _ hl hd => exact ⟨_, .loop hphase (hl.coResume hlive id) hd⟩

/-! ### The running task -/

namespace Runs

theorem of_settled (hs : Settled q v) (hphase : q.phase = .running t) : Runs q v t := by
  cases hs with
  | loop hp | yielded u hp | blocked u hp | killed u hp => cases hphase.symm.trans hp
  | running u hp hr =>
      cases hphase.symm.trans hp
      exact hr

/-- The running task resumes another one. -/
theorem coResume (hr : Runs q v t) {u : Tid} (hlive : q.Live u) (hne : u ≠ t) :
    ∃ v', Runs (q.coResume u) v' t :=
  ⟨_, hr.lists.coResume hlive hne, Lists.free_enqueue hr.lists.rings.ok hr.free hne.symm, hr.live,
    (Function.update_of_ne hne.symm _ _).trans hr.status, hr.done⟩

/-- The running task unlinks another one and resumes it. -/
theorem wake (hr : Runs q v t) {u : Tid} {h : Head} (hm : u ∈ v h) :
    ∃ v', Runs (Queues.coResume { q with links := ListOps.delete q.links u } u) v' t := by
  have hne : u ≠ t := ne_of_mem_of_not_mem hm (hr.free h)
  exact ⟨_, hr.lists.wake (hr.lists.live hm) hne, hr.lists.free_wake hr.free hne.symm, hr.live,
    (Function.update_of_ne hne.symm _ _).trans hr.status, hr.done⟩

theorem wakeFirst (hr : Runs q v t) (h : Head) : ∃ v', Runs (q.wakeFirst h) v' t := by
  unfold Queues.wakeFirst
  rw [first_eq hr.lists.rings h]
  cases hf : ListOps.first v h with
  | none => exact ⟨v, hr⟩
  | some u => exact hr.wake (List.mem_of_head? hf)

theorem coCreate (hr : Runs q v t) : ∃ v', Runs q.coCreate v' t := by
  have hne : t ≠ q.created := hr.live.1.ne
  refine ⟨_, hr.lists.coCreate fun x hx => hx ▸ hr.live,
    Lists.free_enqueue hr.lists.rings.ok hr.free hne,
    ⟨hr.live.1.trans (Nat.lt_succ_self _), hr.live.2⟩, ?_, hr.done⟩
  show Function.update (Function.update q.status q.created .ready) q.created .runnable t = .runnable
  rw [Function.update_of_ne hne, Function.update_of_ne hne]
  exact hr.status

/-- `co_yield`. -/
theorem yield (hr : Runs q v t) : Settled (q.yield t (q.status t)) v := by
  have e : Function.update q.status t (q.status t) = q.status := Function.update_eq_self t q.status
  unfold Queues.yield setStatus
  rw [e]
  exact .yielded t rfl ⟨hr.lists.setPhase _, hr.free, hr.live, hr.status, hr.done⟩

/-- The running task blocks. -/
theorem block (hr : Runs q v t) {st : Status} (hst : st = .ioBlock ∨ st = .sysBlock) :
    Settled (q.yield t st) v := by
  refine .blocked t rfl (hr.lists.block hst) ?_ hr.done
  have hself : (q.yield t st).status t = st := Function.update_self ..
  unfold Blocked
  rw [hself]
  exact hst

/-- The running task blocks on a wait list. -/
theorem wait (hr : Runs q v t) {h : Head} (hh : h ≠ .runList) :
    ∃ v', Settled ((q.addWaiter h t).yield t .sysBlock) v' :=
  ⟨_, .blocked t rfl ((hr.lists.addWaiter hr.free hr.live hh).block (.inr rfl))
    (.inr (Function.update_self ..)) hr.done⟩

/-- The running task links itself on a wait list, wakes the first waiter of another one, and
blocks. -/
theorem waitAndWake (hr : Runs q v t) {h h' : Head} (hh : h ≠ .runList) (hne : h' ≠ h) :
    ∃ v', Settled (((q.addWaiter h t).wakeFirst h').yield t .sysBlock) v' := by
  have hadd := hr.lists.addWaiter hr.free hr.live hh
  have hoff : ∀ x, x = t → x ∉ v.addBefore h t h' := by
    rintro x rfl hm
    rcases View.mem_addBefore.mp hm with ⟨-, hc⟩ | hm
    · exact hne hc
    · exact hr.free h' hm
  obtain ⟨v', hl, -⟩ := hadd.wakeFirst hoff
  refine ⟨v', .blocked t rfl (hl.block (.inr rfl)) (.inr (Function.update_self ..)) ?_⟩
  unfold Queues.yield Queues.wakeFirst
  cases ListOps.first (q.addWaiter h t).links h' with
  | none => exact hr.done
  | some u => exact hr.done

theorem exit (hr : Runs q v t) : Settled (q.taskExit t) v := by
  refine .killed t rfl (hr.lists.exit hr.free hr.live) hr.free (Function.update_self ..) ?_
  show q.exited ++ [t] = q.destroyed ++ [t]
  rw [hr.done]

end Runs

/-! ### The start -/

theorem start_lists (k : ℕ) : ∃ v, Lists (coCreate^[k] empty) v fun _ => False := by
  induction k with
  | zero =>
      refine ⟨fun _ => [], Rings.init, fun hm => (List.not_mem_nil hm).elim, fun t ht => ?_,
        fun _ => False.elim, fun t ht => (List.not_mem_nil ht).elim, List.nodup_nil⟩
      exact absurd ht.1 (Nat.not_lt_zero t)
  | succ k ih =>
      obtain ⟨v, hl⟩ := ih
      rw [Function.iterate_succ_apply']
      exact ⟨_, hl.coCreate fun _ => False.elim⟩

theorem start_frame (k : ℕ) :
    (coCreate^[k] empty).phase = .loop ∧ (coCreate^[k] empty).history = (k, [], []) := by
  induction k with
  | zero => exact ⟨rfl, rfl⟩
  | succ k ih =>
      rw [Function.iterate_succ_apply']
      obtain ⟨hphase, hh⟩ := ih
      obtain ⟨hcreated, hlists⟩ := Prod.mk.inj hh
      exact ⟨hphase, Prod.ext (congrArg (· + 1) hcreated) hlists⟩

end Queues

end Libcask.Sched
