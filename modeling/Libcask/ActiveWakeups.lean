import Libcask.ActivePipe

/-! # A wake-up from another thread is not lost

`RR_picknext` sets a long timeout when it found the run queue empty, and may leave its loop with this
timeout in place, because a task was enqueued in the meantime.  From then on a byte is in the active
pipe, or will be written to it, until the scheduler takes notice of it (`Timed`): the active task is
`Parked` at the pipe, nobody else reads from it, and every event resets the timeout.

* `wakeup_not_lost`: the scheduler never sleeps next to a task that can run, with nobody to wake it
  up (`Lost`). -/

namespace Libcask.Active

variable {R : Type} {s s' : St R} {q : List Tid} {t : Tid}

/-- The scheduler is blocked in `epoll_wait` with a timeout, its run queue is not empty, the pipe is
empty, and no thread is going to write to it. -/
def Lost (s : St R) : Prop :=
  (∃ ls, s.pc = .epollWait ls) ∧ s.timeout ≠ 0 ∧ listEmpty s.links runList = false ∧
    s.pipe.getD 0 = 0 ∧ ∀ r, s.writing r = false

/-- The active task sleeps in `event_poll`, registered. -/
def Parked (s : St R) : Prop := s.active = .deleteEvents ∧ s.registered = true

/-- There is a byte in the pipe, or there will be one. -/
def Signalled (s : St R) : Prop := 0 < s.pipe.getD 0 ∨ ∃ r, s.writing r = true

namespace Pc

/-- The task the scheduler thread has found at the end of its run queue. -/
def found : Pc → Option Tid
  | .epollWait ls | .checkEmpty ls | .test ls => ls.toElem
  | .dequeue t => some t
  | _ => none

/-- In the loop of `RR_picknext`, without a task. -/
def looks : Pc → Bool
  | .epollWait _ | .checkEmpty _ | .reread | .test (.head _) => true
  | _ => false

/-- About to set the timeout. -/
def resets : Pc → Bool
  | .events _ | .delay _ => true
  | _ => false

end Pc

/-- The active task can run, or runs. -/
def Awake (s : St R) (q : List Tid) : Prop :=
  (activeTask ∈ q ∧ s.pc ≠ .handle activeTask) ∨ s.pc = .running activeTask

/-- Where the active task is, by the point of its code. -/
def ActiveOk (s : St R) (q : List Tid) : Prop :=
  match s.active with
  | .openPipe => s.registered = false ∧ Awake s q
  | .read | .addEvents => s.registered = false ∧ s.pipe.isSome ∧ s.pc = .running activeTask
  | .ioYield => s.registered = true ∧ s.pipe.isSome ∧ s.pc = .running activeTask
  | .deleteEvents =>
      if s.registered then s.pipe.isSome ∧ activeTask ∉ q ∧ s.pc ≠ .running activeTask ∧
        (s.pc = .handle activeTask → s.status activeTask = .blocked)
      else 0 < s.pipe.getD 0 ∧ Awake s q
  | .readAgain => s.registered = false ∧ 0 < s.pipe.getD 0 ∧ s.pc = .running activeTask
  | .closed => False

/-- A timeout that is in place: the active task is parked, and a byte is on its way unless the
scheduler thread still has to find a task. -/
def Timed (s : St R) (q : List Tid) : Prop :=
  Parked s ∧ (Signalled s ∨ (q = [] ∧ s.pc.looks = true))

/-- What holds between any two accesses, for the run queue `q`. -/
structure Inv (s : St R) (q : List Tid) : Prop where
  rings : Rings s.links fun _ => q
  found : ∀ t, s.pc.found = some t → t ∈ q
  events : ∀ rest, s.pc = .events rest → .other activeTask ∉ rest ∧
    rest.count .pipe ≤ if s.pipeReady then 1 else 0
  delay : ∀ ms, s.pc = .delay ms → ms ≠ 0 → Parked s ∧ (Signalled s ∨ q = [])
  active : ActiveOk s q
  off : s.pc = .running activeTask → activeTask ∉ q
  timed : s.timeout ≠ 0 → s.pc.resets = false → Timed s q

/-! ### The run queue -/

theorem rings_enqueue {L : Links Link} (hR : Rings L fun _ => q) (t : Tid) :
    Rings (rrEnqueue () L t) fun _ => t :: q.erase t := by
  have h := rings_rrEnqueue hR () t
  have e : rrEnqueue () (fun _ => q : View Unit Tid) t = fun _ => t :: q.erase t := by
    funext h
    exact Function.update_self () (t :: q.erase t) fun _ => q.erase t
  rwa [e] at h

theorem rings_erase (hR : Rings s.links fun _ => q) (t : Tid) :
    Rings (ListOps.delete s.links t) fun _ => q.erase t :=
  rings_delete hR t

theorem mem_enqueue {x : Tid} (hx : x ∈ q) : x ∈ t :: q.erase t := by
  by_cases h : x = t
  · exact h ▸ List.mem_cons_self
  · exact List.mem_cons_of_mem _ ((List.mem_erase_of_ne h).mpr hx)

theorem active_mem_enqueue (ht : t ≠ activeTask) :
    activeTask ∈ t :: q.erase t ↔ activeTask ∈ q := by
  rw [List.mem_cons, List.mem_erase_of_ne ht.symm]
  exact or_iff_right ht.symm

/-- `ls = rq->run_list.prev`: the oldest task, or the head of an empty queue. -/
theorem listPrev_runList (hR : Rings s.links fun _ => q) :
    listPrev s.links runList = (q.getLast?.map Node.elem).getD runList :=
  hR.prev_head ()

theorem listEmpty_elem (hR : Rings s.links fun _ => q) (ht : t ∈ q) :
    listEmpty s.links (.elem t) = false :=
  (linked_iff hR).mpr fun hf => hf () ht

theorem listEmpty_runList (hR : Rings s.links fun _ => q) :
    listEmpty s.links runList = true ↔ q = [] := by
  rw [listEmpty_iff]
  exact ⟨fun h => hR.prev_head_eq_iff.mp h.1,
    fun h => ⟨hR.prev_head_eq_iff.mpr h, hR.next_head_eq_iff.mpr h⟩⟩

/-! ### What the accesses keep -/

theorem Awake.move {q' : List Tid} (h : Awake s q) (hq : activeTask ∈ q → activeTask ∈ q')
    (hrun : s.pc = .running activeTask → s'.pc = .running activeTask)
    (hhandle : s'.pc = .handle activeTask → s.pc = .handle activeTask) : Awake s' q' := by
  rcases h with ⟨h1, h2⟩ | h
  · exact .inl ⟨hq h1, fun hc => h2 (hhandle hc)⟩
  · exact .inr (hrun h)

/-- An access that is not one of the active task. -/
theorem ActiveOk.move {q' : List Tid} (h : ActiveOk s q) (hactive : s'.active = s.active)
    (hreg : s'.registered = s.registered) (hpipe : s.pipe.getD 0 ≤ s'.pipe.getD 0)
    (hopen : s.pipe.isSome → s'.pipe.isSome)
    (hst : s.status activeTask = .blocked → s'.status activeTask = .blocked)
    (hq : activeTask ∈ q' ↔ activeTask ∈ q)
    (hrun : s'.pc = .running activeTask ↔ s.pc = .running activeTask)
    (hhandle : s'.pc = .handle activeTask → s.pc = .handle activeTask) : ActiveOk s' q' := by
  unfold ActiveOk at h ⊢
  rw [hactive, hreg]
  cases hc : s.active with
  | openPipe =>
      rw [hc] at h
      exact ⟨h.1, h.2.move hq.mpr hrun.mpr hhandle⟩
  | read | addEvents | ioYield =>
      rw [hc] at h
      exact ⟨h.1, hopen h.2.1, hrun.mpr h.2.2⟩
  | deleteEvents =>
      rw [hc] at h
      dsimp only at h ⊢
      split_ifs at h ⊢ with hr
      · obtain ⟨h1, h2, h3, h4⟩ := h
        exact ⟨hopen h1, fun hm => h2 (hq.mp hm), fun hm => h3 (hrun.mp hm),
          fun hm => hst (h4 (hhandle hm))⟩
      · exact ⟨h.1.trans_le hpipe, h.2.move hq.mpr hrun.mpr hhandle⟩
  | readAgain =>
      rw [hc] at h
      exact ⟨h.1, h.2.1.trans_le hpipe, hrun.mpr h.2.2⟩
  | closed =>
      rw [hc] at h
      exact h

/-- A task that can neither run nor runs is parked. -/
theorem ActiveOk.parked (h : ActiveOk s q) (hrun : s.pc ≠ .running activeTask)
    (hawake : ¬(activeTask ∈ q ∧ s.pc ≠ .handle activeTask)) : Parked s := by
  have hawake : ¬Awake s q := fun hc => hc.elim hawake hrun
  unfold ActiveOk at h
  cases hc : s.active with
  | openPipe =>
      rw [hc] at h
      exact absurd h.2 hawake
  | read | addEvents | ioYield | readAgain =>
      rw [hc] at h
      exact absurd h.2.2 hrun
  | deleteEvents =>
      rw [hc] at h
      dsimp only at h
      split_ifs at h with hr
      · exact ⟨hc, hr⟩
      · exact absurd h.2 hawake
  | closed =>
      rw [hc] at h
      exact h.elim

theorem ActiveOk.of_parked (h : ActiveOk s q) (hp : Parked s) :
    s.pipe.isSome ∧ activeTask ∉ q ∧ s.pc ≠ .running activeTask ∧
      (s.pc = .handle activeTask → s.status activeTask = .blocked) := by
  unfold ActiveOk at h
  rw [hp.1] at h
  dsimp only at h
  rwa [if_pos hp.2] at h

/-- After its context switch the active task is parked. -/
theorem ActiveOk.of_handle (h : ActiveOk s q) (hpc : s.pc = .handle activeTask) :
    Parked s ∧ s.status activeTask = .blocked := by
  have hrun : s.pc ≠ .running activeTask := by
    rw [hpc]
    exact fun hc => (nomatch hc)
  have hp : Parked s := h.parked hrun fun hc => hc.2 hpc
  exact ⟨hp, (h.of_parked hp).2.2.2 hpc⟩

/-- The active task is dispatched. -/
theorem ActiveOk.dispatch {q' : List Tid} (h : ActiveOk s q) (hnp : ¬Parked s)
    (hrun : s.pc ≠ .running activeTask) (hactive : s'.active = s.active)
    (hreg : s'.registered = s.registered) (hpipe : s'.pipe = s.pipe)
    (hpc : s'.pc = .running activeTask) : ActiveOk s' q' := by
  unfold ActiveOk at h ⊢
  rw [hactive, hreg, hpipe]
  cases hc : s.active with
  | openPipe =>
      rw [hc] at h
      exact ⟨h.1, .inr hpc⟩
  | read | addEvents | ioYield | readAgain =>
      rw [hc] at h
      exact absurd h.2.2 hrun
  | deleteEvents =>
      rw [hc] at h
      dsimp only at h ⊢
      split_ifs at h ⊢ with hr
      · exact absurd ⟨hc, hr⟩ hnp
      · exact ⟨h.1, .inr hpc⟩
  | closed =>
      rw [hc] at h
      exact h

theorem Timed.signalled (h : Timed s q) (hl : s.pc.looks = false) : Signalled s := by
  refine h.2.resolve_right fun hc => ?_
  rw [hl] at hc
  cases hc.2

namespace Inv

/-- The scheduler thread goes on to another access; nothing else changes. -/
theorem goto (hi : Inv s q) {p : Pc} (hrun : s.pc ≠ .running activeTask)
    (hrun' : p ≠ .running activeTask) (hhandle : p ≠ .handle activeTask)
    (hfound : ∀ t, p.found = some t → t ∈ q)
    (hevents : ∀ rest, p = .events rest → .other activeTask ∉ rest ∧
      rest.count .pipe ≤ if s.pipeReady then 1 else 0)
    (hdelay : ∀ ms, p = .delay ms → ms ≠ 0 → Parked s ∧ (Signalled s ∨ q = []))
    (htimed : s.timeout ≠ 0 → p.resets = false → Parked s ∧ (Signalled s ∨ (q = [] ∧ p.looks))) :
    Inv (s.goto p) q where
  rings := hi.rings
  found := hfound
  events := hevents
  delay := hdelay
  active := by
    refine hi.active.move rfl rfl le_rfl id id Iff.rfl ?_ fun hc => absurd hc hhandle
    exact ⟨fun hc => absurd hc hrun', fun hc => absurd hc hrun⟩
  off hc := absurd hc hrun'
  timed := htimed

/-- A task other than the active one is put on the run queue, or taken off it, by a thread that is
not in the middle of `RR_picknext`. -/
theorem requeue (hi : Inv s q) {q' : List Tid} {p : Pc} {st : Tid → Status} {L : Links Link}
    (hR : Rings L fun _ => q') (hq : activeTask ∈ q' ↔ activeTask ∈ q)
    (hst : st activeTask = s.status activeTask)
    (hrun : p = .running activeTask ↔ s.pc = .running activeTask)
    (hhandle : p = .handle activeTask → s.pc = .handle activeTask) (hfound : p.found = none)
    (hevents : ∀ rest, p = .events rest → .other activeTask ∉ rest ∧
      rest.count .pipe ≤ if s.pipeReady then 1 else 0)
    (hdelay : ∀ ms, p ≠ .delay ms)
    (htimed : s.timeout ≠ 0 → p.resets = false → Parked s ∧ Signalled s) :
    Inv { s with pc := p, status := st, links := L } q' where
  rings := hR
  found t ht := by
    dsimp only at ht
    rw [hfound] at ht
    cases ht
  events := hevents
  delay ms hc := absurd hc (hdelay ms)
  active := hi.active.move rfl rfl le_rfl id (fun h => hst.trans h) hq hrun hhandle
  off hc hm := hi.off (hrun.mp hc) (hq.mp hm)
  timed h1 h2 := ⟨(htimed h1 h2).1, .inl (htimed h1 h2).2⟩

/-- A timeout that was in place before is backed by a byte, if the thread has left the loop. -/
theorem signalled (hi : Inv s q) (hreset : s.pc.resets = false) (hl : s.pc.looks = false)
    (ht : s.timeout ≠ 0) : Parked s ∧ Signalled s :=
  ⟨(hi.timed ht hreset).1, (hi.timed ht hreset).signalled hl⟩

/-- The link that `run_list.prev` points to. -/
theorem found_listPrev (hi : Inv s q) {t : Tid}
    (h : (listPrev s.links runList).toElem = some t) : t ∈ q := by
  rw [listPrev_runList hi.rings] at h
  cases hl : q.getLast? with
  | none =>
      rw [hl] at h
      cases h
  | some u =>
      rw [hl] at h
      cases h
      exact List.mem_of_getLast? hl

theorem handle (hi : Inv s q) (hpc : s.pc = .handle t) (h : s.sched = some s') :
    ∃ q', Inv s' q' := by
  unfold St.sched at h
  rw [hpc] at h
  dsimp only at h
  have hpc' : s.pc ≠ .running activeTask := by simp [hpc]
  have hs : s.timeout ≠ 0 → Pc.resets .readLast = false → Parked s ∧ Signalled s :=
    fun ht _ => hi.signalled (by rw [hpc]; rfl) (by rw [hpc]; rfl) ht
  have hne : s.status t ≠ .blocked → t ≠ activeTask := by
    rintro hst rfl
    exact hst (hi.active.of_handle hpc).2
  cases hst : s.status t with
  | runnable =>
      rw [hst] at h
      obtain rfl := Option.some.inj h
      have ht := hne (by simp [hst])
      refine ⟨t :: q.erase t, hi.requeue (rings_enqueue hi.rings t) (active_mem_enqueue ht) ?_ ?_ ?_
        rfl (by simp) (by simp) hs⟩
      · exact Function.update_of_ne ht.symm _ _
      · simp [hpc']
      · simp
  | killed =>
      rw [hst] at h
      obtain rfl := Option.some.inj h
      have ht := hne (by simp [hst])
      refine ⟨q.erase t, hi.requeue (rings_erase hi.rings t) ?_ rfl ?_ ?_ rfl (by simp) (by simp) hs⟩
      · exact List.mem_erase_of_ne ht.symm
      · simp [hpc']
      · simp
  | blocked =>
      rw [hst] at h
      obtain rfl := Option.some.inj h
      exact ⟨q, hi.requeue hi.rings Iff.rfl rfl (by simp [hpc']) (by simp) rfl (by simp) (by simp) hs⟩

/-- The pipe is registered by the active task, just before it sleeps. -/
theorem parked_of_registered (hi : Inv s q) (hrun : s.pc ≠ .running activeTask)
    (hreg : s.registered = true) : Parked s := by
  refine ⟨?_, hreg⟩
  have h := hi.active
  unfold ActiveOk at h
  cases hc : s.active with
  | openPipe | read | addEvents | readAgain => simp [hc, hreg] at h
  | ioYield =>
      rw [hc] at h
      exact absurd h.2.2 hrun
  | deleteEvents => rfl
  | closed => simp [hc] at h

/-- One event: its task is put on the run queue. -/
theorem handleEvent (hi : Inv s q) {e : Event} {rest : List Event}
    (hpc : s.pc = .events (e :: rest)) : ∃ q', Inv ((s.handleEvent e).goto (.events rest)) q' := by
  obtain ⟨hother, hcount⟩ := hi.events _ hpc
  have hrun : s.pc ≠ .running activeTask := by simp [hpc]
  cases e with
  | other u =>
      have hu : u ≠ activeTask := by
        rintro rfl
        exact hother List.mem_cons_self
      refine ⟨u :: q.erase u, hi.requeue (rings_enqueue hi.rings u) (active_mem_enqueue hu) ?_ ?_ ?_
        rfl ?_ (by simp) (by simp [Pc.resets])⟩
      · exact Function.update_of_ne hu.symm _ _
      · simp [hrun]
      · simp
      · rintro rest' ⟨⟩
        refine ⟨fun hm => hother (List.mem_cons_of_mem _ hm), ?_⟩
        rwa [List.count_cons_of_ne (by simp)] at hcount
  | pipe =>
      rw [List.count_cons_self] at hcount
      have hready : s.pipeReady = true := by
        by_contra hc
        rw [if_neg hc] at hcount
        omega
      rw [if_pos hready] at hcount
      obtain ⟨hreg, hbyte⟩ := Bool.and_eq_true_iff.mp hready
      have hp : Parked s := hi.parked_of_registered hrun hreg
      have hpos : 0 < s.pipe.getD 0 := by
        cases hpipe : s.pipe with
        | none => simp [hpipe] at hbyte
        | some n =>
            simp only [hpipe, Option.any_some, decide_eq_true_eq] at hbyte
            exact Nat.pos_of_ne_zero hbyte
      refine ⟨activeTask :: q.erase activeTask, ?_⟩
      refine ⟨rings_enqueue hi.rings activeTask, fun t ht => (nomatch ht), ?_, fun ms hc => (nomatch hc),
        ?_, fun hc => (nomatch hc), fun _ hc => (nomatch hc)⟩
      · rintro rest' ⟨⟩
        exact ⟨fun hm => hother (List.mem_cons_of_mem _ hm), by omega⟩
      · unfold ActiveOk
        rw [show ((s.handleEvent .pipe).goto (.events rest)).active = .deleteEvents from hp.1]
        exact ⟨hpos, .inl ⟨List.mem_cons_self, fun hc => (nomatch hc)⟩⟩

/-- `list_empty(ls)`: the long timeout is set only when the queue is empty. -/
theorem checkEmpty (hi : Inv s q) {ls : Link} (hpc : s.pc = .checkEmpty ls) :
    Inv (s.goto (.delay (if listEmpty s.links ls then 1000 * 60 else 0))) q := by
  have hrun : s.pc ≠ .running activeTask := by simp [hpc]
  refine hi.goto hrun (by simp) (by simp) (fun t ht => (nomatch ht)) (by simp) ?_ (by simp [Pc.resets])
  intro ms hms hne
  have hempty : listEmpty s.links ls = true := by
    by_contra hc
    rw [if_neg hc] at hms
    exact hne (Pc.delay.inj hms).symm
  have hq : q = [] := by
    cases ls with
    | head h => exact (listEmpty_runList hi.rings).mp hempty
    | elem t =>
        have ht : t ∈ q := hi.found t (by rw [hpc]; rfl)
        rw [listEmpty_elem hi.rings ht] at hempty
        cases hempty
  refine ⟨hi.active.parked hrun fun hc => ?_, .inr hq⟩
  rw [hq] at hc
  exact List.not_mem_nil hc.1

/-- `ls` is read again. -/
theorem reread (hi : Inv s q) (hpc : s.pc = .reread) :
    Inv (s.goto (.test (listPrev s.links runList))) q := by
  refine hi.goto (by simp [hpc]) (by simp) (by simp) (fun t ht => hi.found_listPrev ht) (by simp)
    (by simp) fun ht _ => ?_
  obtain ⟨hp, hs⟩ := hi.timed ht (by rw [hpc]; rfl)
  refine ⟨hp, hs.imp_right fun hq => ⟨hq.1, ?_⟩⟩
  rw [listPrev_runList hi.rings, hq.1]
  rfl

/-- The end of the loop: a task is found, or the next round starts. -/
theorem test (hi : Inv s q) {ls : Link} (hpc : s.pc = .test ls) (h : s.sched = some s') :
    Inv s' q := by
  unfold St.sched at h
  rw [hpc] at h
  dsimp only at h
  have hrun : s.pc ≠ .running activeTask := by simp [hpc]
  cases ls with
  | head x =>
      split_ifs at h with hempty
      · obtain rfl := Option.some.inj h
        refine hi.goto hrun (by simp) (by simp) (by rintro t ⟨⟩) (by simp) (by simp) ?_
        intro ht _
        obtain ⟨hp, hs⟩ := hi.timed ht (by rw [hpc]; rfl)
        exact ⟨hp, hs.imp_right fun hq => ⟨hq.1, rfl⟩⟩
      · obtain rfl := Option.some.inj h
        refine hi.goto hrun (by simp) (by simp) (by rintro t ⟨⟩) (by simp) (by simp) ?_
        intro ht _
        obtain ⟨hp, hs⟩ := hi.timed ht (by rw [hpc]; rfl)
        exact ⟨hp, .inl (hs.resolve_right fun hq => hempty ((listEmpty_runList hi.rings).mpr hq.1))⟩
  | elem t =>
      have ht : t ∈ q := hi.found t (by rw [hpc]; rfl)
      rw [listEmpty_elem hi.rings ht] at h
      obtain rfl := Option.some.inj h
      refine hi.goto hrun (by simp) (by simp) ?_ (by simp) (by simp) fun h0 _ => ?_
      · rintro u ⟨⟩
        exact ht
      · obtain ⟨hp, hs⟩ := hi.signalled (by rw [hpc]; rfl) (by rw [hpc]; rfl) h0
        exact ⟨hp, .inl hs⟩

/-- The task that was found is dispatched. -/
theorem dequeue (hi : Inv s q) (hpc : s.pc = .dequeue t) :
    Inv (({ s with links := rrDequeue s.links t }.setStatus t .runnable).goto (.running t))
      (q.erase t) := by
  have ht : t ∈ q := hi.found t (by rw [hpc]; rfl)
  have hrun : s.pc ≠ .running activeTask := by simp [hpc]
  have hs := hi.signalled (by rw [hpc]; rfl) (by rw [hpc]; rfl)
  by_cases hta : t = activeTask
  · subst hta
    have hnp : ¬Parked s := fun hp => (hi.active.of_parked hp).2.1 ht
    refine ⟨rings_erase hi.rings _, fun t ht => (nomatch ht), fun _ hc => (nomatch hc),
      fun _ hc => (nomatch hc), hi.active.dispatch hnp hrun rfl rfl rfl rfl, fun _ hm => ?_,
      fun h0 _ => absurd (hs h0).1 hnp⟩
    exact ((hi.rings.ok.nodup ()).mem_erase_iff.mp hm).1 rfl
  · refine hi.requeue (rings_erase hi.rings t) (List.mem_erase_of_ne (Ne.symm hta)) ?_ ?_ (by simp) rfl
      (by simp) (by simp) fun h0 _ => hs h0
    · exact Function.update_of_ne (Ne.symm hta) _ _
    · simp [hpc, hta]

theorem sched (hi : Inv s q) (h : s.sched = some s') : ∃ q', Inv s' q' := by
  cases hpc : s.pc with
  | handle t => exact hi.handle hpc h
  | test ls => exact ⟨q, hi.test hpc h⟩
  | readLast =>
      unfold St.sched at h
      rw [hpc] at h
      obtain rfl := Option.some.inj h
      refine ⟨q, hi.goto (by simp [hpc]) (by simp) (by simp) (fun t ht => hi.found_listPrev ht)
        (by simp) (by simp) fun ht _ => ?_⟩
      obtain ⟨hp, hs⟩ := hi.signalled (by rw [hpc]; rfl) (by rw [hpc]; rfl) ht
      exact ⟨hp, .inl hs⟩
  | events es =>
      unfold St.sched at h
      rw [hpc] at h
      cases es with
      | nil =>
          obtain rfl := Option.some.inj h
          refine ⟨q, hi.goto (by simp [hpc]) (by simp) (by simp) (fun t ht => (nomatch ht)) (by simp) ?_
            (by simp [Pc.resets])⟩
          rintro ms ⟨⟩ hne
          exact absurd rfl hne
      | cons e rest =>
          obtain rfl := Option.some.inj h
          exact hi.handleEvent hpc
  | checkEmpty ls =>
      unfold St.sched at h
      rw [hpc] at h
      obtain rfl := Option.some.inj h
      exact ⟨q, hi.checkEmpty hpc⟩
  | delay ms =>
      unfold St.sched at h
      rw [hpc] at h
      obtain rfl := Option.some.inj h
      refine ⟨q, hi.rings, fun t ht => (nomatch ht), fun _ hc => (nomatch hc), fun _ hc => (nomatch hc),
        ?_, fun hc => (nomatch hc), fun hne _ => ?_⟩
      · refine hi.active.move rfl rfl le_rfl id id Iff.rfl ?_ fun hc => (nomatch hc)
        simp [hpc, St.goto]
      · obtain ⟨hp, hs⟩ := hi.delay ms hpc hne
        exact ⟨hp, hs.imp_right fun hq => ⟨hq, rfl⟩⟩
  | reread =>
      unfold St.sched at h
      rw [hpc] at h
      obtain rfl := Option.some.inj h
      exact ⟨q, hi.reread hpc⟩
  | dequeue t =>
      unfold St.sched at h
      rw [hpc] at h
      obtain rfl := Option.some.inj h
      exact ⟨_, hi.dequeue hpc⟩
  | epollWait ls | running t | wild => simp [St.sched, hpc] at h

/-- `epoll_wait` returns. -/
theorem epollWait (hi : Inv s q) {es : List Event} (h : s.epollWait es = some s') : Inv s' q := by
  unfold St.epollWait at h
  cases hpc : s.pc with
  | epollWait ls =>
      rw [hpc] at h
      have hrun : s.pc ≠ .running activeTask := by simp [hpc]
      cases es with
      | nil =>
          obtain ⟨-, h⟩ := Option.ite_none_left_eq_some.mp h
          obtain rfl := Option.some.inj h
          refine hi.goto hrun (by simp) (by simp) (fun t ht => hi.found t (by rw [hpc]; exact ht))
            (by simp) (by simp) fun ht _ => ?_
          obtain ⟨hp, hs⟩ := hi.timed ht (by rw [hpc]; rfl)
          exact ⟨hp, hs.imp_right fun hq => ⟨hq.1, rfl⟩⟩
      | cons e rest =>
          obtain ⟨⟨hcount, hother⟩, h⟩ := Option.ite_none_right_eq_some.mp h
          obtain rfl := Option.some.inj h
          refine hi.goto hrun (by simp) (by simp) (fun t ht => (nomatch ht)) ?_ (by simp)
            (by simp [Pc.resets])
          rintro rest' ⟨⟩
          exact ⟨hother, hcount⟩
  | handle t | readLast | events es | checkEmpty ls | delay ms | reread | test ls | dequeue t
  | running t | wild => simp [hpc] at h

/-- While the active task runs there is no timeout in place. -/
theorem timeout_eq_zero (hi : Inv s q) (hpc : s.pc = .running activeTask) : s.timeout = 0 := by
  by_contra hne
  have hp := (hi.timed hne (by rw [hpc]; rfl)).1
  exact (hi.active.of_parked hp).2.2.1 hpc

/-- An access of the running active task. -/
theorem of_running (hi : Inv s q) (hpc : s.pc = .running activeTask) (hlinks : s'.links = s.links)
    (hpc' : s'.pc = .running activeTask ∨ s'.pc = .handle activeTask) (htimeout : s'.timeout = s.timeout)
    (hactive : ActiveOk s' q) : Inv s' q := by
  have h0 := hi.timeout_eq_zero hpc
  refine ⟨hlinks ▸ hi.rings, fun t ht => ?_, fun rest hc => ?_, fun ms hc => ?_, hactive,
    fun _ => hi.off hpc, fun hc => absurd (htimeout.trans h0) hc⟩
  · rcases hpc' with hc | hc <;> rw [hc] at ht <;> cases ht
  · rcases hpc' with h | h <;> cases h.symm.trans hc
  · rcases hpc' with h | h <;> cases h.symm.trans hc

theorem activeStep (hi : Inv s q) (hpc : s.pc = .running activeTask) : Inv s.activeStep q := by
  have h := hi.active
  unfold ActiveOk at h
  unfold St.activeStep
  cases hc : s.active with
  | openPipe =>
      rw [hc] at h
      exact hi.of_running hpc rfl (.inl hpc) rfl ⟨h.1, rfl, hpc⟩
  | read =>
      rw [hc] at h
      unfold St.readPipe
      cases hpipe : s.pipe with
      | none => simp [hpipe] at h
      | some n =>
          cases n with
          | zero =>
              exact hi.of_running hpc rfl (.inl hpc) rfl ⟨h.1, rfl, hpc⟩
          | succ n =>
              refine hi.of_running hpc rfl (.inl hpc) rfl ?_
              unfold ActiveOk
              dsimp only
              rw [hc]
              exact ⟨h.1, rfl, hpc⟩
  | addEvents =>
      rw [hc] at h
      exact hi.of_running hpc rfl (.inl hpc) rfl ⟨rfl, h.2.1, hpc⟩
  | ioYield =>
      rw [hc] at h
      refine hi.of_running hpc rfl (.inr rfl) rfl ?_
      show if s.registered = true then _ else _
      rw [if_pos h.1]
      refine ⟨h.2.1, hi.off hpc, fun hc => (nomatch hc), fun _ => ?_⟩
      exact Function.update_self activeTask Status.blocked s.status
  | deleteEvents =>
      rw [hc] at h
      refine hi.of_running hpc rfl (.inl hpc) rfl ?_
      dsimp only at h
      split_ifs at h with hr
      · exact absurd hpc h.2.2.1
      · exact ⟨rfl, h.1, hpc⟩
  | readAgain =>
      rw [hc] at h
      unfold St.readPipe
      cases hpipe : s.pipe with
      | none => simp [hpipe] at h
      | some n =>
          cases n with
          | zero => simp [hpipe] at h
          | succ n => exact hi.of_running hpc rfl (.inl hpc) rfl ⟨h.1, rfl, hpc⟩
  | closed =>
      rw [hc] at h
      exact h.elim

/-- A task other than the active one runs. -/
theorem taskStep (hi : Inv s q) (hpc : s.pc = .running t) (ht : t ≠ activeTask) {u : TaskAct}
    (h : taskStep s t u = some s') : ∃ q', Inv s' q' := by
  have hs := hi.signalled (by rw [hpc]; rfl) (by rw [hpc]; rfl)
  have hrun : s.pc ≠ .running activeTask := by simp [hpc, ht]
  cases u with
  | resume u =>
      obtain ⟨hu, h⟩ := Option.ite_none_left_eq_some.mp h
      obtain rfl := Option.some.inj h
      have e : s.schedRqEnqueue u = { s with
          pc := .running t, status := Function.update s.status u .runnable,
          links := rrEnqueue () s.links u } := by
        rw [← hpc]
        rfl
      rw [e]
      refine ⟨u :: q.erase u, hi.requeue (rings_enqueue hi.rings u) (active_mem_enqueue hu) ?_ ?_ ?_ rfl
        (by simp) (by simp) fun h0 _ => hs h0⟩
      · exact Function.update_of_ne (Ne.symm hu) _ _
      · rw [hpc]
      · simp
  | setStatus st =>
      obtain rfl := Option.some.inj h
      have e : s.setStatus t st = { s with
          pc := .running t, status := Function.update s.status t st, links := s.links } := by
        rw [← hpc]
        rfl
      rw [e]
      refine ⟨q, hi.requeue hi.rings Iff.rfl ?_ ?_ ?_ rfl (by simp) (by simp) fun h0 _ => hs h0⟩
      · exact Function.update_of_ne ht.symm _ _
      · rw [hpc]
      · simp
  | switch =>
      obtain rfl := Option.some.inj h
      refine ⟨q, hi.requeue hi.rings Iff.rfl rfl ?_ ?_ rfl (by simp) (by simp) fun h0 _ => hs h0⟩
      · simp [hrun]
      · simp [ht]

variable [DecidableEq R]

/-- Another thread enqueues a task: it is going to write a byte. -/
theorem remoteEnqueue (hi : Inv s q) {r : R} {await : Bool} (ht : t ≠ activeTask) :
    Inv (remoteEnqueue s r t await) (t :: q.erase t) := by
  have hw : (Active.remoteEnqueue s r t await).writing r = true := by
    cases await <;> exact Function.update_self ..
  have hsig : Signalled (Active.remoteEnqueue s r t await) := .inr ⟨r, hw⟩
  have hst : (Active.remoteEnqueue s r t await).status activeTask = s.status activeTask := by
    cases await
    · exact Function.update_of_ne ht.symm _ _
    · rfl
  have hq := active_mem_enqueue (q := q) ht
  have hframe : (Active.remoteEnqueue s r t await).pc = s.pc ∧
      (Active.remoteEnqueue s r t await).active = s.active ∧
      (Active.remoteEnqueue s r t await).registered = s.registered ∧
      (Active.remoteEnqueue s r t await).pipe = s.pipe ∧
      (Active.remoteEnqueue s r t await).timeout = s.timeout ∧
      (Active.remoteEnqueue s r t await).links = rrEnqueue () s.links t := by
    cases await <;> exact ⟨rfl, rfl, rfl, rfl, rfl, rfl⟩
  generalize Active.remoteEnqueue s r t await = s' at hw hsig hst hframe ⊢
  obtain ⟨hpc, hactive, hreg, hpipe, htimeout, hlinks⟩ := hframe
  have hparked : Parked s → Parked s' := fun hp => ⟨hactive.trans hp.1, hreg.trans hp.2⟩
  constructor
  · rw [hlinks]
    exact rings_enqueue hi.rings t
  · intro u hu
    exact mem_enqueue (hi.found u (hpc ▸ hu))
  · intro rest hc
    unfold St.pipeReady
    rw [hreg, hpipe]
    exact hi.events rest (hpc ▸ hc)
  · intro ms hc hne
    exact ⟨hparked (hi.delay ms (hpc ▸ hc) hne).1, .inl hsig⟩
  · refine hi.active.move hactive hreg (by rw [hpipe]) ?_ (fun h => hst.trans h) hq (by rw [hpc])
      (by rw [hpc]; exact id)
    rw [hpipe]
    exact id
  · intro hc hm
    exact hi.off (hpc ▸ hc) (hq.mp hm)
  · intro h0 hr
    rw [htimeout] at h0
    rw [hpc] at hr
    exact ⟨hparked (hi.timed h0 hr).1, .inl hsig⟩

/-- The byte is written. -/
theorem schedActiveEvent (hi : Inv s q) (r : R) : Inv (schedActiveEvent s r) q := by
  have hpipe : s.pipe.getD 0 ≤ (Active.schedActiveEvent s r).pipe.getD 0 := by
    show s.pipe.getD 0 ≤ (s.pipe.map (· + 1)).getD 0
    cases s.pipe with
    | none => exact le_rfl
    | some n => exact Nat.le_succ n
  -- the byte takes the place of the thread that was going to write it
  have hsig : Parked s → Signalled (Active.schedActiveEvent s r) := by
    intro hp
    have hopen := (hi.active.of_parked hp).1
    obtain ⟨n, hn⟩ := Option.isSome_iff_exists.mp hopen
    refine .inl ?_
    show 0 < (s.pipe.map (· + 1)).getD 0
    rw [hn]
    exact Nat.succ_pos n
  refine ⟨hi.rings, hi.found, fun rest hc => ?_, fun ms hc hne => ?_, ?_, hi.off, fun h0 hr => ?_⟩
  · obtain ⟨h1, h2⟩ := hi.events rest hc
    refine ⟨h1, h2.trans ?_⟩
    by_cases hready : s.pipeReady = true
    · have hready' : (Active.schedActiveEvent s r).pipeReady = true := by
        obtain ⟨hreg, -⟩ := Bool.and_eq_true_iff.mp hready
        have hrun : s.pc ≠ .running activeTask := by
          rw [show s.pc = .events rest from hc]
          exact fun hc => (nomatch hc)
        have hp : Parked s := hi.parked_of_registered hrun hreg
        obtain ⟨n, hn⟩ := Option.isSome_iff_exists.mp (hi.active.of_parked hp).1
        simp [St.pipeReady, Active.schedActiveEvent, hreg, hn]
      rw [if_pos hready, if_pos hready']
    · rw [if_neg hready]
      exact Nat.zero_le _
  · obtain ⟨hp, -⟩ := hi.delay ms hc hne
    exact ⟨hp, .inl (hsig hp)⟩
  · refine hi.active.move rfl rfl hpipe ?_ id Iff.rfl Iff.rfl id
    show s.pipe.isSome → (s.pipe.map (· + 1)).isSome
    rw [Option.isSome_map]
    exact id
  · obtain ⟨hp, -⟩ := hi.timed h0 hr
    exact ⟨hp, .inl (hsig hp)⟩

theorem step (hi : Inv s q) {a : Act R} (h : step s a = some s') : ∃ q', Inv s' q' := by
  cases a with
  | sched => exact hi.sched h
  | epollWait es => exact ⟨q, hi.epollWait h⟩
  | active =>
      obtain ⟨hpc, h⟩ := Option.ite_none_right_eq_some.mp h
      obtain rfl := Option.some.inj h
      exact ⟨q, hi.activeStep hpc⟩
  | task u =>
      unfold Active.step at h
      cases hpc : s.pc with
      | running t =>
          rw [hpc] at h
          obtain ⟨ht, h⟩ := Option.ite_none_left_eq_some.mp h
          exact hi.taskStep hpc ht h
      | handle t | readLast | epollWait ls | events es | checkEmpty ls | delay ms | reread | test ls
      | dequeue t | wild => simp [hpc] at h
  | enqueue r t await =>
      obtain ⟨hne, h⟩ := Option.ite_none_left_eq_some.mp h
      obtain rfl := Option.some.inj h
      exact ⟨_, hi.remoteEnqueue fun hc => hne (.inr hc)⟩
  | write r =>
      obtain ⟨-, h⟩ := Option.ite_none_right_eq_some.mp h
      obtain rfl := Option.some.inj h
      exact ⟨q, hi.schedActiveEvent r⟩

/-- The tasks that are created first are on the run queue. -/
theorem start_rings (k : ℕ) : ∃ q, (∀ t < k, t ∈ q) ∧
    Rings ((List.range k).foldl (rrEnqueue ()) (ListOps.empty : Links Link)) fun _ => q := by
  induction k with
  | zero => exact ⟨[], fun t ht => absurd ht t.not_lt_zero, Rings.init⟩
  | succ k ih =>
      obtain ⟨q, hq, hR⟩ := ih
      refine ⟨k :: q.erase k, fun t ht => ?_, ?_⟩
      · rcases Nat.lt_succ_iff_lt_or_eq.mp ht with ht | rfl
        · exact mem_enqueue (hq t ht)
        · exact List.mem_cons_self
      · rw [List.range_succ, List.foldl_append]
        exact rings_enqueue hR k

omit [DecidableEq R] in
theorem start (n : ℕ) : ∃ q, Inv (start n : St R) q := by
  obtain ⟨q, hq, hR⟩ := start_rings (n + 2)
  have hactive : activeTask ∈ q := hq 1 (by omega)
  exact ⟨q, hR, fun t ht => (nomatch ht), fun _ hc => (nomatch hc), fun _ hc => (nomatch hc),
    ⟨rfl, .inl ⟨hactive, fun hc => (nomatch hc)⟩⟩, fun hc => (nomatch hc), fun hc => absurd rfl hc⟩

end Inv

variable [DecidableEq R]

theorem inv_of_reach (h : (system R).Reachable s) : ∃ q, Inv s q := by
  refine h.invariant (I := fun s => ∃ q, Inv s q) ?_ ?_
  · rintro s ⟨n, rfl⟩
    exact Inv.start n
  · rintro s a s' ⟨q, hi⟩ - e
    exact hi.step e

/-- A scheduler that sleeps while a task can run is going to be woken up. -/
theorem wakeup_not_lost (h : (system R).Reachable s) : ¬Lost s := by
  rintro ⟨⟨ls, hpc⟩, ht, hempty, hpipe, hw⟩
  obtain ⟨q, hi⟩ := inv_of_reach h
  obtain ⟨-, hs⟩ := hi.timed ht (by rw [hpc]; rfl)
  rcases hs with (hbyte | ⟨r, hr⟩) | ⟨hq, -⟩
  · omega
  · rw [hw r] at hr
    cases hr
  · rw [(listEmpty_runList hi.rings).mpr hq] at hempty
    cases hempty

/-- A thread enqueues the task 0 between the test of the run queue and the read that ends the loop, and
has not written its byte when the scheduler, which kept its long timeout, waits again. -/
theorem wakeup_not_lost_late_byte : ∃ s : St Unit, s.pc = .epollWait (.elem 0) ∧
    s.timeout = 60000 ∧ s.pipe = some 0 ∧ ¬Lost s := by
  have hrun := TS.Reachable.exists_of_run (M := system Unit) (s := start 0)
    [.sched, .epollWait [], .sched, .sched, .sched, .sched, .sched, .task (.setStatus .blocked),
      .task .switch, .sched, .sched, .epollWait [], .sched, .sched, .sched, .sched, .sched, .active,
      .active, .active, .active, .sched, .sched, .epollWait [], .sched, .enqueue () 0 false, .sched,
      .sched, .sched, .sched, .task .switch, .sched, .sched]
    (fun s => decide (s.pc = .epollWait (.elem 0) ∧ s.timeout = 60000 ∧ s.pipe = some 0))
    ⟨0, rfl⟩ (by decide +kernel)
  obtain ⟨s, hs, hP⟩ := hrun
  obtain ⟨h1, h2, h3⟩ := of_decide_eq_true hP
  exact ⟨s, h1, h2, h3, wakeup_not_lost hs⟩

end Libcask.Active
