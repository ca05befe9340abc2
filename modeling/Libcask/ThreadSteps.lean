import Libcask.ThreadViews

/-! # The operations of a thread

One lemma for each operation of `Threads`: it keeps the invariant of `ThreadViews`, with the entry of the table of
`TaskLife` that it is.  So the invariant holds between operations, in whatever order the threads take them
(`inv_of_reach`). -/

namespace Libcask.Threads

variable {R : Type} [DecidableEq R] {s : Coarse R} {sh : Shared R} {v : View (Head R) Tid}
  {r : R} {t u x : Tid} {p q : Pc} {o : Op R} {fd : ℕ}

/-- What holds of a task in the hand of a thread. -/
theorem Inv.of_hold (hi : Inv s v) {g : Hold} (hq : s.place r = q) (hg : q.hold t = some g) :
    (s.shared.view v s.place t).hold r = some g ∧ (s.shared.view v s.place t).Owned r ∧
      (s.shared.view v s.place t).Fits g := by
  have hh : (s.shared.view v s.place t).hold r = some g := (congrArg (Pc.hold t) hq).trans hg
  exact ⟨hh, ((hi.good t).of_hold hh).1, ((hi.good t).of_hold hh).2.2⟩

/-- What holds of a task that a thread aids. -/
theorem Inv.of_aid (hi : Inv s v) (hq : s.place r = q) (ha : q.aid t ≠ none) :
    (s.shared.view v s.place t).aid r = q.aid t ∧ ∃ r', (s.shared.view v s.place t).Owned r' := by
  have haid : (s.shared.view v s.place t).aid r = q.aid t := congrArg (Pc.aid t) hq
  obtain ⟨r', ho, -⟩ := (hi.good t).of_waits (.inr (.inr (.inr ⟨r, haid ▸ ha⟩)))
  exact ⟨haid, r', ho⟩

theorem run_delete (p : Pc) : (LinkProg.listDelete (.elem x) (.done p) : Op R).run s.mem =
    (p, cellsOf (listDelete (linksOf s.mem) (.elem x))) :=
  run_listDelete ..

theorem run_addAfter (l : Head R) (p : Pc) :
    (LinkProg.listAddAfter (.head l) (.elem x) (.done p) : Op R).run s.mem =
      (p, cellsOf (listAddAfter (linksOf s.mem) (.head l) (.elem x))) :=
  run_listAddAfter ..

omit [DecidableEq R] in
/-- The scheduler of a task of the thread `r'`. -/
theorem sched_of_owned {r' : R} (ho : (s.shared.view v s.place u).Owned r') : s.shared.sched r u = r' := by
  rw [Shared.sched, show s.shared.home u = some r' from ho.home]
  rfl

omit [DecidableEq R] in
theorem home_of_owned {r' : R} (ho : (s.shared.view v s.place u).Owned r') :
    Function.update s.shared.home u (some (s.shared.sched r u)) = s.shared.home :=
  Function.update_eq_self_iff.mpr (sched_of_owned (r := r) ho ▸ ho.home.symm)

/-- The lock of a run queue has nothing to do with the descriptors. -/
theorem Inv.fds_lock (hi : Inv s v) (l : R → Bool) : Fds { s.shared with lock := l } :=
  hi.fds.mono rfl rfl rfl (fun _ _ => id) fun _ _ => id

/-- `sched_rq_enqueue` of a task of the thread. -/
theorem inv_enqueue_own (hi : Inv s v) {b : Back} {g : Stage} (hq : s.place r = .enq u g b) (hb : b.own = true)
    (hok : (Pc.enq u g b).settled s.place) (hx : s.shared.enqueue r u b g = some (sh, o)) :
    ∃ v', Inv (after s r sh o) v' := by
  have hn : b.hold u = none := by
    have hsane := hi.sane r
    rw [hq] at hsane
    exact hsane.1 hb
  have hhold : ∀ g', (Pc.enq u g' b).hold u = g'.hold := fun g' => hold_enq hb hn
  have haid : ∀ g' t, (Pc.enq u g' b).aid t = (Pc.enq u g b).aid t := fun g' t => by
    rw [aid_enq_of_own hb, aid_enq_of_own hb]
  have hother : ∀ g' t, t ≠ u → (Pc.enq u g' b).hold t = (Pc.enq u g b).hold t := fun g' t ht => by
    rw [hold_enq_of_ne ht, hold_enq_of_ne ht]
  have hsane : ∀ g', g' ≠ .status → (Pc.enq u g' b).Sane := fun g' hg' => ⟨fun _ => hn, fun _ => hg'⟩
  cases g with
  | status =>
      cases hx
      refine ⟨v, hi.own (Prog.run_done ..) hq (haid _) (hother _) (hsane _ (by decide)) hi.rings
        (hi.change_status u _) ?_⟩
      rw [view_setStatus, hhold]
      exact .readied r (hi.of_hold hq (hhold _)).1
  | unlink =>
      cases hx
      obtain ⟨hh, ho, -⟩ := hi.of_hold hq (hhold .unlink)
      rw [home_of_owned ho]
      refine ⟨v.delete u, hi.own (run_delete _) hq (haid _) (hother _) (hsane _ (by decide))
        (rings_delete hi.rings u) (hi.change_delete u) ?_⟩
      rw [view_delete hi.rings.ok, hhold]
      refine .unlisted r hh fun r' hr' => ?_
      cases (between_of_aid hr').symm.trans (hok r')
  | lock =>
      simp only [Shared.enqueue, Option.ite_none_left_eq_some, Option.some.injEq, Prod.mk.injEq] at hx
      obtain ⟨-, rfl, rfl⟩ := hx
      refine ⟨v, hi.idle (Prog.run_done ..) hq (fun t => ?_) (haid _) (hsane _ (by decide)) hi.freed
        (hi.fds_lock _) fun _ _ => rfl⟩
      by_cases ht : t = u
      · subst ht
        rw [hhold, hhold]
        rfl
      · exact hother _ t ht
  | link =>
      cases hx
      obtain ⟨hh, ho, hf⟩ := hi.of_hold hq (hhold .link)
      have hfree : v.Free u := free_of_lists hf.2.1
      rw [sched_of_owned ho]
      refine ⟨v.addAfter (.run r) u, hi.own (run_addAfter _ _) hq (haid _) (hother _) (hsane _ (by decide))
        (rings_addAfter hi.rings hfree) (hi.change_addAfter _ u) ?_⟩
      rw [view_addAfter hfree, hhold]
      exact .enqueued r hh
  | unlock =>
      cases hx
      refine ⟨v, hi.idle (Prog.run_done ..) hq (fun t => ?_) (fun t => ?_) (sane_back b) hi.freed
        (hi.fds_lock _) fun _ _ => rfl⟩
      · rw [hold_back]
        by_cases ht : t = u
        · subst ht
          rw [hhold, hn]
          rfl
        · rw [hold_enq_of_ne ht]
      · rw [aid_back, aid_enq_of_own hb]

/-- `sched_rq_enqueue` of a task of any thread. -/
theorem inv_enqueue_other (hi : Inv s v) {b : Back} {g : Stage} (hq : s.place r = .enq u g b)
    (hb : b.own = false) (hok : (Pc.enq u g b).settled s.place)
    (hx : s.shared.enqueue r u b g = some (sh, o)) : ∃ v', Inv (after s r sh o) v' := by
  have hworker : b = .worker → g ≠ .status := by
    have hsane := hi.sane r
    rw [hq] at hsane
    exact hsane.2
  have hhold : ∀ g' t, (Pc.enq u g' b).hold t = (Pc.enq u g b).hold t := fun g' t => by
    rw [hold_enq_of_not_own hb, hold_enq_of_not_own hb]
  have hother : ∀ g' t, t ≠ u → (Pc.enq u g' b).aid t = (Pc.enq u g b).aid t := fun g' t ht => by
    rw [aid_enq_of_ne ht, aid_enq_of_ne ht]
  have hsane : ∀ g', g' ≠ .status → (Pc.enq u g' b).Sane := fun g' hg' =>
    ⟨fun hc => Bool.noConfusion (hb.symm.trans hc), fun _ => hg'⟩
  have hlinking : ∀ g', g' = .lock ∨ g' = .link → (Pc.enq u g' b).aid u = some .linking := by
    rintro g' (rfl | rfl) <;> simp [aid_enq, Stage.aid, hb]
  have hsome : b.aid ≠ none := aid_ne_none hb
  cases g with
  | status =>
      cases hx
      have hwaking : b.aid = some .waking := aid_eq_waking hb fun hw => hworker hw rfl
      have haid : ∀ g', g' = .status ∨ g' = .unlink → (Pc.enq u g' b).aid u = some .waking := by
        rintro g' (rfl | rfl) <;> exact aid_enq.trans hwaking
      refine ⟨v, hi.other (Prog.run_done ..) hq (hhold _) (hother _) (hsane _ (by decide)) hi.rings
        (hi.change_status u _) ?_⟩
      rw [view_setStatus, haid _ (.inr rfl)]
      exact .runnable r ((congrArg (Pc.aid u) hq).trans (haid _ (.inl rfl)))
  | unlink =>
      cases hx
      have haid : (Pc.enq u .unlink b).aid u = b.aid := aid_enq
      obtain ⟨ha, r', ho⟩ := hi.of_aid hq (haid ▸ hsome)
      rw [home_of_owned ho]
      refine ⟨v.delete u, hi.other (run_delete _) hq (hhold _) (hother _) (hsane _ (by decide))
        (rings_delete hi.rings u) (hi.change_delete u) ?_⟩
      rw [view_delete hi.rings.ok, hlinking _ (.inl rfl)]
      refine .relisted r (ha.trans haid ▸ hsome) (fun r₁ h₁ => ?_) fun r₁ h₁ => ?_
      · cases (between_of_aid h₁).symm.trans (hok r₁)
      · cases (between_of_hold h₁).symm.trans (hok r₁)
  | lock =>
      simp only [Shared.enqueue, Option.ite_none_left_eq_some, Option.some.injEq, Prod.mk.injEq] at hx
      obtain ⟨-, rfl, rfl⟩ := hx
      refine ⟨v, hi.idle (Prog.run_done ..) hq (hhold _) (fun t => ?_) (hsane _ (by decide)) hi.freed
        (hi.fds_lock _) fun _ _ => rfl⟩
      by_cases ht : t = u
      · subst ht
        rw [hlinking _ (.inl rfl), hlinking _ (.inr rfl)]
      · exact hother _ t ht
  | link =>
      cases hx
      have haid := hlinking .link (.inr rfl)
      obtain ⟨ha, r', ho⟩ := hi.of_aid hq (by rw [haid]; exact Option.some_ne_none _)
      have hfree : v.Free u := free_of_lists (ho.unlisted r (ha.trans haid))
      rw [sched_of_owned ho]
      refine ⟨v.addAfter (.run r') u, hi.other (run_addAfter _ _) hq (hhold _) (hother _) (hsane _ (by decide))
        (rings_addAfter hi.rings hfree) (hi.change_addAfter _ u) ?_⟩
      rw [view_addAfter hfree]
      exact (aid_enq : (Pc.enq u .unlock b).aid u = none) ▸ .resumed r r' (ha.trans haid) ho.home
  | unlock =>
      cases hx
      refine ⟨v, hi.idle (Prog.run_done ..) hq (fun t => ?_) (fun t => ?_) (sane_back b) hi.freed
        (hi.fds_lock _) fun _ _ => rfl⟩
      · rw [hold_back, hold_enq_of_not_own hb]
      · rw [aid_back]
        by_cases ht : t = u
        · subst ht
          rw [aid_enq]
          rfl
        · rw [aid_enq_of_ne ht]

/-- `task_create`, and the beginning of `sched_rq_enqueue`. -/
theorem inv_create (hi : Inv s v) {b : Back} (hq : s.place r = b.pc) (hb : b.own = false) (hw : b ≠ .worker) :
    Inv (after s r (s.shared.create r b).1 (s.shared.create r b).2) v := by
  have hdead : (s.shared.view v s.place s.shared.created).alive = false := by
    simp [Shared.view, Shared.alive]
  have hquiet := (hi.good _).quiet hdead
  have hnew : s.shared.freed s.shared.created = false := Bool.not_eq_true _ ▸ fun h => (hi.freed _ h).false
  have hrun : (s.shared.create r b).2.run s.mem = (.enq s.shared.created .unlink b, s.mem) := by
    have hinit := listInit_of_free hi.rings (free_of_lists hquiet.free)
    rw [Shared.create, run_listInit, hinit, cellsOf_linksOf]
    rfl
  -- the new task waits for no descriptor
  have hold : ∀ {t fd}, fd ∈ (s.shared.watch t).fds →
      Function.update s.shared.home s.shared.created (some r) t = s.shared.home t := by
    refine fun {t fd} hfd => Function.update_of_ne ?_ _ _
    rintro rfl
    exact hquiet.unpolled (List.ne_nil_of_mem hfd)
  refine hi.other (x := s.shared.created) hrun hq (fun t => ?_) (fun t ht => ?_)
    ⟨fun hc => Bool.noConfusion (hb.symm.trans hc), fun _ => by decide⟩ hi.rings
    ⟨?_, ⟨hi.fds.task, fun h => ?_, fun h => ?_⟩, fun t ht => ?_⟩ ?_
  · rw [hold_enq_of_not_own hb, hold_back]
  · rw [aid_enq_of_ne ht, aid_back]
  · exact fun t ht => (hi.freed t ht).trans (Nat.lt_succ_self _)
  · obtain ⟨t, ht, hr⟩ := hi.fds.epoll h
    exact ⟨t, ht, (hold ht).trans hr⟩
  · obtain ⟨t, ht, hr, hn⟩ := hi.fds.wheel h
    exact ⟨t, ht, (hold ht).trans hr, hn⟩
  · refine view_congr ?_ (Function.update_of_ne ht _ _) (Function.update_of_ne ht _ _) rfl Iff.rfl rfl
      fun _ => Iff.rfl
    have hlt : t < s.shared.created + 1 ↔ t < s.shared.created :=
      ⟨fun h => lt_of_le_of_ne (Nat.lt_succ_iff.mp h) ht, fun h => h.trans (Nat.lt_succ_self _)⟩
    simp only [Shared.alive, Shared.create, hlt]
  · have hstep := Task.Step.created r hdead
    rw [aid_enq, show Stage.aid b .unlink = some .waking from aid_eq_waking hb hw]
    convert hstep using 2
    ext1
    case alive => simp [Shared.view, Shared.alive, Shared.create, hnew]
    case status => exact Function.update_self ..
    case home => exact Function.update_self ..
    all_goals rfl

/-- `RR_picknext`. -/
theorem inv_picknext (hi : Inv s v) (hq : s.place r = .pick) : Inv (after s r s.shared
    (.listPeek .prev (.run r) (fun o => .done (o.elim .pick .picked)) (.done .wild))) v := by
  have hrun := run_listPeek_prev hi.rings (.run r) (fun o => .done (o.elim .pick .picked)) (.done .wild : Op R)
  cases ht : (v (.run r)).getLast? with
  | none =>
      rw [ht] at hrun
      exact hi.idle (hrun.trans (Prog.run_done ..)) hq (fun _ => rfl) (fun _ => rfl) trivial hi.freed hi.fds
        fun _ _ => rfl
  | some t =>
      rw [ht] at hrun
      have hmem : .run r ∈ (s.shared.view v s.place t).lists := List.mem_of_getLast? ht
      refine hi.own (p := .picked t) (x := t) (hrun.trans (Prog.run_done ..)) hq (fun _ => rfl)
        (fun x hx => if_neg hx.symm) trivial hi.rings (hi.change_refl t) ?_
      rw [show (Pc.picked t).hold t = some .picked from if_pos rfl]
      exact .picked r hmem (congrArg (Pc.hold t) hq)

/-- The scheduler, or the timeout task, resumes the task of a descriptor. -/
theorem inv_reported (hi : Inv s v) {b : Back} (hq : s.place r = b.pc) (hb : b.own = true)
    (hu : fd ∈ (s.shared.watch u).fds) (hr : s.shared.home u = some r) (hn : b.hold u = none)
    {e : R → ℕ → Bool} {w : ℕ → Option R} (hreg : (∃ r, s.shared.epoll r fd = true) ∨ s.shared.wheel fd ≠ none)
    (he : ∀ r fd, e r fd = true → s.shared.epoll r fd = true)
    (hw : ∀ r fd, w fd = some r → s.shared.wheel fd = some r)
    (hne : ∀ fd', fd' ≠ fd → (∀ r, e r fd' = s.shared.epoll r fd') ∧ w fd' = s.shared.wheel fd') :
    Inv (after s r { s.shared with epoll := e, wheel := w } (.done (.enq u .status b))) v := by
  refine hi.own (x := u) (Prog.run_done ..) hq (fun t => ?_) (fun t ht => ?_) ⟨fun _ => hn, ?_⟩ hi.rings
    (hi.change_reported he hw hne hu) ?_
  · rw [aid_enq_of_own hb, aid_back]
  · rw [hold_enq_of_ne ht, hold_back]
  · rintro rfl
    cases hb
  · have hhold : (s.shared.view v s.place u).hold r = none := by
      refine (congrArg (Pc.hold u) hq).trans ?_
      rw [hold_back, hn]
    rw [hold_enq hb hn]
    exact .reported r hhold hr ⟨fd, hu, hreg⟩ _ (registered_mono rfl he hw)

theorem inv_event (hi : Inv s v) (hq : s.place r = .pick) (he : s.shared.epoll r fd = true) :
    Inv (after s r (s.shared.deleteEvents r fd)
      (.done ((s.shared.task fd).elim .pick fun u => .enq u .status .sched))) v := by
  obtain ⟨u, hu, hr⟩ := hi.fds.epoll he
  rw [hi.fds.task hu]
  exact inv_reported (b := .sched) hi hq rfl hu hr rfl (.inl ⟨r, he⟩)
    (fun _ _ h => (deleteEvents_epoll.mp h).1) (fun _ _ => id)
    fun fd' hfd' => ⟨fun _ => deleteEvents_of_ne hfd', rfl⟩

theorem inv_expire (hi : Inv s v) (hq : s.place r = .user t) (he : s.shared.wheel fd = some r) :
    Inv (after s r { s.shared with wheel := Function.update s.shared.wheel fd none }
      (.done ((s.shared.task fd).elim .wild fun u => .enq u .status (.timeout t)))) v := by
  obtain ⟨u, hu, hr, -⟩ := hi.fds.wheel he
  -- the running task waits for nothing
  have htu : t ≠ u := by
    rintro rfl
    obtain ⟨-, -, hquiet, -⟩ := hi.of_hold (t := t) hq (if_pos rfl)
    exact hquiet.unpolled (List.ne_nil_of_mem hu)
  rw [hi.fds.task hu]
  refine inv_reported (b := .timeout t) hi hq rfl hu hr (if_neg htu) (.inr (by rw [he]; exact Option.some_ne_none _))
    (fun _ _ => id) (fun r' fd' h => ?_) fun fd' hfd' => ⟨fun _ => rfl, Function.update_of_ne hfd' _ _⟩
  by_cases hfd' : fd' = fd
  · rw [hfd', Function.update_self] at h
    cases h
  · rwa [Function.update_of_ne hfd'] at h

/-- The first task of a wait list is taken off. -/
theorem inv_wake (hi : Inv s v) {b : Back} (hq : s.place r = b.pc) (hb : b.own = false) (hw : b ≠ .worker)
    (w : ℕ) : ∃ v', Inv (after s r s.shared (Shared.wake w b)) v' := by
  have hrun := run_listPeek_next hi.rings (.wait w)
    (fun o => o.elim (.done b.pc) fun u => .listDelete (.elem u) (.done (.enq u .status b)))
    (.done .wild : Op R)
  cases hu : (v (.wait w)).head? with
  | none =>
      rw [hu] at hrun
      exact ⟨v, hi.idle (hrun.trans (Prog.run_done ..)) hq (fun _ => rfl) (fun _ => rfl) (sane_back b) hi.freed
        hi.fds fun _ _ => rfl⟩
  | some u =>
      rw [hu] at hrun
      have hmem : .wait w ∈ (s.shared.view v s.place u).lists := List.mem_of_head? hu
      refine ⟨v.delete u, hi.other (hrun.trans (run_delete _)) hq (fun t => ?_) (fun t ht => ?_)
        ⟨fun hc => Bool.noConfusion (hb.symm.trans hc), fun hc => absurd hc hw⟩ (rings_delete hi.rings u)
        (hi.change_delete u) ?_⟩
      · rw [hold_enq_of_not_own hb, hold_back]
      · rw [aid_enq_of_ne ht, aid_back]
      · rw [view_delete hi.rings.ok, aid_enq, show Stage.aid b .status = some .waking from aid_eq_waking hb hw]
        exact .unlinked r w hmem

/-- The task links itself on a wait list, or waits for descriptors. -/
theorem inv_sleep (hi : Inv s v) (hq : s.place r = .user t) {w : Option ℕ} {timed : Bool} {ps : List Poll}
    (hok : orderly s.shared s.place (.task r (.sleep w timed ps)))
    (hx : s.shared.taskAct r t (.sleep w timed ps) = some (sh, o)) : ∃ v', Inv (after s r sh o) v' := by
  obtain ⟨hh, ho, hquiet, -⟩ := hi.of_hold (t := t) hq (if_pos rfl)
  have hfree : v.Free t := free_of_lists hquiet.free
  have hps : ∀ q ∈ ps, ∀ u, q.fd ∉ (s.shared.watch u).fds := fun q hq => hi.unwatched (hok.1 q hq)
  have hfds : Fds (s.shared.register r t timed ps) :=
    hi.fds.register ho.home (not_not.mp hquiet.unpolled) hps
  have hchange : ∀ v', (∀ u, u ≠ t → ∀ l, u ∈ v' l ↔ u ∈ v l) →
      Change s.shared (s.shared.register r t timed ps) v v' t := fun v' hv => ⟨hi.freed, hfds, fun u hu =>
    view_congr rfl rfl rfl (Function.update_of_ne hu _ _) (registered_register_of_ne hu fun q hq => hps q hq u)
      rfl (hv u hu)⟩
  have hlinked : (Pc.linked t).hold t = some .linked := if_pos rfl
  have hothers : ∀ u, u ≠ t → (Pc.linked t).hold u = (Pc.user t).hold u := fun _ => hold_of_ne
  cases w with
  | none =>
      cases hx
      obtain ⟨q, hq', hreg⟩ := hok.2.resolve_left (not_not.mpr rfl)
      refine ⟨v, hi.own (Prog.run_done ..) hq (fun _ => rfl) hothers trivial hi.rings
        (hchange v fun _ _ _ => Iff.rfl) ?_⟩
      rw [hlinked]
      exact .slept r hh {h | t ∈ v h} _ _ (fun r' hr' => hfree _ hr') (.inl (registered_register hq' hreg))
  | some w =>
      cases hx
      have hrun : (LinkProg.listAddBefore (.head (.wait w)) (.elem t) (.done (.linked t)) : Op R).run s.mem =
          (.linked t, cellsOf (listAddBefore (linksOf s.mem) (.head (.wait w)) (.elem t))) :=
        run_listAddBefore ..
      refine ⟨v.addBefore (.wait w) t, hi.own hrun hq (fun _ => rfl) hothers trivial
        (rings_addBefore hi.rings hfree) (hchange _ fun u hu l => ?_) ?_⟩
      · rw [View.mem_addBefore]
        simp [hu]
      · rw [hlinked]
        refine .slept r hh {h | t ∈ v.addBefore (.wait w) t h} _ _ (fun r' hr' => ?_) (.inr ⟨.wait w, ?_⟩)
        · rcases View.mem_addBefore.mp hr' with ⟨-, hm⟩ | hm
          · cases hm
          · exact hfree _ hm
        · exact View.mem_addBefore.mpr (.inl ⟨rfl, rfl⟩)

/-- `event_poll` fails: nobody waits for the descriptor. -/
theorem inv_failPoll (hi : Inv s v) (hq : s.place r = .user t) (hok : s.shared.Unwatched fd) :
    Inv (after s r (s.shared.failPoll r t fd) (.done (.user t))) v := by
  have hne : ∀ u fd', fd' ∈ (s.shared.watch u).fds → fd' ≠ fd := by
    rintro u _ hfd rfl
    exact hi.unwatched hok u hfd
  refine hi.idle (Prog.run_done ..) hq (fun _ => rfl) (fun _ => rfl) trivial hi.freed ⟨fun hfd => ?_, fun h => ?_,
    hi.fds.wheel⟩ fun u => ?_
  · exact (Function.update_of_ne (hne _ _ hfd) _ _).trans (hi.fds.task hfd)
  · exact hi.fds.epoll (deleteEvents_epoll.mp h).1
  · refine view_congr rfl rfl rfl rfl (registered_congr rfl fun fd' hfd' => ⟨fun r' => ?_, rfl⟩) rfl
      fun _ => Iff.rfl
    exact deleteEvents_of_ne (hne u fd' hfd')

theorem inv_goOn (hi : Inv s v) (hq : s.place r = .dispatch t) :
    Inv (after s r (s.shared.goOn r t) (.done (.user t))) v := by
  obtain ⟨hh, ho, -⟩ := hi.of_hold (t := t) hq (if_pos rfl)
  refine hi.own (x := t) (Prog.run_done ..) hq (fun _ => rfl) (fun _ => hold_of_ne) trivial hi.rings
    ⟨hi.freed, hi.fds.goOn ho.home, fun u hu => ?_⟩ ?_
  · exact view_congr rfl (Function.update_of_ne hu _ _) rfl (Function.update_of_ne hu _ _)
      (registered_goOn_of_ne hi.fds hu) rfl fun _ => Iff.rfl
  · have hwatch : (s.shared.goOn r t).watch t = ⟨false, []⟩ := Function.update_self ..
    have hstep := Task.Step.started r hh
    convert hstep using 1
    ext1
    case status => exact Function.update_self ..
    case polls => exact propext ⟨fun h => h (congrArg Watch.fds hwatch), False.elim⟩
    case events =>
      refine propext ⟨?_, False.elim⟩
      rintro ⟨fd, hfd, -⟩
      rw [hwatch] at hfd
      cases hfd
    case hold => rw [show (Pc.user t).hold t = some .runs from if_pos rfl]; rfl
    all_goals rfl

/-- The thread goes on with its task, which has `g` done to it next. -/
theorem inv_goto (hi : Inv s v) {g : Option Hold} (hq : s.place r = q) (ha : ∀ t, p.aid t = q.aid t)
    (hh : ∀ u, u ≠ t → p.hold u = q.hold u) (hp : p.Sane) (hg : p.hold t = g)
    (hx : (s.shared.view v s.place t).Step ((s.shared.view v s.place t).holdBy r g)) :
    Inv (after s r s.shared (.done p)) v :=
  hi.own (Prog.run_done ..) hq ha hh hp hi.rings (hi.change_refl t) (hg ▸ hx)

/-- The same, with an access to the status. -/
theorem inv_status (hi : Inv s v) {g : Option Hold} {st : Status} (hq : s.place r = q)
    (ha : ∀ t, p.aid t = q.aid t) (hh : ∀ u, u ≠ t → p.hold u = q.hold u) (hp : p.Sane) (hg : p.hold t = g)
    (hx : (s.shared.view v s.place t).Step
      (Task.holdBy { s.shared.view v s.place t with status := st } r g)) :
    Inv (after s r (s.shared.setStatus t st) (.done p)) v :=
  hi.own (Prog.run_done ..) hq ha hh hp hi.rings (hi.change_status t st) (by rw [view_setStatus, hg]; exact hx)

/-- The scheduler's `switch(prev_task->status)`. -/
theorem inv_handle (hi : Inv s v) (hq : s.place r = .handle t) (hx : s.shared.next r (.handle t) = some (sh, o)) :
    ∃ v', Inv (after s r sh o) v' := by
  obtain ⟨hh, ho, hf⟩ := hi.of_hold (t := t) hq (if_pos rfl)
  have hothers : ∀ u, u ≠ t → (Pc.handle t).hold u = none := fun u hu => if_neg hu.symm
  simp only [Shared.next] at hx
  cases hs : s.shared.status t with
  | runnable =>
      simp only [hs, Option.some.injEq, Prod.mk.injEq] at hx
      obtain ⟨rfl, rfl⟩ := hx
      refine ⟨v, inv_goto hi hq (fun u => aid_enq_of_own rfl) (fun u hu => ?_) ⟨fun _ => rfl, Back.noConfusion⟩
        (hold_enq rfl rfl) (.requeued r hh hs)⟩
      rw [hold_enq_of_ne hu, hothers u hu]
      rfl
  | blocked =>
      simp only [hs, Option.some.injEq, Prod.mk.injEq] at hx
      obtain ⟨rfl, rfl⟩ := hx
      exact ⟨v, inv_goto hi hq (fun _ => rfl) (fun u hu => (hothers u hu).symm) trivial rfl (.dropped r hh hs)⟩
  | killed =>
      simp only [hs, Option.some.injEq, Prod.mk.injEq] at hx
      obtain ⟨rfl, rfl⟩ := hx
      have hfree : v.Free t := free_of_lists (hf.2.1 hs).free
      have hR := rings_delete hi.rings t
      rw [show (ListOps.delete v t : View (Head R) Tid) = v from View.delete_of_free hfree] at hR
      refine ⟨v, hi.own (run_delete _) hq (fun _ => rfl) (fun _ => hold_of_ne) trivial hR (hi.change_refl t) ?_⟩
      rw [show (Pc.destroy t).hold t = some .destroy from if_pos rfl]
      exact .destroying r hh hs

/-- `task_destory` frees the task. -/
theorem inv_destroy (hi : Inv s v) (hq : s.place r = .destroy t) :
    Inv (after s r { s.shared with freed := Function.update s.shared.freed t true } (.done .pick)) v := by
  obtain ⟨hh, ho, -⟩ := hi.of_hold (t := t) hq (if_pos rfl)
  have hcreated : t < s.shared.created := by
    have halive : s.shared.alive t = true := ho.alive
    simp only [Shared.alive, Bool.and_eq_true, decide_eq_true_eq] at halive
    exact halive.1
  refine hi.own (x := t) (Prog.run_done ..) hq (fun _ => rfl) (fun u hu => (if_neg hu.symm).symm) trivial hi.rings
    ⟨fun u hu => ?_, ⟨hi.fds.task, hi.fds.epoll, hi.fds.wheel⟩, fun u hu => ?_⟩ ?_
  · by_cases hut : u = t
    · exact hut ▸ hcreated
    · exact hi.freed u ((Function.update_of_ne hut _ _).symm.trans hu)
  · refine view_congr ?_ rfl rfl rfl Iff.rfl rfl fun _ => Iff.rfl
    show (decide _ && !Function.update s.shared.freed t true u) = _
    rw [Function.update_of_ne hu]
    rfl
  · have hstep := Task.Step.destroyed r hh
    convert hstep using 2
    ext1
    case alive => simp [Shared.view, Shared.alive]
    all_goals rfl

/-- The accesses of a thread where there is no choice. -/
theorem inv_next (hi : Inv s v) (hok : (s.place r).settled s.place)
    (hx : s.shared.next r (s.place r) = some (sh, o)) : ∃ v', Inv (after s r sh o) v' := by
  cases hq : s.place r with
  | boot | pick | user t | wild =>
      rw [hq] at hx
      cases hx
  | picked t =>
      rw [hq] at hok hx
      cases hx
      refine ⟨v.delete t, hi.own (run_delete _) hq (fun _ => rfl) (fun _ => hold_of_ne) trivial
        (rings_delete hi.rings t) (hi.change_delete t) ?_⟩
      rw [view_delete hi.rings.ok, show (Pc.dispatch t).hold t = some .dispatch from if_pos rfl]
      exact .dequeued r (hi.of_hold hq (if_pos rfl)).1 hok
  | dispatch t =>
      rw [hq] at hx
      cases hx
      exact ⟨v, inv_goOn hi hq⟩
  | linked t =>
      rw [hq] at hx
      cases hx
      exact ⟨v, inv_status hi hq (fun _ => rfl) (fun _ => hold_of_ne) trivial (if_pos rfl)
        (.blocked r (hi.of_hold hq (if_pos rfl)).1)⟩
  | blocked t =>
      rw [hq] at hx
      cases hx
      exact ⟨v, inv_goto hi hq (fun _ => rfl) (fun _ => hold_of_ne) trivial (if_pos rfl)
        (.switched r _ (hi.of_hold hq (if_pos rfl)).1 (.inr (.inl rfl)))⟩
  | leaving t =>
      rw [hq] at hx
      cases hx
      exact ⟨v, inv_goto hi hq (fun _ => rfl) (fun _ => hold_of_ne) trivial (if_pos rfl)
        (.switched r _ (hi.of_hold hq (if_pos rfl)).1 (.inr (.inr rfl)))⟩
  | handle t =>
      rw [hq] at hx
      exact inv_handle hi hq hx
  | destroy t =>
      rw [hq] at hx
      cases hx
      exact ⟨v, inv_destroy hi hq⟩
  | work t =>
      rw [hq] at hx
      cases hx
      have haid : (Pc.work t).aid t = some .working := if_pos rfl
      obtain ⟨-, r', ho⟩ := hi.of_aid hq (by rw [haid]; exact Option.some_ne_none _)
      rw [show s.shared.home t = some r' from ho.home]
      refine ⟨v, hi.idle (Prog.run_done ..) hq (fun u => hold_enq_of_not_own rfl) (fun u => ?_)
        ⟨Bool.noConfusion, fun _ => by decide⟩ hi.freed hi.fds fun _ _ => rfl⟩
      rfl
  | enq u g b =>
      rw [hq] at hok hx
      cases hb : b.own with
      | true => exact inv_enqueue_own hi hq hb hok hx
      | false => exact inv_enqueue_other hi hq hb hok hx

theorem inv_await (hi : Inv s v) (hq : s.place r = .user t) :
    Inv (after s r { s.shared with hired := Function.update s.shared.hired t true } (.done (.linked t))) v := by
  refine hi.own (x := t) (Prog.run_done ..) hq (fun _ => rfl) (fun _ => hold_of_ne) trivial hi.rings
    ⟨hi.freed, ⟨hi.fds.task, hi.fds.epoll, hi.fds.wheel⟩, fun u hu => ?_⟩ ?_
  · exact view_congr rfl rfl rfl rfl Iff.rfl (Function.update_of_ne hu _ _) fun _ => Iff.rfl
  · have hstep := Task.Step.awaited r (hi.of_hold (t := t) hq (if_pos rfl)).1
    rw [show (Pc.linked t).hold t = some .linked from if_pos rfl]
    convert hstep using 2
    ext1
    case hired => exact Function.update_self ..
    all_goals rfl

/-- The worker of a task begins. -/
theorem inv_hire (hi : Inv s v) (hq : s.place r = .boot) (ht : s.shared.hired t = true) :
    Inv (after s r { s.shared with hired := Function.update s.shared.hired t false } (.done (.work t))) v := by
  refine hi.other (x := t) (Prog.run_done ..) hq (fun _ => rfl) (fun u hu => if_neg hu.symm) trivial hi.rings
    ⟨hi.freed, ⟨hi.fds.task, hi.fds.epoll, hi.fds.wheel⟩, fun u hu => ?_⟩ ?_
  · exact view_congr rfl rfl rfl rfl Iff.rfl (Function.update_of_ne hu _ _) fun _ => Iff.rfl
  · have hstep := Task.Step.hired (k := s.shared.view v s.place t) r ht
    rw [show (Pc.work t).aid t = some .working from if_pos rfl]
    convert hstep using 2
    ext1
    case hired => exact Function.update_self ..
    all_goals rfl

/-- What a task does in its own code. -/
theorem inv_taskAct (hi : Inv s v) (hq : s.place r = .user t) {a : TaskAct}
    (hok : orderly s.shared s.place (.task r a)) (hx : s.shared.taskAct r t a = some (sh, o)) :
    ∃ v', Inv (after s r sh o) v' := by
  have hh : (s.shared.view v s.place t).hold r = some .runs := (hi.of_hold hq (if_pos rfl)).1
  cases a with
  | sleep w timed ps => exact inv_sleep hi hq hok hx
  | failPoll fd =>
      cases hx
      exact ⟨v, inv_failPoll hi hq hok⟩
  | wake w =>
      cases hx
      exact inv_wake (b := .user t) hi hq rfl Back.noConfusion w
  | expire fd =>
      simp only [Shared.taskAct, Option.ite_none_right_eq_some, Option.some.injEq, Prod.mk.injEq] at hx
      obtain ⟨hw, rfl, rfl⟩ := hx
      exact ⟨v, inv_expire hi hq hw⟩
  | await =>
      cases hx
      exact ⟨v, inv_await hi hq⟩
  | yield =>
      cases hx
      exact ⟨v, inv_goto hi hq (fun _ => rfl) (fun _ => hold_of_ne) trivial
        (if_pos rfl) (.switched r _ hh (.inl rfl))⟩
  | exit =>
      cases hx
      exact ⟨v, inv_status hi hq (fun _ => rfl) (fun _ => hold_of_ne) trivial
        (if_pos rfl) (.exited r hh)⟩
  | create =>
      cases hx
      exact ⟨v, inv_create (b := .user t) hi hq rfl Back.noConfusion⟩

theorem inv_start {a : Act R} (hi : Inv s v) (hok : orderly s.shared s.place a)
    (hx : start s.shared (s.place a.agent) a = some (sh, o)) : ∃ v', Inv (after s a.agent sh o) v' := by
  cases a with
  | create r =>
      simp only [start, Option.ite_none_right_eq_some, Option.some.injEq] at hx
      obtain ⟨hq, hx⟩ := hx
      obtain ⟨rfl, rfl⟩ := Prod.mk.inj hx
      exact ⟨v, inv_create (b := .boot) hi hq rfl Back.noConfusion⟩
  | schedule r =>
      simp only [start, Option.ite_none_right_eq_some, Option.some.injEq, Prod.mk.injEq] at hx
      obtain ⟨hq, rfl, rfl⟩ := hx
      exact ⟨v, hi.idle (Prog.run_done ..) hq (fun _ => rfl) (fun _ => rfl) trivial hi.freed hi.fds
        fun _ _ => rfl⟩
  | hire r t =>
      simp only [start, Option.ite_none_right_eq_some, Option.some.injEq, Prod.mk.injEq] at hx
      obtain ⟨⟨hq, ht⟩, rfl, rfl⟩ := hx
      exact ⟨v, inv_hire hi hq ht⟩
  | next r => exact inv_next hi hok hx
  | picknext r =>
      simp only [start, Option.ite_none_right_eq_some, Option.some.injEq, Prod.mk.injEq] at hx
      obtain ⟨hq, rfl, rfl⟩ := hx
      exact ⟨v, inv_picknext hi hq⟩
  | event r fd =>
      simp only [start, Option.ite_none_right_eq_some, Option.some.injEq, Prod.mk.injEq] at hx
      obtain ⟨⟨hq, he⟩, rfl, rfl⟩ := hx
      exact ⟨v, inv_event hi hq he⟩
  | task r a =>
      simp only [start] at hx
      split at hx
      · next t hq => exact inv_taskAct hi hq hok hx
      · next t w hq =>
          cases hx
          exact inv_wake (b := .linked t) hi hq rfl Back.noConfusion w
      · cases hx

theorem inv_init : Inv (⟨(threads R).shared₀, (threads R).mem₀, (threads R).place₀⟩ : Coarse R)
    fun _ => [] where
  rings := Rings.init
  freed := nofun
  fds := ⟨nofun, nofun, nofun⟩
  sane _ := trivial
  good _ := .dead rfl rfl
    ⟨⟨Set.eq_empty_of_forall_notMem fun _ => List.not_mem_nil, rfl, fun _ => rfl⟩, fun h => h rfl,
      fun ⟨_, hfd, _⟩ => List.not_mem_nil hfd⟩

/-- Between operations. -/
theorem inv_of_reach (h : (threads R).coarse.ReachVia (fun s a => orderly s.shared s.place a) s) :
    ∃ v, Inv s v := by
  refine h.invariant (I := fun s => ∃ v, Inv s v) (fun _ h0 => h0 ▸ ⟨_, inv_init⟩) ?_
  rintro s a s' ⟨v, hi⟩ hok hs
  obtain ⟨sh, o, hx, rfl⟩ := Agents.exists_of_coarseStep hs
  exact inv_start hi hok hx

end Libcask.Threads
