import Libcask.TaskLife

/-! # What an operation of a thread changes

Between operations, what the threads share about a task is a `Task` (`Shared.view`).  Every operation of a thread
is one entry of the table of `TaskLife` for one task, which the thread has in hand (`Inv.own`) or puts on the run
queue of another thread (`Inv.other`), or it changes no task (`Inv.idle`).  Beside the tasks the invariant `Inv` is
about the descriptors (`Fds`): a descriptor in an epoll set or on a wheel is one for which a task waits, which is
`ifd->task`, and the set and the wheel are those of its thread. -/

namespace Libcask.Threads

variable {R : Type}

/-- One of the descriptors of the task is in an epoll set or on a wheel. -/
def Shared.Registered (s : Shared R) (t : Tid) : Prop :=
  ∃ fd ∈ (s.watch t).fds, (∃ r, s.epoll r fd = true) ∨ s.wheel fd ≠ none

def Shared.view (s : Shared R) (v : View (Head R) Tid) (place : R → Pc) (t : Tid) : Task R where
  alive := s.alive t
  status := s.status t
  home := s.home t
  polls := (s.watch t).fds ≠ []
  events := s.Registered t
  hired := s.hired t
  lists := {h | t ∈ v h}
  hold r := (place r).hold t
  aid r := (place r).aid t

/-- `ifd->task` is the task that waits for the descriptor, and its thread has it in the epoll set and on the wheel,
on the wheel only if the call is not timed. -/
structure Fds (s : Shared R) : Prop where
  task : ∀ {t fd}, fd ∈ (s.watch t).fds → s.task fd = some t
  epoll : ∀ {r fd}, s.epoll r fd = true → ∃ t, fd ∈ (s.watch t).fds ∧ s.home t = some r
  wheel : ∀ {r fd}, s.wheel fd = some r →
    ∃ t, fd ∈ (s.watch t).fds ∧ s.home t = some r ∧ (s.watch t).timed = false

/-- The timeout task does not resume itself, and a worker does not set the status. -/
def Pc.Sane : Pc → Prop
  | .wild => False
  | .enq u g b => (b.own = true → b.hold u = none) ∧ (b = .worker → g ≠ .status)
  | _ => True

variable [DecidableEq R]

structure Inv (s : Coarse R) (v : View (Head R) Tid) : Prop where
  rings : Rings (linksOf s.mem) v
  freed : ∀ t, s.shared.freed t = true → t < s.shared.created
  fds : Fds s.shared
  sane : ∀ r, (s.place r).Sane
  good : ∀ t, (s.shared.view v s.place t).Good

variable {s : Coarse R} {sh : Shared R} {m : Field × Node (Head R) Tid → Node (Head R) Tid}
  {v v' : View (Head R) Tid} {r : R} {t u x : Tid} {p q : Pc} {place : R → Pc} {o : Op R} {fd : ℕ}

/-! ### What an operation changes -/

/-- The shared data changes for one task only. -/
structure Change (s sh : Shared R) (v v' : View (Head R) Tid) (x : Tid) : Prop where
  freed : ∀ t, sh.freed t = true → t < sh.created
  fds : Fds sh
  others : ∀ t, t ≠ x → ∀ place, sh.view v' place t = s.view v place t

theorem view_goto (sh : Shared R) (v : View (Head R) Tid) (place : R → Pc) (r : R) (p : Pc) (t : Tid) :
    sh.view v (Function.update place r p) t =
      ((sh.view v place t).holdBy r (p.hold t)).aidBy r (p.aid t) := by
  ext1
  case hold => exact Function.comp_update (Pc.hold t) place r p
  case aid => exact Function.comp_update (Pc.aid t) place r p
  all_goals rfl

/-- A thread that does the same for the task as before. -/
theorem view_hold (ha : p.aid t = (place r).aid t) :
    sh.view v (Function.update place r p) t = (sh.view v place t).holdBy r (p.hold t) := by
  rw [view_goto, ha]
  ext1
  case aid => exact Function.update_eq_self r _
  all_goals rfl

/-- A thread that does the same with the task as before. -/
theorem view_aid (hh : p.hold t = (place r).hold t) :
    sh.view v (Function.update place r p) t = (sh.view v place t).aidBy r (p.aid t) := by
  rw [view_goto, hh]
  ext1
  case hold => exact Function.update_eq_self r _
  all_goals rfl

theorem view_same (hh : p.hold t = (place r).hold t) (ha : p.aid t = (place r).aid t) :
    sh.view v (Function.update place r p) t = sh.view v place t := by
  rw [view_hold ha, hh]
  ext1
  case hold => exact Function.update_eq_self r _
  all_goals rfl

theorem sane_goto (hs : ∀ r, (place r).Sane) (hp : p.Sane) (r r' : R) : (Function.update place r p r').Sane := by
  by_cases hr : r' = r
  · rwa [hr, Function.update_self]
  · rw [Function.update_of_ne hr]
    exact hs r'

/-- Where a thread comes to with an operation. -/
def after (s : Coarse R) (r : R) (sh : Shared R) (o : Op R) : Coarse R :=
  ⟨sh, (o.run s.mem).2, Function.update s.place r (o.run s.mem).1⟩

theorem after_eq (hrun : o.run s.mem = (p, m)) : after s r sh o = ⟨sh, m, Function.update s.place r p⟩ := by
  rw [after, hrun]

/-- An operation of a thread on a task that it has in hand, or takes in hand, or lets go. -/
theorem Inv.own (hi : Inv s v) (hrun : o.run s.mem = (p, m)) (hq : s.place r = q) (ha : ∀ t, p.aid t = q.aid t)
    (hh : ∀ t, t ≠ x → p.hold t = q.hold t) (hp : p.Sane) (hR : Rings (linksOf m) v')
    (hc : Change s.shared sh v v' x)
    (hx : (s.shared.view v s.place x).Step ((sh.view v' s.place x).holdBy r (p.hold x))) :
    Inv (after s r sh o) v' := by
  subst hq
  rw [after_eq hrun]
  refine ⟨hR, hc.freed, hc.fds, sane_goto hi.sane hp r, fun t => ?_⟩
  by_cases ht : t = x
  · subst ht
    rw [← view_hold (ha t)] at hx
    exact (hi.good t).step hx
  · show (sh.view v' (Function.update s.place r p) t).Good
    rw [view_same (hh t ht) (ha t), hc.others t ht]
    exact hi.good t

/-- An operation of a thread on a task of any thread. -/
theorem Inv.other (hi : Inv s v) (hrun : o.run s.mem = (p, m)) (hq : s.place r = q) (hh : ∀ t, p.hold t = q.hold t)
    (ha : ∀ t, t ≠ x → p.aid t = q.aid t) (hp : p.Sane) (hR : Rings (linksOf m) v')
    (hc : Change s.shared sh v v' x)
    (hx : (s.shared.view v s.place x).Step ((sh.view v' s.place x).aidBy r (p.aid x))) :
    Inv (after s r sh o) v' := by
  subst hq
  rw [after_eq hrun]
  refine ⟨hR, hc.freed, hc.fds, sane_goto hi.sane hp r, fun t => ?_⟩
  by_cases ht : t = x
  · subst ht
    rw [← view_aid (hh t)] at hx
    exact (hi.good t).step hx
  · show (sh.view v' (Function.update s.place r p) t).Good
    rw [view_same (hh t) (ha t ht), hc.others t ht]
    exact hi.good t

/-- An operation that changes nothing about any task. -/
theorem Inv.idle (hi : Inv s v) (hrun : o.run s.mem = (p, s.mem)) (hq : s.place r = q) (hh : ∀ t, p.hold t = q.hold t)
    (ha : ∀ t, p.aid t = q.aid t) (hp : p.Sane) (hfreed : ∀ t, sh.freed t = true → t < sh.created)
    (hfds : Fds sh) (hview : ∀ t place, sh.view v place t = s.shared.view v place t) :
    Inv (after s r sh o) v := by
  subst hq
  rw [after_eq hrun]
  refine ⟨hi.rings, hfreed, hfds, sane_goto hi.sane hp r, fun t => ?_⟩
  show (sh.view v (Function.update s.place r p) t).Good
  rw [view_same (hh t) (ha t), hview t]
  exact hi.good t

omit [DecidableEq R] in
theorem view_congr {s : Shared R} (ha : sh.alive t = s.alive t) (hs : sh.status t = s.status t)
    (hh : sh.home t = s.home t) (hw : sh.watch t = s.watch t) (he : sh.Registered t ↔ s.Registered t)
    (hi : sh.hired t = s.hired t) (hv : ∀ h, t ∈ v' h ↔ t ∈ v h) (place : R → Pc) :
    sh.view v' place t = s.view v place t := by
  ext1
  case polls => exact congrArg (fun w => w.fds ≠ []) hw
  case events => exact propext he
  case lists => exact Set.ext hv
  all_goals first | assumption | rfl

theorem Inv.change_refl (hi : Inv s v) (x : Tid) : Change s.shared s.shared v v x :=
  ⟨hi.freed, hi.fds, fun _ _ _ => rfl⟩

/-- Other tasks than `x` are on the same lists. -/
theorem Inv.change_lists (hi : Inv s v) (h : ∀ t, t ≠ x → ∀ l, t ∈ v' l ↔ t ∈ v l) :
    Change s.shared s.shared v v' x :=
  ⟨hi.freed, hi.fds, fun t ht => view_congr rfl rfl rfl rfl Iff.rfl rfl (h t ht)⟩

theorem Inv.change_status (hi : Inv s v) (x : Tid) (st : Status) :
    Change s.shared (s.shared.setStatus x st) v v x :=
  ⟨hi.freed, ⟨hi.fds.task, hi.fds.epoll, hi.fds.wheel⟩, fun _ ht =>
    view_congr rfl (Function.update_of_ne ht _ _) rfl rfl Iff.rfl rfl fun _ => Iff.rfl⟩

omit [DecidableEq R] in
theorem view_setStatus (st : Status) :
    (sh.setStatus x st).view v place x = { sh.view v place x with status := st } := by
  ext1
  case status => exact Function.update_self x st sh.status
  all_goals rfl

theorem Inv.change_delete (hi : Inv s v) (x : Tid) : Change s.shared s.shared v (v.delete x) x :=
  hi.change_lists fun _ ht _ => (View.mem_delete hi.rings.ok).trans (and_iff_right ht)

omit [DecidableEq R] in
theorem view_delete (hv : v.Ok) : sh.view (v.delete x) place x = { sh.view v place x with lists := ∅ } := by
  ext1
  case lists => exact Set.eq_empty_of_forall_notMem (View.free_delete hv x)
  all_goals rfl

theorem Inv.change_addAfter (hi : Inv s v) (l : Head R) (x : Tid) :
    Change s.shared s.shared v (v.addAfter l x) x :=
  hi.change_lists fun t ht l' => by
    rw [View.mem_addAfter]
    simp [ht]

theorem view_addAfter {l : Head R} (hx : v.Free x) :
    sh.view (v.addAfter l x) place x = { sh.view v place x with lists := {l} } := by
  ext1
  case lists =>
    ext l'
    show x ∈ v.addAfter l x l' ↔ l' ∈ ({l} : Set (Head R))
    rw [View.mem_addAfter]
    simp [hx l']
  all_goals rfl

omit [DecidableEq R] in
theorem free_of_lists (h : (sh.view v place t).lists = ∅) : v.Free t := fun l hm => by
  have : l ∈ (sh.view v place t).lists := hm
  rw [h] at this
  exact this

/-! ### The places of a thread -/

/-- Two places of a thread with the task `t` in hand are the same for other tasks. -/
theorem hold_of_ne {g g' : Option Hold} (h : u ≠ t) : (if t = u then g else none) = if t = u then g' else none := by
  rw [if_neg h.symm, if_neg h.symm]

theorem hold_enq_of_ne {g : Stage} {b : Back} (h : t ≠ u) : (Pc.enq u g b).hold t = b.hold t := by
  simp [Pc.hold, h.symm]

theorem hold_enq_of_not_own {g : Stage} {b : Back} (h : b.own = false) : (Pc.enq u g b).hold t = b.hold t := by
  simp [Pc.hold, h]

theorem hold_enq {g : Stage} {b : Back} (h : b.own = true) (hn : b.hold u = none) :
    (Pc.enq u g b).hold u = g.hold := by
  simp [Pc.hold, h, hn]

theorem aid_enq_of_ne {g : Stage} {b : Back} (h : t ≠ u) : (Pc.enq u g b).aid t = none := if_neg h.symm

theorem aid_enq {g : Stage} {b : Back} : (Pc.enq u g b).aid u = g.aid b := if_pos rfl

theorem aid_enq_of_own {g : Stage} {b : Back} (h : b.own = true) : (Pc.enq u g b).aid t = none := by
  have hb : b.aid = none := by cases b <;> first | rfl | cases h
  by_cases ht : t = u
  · subst ht
    rw [aid_enq]
    cases g <;> simp [Stage.aid, hb, h]
  · exact aid_enq_of_ne ht

theorem aid_ne_none {b : Back} (h : b.own = false) : b.aid ≠ none := by
  cases b <;> simp [Back.own, Back.aid] at h ⊢

theorem aid_eq_waking {b : Back} (h : b.own = false) (hw : b ≠ .worker) : b.aid = some .waking := by
  cases b <;> simp [Back.own, Back.aid] at h hw ⊢

theorem hold_back (b : Back) : b.pc.hold t = b.hold t := by cases b <;> rfl

theorem aid_back (b : Back) : b.pc.aid t = none := by cases b <;> rfl

theorem sane_back (b : Back) : b.pc.Sane := by cases b <;> trivial

/-- Between `list_delete` and `list_add_after`. -/
theorem between_of_aid (h : p.aid t = some .linking) : p.between t = true := by
  cases p with
  | enq u g b =>
      by_cases hu : u = t
      · subst hu
        rw [aid_enq] at h
        cases g with
        | status | unlink => cases b <;> cases h
        | unlock => cases h
        | lock | link => exact decide_eq_true rfl
      · rw [aid_enq_of_ne (Ne.symm hu)] at h
        cases h
  | work u =>
      by_cases hu : u = t <;> simp [Pc.aid, hu] at h
  | _ => cases h

theorem between_of_hold (h : p.hold t = some .relink) : p.between t = true := by
  cases p with
  | enq u g b =>
      rcases Option.or_eq_some_iff.mp h with hb | ⟨-, hg⟩
      · cases b <;> simp [Back.hold] at hb
      · split at hg
        · next hu =>
            cases g with
            | lock | link => exact decide_eq_true hu.1
            | status | unlink | unlock => cases hg
        · cases hg
  | boot | pick | work u | wild => cases h
  | _ =>
      simp only [Pc.hold] at h
      split at h <;> cases h

/-! ### The descriptors -/

omit [DecidableEq R] in
theorem registered_congr {s : Shared R} (hw : sh.watch t = s.watch t)
    (he : ∀ fd ∈ (s.watch t).fds, (∀ r, sh.epoll r fd = s.epoll r fd) ∧ sh.wheel fd = s.wheel fd) :
    sh.Registered t ↔ s.Registered t := by
  unfold Shared.Registered
  rw [hw]
  refine exists_congr fun fd => and_congr_right fun hfd => ?_
  rw [(he fd hfd).2, exists_congr fun r => by rw [(he fd hfd).1 r]]

omit [DecidableEq R] in
theorem registered_mono {s : Shared R} (hw : sh.watch t = s.watch t)
    (he : ∀ r fd, sh.epoll r fd = true → s.epoll r fd = true)
    (hwh : ∀ r fd, sh.wheel fd = some r → s.wheel fd = some r) (h : sh.Registered t) : s.Registered t := by
  obtain ⟨fd, hfd, ⟨r, hr⟩ | hn⟩ := h
  · exact ⟨fd, hw ▸ hfd, .inl ⟨r, he r fd hr⟩⟩
  · obtain ⟨r, hr⟩ := Option.ne_none_iff_exists'.mp hn
    exact ⟨fd, hw ▸ hfd, .inr (by rw [hwh r fd hr]; nofun)⟩

omit [DecidableEq R] in
/-- Descriptors are taken out of the epoll set or off the wheel. -/
theorem Fds.mono {s : Shared R} (hf : Fds s) (ht : sh.task = s.task) (hw : sh.watch = s.watch)
    (hh : sh.home = s.home) (he : ∀ r fd, sh.epoll r fd = true → s.epoll r fd = true)
    (hwh : ∀ r fd, sh.wheel fd = some r → s.wheel fd = some r) : Fds sh where
  task := ht ▸ hw ▸ hf.task
  epoll h := hw ▸ hh ▸ hf.epoll (he _ _ h)
  wheel h := hw ▸ hh ▸ hf.wheel (hwh _ _ h)

theorem deleteEvents_epoll {s : Shared R} {r r' : R} {fd fd' : ℕ} :
    (s.deleteEvents r fd).epoll r' fd' = true ↔ s.epoll r' fd' = true ∧ ¬(r' = r ∧ fd' = fd) := by
  unfold Shared.deleteEvents
  by_cases hr : r' = r
  · subst hr
    by_cases hfd : fd' = fd
    · subst hfd
      simp
    · simp [hfd]
  · simp [hr]

theorem deleteEvents_of_ne {s : Shared R} {r r' : R} {fd fd' : ℕ} (h : fd' ≠ fd) :
    (s.deleteEvents r fd).epoll r' fd' = s.epoll r' fd' :=
  Bool.eq_iff_iff.mpr (deleteEvents_epoll.trans (and_iff_left fun hc => h hc.2))

/-- The descriptor of a task is taken out of the epoll set or off the wheel. -/
theorem Inv.change_reported (hi : Inv s v) {e : R → ℕ → Bool} {w : ℕ → Option R}
    (he : ∀ r fd, e r fd = true → s.shared.epoll r fd = true)
    (hw : ∀ r fd, w fd = some r → s.shared.wheel fd = some r)
    (hne : ∀ fd', fd' ≠ fd → (∀ r, e r fd' = s.shared.epoll r fd') ∧ w fd' = s.shared.wheel fd')
    (hu : fd ∈ (s.shared.watch u).fds) :
    Change s.shared { s.shared with epoll := e, wheel := w } v v u where
  freed := hi.freed
  fds := hi.fds.mono rfl rfl rfl he hw
  others t ht := by
    refine view_congr rfl rfl rfl rfl (registered_congr rfl fun fd' hfd' => hne fd' fun hc => ht ?_) rfl
      fun _ => Iff.rfl
    exact Option.some.inj ((hi.fds.task hfd').symm.trans (hc ▸ hi.fds.task hu))

theorem Inv.unwatched (hi : Inv s v) (h : s.shared.Unwatched fd) (u : Tid) : fd ∉ (s.shared.watch u).fds := by
  by_cases hu : u < s.shared.created
  · exact h u hu
  · have hdead : (s.shared.view v s.place u).alive = false := by simp [Shared.view, Shared.alive, hu]
    have hnil : (s.shared.watch u).fds = [] := not_not.mp ((hi.good u).quiet hdead).unpolled
    rw [hnil]
    exact List.not_mem_nil

section register
variable {s : Shared R} {timed : Bool} {ps : List Poll}

theorem register_epoll {r' : R} : (s.register r t timed ps).epoll r' fd = true ↔
    s.epoll r' fd = true ∨ r' = r ∧ ∃ q ∈ ps, q.fd = fd ∧ q.added = true := by
  simp [Shared.register]

theorem register_wheel : (s.register r t timed ps).wheel fd =
    if timed = false ∧ ∃ q ∈ ps, q.fd = fd ∧ q.link = true then some r else s.wheel fd := by
  simp [Shared.register]

theorem Fds.register (hf : Fds s) (hh : s.home t = some r) (ht : (s.watch t).fds = [])
    (hps : ∀ q ∈ ps, ∀ u, q.fd ∉ (s.watch u).fds) : Fds (s.register r t timed ps) := by
  have hself : ((s.register r t timed ps).watch t) = ⟨timed, ps.map Poll.fd⟩ := Function.update_self ..
  -- the tasks that waited before
  have hold : ∀ u fd, fd ∈ (s.watch u).fds → u ≠ t ∧ fd ∉ ps.map Poll.fd := by
    refine fun u fd hfd => ⟨fun hu => ?_, fun hm => ?_⟩
    · rw [hu, ht] at hfd
      cases hfd
    · obtain ⟨q, hq, rfl⟩ := List.mem_map.mp hm
      exact hps q hq u hfd
  have hwatch : ∀ u, u ≠ t → (s.register r t timed ps).watch u = s.watch u := fun u hu =>
    Function.update_of_ne hu _ _
  refine ⟨fun {u fd} hfd => ?_, fun {r' fd} h => ?_, fun {r' fd} h => ?_⟩
  · by_cases hu : u = t
    · subst hu
      rw [hself] at hfd
      exact if_pos hfd
    · rw [hwatch u hu] at hfd
      exact (if_neg (hold u fd hfd).2).trans (hf.task hfd)
  · rcases register_epoll.mp h with h | ⟨rfl, q, hq, rfl, -⟩
    · obtain ⟨u, hu, hr⟩ := hf.epoll h
      exact ⟨u, (hwatch u (hold u fd hu).1).symm ▸ hu, hr⟩
    · exact ⟨t, hself.symm ▸ List.mem_map_of_mem hq, hh⟩
  · rw [register_wheel] at h
    split at h
    · next hc =>
        obtain ⟨htimed, q, hq, rfl, -⟩ := hc
        exact ⟨t, hself.symm ▸ List.mem_map_of_mem hq, hh.trans h, hself.symm ▸ htimed⟩
    · obtain ⟨u, hu, hr, hn⟩ := hf.wheel h
      have hw := hwatch u (hold u fd hu).1
      exact ⟨u, hw.symm ▸ hu, hr, hw.symm ▸ hn⟩

/-- The task waits for something. -/
theorem registered_register {q : Poll} (hq : q ∈ ps) (h : q.added = true ∨ timed = false ∧ q.link = true) :
    (s.register r t timed ps).Registered t := by
  refine ⟨q.fd, ?_, h.imp (fun ha => ⟨r, register_epoll.mpr (.inr ⟨rfl, q, hq, rfl, ha⟩)⟩) fun hl => ?_⟩
  · rw [show (s.register r t timed ps).watch t = ⟨timed, ps.map Poll.fd⟩ from Function.update_self ..]
    exact List.mem_map_of_mem hq
  · rw [register_wheel, if_pos ⟨hl.1, q, hq, rfl, hl.2⟩]
    nofun

theorem registered_register_of_ne (hu : u ≠ t) (hps : ∀ q ∈ ps, q.fd ∉ (s.watch u).fds) :
    (s.register r t timed ps).Registered u ↔ s.Registered u := by
  refine registered_congr (Function.update_of_ne hu _ _) fun fd hfd => ⟨fun r' => ?_, ?_⟩
  · refine Bool.eq_iff_iff.mpr (register_epoll.trans (or_iff_left ?_))
    rintro ⟨-, q, hq, rfl, -⟩
    exact hps q hq hfd
  · rw [register_wheel, if_neg]
    rintro ⟨-, q, hq, rfl, -⟩
    exact hps q hq hfd

end register

section goOn
variable {s : Shared R}

theorem goOn_epoll {r' : R} : (s.goOn r t).epoll r' fd = true ↔
    s.epoll r' fd = true ∧ ¬(r' = r ∧ fd ∈ (s.watch t).fds) := by
  simp only [Shared.goOn, Bool.and_eq_true, Bool.not_eq_true', Bool.and_eq_false_iff, decide_eq_false_iff_not,
    not_and_or]

theorem goOn_wheel : (s.goOn r t).wheel fd =
    if (s.watch t).timed = false ∧ fd ∈ (s.watch t).fds then none else s.wheel fd := by
  simp [Shared.goOn]

theorem Fds.goOn (hf : Fds s) (hh : s.home t = some r) : Fds (s.goOn r t) := by
  have hself : (s.goOn r t).watch t = ⟨false, []⟩ := Function.update_self ..
  have hwatch : ∀ u, u ≠ t → (s.goOn r t).watch u = s.watch u := fun u hu => Function.update_of_ne hu _ _
  refine ⟨fun {u fd} hfd => ?_, fun {r' fd} h => ?_, fun {r' fd} h => ?_⟩
  · by_cases hu : u = t
    · rw [hu, hself] at hfd
      cases hfd
    · exact hf.task (hwatch u hu ▸ hfd)
  · obtain ⟨he, hn⟩ := goOn_epoll.mp h
    obtain ⟨u, hu, hr⟩ := hf.epoll he
    have hut : u ≠ t := by
      rintro rfl
      exact hn ⟨Option.some.inj (hr.symm.trans hh), hu⟩
    exact ⟨u, (hwatch u hut).symm ▸ hu, hr⟩
  · rw [goOn_wheel] at h
    split at h
    · cases h
    · next hn =>
        obtain ⟨u, hu, hr, htimed⟩ := hf.wheel h
        have hut : u ≠ t := by
          rintro rfl
          exact hn ⟨htimed, hu⟩
        exact ⟨u, (hwatch u hut).symm ▸ hu, hr, (hwatch u hut).symm ▸ htimed⟩

theorem registered_goOn_of_ne (hf : Fds s) (hu : u ≠ t) : (s.goOn r t).Registered u ↔ s.Registered u := by
  refine registered_congr (Function.update_of_ne hu _ _) fun fd hfd => ?_
  -- no other task waits for the descriptor
  have hn : fd ∉ (s.watch t).fds := fun hc => hu (Option.some.inj ((hf.task hfd).symm.trans (hf.task hc)))
  refine ⟨fun r' => Bool.eq_iff_iff.mpr (goOn_epoll.trans (and_iff_left fun hc => hn hc.2)), ?_⟩
  rw [goOn_wheel, if_neg fun hc => hn hc.2]

end goOn

end Libcask.Threads
