import Libcask.SchedFds
import Libcask.SchedQueues

/-! # What the calls of a task do

`Moves s v t T put s'` says what a call of the running task `t` does: it changes no descriptors but
those in `T` (`Io.Upd`), and it puts the task `put` on the run queue, or none (`Queues.Puts`).  There is
one lemma for each call. -/

namespace Libcask.Sched

/-! ### Descriptors -/

/-- The link of the wheel's own timer is not on the wheel, and a socket that is not open has no
record. -/
structure Io.Apart (io : Io) : Prop where
  free : ∃ w, Rings io.wheel w ∧ w.Free .wheelTimer
  never : ∀ r, io.ifd .wheelTimer = some r → r.timeout < 0
  socks : ∀ n, io.socks ≤ n → io.ifd (.sock n) = none

/-- What a task `t` does to the descriptors: it changes those in `T` only, and every descriptor names
the task it named, or `t`. -/
structure Io.Upd (t : Tid) (T : Fd → Prop) (io io' : Io) : Prop where
  frame : ∀ fd, ¬T fd → io'.ifd fd = io.ifd fd ∧ io'.epoll fd = io.epoll fd
  task : ∀ fd u, io'.taskOf fd = some u → io.taskOf fd = some u ∨ T fd ∧ u = t
  apart : io.Apart → io'.Apart
  timers : io.timers ≤ io'.timers

theorem Io.setInner_self (io : Io) (fd : Fd) (r : InnerFd) : (io.setInner fd r).ifd fd = some r :=
  Function.update_self ..

theorem Io.setInner_of_ne (io : Io) {fd fd' : Fd} (r : InnerFd) (h : fd' ≠ fd) :
    (io.setInner fd r).ifd fd' = io.ifd fd' := Function.update_of_ne h _ _

theorem Io.addEvents_ifd (io : Io) (fd : Fd) (events : Events) (ok : Bool) :
    (io.addEvents fd events ok).ifd = io.ifd := by
  unfold Io.addEvents
  split_ifs <;> rfl

theorem Io.eventPollReturn_ifd {io io' : Io} {fd : Fd} {r : PollResult}
    (e : io.eventPollReturn fd = some (io', r)) : io'.ifd = io.ifd := by
  unfold Io.eventPollReturn at e
  cases hr : io.ifd fd with
  | none => simp [hr] at e
  | some r =>
      rw [hr] at e
      obtain ⟨rfl, -⟩ := Prod.mk.inj (Option.some.inj e)
      rfl

namespace Io.Upd

variable {io io' io'' : Io} {t : Tid} {T U : Fd → Prop} {fd : Fd}

theorem refl (io : Io) (t : Tid) (T : Fd → Prop) : Upd t T io io :=
  ⟨fun _ _ => ⟨rfl, rfl⟩, fun _ _ h => .inl h, id, le_rfl⟩

theorem trans (h1 : Upd t T io io') (h2 : Upd t T io' io'') : Upd t T io io'' := by
  refine ⟨fun fd hfd => ?_, fun fd u hu => ?_, fun ha => h2.apart (h1.apart ha),
    h1.timers.trans h2.timers⟩
  · obtain ⟨h3, h4⟩ := h1.frame fd hfd
    obtain ⟨h5, h6⟩ := h2.frame fd hfd
    exact ⟨h5.trans h3, h6.trans h4⟩
  · rcases h2.task fd u hu with hu | hu
    · exact h1.task fd u hu
    · exact .inr hu

theorem mono (h : Upd t T io io') (hTU : ∀ fd, T fd → U fd) : Upd t U io io' :=
  ⟨fun fd hfd => h.frame fd fun hT => hfd (hTU fd hT),
    fun fd u hu => (h.task fd u hu).imp_right fun hu => ⟨hTU fd hu.1, hu.2⟩, h.apart, h.timers⟩

/-- An operation that leaves the records alone. -/
theorem of_ifd (hifd : io'.ifd = io.ifd) (hepoll : ∀ fd, ¬T fd → io'.epoll fd = io.epoll fd)
    (hwheel : io.Apart → ∃ w, Rings io'.wheel w ∧ w.Free .wheelTimer)
    (hsocks : io'.socks = io.socks) (htimers : io'.timers = io.timers) : Upd t T io io' := by
  refine ⟨fun fd hfd => ⟨by rw [hifd], hepoll fd hfd⟩, fun fd u hu => .inl ?_,
    fun ha => ⟨hwheel ha, fun r hr => ?_, fun n hn => ?_⟩, htimers.ge⟩
  · rwa [Io.taskOf, hifd] at hu
  · rw [hifd] at hr
    exact ha.never r hr
  · rw [hifd]
    exact ha.socks n (hsocks ▸ hn)

theorem addEvents (io : Io) (fd : Fd) (events : Events) (ok : Bool) :
    Upd t (· = fd) io (io.addEvents fd events ok) := by
  unfold Io.addEvents
  split_ifs
  · exact of_ifd rfl (fun fd' hfd => Function.update_of_ne hfd _ _) (fun ha => ha.free) rfl rfl
  · exact refl ..

theorem deleteEvents (io : Io) (fd : Fd) : Upd t (· = fd) io (io.deleteEvents fd) :=
  of_ifd rfl (fun _ hfd => Function.update_of_ne hfd _ _) (fun ha => ha.free) rfl rfl

theorem wheelDeleteElement (io : Io) (fd : Fd) : Upd t T io (io.wheelDeleteElement fd) := by
  refine of_ifd rfl (fun _ _ => rfl) (fun ha => ?_) rfl rfl
  obtain ⟨w, hR, hw⟩ := ha.free
  exact ⟨_, rings_delete hR fd, Fds.free_delete_of_free hR.ok hw⟩

theorem wheelRotate (io : Io) : Upd t T io io.wheelRotate :=
  of_ifd rfl (fun _ _ => rfl) (fun ha => ha.free) rfl rfl

/-- The timer of the wheel has no timeout, so it is not linked. -/
theorem wheelUpdateElement (io : Io) {r : InnerFd} (hr : io.ifd fd = some r) :
    Upd t T io (io.wheelUpdateElement fd r.timeout) := by
  unfold Io.wheelUpdateElement
  split_ifs with hneg
  · exact refl ..
  · refine of_ifd rfl (fun _ _ => rfl) (fun ha => ?_) rfl rfl
    obtain ⟨w, hR, hw⟩ := ha.free
    refine ⟨_, rings_addAfter (rings_delete hR fd) (View.free_delete hR.ok fd), fun i hm => ?_⟩
    rcases View.mem_addAfter.mp hm with ⟨rfl, -⟩ | hm
    · exact hneg (ha.never r hr)
    · exact hw i ((View.mem_delete hR.ok).mp hm).2

/-- A record is written. -/
theorem setInner (io : Io) {r : InnerFd} (r' : InnerFd) (hr : io.ifd fd = some r)
    (htask : r'.task = r.task ∨ r'.task = some t)
    (htime : r'.timeout = r.timeout ∨ r'.timeout < 0) :
    Upd t (· = fd) io (io.setInner fd r') := by
  refine ⟨fun fd' hfd => ⟨Function.update_of_ne hfd _ _, rfl⟩, fun fd' u hu => ?_,
    fun ha => ⟨ha.free, fun r₁ hr₁ => ?_, fun n hn => ?_⟩, le_rfl⟩
  · by_cases hc : fd' = fd
    · subst hc
      rw [Io.taskOf_setInner] at hu
      rcases htask with h | h
      · exact .inl (by rw [Fds.taskOf_eq hr, ← h, hu])
      · exact .inr ⟨rfl, (Option.some.inj (h.symm.trans hu)).symm⟩
    · exact .inl (by rwa [Io.taskOf, io.setInner_of_ne r' hc] at hu)
  · by_cases hc : fd = .wheelTimer
    · subst hc
      obtain rfl := Option.some.inj ((io.setInner_self _ r').symm.trans hr₁)
      rcases htime with h | h
      · rw [h]
        exact ha.never r hr
      · exact h
    · exact ha.never r₁ (by rwa [io.setInner_of_ne r' (Ne.symm hc)] at hr₁)
  · have hc : Fd.sock n ≠ fd := by
      rintro rfl
      cases (ha.socks n hn).symm.trans hr
    rw [io.setInner_of_ne r' hc]
    exact ha.socks n hn

/-- A record is made, for a descriptor that is not the timer of the wheel and names no task yet. -/
theorem newRecord {r : InnerFd} (hfd : fd ≠ .wheelTimer) (hr : r.task = none)
    (hifd : io'.ifd = Function.update io.ifd fd (some r)) (hepoll : io'.epoll = io.epoll)
    (hwheel : io'.wheel = io.wheel) (hsocks : ∀ n, io'.socks ≤ n → io.socks ≤ n ∧ fd ≠ .sock n)
    (htimers : io.timers ≤ io'.timers) : Upd t (· = fd) io io' := by
  refine ⟨fun fd' hc => ?_, fun fd' u hu => .inl ?_,
    fun ha => ⟨?_, fun r₁ hr₁ => ?_, fun n hn => ?_⟩, htimers⟩
  · rw [hifd, Function.update_of_ne hc, hepoll]
    exact ⟨rfl, rfl⟩
  · rw [Io.taskOf, hifd] at hu
    by_cases hc : fd' = fd
    · subst hc
      rw [Function.update_self] at hu
      cases hr.symm.trans hu
    · rwa [Function.update_of_ne hc] at hu
  · rw [hwheel]
    exact ha.free
  · rw [hifd, Function.update_of_ne hfd.symm] at hr₁
    exact ha.never r₁ hr₁
  · obtain ⟨h1, h2⟩ := hsocks n hn
    rw [hifd, Function.update_of_ne h2.symm]
    exact ha.socks n h1

theorem openTimer (io : Io) : Upd t (· = .timer io.timers) io io.openTimer.1 :=
  newRecord (by simp) rfl rfl rfl rfl (fun _ hn => ⟨hn, by simp⟩) (Nat.le_succ _)

theorem close (io : Io) (fd : Fd) : Upd t (· = fd) io (io.close fd) := by
  refine ⟨fun fd' hfd => ⟨Function.update_of_ne hfd _ _, Function.update_of_ne hfd _ _⟩,
    fun fd' u hu => .inl ?_, fun ha => ⟨((wheelDeleteElement (t := t) (T := fun _ => True) io
      fd).apart ha).free, fun r hr => ?_, fun n hn => ?_⟩, le_rfl⟩
  · by_cases hc : fd' = fd
    · subst hc
      simp [Io.taskOf, Io.close] at hu
    · simpa [Io.taskOf, Io.close, Io.wheelDeleteElement, Function.update_of_ne hc] using hu
  · by_cases hc : fd = .wheelTimer
    · subst hc
      simp [Io.close] at hr
    · apply ha.never r
      simpa [Io.close, Io.wheelDeleteElement, Function.update_of_ne (Ne.symm hc)] using hr
  · simp [Io.close, Io.wheelDeleteElement, Function.update_apply, ha.socks n hn]

theorem eventPoll {events : Events} {ok b : Bool}
    (e : io.eventPoll t fd events ok = some (io', b)) : Upd t (· = fd) io io' := by
  unfold Io.eventPoll at e
  cases hr : io.ifd fd with
  | none => simp [hr] at e
  | some r =>
      rw [hr] at e
      have h1 := (setInner io { r with error := ieNone, task := some t } hr (.inr rfl)
        (.inl rfl)).trans (addEvents _ fd events ok)
      cases ok with
      | true =>
          obtain ⟨rfl, -⟩ := Prod.mk.inj (Option.some.inj e)
          exact h1.trans (wheelUpdateElement (r := { r with error := ieNone, task := some t }) _
            (io.setInner_self fd _))
      | false =>
          obtain ⟨rfl, -⟩ := Prod.mk.inj (Option.some.inj e)
          exact h1.trans (deleteEvents ..)

theorem eventPollReturn {r : PollResult} (e : io.eventPollReturn fd = some (io', r)) :
    Upd t (· = fd) io io' := by
  unfold Io.eventPollReturn at e
  cases hr : io.ifd fd with
  | none => simp [hr] at e
  | some r =>
      rw [hr] at e
      obtain ⟨rfl, -⟩ := Prod.mk.inj (Option.some.inj e)
      exact (wheelDeleteElement io fd).trans (deleteEvents ..)

theorem setTimer {set added : Bool} (e : io.setTimer t fd set added = some io') :
    Upd t (· = fd) io io' := by
  unfold Io.setTimer at e
  split_ifs at e
  · cases hr : io.ifd fd with
    | none => simp [hr] at e
    | some r =>
        rw [hr] at e
        obtain rfl := Option.some.inj e
        exact (setInner io { r with task := some t, error := ieNone } hr (.inr rfl) (.inl rfl)).trans
          (addEvents ..)
  · obtain rfl := Option.some.inj e
    exact refl ..

theorem startTimer {k : TimerCall} {tfd : Option Fd} (e : io.startTimer t k = some (io', tfd)) :
    Upd t (· = .timer io.timers) io io' := by
  unfold Io.startTimer at e
  split_ifs at e
  · obtain ⟨io₁, he, h1⟩ := Option.map_eq_some_iff.mp e
    obtain ⟨rfl, -⟩ := Prod.mk.inj h1
    exact (openTimer io).trans (setTimer he)
  · obtain ⟨rfl, -⟩ := Prod.mk.inj (Option.some.inj e)
    exact refl ..

theorem stopTimer (io : Io) (tfd : Option Fd) : Upd t (tfd = some ·) io (io.stopTimer tfd).1 := by
  cases tfd with
  | none => exact refl ..
  | some fd => exact (close io fd).mono fun fd' h => h ▸ rfl

theorem coPollAdd {timed : Bool} {T : Fd → Prop} : ∀ {fds : List (PollFd × Bool)} {io : Io},
    io.coPollAdd t timed fds = some io' → (∀ p ∈ fds, T (.sock p.1.fd)) → Upd t T io io'
  | [], io, e, _ => by
      obtain rfl := Option.some.inj e
      exact refl ..
  | (p, ok) :: fds, io, e, hT => by
      obtain ⟨hp, hrest⟩ := List.forall_mem_cons.mp hT
      unfold Io.coPollAdd at e
      cases hr : io.ifd (.sock p.fd) with
      | none => simp [hr] at e
      | some r =>
          rw [hr] at e
          have h1 := (setInner io { r with task := some t, error := ieNone } hr (.inr rfl)
            (.inl rfl)).trans (addEvents _ (.sock p.fd) p.events ok)
          have hself : ((io.setInner (.sock p.fd) { r with task := some t, error := ieNone }).addEvents
              (.sock p.fd) p.events ok).ifd (.sock p.fd) =
              some { r with task := some t, error := ieNone } := by
            rw [Io.addEvents_ifd, Io.setInner_self]
          have h2 : Upd t T io _ := h1.mono fun fd hfd => hfd ▸ hp
          cases timed with
          | true => exact h2.trans (coPollAdd e hrest)
          | false => exact h2.trans ((wheelUpdateElement _ hself).trans (coPollAdd e hrest))

theorem coPollCollect {timed fired : Bool} {array : List PollFd} {n : ℕ} {T : Fd → Prop} :
    ∀ {rest : List PollFd} {io : Io} {done : List PollFd} {j : ℕ},
    io.coPollCollect timed fired done j rest = some (io', array, n) →
    (∀ p ∈ rest, T (.sock p.fd)) → Upd t T io io'
  | [], io, done, j, e, _ => by
      obtain ⟨rfl, -⟩ := Prod.mk.inj (Option.some.inj e)
      exact refl ..
  | p :: rest, io, done, j, e, hT => by
      obtain ⟨hp, hrest⟩ := List.forall_mem_cons.mp hT
      unfold Io.coPollCollect at e
      cases hr : io.ifd (.sock p.fd) with
      | none => simp [hr] at e
      | some r =>
          rw [hr] at e
          dsimp only at e
          have h1 : Upd t (· = .sock p.fd) io ((if timed = true then io else
              io.wheelDeleteElement (.sock p.fd)).deleteEvents (.sock p.fd)) := by
            cases timed with
            | true => exact deleteEvents ..
            | false => exact (wheelDeleteElement io _).trans (deleteEvents ..)
          have hifd : ((if timed = true then io else
              io.wheelDeleteElement (.sock p.fd)).deleteEvents (.sock p.fd)).ifd (.sock p.fd) =
              some r := by
            rw [← hr]
            cases timed <;> rfl
          generalize (if timed = true then io else
            io.wheelDeleteElement (.sock p.fd)).deleteEvents (.sock p.fd) = io₁ at e h1 hifd
          have h2 : Upd t T io io₁ := h1.mono fun fd hfd => hfd ▸ hp
          split_ifs at e
          · have h3 := setInner (t := t) io₁ { r with error := { ieNone with timeout := true } } hifd
              (.inl rfl) (.inl rfl)
            exact h2.trans ((h3.mono fun fd hfd => hfd ▸ hp).trans (coPollCollect e hrest))
          · exact h2.trans (coPollCollect e hrest)
          · exact h2.trans (coPollCollect e hrest)

end Io.Upd

theorem Io.startTimer_new {io io' : Io} {t : Tid} {k : TimerCall} {fd : Fd}
    (e : io.startTimer t k = some (io', some fd)) : fd = .timer io.timers ∧ io.timers < io'.timers := by
  unfold Io.startTimer at e
  split_ifs at e
  · obtain ⟨io₁, he, h1⟩ := Option.map_eq_some_iff.mp e
    obtain ⟨rfl, h2⟩ := Prod.mk.inj h1
    exact ⟨(Option.some.inj h2).symm, (Nat.lt_succ_self _).trans_le (Io.Upd.setTimer he).timers⟩
  · cases (Prod.mk.inj (Option.some.inj e)).2

/-! ### The run queue -/

/-- The list of the run queue after a task is put on it, wherever it was. -/
def enqueued : Option Tid → List Tid → List Tid
  | none, l => l
  | some t, l => t :: l.erase t

namespace Queues

variable {q q' : Queues} {v v' : View Head Tid} {t u : Tid} {h : Head}

/-- The links hold the lists `v`, of tasks that have been created. -/
structure Listed (q : Queues) (v : View Head Tid) : Prop where
  rings : Rings q.links v
  created : ∀ {h x}, x ∈ v h → x < q.created

/-- A task is put on the run queue, or none; no other task is linked. -/
structure Puts (q : Queues) (v : View Head Tid) (put : Option Tid) (q' : Queues)
    (v' : View Head Tid) : Prop where
  listed : Listed q' v'
  grows : q.created ≤ q'.created
  phase : q'.phase = q.phase
  runList : v' .runList = enqueued put (v .runList)
  free : ∀ x, v.Free x → put ≠ some x → v'.Free x

namespace Listed

theorem keep (hl : Listed q v) : Puts q v none q v := ⟨hl, le_rfl, rfl, rfl, fun _ hx _ => hx⟩

/-- `RR_enqueue` of a task that is unlinked from its list first, or is not. -/
theorem enqueue (hl : Listed q v) {l : Links (Node Head Tid)} {v₁ : View Head Tid} (hR : Rings l v₁)
    (hsub : ∀ {h x}, x ∈ v₁ h → x ∈ v h) (hrun : (v₁ .runList).erase u = (v .runList).erase u)
    (hu : u < q.created) :
    Puts q v (some u) (Queues.coResume { q with links := l } u) (rrEnqueue .runList v₁ u) := by
  have hmem : ∀ {h x}, x ∈ rrEnqueue Head.runList v₁ u h → x = u ∨ x ∈ v h := fun hx =>
    ((View.mem_rrEnqueue hR.ok).mp hx).imp And.left fun hx => hsub hx.2
  refine ⟨⟨rings_rrEnqueue hR .runList u, fun {h x} hx => ?_⟩, le_rfl, rfl, ?_, fun x hx hne h hm => ?_⟩
  · rcases hmem hx with rfl | hx
    · exact hu
    · exact hl.created hx
  · show Function.update (v₁.delete u) .runList (u :: (v₁ .runList).erase u) .runList = _
    rw [Function.update_self, hrun]
    rfl
  · rcases hmem hm with rfl | hm
    · exact hne rfl
    · exact hx h hm

theorem coResume (hl : Listed q v) (hu : u < q.created) :
    Puts q v (some u) (q.coResume u) (rrEnqueue .runList v u) := hl.enqueue hl.rings id rfl hu

theorem wake (hl : Listed q v) (hm : u ∈ v h) :
    Puts q v (some u) (Queues.coResume { q with links := ListOps.delete q.links u } u)
      (rrEnqueue .runList (v.delete u) u) := by
  refine hl.enqueue (rings_delete hl.rings u) (fun hx => ((View.mem_delete hl.rings.ok).mp hx).2) ?_
    (hl.created hm)
  exact List.erase_of_not_mem fun hm => ((View.mem_delete hl.rings.ok).mp hm).1 rfl

theorem wakeFirst (hl : Listed q v) (h : Head) :
    ∃ v', Puts q v (ListOps.first q.links h) (q.wakeFirst h) v' := by
  unfold Queues.wakeFirst
  rw [first_eq hl.rings h]
  cases hf : ListOps.first v h with
  | none => exact ⟨v, hl.keep⟩
  | some u => exact ⟨_, hl.wake (List.mem_of_head? hf)⟩

theorem coCreate (hl : Listed q v) :
    Puts q v (some q.created) q.coCreate (rrEnqueue .runList v q.created) := by
  have hfree : v.Free q.created := fun h hm => lt_irrefl _ (hl.created hm)
  have hinit := listInit_of_free hl.rings hfree
  have hmid : Listed { q.setStatus q.created .ready with created := q.created + 1 } v :=
    ⟨hl.rings, fun hx => (hl.created hx).trans (Nat.lt_succ_self _)⟩
  have hput := hmid.enqueue (u := q.created) (hinit.symm ▸ hl.rings :
    Rings (listInit q.links (.elem q.created)) v) id rfl (Nat.lt_succ_self _)
  exact ⟨hput.listed, Nat.le_succ _, rfl, hput.runList, hput.free⟩

/-- The task links itself on a wait list. -/
theorem addWaiter (hl : Listed q v) (ht : t < q.created) (hfree : v.Free t) (h : Head) :
    Listed (q.addWaiter h t) (v.addBefore h t) := by
  refine ⟨rings_addBefore hl.rings hfree, fun hx => ?_⟩
  rcases View.mem_addBefore.mp hx with ⟨rfl, -⟩ | hx
  · exact ht
  · exact hl.created hx

end Listed

/-- The task `t` has control, and is on no list. -/
structure Control (q : Queues) (v : View Head Tid) (t : Tid) : Prop where
  listed : Listed q v
  known : t < q.created
  free : v.Free t
  phase : q.phase = .running t

/-- What a call of the task `t` does to the queues: it puts a task on the run queue, or none, and the
task goes on or switches to the scheduler. -/
structure Ran (q : Queues) (v : View Head Tid) (t : Tid) (put : Option Tid) (q' : Queues)
    (v' : View Head Tid) : Prop where
  listed : Listed q' v'
  grows : q.created ≤ q'.created
  runList : v' .runList = enqueued put (v .runList)
  phase : q'.phase = .running t ∧ v'.Free t ∨
    q'.phase = .handle t ∧ (q'.status t = .killed → v'.Free t)

namespace Control

/-- The task goes on. -/
theorem ran (hc : Control q v t) {put : Option Tid} (hp : Puts q v put q' v') (hne : put ≠ some t) :
    Ran q v t put q' v' :=
  ⟨hp.listed, hp.grows, hp.runList, .inl ⟨hp.phase.trans hc.phase, hp.free t hc.free hne⟩⟩

theorem yield (hc : Control q v t) (st : Status) : Ran q v t none (q.yield t st) v :=
  ⟨⟨hc.listed.rings, hc.listed.created⟩, le_rfl, rfl, .inr ⟨rfl, fun _ => hc.free⟩⟩

theorem exit (hc : Control q v t) : Ran q v t none (q.taskExit t) v :=
  ⟨⟨hc.listed.rings, hc.listed.created⟩, le_rfl, rfl, .inr ⟨rfl, fun _ => hc.free⟩⟩

/-- A task that blocks is not killed. -/
theorem block {put : Option Tid} (hl : Listed q' v') (hg : q.created ≤ q'.created)
    (hrun : v' .runList = enqueued put (v .runList)) :
    Ran q v t put (q'.yield t .sysBlock) v' := by
  refine ⟨⟨hl.rings, hl.created⟩, hg, hrun, .inr ⟨rfl, fun hk => ?_⟩⟩
  cases (Function.update_self ..).symm.trans hk

/-- The task links itself on a wait list and blocks. -/
theorem wait (hc : Control q v t) (hh : h ≠ .runList) :
    Ran q v t none ((q.addWaiter h t).yield t .sysBlock) (v.addBefore h t) :=
  block (hc.listed.addWaiter hc.known hc.free h) le_rfl (Function.update_of_ne hh.symm _ _)

theorem first_ne (hc : Control q v t) (h : Head) : ListOps.first q.links h ≠ some t := by
  rw [first_eq hc.listed.rings h]
  exact fun hf => hc.free h (List.mem_of_head? hf)

/-- The first waiter of a list other than the one the task is linked on. -/
theorem first_addWaiter (hc : Control q v t) {h' : Head} (hne : h' ≠ h) :
    ListOps.first (q.addWaiter h t).links h' = ListOps.first q.links h' := by
  rw [first_eq (hc.listed.addWaiter hc.known hc.free h).rings, first_eq hc.listed.rings]
  exact congrArg List.head? (Function.update_of_ne hne _ _)

/-- The task wakes the first waiter of a list. -/
theorem wakeFirst (hc : Control q v t) (h : Head) :
    ∃ v', Ran q v t (ListOps.first q.links h) (q.wakeFirst h) v' := by
  obtain ⟨v', hp⟩ := hc.listed.wakeFirst h
  exact ⟨v', hc.ran hp (hc.first_ne h)⟩

/-- The task links itself on a wait list, wakes the first waiter of another one, and blocks. -/
theorem waitAndWake (hc : Control q v t) {h' : Head} (hh : h ≠ .runList) (hne : h' ≠ h) :
    ∃ v', Ran q v t (ListOps.first q.links h') (((q.addWaiter h t).wakeFirst h').yield t .sysBlock)
      v' := by
  have hl := hc.listed.addWaiter hc.known hc.free h
  have hrun : v.addBefore h t .runList = v .runList := Function.update_of_ne hh.symm _ _
  obtain ⟨v', hp⟩ := hl.wakeFirst h'
  rw [hc.first_addWaiter hne] at hp
  exact ⟨v', block hp.listed hp.grows (by rw [hp.runList, hrun])⟩

end Control

end Queues

/-! ### The calls -/

/-- In the code of the timeout task. -/
def Cont.timeoutTask : Cont → Bool
  | .timeoutRead | .timeoutList _ | .eventPoll _ .timeoutTask => true
  | _ => false

/-- What a call of the running task `t` does: it changes only the descriptors in `T`, and goes on to
look after some of those in `P`; it puts a task on the run queue or none; and the task is in the code
of the timeout task only if it was there. -/
structure Moves (s : St) (v : View Head Tid) (t : Tid) (T P : Fd → Prop) (put : Option Tid)
    (s' : St) : Prop where
  io : Io.Upd t T s.io s'.io
  cont : ∀ x, x ≠ t → s'.cont x = s.cont x
  queues : ∃ v', s.q.Ran v t put s'.q v'
  timeoutTask : (s'.cont t).timeoutTask = true → (s.cont t).timeoutTask = true ∧
    ∀ fd, s'.io.taskOf fd = some t → s.io.taskOf fd = some t ∨ fd = .wheelTimer
  watches : ∀ fd, (s'.cont t).Watches fd → P fd ∧
    (fd = .wheelTimer → (s'.cont t).timeoutTask = true) ∧ ∀ n, fd = .timer n → n < s'.io.timers

namespace Moves

open Queues

variable {s s' : St} {v : View Head Tid} {t : Tid} {T P : Fd → Prop} {put : Option Tid}

/-- The running task goes on outside of the code of the timeout task. -/
theorem of_ran {c : Cont} (hq : ∃ v', s.q.Ran v t put s'.q v') (hio : Io.Upd t T s.io s'.io)
    (hcont : s'.cont = Function.update s.cont t c) (hc : c.timeoutTask = false)
    (hw : ∀ fd, c.Watches fd → P fd ∧ fd ≠ .wheelTimer ∧ ∀ n, fd = .timer n → n < s'.io.timers) :
    Moves s v t T P put s' := by
  have hself : s'.cont t = c := by rw [hcont, Function.update_self]
  refine ⟨hio, fun x hx => ?_, hq, fun hflag => ?_, fun fd hfd => ?_⟩
  · rw [hcont, Function.update_of_ne hx]
  · rw [hself, hc] at hflag
    cases hflag
  · rw [hself] at hfd
    obtain ⟨h1, h2, h3⟩ := hw fd hfd
    exact ⟨h1, fun h => absurd h h2, h3⟩

/-- A call that leaves the queues alone, and nothing to look after. -/
theorem goto (hr : Control s.q v t) {c : Cont} (hq : s'.q = s.q) (hio : Io.Upd t T s.io s'.io)
    (hcont : s'.cont = Function.update s.cont t c) (hc : c.timeoutTask = false)
    (hw : ∀ fd, ¬c.Watches fd) : Moves s v t T P none s' := by
  refine of_ran ⟨v, ?_⟩ hio hcont hc fun fd h => absurd h (hw fd)
  rw [hq]
  exact hr.ran hr.listed.keep (by simp)

/-- The call begins with a change of the descriptors. -/
theorem of_io {io : Io} (hio : Io.Upd t T s.io io)
    (hT : (s.cont t).timeoutTask = true →
      ∀ fd, io.taskOf fd = some t → s.io.taskOf fd = some t ∨ fd = .wheelTimer)
    (hm : Moves { s with io := io } v t T P put s') : Moves s v t T P put s' := by
  refine ⟨hio.trans hm.io, hm.cont, hm.queues, fun hself => ?_, hm.watches⟩
  obtain ⟨hold, hown⟩ := hm.timeoutTask hself
  exact ⟨hold, fun fd hfd => (hown fd hfd).elim (hT hold fd) .inr⟩

theorem mutexLoop (hr : Control s.q v t) (m : ℕ) (r : Ret) :
    Moves s v t T P none (s.mutexLoop t m r) := by
  unfold St.mutexLoop
  cases s.lock m with
  | none => exact goto hr rfl (.refl ..) rfl rfl fun _ => id
  | some u => exact of_ran ⟨_, hr.wait (by simp)⟩ (.refl ..) rfl rfl fun _ => False.elim

theorem coMutexLock (hr : Control s.q v t) {m : ℕ} {r : Ret} (e : s.coMutexLock t m r = some s') :
    Moves s v t T P none s' := by
  obtain ⟨-, e⟩ := Option.ite_none_left_eq_some.mp e
  obtain rfl := Option.some.inj e
  exact mutexLoop hr m r

/-- The first part of the two calls that wait on a condition. -/
theorem condWait (hr : Control s.q v t) {io : Io} (hio : Io.Upd t T s.io io) {c m : ℕ} {k : Cont}
    (hk : k.timeoutTask = false)
    (hw : ∀ fd, k.Watches fd → P fd ∧ fd ≠ .wheelTimer ∧ ∀ n, fd = .timer n → n < io.timers) {s₁ : St}
    (e : St.coMutexUnlock { s with q := s.q.addWaiter (.condWait c) t, io := io } t m = some s₁) :
    Moves s v t T P (ListOps.first s.q.links (.mutexWait m)) (s₁.coSyncYield t k) := by
  obtain ⟨-, e⟩ := Option.ite_none_right_eq_some.mp e
  obtain rfl := Option.some.inj e
  exact of_ran (hr.waitAndWake (by simp) (by simp)) hio rfl hk hw

theorem coSemWait (hr : Control s.q v t) (i : ℕ) : Moves s v t T P none (s.coSemWait t i) := by
  unfold St.coSemWait
  dsimp only
  split_ifs
  · exact goto hr rfl (.refl ..) rfl rfl fun _ => id
  · exact of_ran ⟨_, hr.wait (by simp)⟩ (.refl ..) rfl rfl fun _ => False.elim
  · exact goto hr rfl (.refl ..) rfl rfl fun _ => id

theorem coSemTryWait (hr : Control s.q v t) (i : ℕ) : Moves s v t T P none (s.coSemTryWait t i) := by
  unfold St.coSemTryWait
  dsimp only
  split_ifs <;> exact goto hr rfl (.refl ..) rfl rfl fun _ => id

theorem coSemPost (hr : Control s.q v t) (i : ℕ) :
    Moves s v t T P (if toInt32 (s.sem i + 1) < 0 then ListOps.first s.q.links (.semWait i) else none)
      (s.coSemPost t i) := by
  unfold St.coSemPost
  dsimp only
  split_ifs with hneg hpos
  · rw [Function.update_self] at hpos
    omega
  · exact of_ran (hr.wakeFirst _) (.refl ..) rfl rfl fun _ => False.elim
  · exact goto hr rfl (.refl ..) rfl rfl fun _ => id

theorem broadcastLoop (hr : Control s.q v t) {ls : Node Head Tid}
    (e : s.broadcastLoop t ls = some s') : Moves s v t T P (listPeek s.q.links ls) s' := by
  unfold listPeek
  rcases broadcastLoop_eq e with ⟨hempty, rfl⟩ | ⟨hempty, u, rfl, rfl⟩
  · rw [hempty]
    exact goto hr rfl (.refl ..) rfl rfl fun _ => id
  · rw [hempty]
    have hlinked : ListOps.Linked v u := (linked_iff hr.listed.rings).mp hempty
    obtain ⟨h, hm⟩ := not_forall_not.mp hlinked
    refine of_ran ⟨_, hr.ran (hr.listed.wake hm) ?_⟩ (.refl ..) rfl rfl fun _ => False.elim
    rintro ⟨⟩
    exact hr.free h hm

/-! #### Descriptors -/

/-- The timeout task goes on, with nothing to look after. -/
theorem inTimeoutTask {c : Cont} (hio : Io.Upd t T s.io s'.io) (hq : ∃ v', s.q.Ran v t put s'.q v')
    (hcont : s'.cont = Function.update s.cont t c) (hc : (s.cont t).timeoutTask = true)
    (htask : ∀ fd, s'.io.taskOf fd = some t → s.io.taskOf fd = some t ∨ fd = .wheelTimer)
    (hw : ∀ fd, ¬c.Watches fd) : Moves s v t T P put s' := by
  refine ⟨hio, fun x hx => ?_, hq, fun _ => ⟨hc, htask⟩, fun fd hfd => absurd ?_ (hw fd)⟩
  · rw [hcont, Function.update_of_ne hx]
  · rwa [hcont, Function.update_self] at hfd

theorem timeoutTick (hr : Control s.q v t) (hc : (s.cont t).timeoutTask = true) :
    Moves s v t T P none (s.timeoutTick t) :=
  inTimeoutTask (.wheelRotate s.io) ⟨v, hr.ran hr.listed.keep (by simp)⟩ rfl hc
    (fun _ hfd => .inl hfd) fun _ => id

theorem timeoutExit (hr : Control s.q v t) (hT : T .wheelTimer) :
    Moves s v t T P none (s.timeoutExit t) :=
  of_ran ⟨v, hr.exit⟩ ((Io.Upd.close s.io .wheelTimer).mono fun _ hfd => hfd ▸ hT) rfl rfl
    fun _ => False.elim

/-- The timeout task resumes another task: only the wheel's own timer, which is not on the wheel, may
name the timeout task. -/
theorem timeoutLoop (hr : Control s.q v t) {ls : Node ℕ Fd} (hc : s.cont t = .timeoutList ls)
    (hT : ∀ fd, listPeek s.io.wheel ls = some fd → T fd)
    (hown : ∀ fd u, s.io.taskOf fd = some u → u < s.q.created ∧ (u = t → fd = .wheelTimer))
    (hap : s.io.Apart) (e : s.timeoutLoop t ls = some s') :
    Moves s v t T P ((listPeek s.io.wheel ls).bind s.io.taskOf) s' := by
  have hflag : (s.cont t).timeoutTask = true := by
    rw [hc]
    rfl
  unfold listPeek at hT ⊢
  rcases timeoutLoop_eq e with ⟨hempty, rfl⟩ | ⟨hempty, fd, r, u, rfl, hifd, ht, rfl⟩
  · rw [hempty]
    exact inTimeoutTask (.refl ..) ⟨v, hr.ran hr.listed.keep (by simp)⟩ rfl hflag
      (fun _ hfd => .inl hfd) fun _ => id
  · have htask : s.io.taskOf fd = some u := (Fds.taskOf_eq hifd).trans ht
    have hut : u ≠ t := by
      intro hc
      obtain ⟨w, hR, hw⟩ := hap.free
      have hfd := (hown fd u htask).2 hc
      subst hfd
      exact (linked_iff hR).mp hempty hw
    have hio := Io.Upd.setInner (t := t) s.io
      { r with error := { r.error with timeout := true } } hifd (.inl rfl) (.inl rfl)
    rw [hempty] at hT ⊢
    have hput : (Node.toElem (.elem fd : Node ℕ Fd)).bind s.io.taskOf = some u := htask
    show Moves s v t T P ((Node.toElem (.elem fd : Node ℕ Fd)).bind s.io.taskOf) _
    rw [hput]
    refine inTimeoutTask ((hio.mono fun _ h => h ▸ hT fd rfl).trans (.wheelDeleteElement _ fd))
      ⟨_, hr.ran (hr.listed.coResume (hown fd u htask).1) ?_⟩ rfl hflag
      (fun fd' hfd => .inl ?_) fun _ => id
    · rintro ⟨⟩
      exact hut rfl
    · by_cases hc' : fd' = fd
      · subst hc'
        have hself := s.io.taskOf_setInner fd' { r with error := { r.error with timeout := true } }
        exact (Fds.taskOf_eq hifd).trans (hself.symm.trans hfd)
      · exact (congrArg (Option.bind · InnerFd.task)
          (s.io.setInner_of_ne _ hc')).symm.trans hfd

theorem eventPollDone (hr : Control s.q v t) {fd : Fd} (hfd : T fd) (r : Io.PollResult) (read : Bool)
    {caller : Caller}
    (hcaller : caller = .timeoutTask → (s.cont t).timeoutTask = true ∧ T .wheelTimer) :
    Moves s v t T P none (s.eventPollDone t fd r read caller) := by
  cases caller with
  | user => exact goto hr rfl (.refl ..) rfl rfl fun _ => id
  | sleep =>
      unfold St.eventPollDone
      dsimp only
      split_ifs
      · exact goto hr rfl ((Io.Upd.close s.io fd).mono fun _ h => h ▸ hfd) rfl rfl fun _ => id
      · exact goto hr rfl (.refl ..) rfl rfl fun _ => id
  | timeoutTask =>
      obtain ⟨hflag, hT⟩ := hcaller rfl
      unfold St.eventPollDone
      dsimp only
      split_ifs
      · exact timeoutTick hr hflag
      · exact timeoutExit hr hT

theorem eventPoll (hr : Control s.q v t) {fd : Fd} (hfd : T fd)
    (hT : (s.cont t).timeoutTask = true → ∀ fd, T fd → fd = .wheelTimer) {events : Events}
    {ok : Bool} {caller : Caller}
    (hcaller : caller = .timeoutTask → (s.cont t).timeoutTask = true ∧ T .wheelTimer)
    (hP : P fd) (hwheel : fd = .wheelTimer → caller = .timeoutTask)
    (htimer : ∀ n, fd = .timer n → n < s.io.timers)
    (e : s.eventPoll t fd events ok caller = some s') : Moves s v t T P none s' := by
  unfold St.eventPoll at e
  cases hpoll : s.io.eventPoll t fd events ok with
  | none => simp [hpoll] at e
  | some x =>
      obtain ⟨io', b⟩ := x
      have hio : Io.Upd t T s.io io' := (Io.Upd.eventPoll hpoll).mono fun _ h => h ▸ hfd
      refine of_io hio (fun hc fd' h => (hio.task fd' t h).imp_right fun h => hT hc fd' h.1) ?_
      cases b with
      | true =>
          simp only [hpoll] at e
          obtain rfl := Option.some.inj e
          have hself : Function.update s.cont t (.eventPoll fd caller) t = .eventPoll fd caller :=
            Function.update_self ..
          refine ⟨.refl .., fun _ hx => Function.update_of_ne hx _ _, ⟨v, hr.yield _⟩,
            fun hflag => ⟨?_, fun _ h => .inl h⟩, fun fd' hfd' => ?_⟩
          · have hflag' : (Cont.eventPoll fd caller).timeoutTask = true :=
              (congrArg Cont.timeoutTask hself).symm.trans hflag
            cases caller with
            | timeoutTask => exact (hcaller rfl).1
            | user | sleep => cases hflag'
          · obtain rfl : fd' = fd := (congrArg (Cont.Watches · fd') hself).mp hfd'
            refine ⟨hP, fun h => ?_, fun n h => (htimer n h).trans_le hio.timers⟩
            exact (congrArg Cont.timeoutTask hself).trans (by rw [hwheel h]; rfl)
      | false =>
          simp only [hpoll] at e
          obtain rfl := Option.some.inj e
          exact eventPollDone (s := { s with io := io' }) hr hfd .failed false hcaller

theorem coSleep (hr : Control s.q v t) (hc : (s.cont t).timeoutTask = false) {k : Io.TimerCall}
    {again ok : Bool} (hT : T (.timer s.io.timers)) (hP : P (.timer s.io.timers)) (e : s.coSleep t k again ok = some s') :
    Moves s v t T P none s' := by
  unfold St.coSleep at e
  obtain ⟨-, e⟩ := Option.ite_none_right_eq_some.mp e
  dsimp only at e
  cases hset : s.io.openTimer.1.setTimer t s.io.openTimer.2 k.set k.added with
  | none => simp [hset] at e
  | some io' =>
      have h1 := (Io.Upd.openTimer (t := t) s.io).trans (Io.Upd.setTimer hset)
      have hio : Io.Upd t T s.io io' := h1.mono fun _ h => h ▸ hT
      have hno : (s.cont t).timeoutTask ≠ true := by simp [hc]
      refine of_io hio (fun h => absurd h hno) ?_
      simp only [hset] at e
      split_ifs at e
      · refine eventPoll (s := { s with io := io' }) hr hT (fun h => absurd h hno) (by rintro ⟨⟩) hP
          (by rintro ⟨⟩) ?_ e
        rintro n ⟨⟩
        exact (Nat.lt_succ_self _).trans_le (Io.Upd.setTimer hset).timers
      · obtain rfl := Option.some.inj e
        exact goto hr rfl ((Io.Upd.close io' _).mono fun _ h => h ▸ hT) rfl rfl fun _ => id
      · obtain rfl := Option.some.inj e
        exact goto hr rfl (.refl ..) rfl rfl fun _ => id

theorem coPoll (hr : Control s.q v t) {fds : List (PollFd × Bool)} {timed : Bool} {k : Io.TimerCall}
    (hfds : ∀ p ∈ fds, T (.sock p.1.fd) ∧ P (.sock p.1.fd))
    (hT : ∀ n, s.io.timers ≤ n → T (.timer n) ∧ P (.timer n)) (e : s.coPoll t fds timed k = some s') :
    Moves s v t T P none s' := by
  have hsocks : ∀ fd, (∃ p ∈ fds.map Prod.fst, fd = .sock p.fd) → P fd ∧ fd ≠ .wheelTimer ∧
      ∀ n, fd = .timer n → n < s'.io.timers := by
    rintro fd ⟨p, hp, rfl⟩
    obtain ⟨x, hx, rfl⟩ := List.mem_map.mp hp
    exact ⟨(hfds x hx).2, by simp, by rintro n ⟨⟩⟩
  unfold St.coPoll at e
  cases hadd : s.io.coPollAdd t timed fds with
  | none => simp [hadd] at e
  | some io' =>
      simp only [hadd] at e
      have h1 : Io.Upd t T s.io io' := .coPollAdd hadd fun p hp => (hfds p hp).1
      split_ifs at e
      · cases hk : io'.startTimer t k with
        | none => simp [hk] at e
        | some x =>
            obtain ⟨io'', tfd⟩ := x
            simp only [hk] at e
            obtain rfl := Option.some.inj e
            have h2 : Io.Upd t T io' io'' :=
              (Io.Upd.startTimer hk).mono fun _ h => h ▸ (hT _ h1.timers).1
            refine of_ran ⟨v, hr.yield _⟩ (h1.trans h2) rfl rfl fun fd hfd => ?_
            rcases hfd with hfd | rfl
            · exact hsocks fd hfd
            · obtain ⟨rfl, hlt⟩ := Io.startTimer_new hk
              refine ⟨(hT _ h1.timers).2, by simp, ?_⟩
              rintro n ⟨⟩
              exact hlt
      · obtain rfl := Option.some.inj e
        refine of_ran ⟨v, hr.yield _⟩ h1 rfl rfl fun fd hfd => ?_
        rcases hfd with hfd | hfd
        · exact hsocks fd hfd
        · cases hfd

theorem coPollReturn (hr : Control s.q v t) {fds : List PollFd} {timed : Bool} {tfd : Option Fd}
    (hfds : ∀ p ∈ fds, T (.sock p.fd)) (htfd : ∀ fd, tfd = some fd → T fd)
    (e : s.coPollReturn t fds timed tfd = some s') : Moves s v t T P none s' := by
  unfold St.coPollReturn at e
  dsimp only at e
  have h1 : Io.Upd t T s.io (s.io.stopTimer tfd).1 := (Io.Upd.stopTimer s.io tfd).mono htfd
  cases hcol : (s.io.stopTimer tfd).1.coPollCollect timed (s.io.stopTimer tfd).2 [] 0 fds with
  | none => simp [hcol] at e
  | some x =>
      obtain ⟨io', array, j⟩ := x
      simp only [hcol] at e
      obtain rfl := Option.some.inj e
      exact goto hr rfl (h1.trans (.coPollCollect hcol hfds)) rfl rfl fun _ => id

end Moves

end Libcask.Sched
