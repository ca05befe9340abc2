import Libcask.IoWaiters

/-! # The elementary changes of the descriptors

`Io.Change t T C` lists the things a step can do to the descriptors: the task `t` writes a record, adds a
descriptor that names it to the epoll set or to the wheel, takes one out, opens one or closes one, and
each time the descriptor is in `T`.  Every call is a sequence of such changes of the descriptors it
touches (`Io.Changes.eventPoll` and so on), after which the timeout task may turn the wheel
(`Io.Tended.rotate`).  What every elementary change keeps is then kept by every call: `Io.Tended`, which
needs no condition on the run, with the places on the wheel of the descriptors that are not touched
(`Io.Tended.changes`, `Io.SamePlaces`). -/

namespace Libcask.Sched

/-- An elementary change by the task `t` of a descriptor in `T`; those in `C` may be closed. -/
inductive Io.Change (t : Tid) (T C : Fd → Prop) : Io → Io → Prop
  /-- The record of a descriptor is written, and names the same task or `t`. -/
  | record {io : Io} {fd : Fd} {r : InnerFd} (r' : InnerFd) (hT : T fd) (hr : io.ifd fd = some r)
      (htask : r'.task = r.task ∨ r'.task = some t) : Change t T C io (io.setInner fd r')
  | watch {io : Io} {fd : Fd} (events : Events) (ok : Bool) (hT : T fd)
      (htask : io.taskOf fd = some t) : Change t T C io (io.addEvents fd events ok)
  | unwatch (io : Io) {fd : Fd} (hT : T fd) : Change t T C io (io.deleteEvents fd)
  | link {io : Io} {fd : Fd} (timeout : ℤ) (hT : T fd) (htask : io.taskOf fd = some t) :
      Change t T C io (io.wheelUpdateElement fd timeout)
  | unlink (io : Io) {fd : Fd} (hT : T fd) : Change t T C io (io.wheelDeleteElement fd)
  | socket (io : Io) (hT : T (.sock io.socks)) :
      Change t T C io ({ io with socks := io.socks + 1 }.newInnerFd (.sock io.socks))
  | openTimer (io : Io) (hT : T (.timer io.timers)) : Change t T C io io.openTimer.1
  | close (io : Io) {fd : Fd} (hT : T fd) (hC : C fd) : Change t T C io (io.close fd)

/-- A sequence of elementary changes. -/
abbrev Io.Changes (t : Tid) (T C : Fd → Prop) : Io → Io → Prop := Relation.ReflTransGen (Io.Change t T C)

/-! ### The calls -/

namespace Io.Changes

variable {io io' : Io} {t : Tid} {T C : Fd → Prop} {fd : Fd}

/-- A call writes the running task into the record and adds the descriptor to the epoll set. -/
theorem watch {r : InnerFd} (hT : T fd) (hr : io.ifd fd = some r) (r' : InnerFd)
    (htask : r'.task = some t) (events : Events) (ok : Bool) :
    Changes t T C io ((io.setInner fd r').addEvents fd events ok) := by
  refine .tail (.single (.record r' hT hr (.inr htask))) (.watch events ok hT ?_)
  rw [taskOf_setInner, htask]

theorem eventPoll {events : Events} {ok b : Bool} (hT : T fd)
    (e : io.eventPoll t fd events ok = some (io', b)) : Changes t T C io io' := by
  unfold Io.eventPoll at e
  cases hr : io.ifd fd with
  | none => simp [hr] at e
  | some r =>
      rw [hr] at e
      have h1 := watch (C := C) hT hr { r with error := ieNone, task := some t } rfl events ok
      cases ok with
      | true =>
          obtain ⟨rfl, -⟩ := Prod.mk.inj (Option.some.inj e)
          exact h1.tail (.link _ hT ((taskOf_addEvents ..).trans (taskOf_setInner ..)))
      | false =>
          obtain ⟨rfl, -⟩ := Prod.mk.inj (Option.some.inj e)
          exact h1.tail (.unwatch _ hT)

theorem eventPollReturn {r : PollResult} (hT : T fd) (e : io.eventPollReturn fd = some (io', r)) :
    Changes t T C io io' := by
  unfold Io.eventPollReturn at e
  cases hr : io.ifd fd with
  | none => simp [hr] at e
  | some r =>
      rw [hr] at e
      obtain ⟨rfl, -⟩ := Prod.mk.inj (Option.some.inj e)
      exact .tail (.single (.unlink io hT)) (.unwatch _ hT)

theorem setTimer {set added : Bool} (hT : T fd) (e : io.setTimer t fd set added = some io') :
    Changes t T C io io' := by
  unfold Io.setTimer at e
  split_ifs at e
  · cases hr : io.ifd fd with
    | none => simp [hr] at e
    | some r =>
        rw [hr] at e
        obtain rfl := Option.some.inj e
        exact watch hT hr { r with task := some t, error := ieNone } rfl _ added
  · obtain rfl := Option.some.inj e
    exact .refl

theorem startTimer {k : TimerCall} {tfd : Option Fd} (hT : T (.timer io.timers))
    (e : io.startTimer t k = some (io', tfd)) : Changes t T C io io' := by
  unfold Io.startTimer at e
  split_ifs at e
  · obtain ⟨io₁, he, h1⟩ := Option.map_eq_some_iff.mp e
    obtain ⟨rfl, -⟩ := Prod.mk.inj h1
    exact .trans (.single (.openTimer io hT)) (setTimer hT he)
  · obtain ⟨rfl, -⟩ := Prod.mk.inj (Option.some.inj e)
    exact .refl

theorem stopTimer {tfd : Option Fd} (hT : ∀ fd, tfd = some fd → T fd ∧ C fd) :
    Changes t T C io (io.stopTimer tfd).1 := by
  cases tfd with
  | none => exact .refl
  | some fd => exact .single (.close io (hT fd rfl).1 (hT fd rfl).2)

theorem coPollAdd {timed : Bool} : ∀ {fds : List (PollFd × Bool)} {io : Io},
    io.coPollAdd t timed fds = some io' → (∀ p ∈ fds, T (.sock p.1.fd)) → Changes t T C io io'
  | [], io, e, _ => by
      obtain rfl := Option.some.inj e
      exact .refl
  | (p, ok) :: fds, io, e, hT => by
      obtain ⟨hp, hrest⟩ := List.forall_mem_cons.mp hT
      unfold Io.coPollAdd at e
      cases hr : io.ifd (.sock p.fd) with
      | none => simp [hr] at e
      | some r =>
          rw [hr] at e
          have h1 := watch (C := C) hp hr { r with task := some t, error := ieNone } rfl p.events ok
          cases timed with
          | true => exact h1.trans (coPollAdd e hrest)
          | false =>
              have h2 := h1.tail (.link r.timeout hp ((taskOf_addEvents ..).trans (taskOf_setInner ..)))
              exact h2.trans (coPollAdd e hrest)

theorem coPollCollect {timed fired : Bool} {array : List PollFd} {n : ℕ} :
    ∀ {rest : List PollFd} {io : Io} {done : List PollFd} {j : ℕ},
    io.coPollCollect timed fired done j rest = some (io', array, n) →
    (∀ p ∈ rest, T (.sock p.fd)) → Changes t T C io io'
  | [], io, done, j, e, _ => by
      obtain ⟨rfl, -⟩ := Prod.mk.inj (Option.some.inj e)
      exact .refl
  | p :: rest, io, done, j, e, hT => by
      obtain ⟨hp, hrest⟩ := List.forall_mem_cons.mp hT
      unfold Io.coPollCollect at e
      cases hr : io.ifd (.sock p.fd) with
      | none => simp [hr] at e
      | some r =>
          rw [hr] at e
          dsimp only at e
          have h1 : Changes t T C io ((if timed = true then io else
              io.wheelDeleteElement (.sock p.fd)).deleteEvents (.sock p.fd)) := by
            cases timed with
            | true => exact .single (.unwatch _ hp)
            | false => exact .tail (.single (.unlink io hp)) (.unwatch _ hp)
          have hifd : ((if timed = true then io else
              io.wheelDeleteElement (.sock p.fd)).deleteEvents (.sock p.fd)).ifd (.sock p.fd) =
              some r := by
            rw [← hr]
            cases timed <;> rfl
          generalize (if timed = true then io else
            io.wheelDeleteElement (.sock p.fd)).deleteEvents (.sock p.fd) = io₁ at e h1 hifd
          split_ifs at e
          · have h2 := h1.tail (.record { r with error := { ieNone with timeout := true } } hp hifd
              (.inl rfl))
            exact h2.trans (coPollCollect e hrest)
          · exact h1.trans (coPollCollect e hrest)
          · exact h1.trans (coPollCollect e hrest)

end Io.Changes

/-! ### What the changes keep -/

/-- The places on the wheel: the descriptors outside of `T` have the same slots. -/
def Io.SamePlaces (T : Fd → Prop) (w w' : View ℕ Fd) : Prop := ∀ fd i, ¬T fd → (fd ∈ w' i ↔ fd ∈ w i)

/-- Every descriptor in the epoll set or on the wheel has a record that names a task, and only open
descriptors have records. -/
structure Io.Tended (io : Io) (w : View ℕ Fd) : Prop where
  rings : Rings io.wheel w
  epolled : ∀ fd, io.epoll fd ≠ none → io.taskOf fd ≠ none
  wheeled : ∀ fd, ¬w.Free fd → io.taskOf fd ≠ none
  socks : ∀ n, io.socks ≤ n → io.ifd (.sock n) = none
  timers : ∀ n, io.timers ≤ n → io.ifd (.timer n) = none

theorem Io.taskOf_ne_none {io : Io} {fd : Fd} (h : io.taskOf fd ≠ none) : ∃ r, io.ifd fd = some r := by
  refine Option.ne_none_iff_exists'.mp fun hn => h ?_
  rw [Io.taskOf, hn]
  rfl

namespace Io.Tended

variable {io io' : Io} {t : Tid} {T C : Fd → Prop} {fd : Fd} {w : View ℕ Fd}

/-- A descriptor without a record is in no set. -/
theorem absent (h : io.Tended w) (hfd : io.ifd fd = none) : io.epoll fd = none ∧ w.Free fd := by
  have htask : io.taskOf fd = none := by
    rw [Io.taskOf, hfd]
    rfl
  exact ⟨by_contra fun hc => h.epolled fd hc htask, by_contra fun hc => h.wheeled fd hc htask⟩

/-- The record of an open descriptor is written. -/
theorem setInner (h : io.Tended w) {r : InnerFd} (r' : InnerFd) (hr : io.ifd fd = some r)
    (htask : io.taskOf fd ≠ none → r'.task ≠ none) : (io.setInner fd r').Tended w := by
  have hkeep : ∀ fd', io.taskOf fd' ≠ none → (io.setInner fd r').taskOf fd' ≠ none := by
    intro fd' h'
    by_cases hc : fd' = fd
    · subst hc
      rw [taskOf_setInner]
      exact htask h'
    · rwa [Io.taskOf, io.setInner_of_ne r' hc]
  have hnone : ∀ fd', io.ifd fd' = none → (io.setInner fd r').ifd fd' = none := by
    intro fd' hn
    have hc : fd' ≠ fd := by
      rintro rfl
      cases hn.symm.trans hr
    rwa [io.setInner_of_ne r' hc]
  exact ⟨h.rings, fun fd' hfd => hkeep fd' (h.epolled fd' hfd), fun fd' hfd => hkeep fd' (h.wheeled fd' hfd),
    fun n hn => hnone _ (h.socks n hn), fun n hn => hnone _ (h.timers n hn)⟩

/-- A record is made for a descriptor that had none. -/
theorem newRecord (h : io.Tended w) (hnew : io.ifd fd = none) {r : InnerFd}
    (hifd : io'.ifd = Function.update io.ifd fd (some r)) (hepoll : io'.epoll = io.epoll)
    (hwheel : io'.wheel = io.wheel) (hsocks : ∀ n, io'.socks ≤ n → io.socks ≤ n ∧ fd ≠ .sock n)
    (htimers : ∀ n, io'.timers ≤ n → io.timers ≤ n ∧ fd ≠ .timer n) : io'.Tended w := by
  obtain ⟨hep, hfree⟩ := h.absent hnew
  have hkeep : ∀ fd', fd' ≠ fd → io'.taskOf fd' = io.taskOf fd' := by
    intro fd' hc
    rw [Io.taskOf, hifd, Function.update_of_ne hc]
    rfl
  refine ⟨hwheel ▸ h.rings, fun fd' hfd => ?_, fun fd' hfd => ?_, fun n hn => ?_, fun n hn => ?_⟩
  · rw [hepoll] at hfd
    rw [hkeep fd' (ne_of_apply_ne io.epoll (hep ▸ hfd))]
    exact h.epolled fd' hfd
  · have hc : fd' ≠ fd := by
      rintro rfl
      exact hfd hfree
    rw [hkeep fd' hc]
    exact h.wheeled fd' hfd
  · obtain ⟨h1, h2⟩ := hsocks n hn
    rw [hifd, Function.update_of_ne h2.symm]
    exact h.socks n h1
  · obtain ⟨h1, h2⟩ := htimers n hn
    rw [hifd, Function.update_of_ne h2.symm]
    exact h.timers n h1

/-- The links change, and only a descriptor that names a task is linked. -/
theorem relink (h : io.Tended w) {w' : View ℕ Fd} {l : Links (Node ℕ Fd)} (hR : Rings l w')
    (hw : ∀ fd', ¬w'.Free fd' → ¬w.Free fd' ∨ io.taskOf fd' ≠ none) :
    { io with wheel := l }.Tended w' :=
  ⟨hR, h.epolled, fun fd' hfd => (hw fd' hfd).elim (h.wheeled fd') id, h.socks, h.timers⟩

theorem unlink (h : io.Tended w) (fd : Fd) : (io.wheelDeleteElement fd).Tended (w.delete fd) :=
  h.relink (rings_delete h.rings fd) fun _ hfd =>
    .inl fun hfree => hfd (Fds.free_delete_of_free h.rings.ok hfree)

theorem close (h : io.Tended w) (fd : Fd) : (io.close fd).Tended (w.delete fd) := by
  have h' := h.unlink fd
  have hkeep : ∀ fd', fd' ≠ fd → (io.close fd).taskOf fd' = io.taskOf fd' := fun fd' hc =>
    congrArg (Option.bind · InnerFd.task) (Function.update_of_ne hc _ _)
  have hnone : ∀ fd', io.ifd fd' = none → (io.close fd).ifd fd' = none := by
    intro fd' hn
    show Function.update io.ifd fd none fd' = none
    rw [Function.update_apply, hn, ite_self]
  refine ⟨h'.rings, fun fd' hfd => ?_, fun fd' hfd => ?_, fun n hn => hnone _ (h.socks n hn),
    fun n hn => hnone _ (h.timers n hn)⟩
  · have hc : fd' ≠ fd := by
      rintro rfl
      exact hfd (io.close_epoll fd')
    rw [hkeep fd' hc]
    refine h.epolled fd' fun hn => hfd ?_
    exact (Function.update_of_ne hc _ _).trans hn
  · have hc : fd' ≠ fd := by
      rintro rfl
      exact hfd (View.free_delete h.rings.ok fd')
    rw [hkeep fd' hc]
    exact h'.wheeled fd' hfd

theorem change (h : io.Tended w) (hc : Io.Change t T C io io') :
    ∃ w', io'.Tended w' ∧ Io.SamePlaces T w w' := by
  have hsame : Io.SamePlaces T w w := fun _ _ _ => Iff.rfl
  have hdel : ∀ {fd}, T fd → Io.SamePlaces T w (w.delete fd) := by
    intro fd hT fd' i hfd
    rw [View.mem_delete h.rings.ok]
    refine and_iff_right ?_
    rintro rfl
    exact hfd hT
  cases hc with
  | @record fd r r' hT hr htask =>
      refine ⟨w, h.setInner r' hr fun hne => ?_, hsame⟩
      rcases htask with h1 | h1
      · rwa [h1, ← Fds.taskOf_eq hr]
      · rw [h1]
        exact Option.some_ne_none t
  | @watch fd events ok hT htask =>
      refine ⟨w, ?_, hsame⟩
      unfold Io.addEvents
      split_ifs
      · refine ⟨h.rings, fun fd' hfd => ?_, h.wheeled, h.socks, h.timers⟩
        by_cases hc : fd' = fd
        · rw [hc]
          exact htask ▸ Option.some_ne_none t
        · exact h.epolled fd' (by simpa [Function.update_of_ne hc] using hfd)
      · exact h
  | @unwatch fd hT =>
      refine ⟨w, ⟨h.rings, fun fd' hfd => h.epolled fd' fun hn => hfd ?_, h.wheeled, h.socks,
        h.timers⟩, hsame⟩
      show Function.update io.epoll fd none fd' = none
      rw [Function.update_apply, hn, ite_self]
  | @link fd timeout hT htask =>
      unfold Io.wheelUpdateElement
      split_ifs
      · exact ⟨w, h, hsame⟩
      · have hR := rings_delete h.rings fd
        have hfree := View.free_delete h.rings.ok fd
        refine ⟨_, h.relink (rings_addAfter hR hfree) fun fd' hfd => ?_, fun fd' i hfd => ?_⟩
        · obtain ⟨i, hm⟩ := not_forall_not.mp hfd
          rcases View.mem_addAfter.mp hm with ⟨rfl, -⟩ | hm
          · exact .inr (htask ▸ Option.some_ne_none t)
          · exact .inl fun hf => hf i ((View.mem_delete h.rings.ok).mp hm).2
        · have hc : fd' ≠ fd := by
            rintro rfl
            exact hfd hT
          refine View.mem_addAfter.trans ((or_iff_right fun h => hc h.1).trans ?_)
          exact hdel hT fd' i hfd
  | unlink hT => exact ⟨_, h.unlink _, hdel hT⟩
  | socket hT =>
      refine ⟨w, h.newRecord (h.socks _ le_rfl) rfl rfl rfl (fun n hn => ?_) (fun n hn => ⟨hn, by simp⟩),
        hsame⟩
      have hn' : io.socks + 1 ≤ n := hn
      exact ⟨by omega, by simp; omega⟩
  | openTimer hT =>
      refine ⟨w, h.newRecord (h.timers _ le_rfl) rfl rfl rfl (fun n hn => ⟨hn, by simp⟩) (fun n hn => ?_),
        hsame⟩
      have hn' : io.timers + 1 ≤ n := hn
      exact ⟨by omega, by simp; omega⟩
  | close hT hC => exact ⟨_, h.close _, hdel hT⟩

theorem changes (h : io.Tended w) (hc : Io.Changes t T C io io') :
    ∃ w', io'.Tended w' ∧ Io.SamePlaces T w w' := by
  induction hc with
  | refl => exact ⟨w, h, fun _ _ _ => Iff.rfl⟩
  | tail _ hc ih =>
      obtain ⟨w₁, h₁, hs₁⟩ := ih
      obtain ⟨w₂, h₂, hs₂⟩ := h₁.change hc
      exact ⟨w₂, h₂, fun fd i hfd => (hs₂ fd i hfd).trans (hs₁ fd i hfd)⟩

theorem rotate (h : io.Tended w) : io.wheelRotate.Tended w :=
  ⟨h.rings, h.epolled, h.wheeled, h.socks, h.timers⟩

end Io.Tended

namespace Io.Changes

variable {io io' : Io} {t : Tid} {T C : Fd → Prop} {fd : Fd}

/-- Only the timeout task turns the wheel. -/
theorem loc_eq (h : Changes t T C io io') : io'.loc = io.loc := by
  induction h with
  | refl => rfl
  | @tail io₁ io₂ _ hc ih =>
      rw [← ih]
      cases hc with
      | watch events ok =>
          unfold Io.addEvents
          split_ifs <;> rfl
      | link timeout =>
          unfold Io.wheelUpdateElement
          split_ifs <;> rfl
      | record | unwatch | unlink | socket | openTimer | close => rfl

/-- Only a descriptor that is closed loses its record. -/
theorem known (h : Changes t T C io io') (hC : ¬C fd) (hfd : io.ifd fd ≠ none) : io'.ifd fd ≠ none := by
  have hset : ∀ {io : Io} (fd' : Fd) (r : InnerFd), io.ifd fd ≠ none →
      (io.setInner fd' r).ifd fd ≠ none := by
    intro io fd' r h
    by_cases hc : fd = fd'
    · subst hc
      rw [Io.setInner_self]
      exact Option.some_ne_none r
    · rwa [io.setInner_of_ne r hc]
  induction h with
  | refl => exact hfd
  | @tail io₁ io₂ _ hc ih =>
      cases hc with
      | record r' => exact hset _ r' ih
      | watch events ok => rwa [Io.addEvents_ifd]
      | link timeout => rwa [(Io.wheelUpdateElement_frame ..).1]
      | unwatch | unlink => exact ih
      | socket | openTimer => exact hset _ _ ih
      | @close fd' hT hc =>
          have hne : fd ≠ fd' := by
            rintro rfl
            exact hC hc
          show Function.update io₁.ifd fd' none fd ≠ none
          rwa [Function.update_of_ne hne]

end Io.Changes

end Libcask.Sched
