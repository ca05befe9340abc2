import Libcask.Sched

/-! # Who looks after the descriptors

A descriptor that is in the epoll set, or whose link is on the time wheel, names a task in its
`inner_fd`.  `Fds` says that this task is suspended in a call that will take the descriptor out again
when it goes on; so an event or a timeout resumes a task that waits for it.

`fds_step` keeps this for every step of the system but two: a `co_poll` with a timeout of its own
(`timed`) on a descriptor that is on the wheel for another task, and an `event_poll` that fails on
such a descriptor.  Both overwrite the task in the `inner_fd` and leave the link on the wheel
(`noStaleLink` rules them out). -/

namespace Libcask.Sched

/-- The task that the `inner_fd` names. -/
def Io.taskOf (io : Io) (fd : Fd) : Option Tid := (io.ifd fd).bind InnerFd.task

theorem Io.taskOf_setInner (io : Io) (fd : Fd) (r : InnerFd) :
    (io.setInner fd r).taskOf fd = r.task := by
  simp [Io.taskOf, Io.setInner]

theorem Io.taskOf_addEvents (io : Io) (fd fd' : Fd) (events : Events) (ok : Bool) :
    (io.addEvents fd events ok).taskOf fd' = io.taskOf fd' := by
  unfold Io.addEvents
  split_ifs <;> rfl

theorem Io.close_epoll (io : Io) (fd : Fd) : (io.close fd).epoll fd = none := Function.update_self ..

namespace Cont

/-- The task will take the descriptor out of the epoll set, or close it. -/
def Watches : Cont → Fd → Prop
  | .eventPoll fd' _, fd => fd = fd'
  | .coPoll fds _ tfd, fd => (∃ p ∈ fds, fd = .sock p.fd) ∨ tfd = some fd
  | .condWaitTill _ tfd, fd => tfd = some fd
  | _, _ => False

/-- The task will take the descriptor off the wheel, or close it. -/
def Wheels : Cont → Fd → Prop
  | .eventPoll fd' _, fd => fd = fd'
  | .coPoll fds timed tfd, fd => (timed = false ∧ ∃ p ∈ fds, fd = .sock p.fd) ∨ tfd = some fd
  | .condWaitTill _ tfd, fd => tfd = some fd
  | _, _ => False

end Cont

/-- Every descriptor in the epoll set or on the wheel has a task that will take it out. -/
structure Fds (io : Io) (cont : Tid → Cont) (w : View ℕ Fd) : Prop where
  rings : Rings io.wheel w
  watched : ∀ fd, io.epoll fd ≠ none → ∃ t, io.taskOf fd = some t ∧ (cont t).Watches fd
  wheeled : ∀ fd, ¬w.Free fd → ∃ t, io.taskOf fd = some t ∧ (cont t).Wheels fd
  socks : ∀ n, io.socks ≤ n → io.ifd (.sock n) = none
  timers : ∀ n, io.timers ≤ n → io.ifd (.timer n) = none

namespace Fds

variable {io io' : Io} {cont : Tid → Cont} {w : View ℕ Fd} {t : Tid} {fd : Fd} {c : Cont}

/-- The task `t` has nothing left to take out. -/
def Clear (io : Io) (cont : Tid → Cont) (w : View ℕ Fd) (t : Tid) : Prop :=
  ∀ fd, ((cont t).Watches fd → io.epoll fd = none) ∧ ((cont t).Wheels fd → w.Free fd)

/-- A task that has nothing left to take out goes anywhere. -/
theorem release (h : Fds io cont w) (hclear : Clear io cont w t) (c : Cont) :
    Fds io (Function.update cont t c) w := by
  refine ⟨h.rings, fun fd hfd => ?_, fun fd hfd => ?_, h.socks, h.timers⟩
  · obtain ⟨u, hu, hw⟩ := h.watched fd hfd
    have hut : u ≠ t := by
      rintro rfl
      exact hfd ((hclear fd).1 hw)
    exact ⟨u, hu, by rwa [Function.update_of_ne hut]⟩
  · obtain ⟨u, hu, hw⟩ := h.wheeled fd hfd
    have hut : u ≠ t := by
      rintro rfl
      exact hfd ((hclear fd).2 hw)
    exact ⟨u, hu, by rwa [Function.update_of_ne hut]⟩

/-- A new record names a task that looks after the descriptor, if it needs one. -/
theorem setInner (h : Fds io cont w) {r : InnerFd} (hold : io.ifd fd ≠ none)
    (hw : io.epoll fd ≠ none → ∃ t, r.task = some t ∧ (cont t).Watches fd)
    (hwh : ¬w.Free fd → ∃ t, r.task = some t ∧ (cont t).Wheels fd) :
    Fds (io.setInner fd r) cont w := by
  have hself := io.taskOf_setInner fd r
  have hne : ∀ {fd'}, fd' ≠ fd → (io.setInner fd r).taskOf fd' = io.taskOf fd' := by
    intro fd' hfd
    simp [Io.taskOf, Io.setInner, Function.update_of_ne hfd]
  have hold' : ∀ {fd'}, io.ifd fd' = none → (io.setInner fd r).ifd fd' = none := by
    intro fd' hn
    have hc : fd' ≠ fd := by
      rintro rfl
      exact hold hn
    exact (Function.update_of_ne hc _ _).trans hn
  refine ⟨h.rings, fun fd' hfd => ?_, fun fd' hfd => ?_, fun n hn => hold' (h.socks n hn),
    fun n hn => hold' (h.timers n hn)⟩
  · by_cases hc : fd' = fd
    · subst hc
      rw [hself]
      exact hw hfd
    · rw [hne hc]
      exact h.watched fd' hfd
  · by_cases hc : fd' = fd
    · subst hc
      rw [hself]
      exact hwh hfd
    · rw [hne hc]
      exact h.wheeled fd' hfd

theorem taskOf_eq {r : InnerFd} (hr : io.ifd fd = some r) : io.taskOf fd = r.task := by
  rw [Io.taskOf, hr]
  rfl

/-- A new record that names the same task. -/
theorem setInner_same (h : Fds io cont w) {r : InnerFd} (r' : InnerFd) (hr : io.ifd fd = some r)
    (htask : r'.task = r.task) : Fds (io.setInner fd r') cont w := by
  have hself := taskOf_eq hr
  refine h.setInner (by rw [hr]; exact Option.some_ne_none r) (fun hfd => ?_) fun hfd => ?_
  · rw [htask, ← hself]
    exact h.watched fd hfd
  · rw [htask, ← hself]
    exact h.wheeled fd hfd

/-- A new record that names a task which looks after the descriptor. -/
theorem setInner_task (h : Fds io cont w) {r : InnerFd} (r' : InnerFd) (hr : io.ifd fd = some r)
    (htask : r'.task = some t) (hw : (cont t).Watches fd)
    (hwh : (cont t).Wheels fd ∨ w.Free fd) : Fds (io.setInner fd r') cont w := by
  refine h.setInner (by rw [hr]; exact Option.some_ne_none r) (fun _ => ⟨t, htask, hw⟩) fun hfd => ?_
  exact ⟨t, htask, hwh.resolve_right hfd⟩

theorem addEvents (h : Fds io cont w) (htask : io.taskOf fd = some t) (hw : (cont t).Watches fd)
    (events : Events) (ok : Bool) : Fds (io.addEvents fd events ok) cont w := by
  unfold Io.addEvents
  split_ifs
  · refine ⟨h.rings, fun fd' hfd => ?_, h.wheeled, h.socks, h.timers⟩
    by_cases hc : fd' = fd
    · subst hc
      exact ⟨t, htask, hw⟩
    · exact h.watched fd' (by simpa [Function.update_of_ne hc] using hfd)
  · exact h

theorem deleteEvents (h : Fds io cont w) (fd : Fd) : Fds (io.deleteEvents fd) cont w := by
  refine ⟨h.rings, fun fd' hfd => ?_, h.wheeled, h.socks, h.timers⟩
  have hc : fd' ≠ fd := by
    rintro rfl
    exact hfd (Function.update_self ..)
  exact h.watched fd' (by simpa [Io.deleteEvents, Function.update_of_ne hc] using hfd)

theorem not_free_delete {w : View ℕ Fd} (hw : w.Ok) {x : Fd} (hx : ¬(w.delete fd).Free x) :
    ¬w.Free x :=
  fun hf => hx fun i hm => hf i ((View.mem_delete hw).mp hm).2

theorem wheelDeleteElement (h : Fds io cont w) (fd : Fd) :
    Fds (io.wheelDeleteElement fd) cont (w.delete fd) :=
  ⟨rings_delete h.rings fd, h.watched, fun fd' hfd => h.wheeled fd' (not_free_delete h.rings.ok hfd),
    h.socks, h.timers⟩

theorem wheelRotate (h : Fds io cont w) : Fds io.wheelRotate cont w :=
  ⟨h.rings, h.watched, h.wheeled, h.socks, h.timers⟩

theorem wheelUpdateElement (h : Fds io cont w) (htask : io.taskOf fd = some t)
    (hw : (cont t).Wheels fd) (timeout : ℤ) :
    ∃ w', Fds (io.wheelUpdateElement fd timeout) cont w' := by
  unfold Io.wheelUpdateElement
  split_ifs
  · exact ⟨w, h⟩
  · have hfree := View.free_delete h.rings.ok fd
    refine ⟨_, rings_addAfter (rings_delete h.rings fd) hfree, h.watched, fun fd' hfd => ?_, h.socks,
      h.timers⟩
    by_cases hc : fd' = fd
    · subst hc
      exact ⟨t, htask, hw⟩
    · apply h.wheeled fd'
      intro hf
      apply hfd
      intro i hm
      rcases View.mem_addAfter.mp hm with ⟨hc', -⟩ | hm
      · exact hc hc'
      · exact hf i ((View.mem_delete h.rings.ok).mp hm).2

/-- A descriptor without a record is neither in the epoll set nor on the wheel. -/
theorem free_of_unknown (h : Fds io cont w) (hn : io.ifd fd = none) :
    io.epoll fd = none ∧ w.Free fd := by
  have hno : ∀ t, io.taskOf fd ≠ some t := by
    intro t
    rw [Io.taskOf, hn]
    exact fun hc => (nomatch hc)
  constructor
  · by_contra hc
    obtain ⟨t, ht, -⟩ := h.watched fd hc
    exact hno t ht
  · by_contra hc
    obtain ⟨t, ht, -⟩ := h.wheeled fd hc
    exact hno t ht

/-- A new descriptor. -/
theorem newRecord (h : Fds io cont w) (hn : io.ifd fd = none) (r : InnerFd)
    (hwheel : io'.wheel = io.wheel) (hepoll : io'.epoll = io.epoll)
    (hifd : io'.ifd = Function.update io.ifd fd (some r))
    (hsocks : ∀ n, io'.socks ≤ n → io.socks ≤ n ∧ fd ≠ .sock n)
    (htimers : ∀ n, io'.timers ≤ n → io.timers ≤ n ∧ fd ≠ .timer n) : Fds io' cont w := by
  obtain ⟨he, hf⟩ := h.free_of_unknown hn
  have hne : ∀ {fd'}, fd' ≠ fd → io'.ifd fd' = io.ifd fd' := by
    intro fd' hfd
    rw [hifd, Function.update_of_ne hfd]
  refine ⟨hwheel ▸ h.rings, fun fd' hfd => ?_, fun fd' hfd => ?_, fun n hn => ?_, fun n hn => ?_⟩
  · rw [hepoll] at hfd
    have hc : fd' ≠ fd := by
      rintro rfl
      exact hfd he
    rw [Io.taskOf, hne hc]
    exact h.watched fd' hfd
  · have hc : fd' ≠ fd := by
      rintro rfl
      exact hfd hf
    rw [Io.taskOf, hne hc]
    exact h.wheeled fd' hfd
  · obtain ⟨h1, h2⟩ := hsocks n hn
    rw [hne h2.symm]
    exact h.socks n h1
  · obtain ⟨h1, h2⟩ := htimers n hn
    rw [hne h2.symm]
    exact h.timers n h1

theorem openTimer (h : Fds io cont w) : Fds io.openTimer.1 cont w := by
  refine h.newRecord (h.timers _ le_rfl) _ rfl rfl rfl (fun n hn => ⟨hn, by simp⟩) fun n hn => ?_
  have hn' : io.timers + 1 ≤ n := hn
  exact ⟨by omega, by simp; omega⟩

theorem close (h : Fds io cont w) (fd : Fd) : Fds (io.close fd) cont (w.delete fd) := by
  have hfree := View.free_delete h.rings.ok fd
  have hne : ∀ {fd'}, fd' ≠ fd → (io.close fd).taskOf fd' = io.taskOf fd' := by
    intro fd' hfd
    simp [Io.taskOf, Io.close, Io.wheelDeleteElement, Function.update_of_ne hfd]
  have hold : ∀ {fd'}, io.ifd fd' = none → (io.close fd).ifd fd' = none := by
    intro fd' hn
    simp [Io.close, Io.wheelDeleteElement, Function.update_apply, hn]
  refine ⟨rings_delete h.rings fd, fun fd' hfd => ?_, fun fd' hfd => ?_, fun n hn => hold (h.socks n hn),
    fun n hn => hold (h.timers n hn)⟩
  · have hc : fd' ≠ fd := by
      rintro rfl
      exact hfd (Function.update_self ..)
    rw [hne hc]
    exact h.watched fd' (by simpa [Io.close, Io.wheelDeleteElement, Function.update_of_ne hc] using hfd)
  · have hc : fd' ≠ fd := by
      rintro rfl
      exact hfd hfree
    rw [hne hc]
    exact h.wheeled fd' (not_free_delete h.rings.ok hfd)

/-! ### The parts of the calls -/

/-- `event_poll` succeeds: the descriptor is in the epoll set, and on the wheel if it has a
timeout. -/
theorem eventPoll_ok (h : Fds io cont w) {events : Events} {b : Bool}
    (e : io.eventPoll t fd events true = some (io', b)) (hw : (cont t).Watches fd)
    (hwh : (cont t).Wheels fd) : b = true ∧ ∃ w', Fds io' cont w' := by
  unfold Io.eventPoll at e
  cases hr : io.ifd fd with
  | none => simp [hr] at e
  | some r =>
      rw [hr] at e
      obtain ⟨rfl, rfl⟩ := Prod.mk.inj (Option.some.inj e)
      refine ⟨rfl, ?_⟩
      have h1 := h.setInner_task { r with error := ieNone, task := some t } hr rfl hw (.inl hwh)
      have htask := io.taskOf_setInner fd { r with error := ieNone, task := some t }
      exact (h1.addEvents htask hw events true).wheelUpdateElement
        ((Io.taskOf_addEvents ..).trans htask) hwh r.timeout

/-- `event_poll` fails: the descriptor is not in the epoll set. -/
theorem eventPoll_fail (h : Fds io cont w) {events : Events} {b : Bool}
    (e : io.eventPoll t fd events false = some (io', b)) (hw : (cont t).Watches fd)
    (hwh : (cont t).Wheels fd) : b = false ∧ Fds io' cont w ∧ io'.epoll fd = none := by
  unfold Io.eventPoll at e
  cases hr : io.ifd fd with
  | none => simp [hr] at e
  | some r =>
      rw [hr] at e
      obtain ⟨rfl, rfl⟩ := Prod.mk.inj (Option.some.inj e)
      exact ⟨rfl, (h.setInner_task _ hr rfl hw (.inl hwh)).deleteEvents fd, Function.update_self ..⟩

theorem eventPollReturn (h : Fds io cont w) {r : Io.PollResult}
    (e : io.eventPollReturn fd = some (io', r)) :
    Fds io' cont (w.delete fd) ∧ io'.epoll fd = none := by
  unfold Io.eventPollReturn at e
  cases hr : io.ifd fd with
  | none => simp [hr] at e
  | some r =>
      rw [hr] at e
      obtain ⟨rfl, rfl⟩ := Prod.mk.inj (Option.some.inj e)
      exact ⟨(h.wheelDeleteElement fd).deleteEvents fd, Function.update_self ..⟩

theorem setTimer (h : Fds io cont w) {set added : Bool} (e : io.setTimer t fd set added = some io')
    (hw : (cont t).Watches fd) (hwh : (cont t).Wheels fd) : Fds io' cont w := by
  unfold Io.setTimer at e
  split_ifs at e
  · cases hr : io.ifd fd with
    | none => simp [hr] at e
    | some r =>
        rw [hr] at e
        obtain rfl := Option.some.inj e
        have h1 := h.setInner_task { r with task := some t, error := ieNone } hr rfl hw
          (.inl hwh)
        exact h1.addEvents (io.taskOf_setInner fd _) hw _ added
  · obtain rfl := Option.some.inj e
    exact h

theorem startTimer (h : Fds io cont w) {k : Io.TimerCall} {tfd : Option Fd}
    (e : io.startTimer t k = some (io', tfd))
    (hw : ∀ fd, tfd = some fd → (cont t).Watches fd ∧ (cont t).Wheels fd) : Fds io' cont w := by
  unfold Io.startTimer at e
  split_ifs at e
  · obtain ⟨io₁, he, h1⟩ := Option.map_eq_some_iff.mp e
    obtain ⟨rfl, rfl⟩ := Prod.mk.inj h1
    obtain ⟨hw1, hw2⟩ := hw _ rfl
    exact h.openTimer.setTimer he hw1 hw2
  · obtain ⟨rfl, -⟩ := Prod.mk.inj (Option.some.inj e)
    exact h

/-- Nothing is added to the epoll set or to the wheel. -/
structure Shrinks (io io' : Io) (w w' : View ℕ Fd) : Prop where
  epoll : ∀ fd, io.epoll fd = none → io'.epoll fd = none
  wheel : ∀ fd, w.Free fd → w'.Free fd

theorem Shrinks.refl : Shrinks io io w w := ⟨fun _ => id, fun _ => id⟩

theorem Shrinks.trans {io'' : Io} {w' w'' : View ℕ Fd} (h1 : Shrinks io io' w w')
    (h2 : Shrinks io' io'' w' w'') : Shrinks io io'' w w'' :=
  ⟨fun fd h => h2.epoll fd (h1.epoll fd h), fun fd h => h2.wheel fd (h1.wheel fd h)⟩

theorem free_delete_of_free {w : View ℕ Fd} (hw : w.Ok) {x : Fd} (hx : w.Free x) :
    (w.delete fd).Free x := fun i hm => hx i ((View.mem_delete hw).mp hm).2

/-- `is_timeout_timer` and `close_timer`. -/
theorem stopTimer (h : Fds io cont w) (tfd : Option Fd) :
    ∃ w', Fds (io.stopTimer tfd).1 cont w' ∧ Shrinks io (io.stopTimer tfd).1 w w' ∧
      ∀ fd, tfd = some fd → (io.stopTimer tfd).1.epoll fd = none ∧ w'.Free fd := by
  cases tfd with
  | none => exact ⟨w, h, .refl, fun _ hc => (nomatch hc)⟩
  | some fd =>
      refine ⟨_, h.close fd, ⟨fun fd' he => ?_, fun _ => free_delete_of_free h.rings.ok⟩, ?_⟩
      · simp [Io.stopTimer, Io.close, Io.wheelDeleteElement, Function.update_apply, he]
      · intro fd' hfd
        obtain rfl := Option.some.inj hfd
        exact ⟨Function.update_self .., View.free_delete h.rings.ok fd⟩

/-- The first loop of `co_poll`. -/
theorem coPollAdd {timed : Bool} : ∀ {fds : List (PollFd × Bool)} {io : Io} {w : View ℕ Fd},
    Fds io cont w → io.coPollAdd t timed fds = some io' →
    (∀ p ∈ fds, (cont t).Watches (.sock p.1.fd) ∧
      ((cont t).Wheels (.sock p.1.fd) ∨ timed = true ∧ w.Free (.sock p.1.fd))) →
    ∃ w', Fds io' cont w'
  | [], io, w, h, e, _ => by
      obtain rfl := Option.some.inj e
      exact ⟨w, h⟩
  | (p, ok) :: fds, io, w, h, e, hfds => by
      obtain ⟨hp, hrest⟩ := List.forall_mem_cons.mp hfds
      unfold Io.coPollAdd at e
      cases hr : io.ifd (.sock p.fd) with
      | none => simp [hr] at e
      | some r =>
          rw [hr] at e
          have h1 := h.setInner_task { r with task := some t, error := ieNone } hr rfl hp.1
            (hp.2.imp id And.right)
          have htask := io.taskOf_setInner (.sock p.fd) { r with task := some t, error := ieNone }
          have h2 := h1.addEvents htask hp.1 p.events ok
          cases timed with
          | true => exact coPollAdd h2 e hrest
          | false =>
              have hwh := hp.2.resolve_right (by simp)
              obtain ⟨w', h3⟩ := h2.wheelUpdateElement ((Io.taskOf_addEvents ..).trans htask) hwh
                r.timeout
              refine coPollAdd h3 e fun q hq => ⟨(hrest q hq).1, ?_⟩
              exact .inl ((hrest q hq).2.resolve_right (by simp))

/-- The second loop of `co_poll` takes every descriptor of the array out of the epoll set, and off
the wheel if the poll put it there. -/
theorem coPollCollect {timed fired : Bool} {array : List PollFd} {n : ℕ} :
    ∀ {rest : List PollFd} {io : Io} {done : List PollFd} {j : ℕ} {w : View ℕ Fd},
    Fds io cont w → io.coPollCollect timed fired done j rest = some (io', array, n) →
    ∃ w', Fds io' cont w' ∧ Shrinks io io' w w' ∧ ∀ p ∈ rest,
      io'.epoll (.sock p.fd) = none ∧ (timed = false → w'.Free (.sock p.fd))
  | [], io, done, j, w, h, e => by
      obtain ⟨rfl, -⟩ := Prod.mk.inj (Option.some.inj e)
      exact ⟨w, h, .refl, by simp⟩
  | p :: rest, io, done, j, w, h, e => by
      unfold Io.coPollCollect at e
      cases hr : io.ifd (.sock p.fd) with
      | none => simp [hr] at e
      | some r =>
          rw [hr] at e
          dsimp only at e
          -- the descriptor is taken out, whatever is recorded for it
          have hout : ∃ w₁, Fds ((if timed = true then io else
              io.wheelDeleteElement (.sock p.fd)).deleteEvents (.sock p.fd)) cont w₁ ∧
              (∀ fd, w.Free fd → w₁.Free fd) ∧ (timed = false → w₁.Free (.sock p.fd)) := by
            cases timed with
            | true => exact ⟨w, h.deleteEvents _, fun _ => id, by simp⟩
            | false =>
                exact ⟨_, (h.wheelDeleteElement _).deleteEvents _,
                  fun _ => free_delete_of_free h.rings.ok, fun _ => View.free_delete h.rings.ok _⟩
          obtain ⟨w₁, h1, hfree, hp⟩ := hout
          generalize hio : (if timed = true then io else
            io.wheelDeleteElement (.sock p.fd)).deleteEvents (.sock p.fd) = io₁ at e h1
          have hepoll : ∀ fd, io₁.epoll fd = if fd = .sock p.fd then none else io.epoll fd := by
            intro fd
            rw [← hio]
            cases timed <;> simp [Io.deleteEvents, Io.wheelDeleteElement, Function.update_apply]
          have hifd : io₁.ifd (.sock p.fd) = some r := by
            rw [← hr, ← hio]
            cases timed <;> rfl
          -- what is left of the loop starts from `io₁`, up to an error recorded in it
          have hnext : ∀ {io₂ : Io}, Fds io₂ cont w₁ → io₂.epoll = io₁.epoll →
              ∀ {done' : List PollFd} {j' : ℕ},
              io₂.coPollCollect timed fired done' j' rest = some (io', array, n) →
              ∃ w', Fds io' cont w' ∧ Shrinks io io' w w' ∧ ∀ q ∈ p :: rest,
                io'.epoll (.sock q.fd) = none ∧ (timed = false → w'.Free (.sock q.fd)) := by
            intro io₂ h2 he2 done' j' e2
            obtain ⟨w', h3, hs, hrest⟩ := coPollCollect h2 e2
            refine ⟨w', h3, Shrinks.trans ⟨fun fd hfd => ?_, hfree⟩ hs, ?_⟩
            · rw [he2, hepoll, hfd, ite_self]
            · refine List.forall_mem_cons.mpr ⟨⟨hs.epoll _ ?_, fun ht => hs.wheel _ (hp ht)⟩, hrest⟩
              rw [he2, hepoll, if_pos rfl]
          split_ifs at e
          · exact hnext (h1.setInner_same { r with error := { ieNone with timeout := true } } hifd rfl)
              rfl e
          · exact hnext h1 rfl e
          · exact hnext h1 rfl e

end Fds

/-! ### Events and the passes of the loops -/

section passes
variable {s s' : St} {t : Tid}

/-- What `event_wait` does for one event. -/
theorem eventWait_eq {fd : Fd} {ev : Events} (e : s.eventWait fd ev = some s') :
    s.io.epoll fd ≠ none ∧ ∃ r, s.io.ifd fd = some r ∧ s' = { s with
      io := (s.io.setInner fd { r with error := eventsToError ev }).deleteEvents fd
      q := r.task.elim s.q s.q.coResume } := by
  obtain ⟨hepoll, e⟩ := Option.ite_none_left_eq_some.mp e
  refine ⟨hepoll, ?_⟩
  cases hr : s.io.ifd fd with
  | none => simp [hr] at e
  | some r =>
      refine ⟨r, rfl, ?_⟩
      simp only [hr] at e
      cases ht : r.task with
      | none | some u =>
          simp only [ht] at e
          exact (Option.some.inj e).symm

/-- The loop of `co_cond_broadcast` ends, or unlinks and resumes the task at its place. -/
theorem broadcastLoop_eq {ls : Node Head Tid} (e : s.broadcastLoop t ls = some s') :
    listEmpty s.q.links ls = true ∧ s' = s.callReturn t .void ∨
    listEmpty s.q.links ls = false ∧ ∃ u, ls = .elem u ∧
      s' = { s with q := { s.q with links := ListOps.delete s.q.links u }.coResume u }.goto t
        (.broadcast (listNext s.q.links ls)) := by
  unfold St.broadcastLoop at e
  split_ifs at e with hempty
  · exact .inl ⟨hempty, (Option.some.inj e).symm⟩
  · cases ls with
    | head h => cases e
    | elem u => exact .inr ⟨Bool.eq_false_of_not_eq_true hempty, u, rfl, (Option.some.inj e).symm⟩

/-- The inner loop of the timeout task ends, or resumes the task of the descriptor at its place. -/
theorem timeoutLoop_eq {ls : Node ℕ Fd} (e : s.timeoutLoop t ls = some s') :
    listEmpty s.io.wheel ls = true ∧ s' = s.goto t .timeoutRead ∨
    listEmpty s.io.wheel ls = false ∧ ∃ fd r u, ls = .elem fd ∧ s.io.ifd fd = some r ∧
      r.task = some u ∧ s' = { s with
        q := s.q.coResume u
        io := (s.io.setInner fd
          { r with error := { r.error with timeout := true } }).wheelDeleteElement fd }.goto t
        (.timeoutList (listNext s.io.wheel ls)) := by
  unfold St.timeoutLoop at e
  split_ifs at e with hempty
  · exact .inl ⟨hempty, (Option.some.inj e).symm⟩
  · refine .inr ⟨Bool.eq_false_of_not_eq_true hempty, ?_⟩
    cases ls with
    | head i => cases e
    | elem fd =>
        cases hr : s.io.ifd fd with
        | none => simp [hr] at e
        | some r =>
            cases ht : r.task with
            | none => simp [hr, ht] at e
            | some u =>
                refine ⟨fd, r, u, rfl, hr, ht, ?_⟩
                simp only [hr, ht] at e
                rw [ht]
                exact (Option.some.inj e).symm

end passes

/-! ### The steps -/

/-- A call that overwrites the task of a descriptor without looking after its link finds the link off
the wheel: a `co_poll` with a timeout of its own, and an `event_poll` that fails. -/
def noStaleLink (s : St) : Act → Bool
  | .user (.coPoll fds true _) => fds.all fun p => !decide (s.io.OnWheel (.sock p.1.fd))
  | .user (.eventPoll n _ false) => !decide (s.io.OnWheel (.sock n))
  | _ => true

namespace Fds

variable {s s' : St} {cont : Tid → Cont} {w : View ℕ Fd} {t : Tid} {fd : Fd}

/-- The continuations that look after no descriptor. -/
def Idle (c : Cont) : Prop := ∀ fd, ¬c.Watches fd ∧ ¬c.Wheels fd

theorem Clear.of_idle {io : Io} (h : Idle (cont t)) : Clear io cont w t :=
  fun fd => ⟨fun hw => absurd hw (h fd).1, fun hw => absurd hw (h fd).2⟩

theorem Clear.of_cont {io : Io} {c : Cont} (hc : cont t = c) (h : Idle c) : Clear io cont w t :=
  .of_idle (hc ▸ h)

theorem not_onWheel {io : Io} (h : Fds io cont w) (hn : ¬io.OnWheel fd) : w.Free fd := by
  unfold Io.OnWheel at hn
  rw [linked_iff h.rings] at hn
  exact not_not.mp hn

/-- The loop of `co_mutex_lock` does not touch the descriptors. -/
theorem mutexLoop (h : Fds s.io s.cont w) (hc : Clear s.io s.cont w t) (m : ℕ) (r : Ret) :
    Fds (s.mutexLoop t m r).io (s.mutexLoop t m r).cont w := by
  unfold St.mutexLoop
  cases s.lock m with
  | none => exact h.release hc .user
  | some u => exact h.release hc (.mutexLock m r)

theorem coMutexLock (h : Fds s.io s.cont w) (hc : Clear s.io s.cont w t) {m : ℕ} {r : Ret}
    (e : s.coMutexLock t m r = some s') : Fds s'.io s'.cont w := by
  obtain ⟨-, e⟩ := Option.ite_none_left_eq_some.mp e
  obtain rfl := Option.some.inj e
  exact h.mutexLoop hc m r

theorem coMutexUnlock_eq {m : ℕ} (e : s.coMutexUnlock t m = some s') :
    s'.io = s.io ∧ s'.cont = s.cont := by
  obtain ⟨-, e⟩ := Option.ite_none_right_eq_some.mp e
  obtain rfl := Option.some.inj e
  exact ⟨rfl, rfl⟩

theorem coSemWait (h : Fds s.io s.cont w) (hc : Clear s.io s.cont w t) (i : ℕ) :
    Fds (s.coSemWait t i).io (s.coSemWait t i).cont w := by
  unfold St.coSemWait
  dsimp only
  split_ifs
  · exact h.release hc .user
  · exact h.release hc (.semWait i)
  · exact h.release hc .user

/-- The timeout task closes its timer and returns. -/
theorem timeoutExit (h : Fds s.io cont w)
    (hc : ∀ fd, (cont t).Watches fd ∨ (cont t).Wheels fd → fd = .wheelTimer)
    (hcont : Function.update cont t .user = Function.update s.cont t .user) :
    ∃ w', Fds (s.timeoutExit t).io (s.timeoutExit t).cont w' := by
  refine ⟨w.delete .wheelTimer, ?_⟩
  show Fds (s.io.close .wheelTimer) (Function.update s.cont t .user) (w.delete .wheelTimer)
  rw [← hcont]
  refine (h.close .wheelTimer).release (fun fd => ⟨fun hw => ?_, fun hw => ?_⟩) .user
  · rw [hc fd (.inl hw)]
    exact s.io.close_epoll .wheelTimer
  · rw [hc fd (.inr hw)]
    exact View.free_delete h.rings.ok _

/-- The callers of `event_poll` go on, when it has taken the descriptor out. -/
theorem eventPollDone (h : Fds s.io s.cont w) (hc : Clear s.io s.cont w t) (r : Io.PollResult)
    (read : Bool) (caller : Caller) :
    ∃ w', Fds (s.eventPollDone t fd r read caller).io (s.eventPollDone t fd r read caller).cont w' := by
  cases caller with
  | user => exact ⟨w, h.release hc .user⟩
  | sleep =>
      unfold St.eventPollDone
      dsimp only
      split_ifs
      · exact ⟨_, (h.release hc .user).close fd⟩
      · exact ⟨w, h.release hc .user⟩
  | timeoutTask =>
      unfold St.eventPollDone
      dsimp only
      split_ifs
      · exact ⟨w, (h.release hc _).wheelRotate⟩
      · refine (h.release hc .user).timeoutExit (fun fd hw => ?_) (Function.update_idem ..)
        rw [Function.update_self] at hw
        exact (hw.elim id id).elim

/-- `event_poll` by a task that looks after no other descriptor.  When it fails, the descriptor must
be off the wheel, unless it is the timer of the timeout task, which closes it. -/
theorem eventPoll {events : Events} {ok : Bool} {caller : Caller}
    (hidle : Idle (s.cont t)) (h : Fds s.io (Function.update s.cont t (.eventPoll fd caller)) w)
    (hfail : ok = false → w.Free fd ∨ caller = .timeoutTask ∧ fd = .wheelTimer)
    (e : s.eventPoll t fd events ok caller = some s') : ∃ w', Fds s'.io s'.cont w' := by
  have hself : Function.update s.cont t (.eventPoll fd caller) t = .eventPoll fd caller :=
    Function.update_self ..
  have hw : (Function.update s.cont t (.eventPoll fd caller) t).Watches fd := by
    rw [hself]
    exact rfl
  have hwh : (Function.update s.cont t (.eventPoll fd caller) t).Wheels fd := by
    rw [hself]
    exact rfl
  unfold St.eventPoll at e
  cases hp : s.io.eventPoll t fd events ok with
  | none => simp [hp] at e
  | some ib =>
      obtain ⟨io', b⟩ := ib
      rw [hp] at e
      cases ok with
      | true =>
          obtain ⟨rfl, w', h'⟩ := h.eventPoll_ok hp hw hwh
          obtain rfl := Option.some.inj e
          exact ⟨w', h'⟩
      | false =>
          obtain ⟨rfl, h', hep⟩ := h.eventPoll_fail hp hw hwh
          obtain rfl := Option.some.inj e
          rcases hfail rfl with hfree | ⟨rfl, rfl⟩
          · have hclear : Clear io' (Function.update s.cont t (.eventPoll fd caller)) w t := by
              intro fd'
              rw [hself]
              exact ⟨fun hc => hc ▸ hep, fun hc => hc ▸ hfree⟩
            have hback := h'.release hclear (s.cont t)
            rw [Function.update_idem, Function.update_eq_self] at hback
            exact eventPollDone (s := { s with io := io' }) hback (.of_idle hidle) .failed false caller
          · refine timeoutExit (s := { s with io := io' }) h' (fun fd hw => ?_) (Function.update_idem ..)
            rw [hself] at hw
            exact hw.elim id id

theorem Clear.eventPoll {io : Io} {caller : Caller} (hc : cont t = .eventPoll fd caller)
    (he : io.epoll fd = none) (hf : w.Free fd) : Clear io cont w t := by
  intro fd'
  rw [hc]
  exact ⟨fun hw => hw ▸ he, fun hw => hw ▸ hf⟩

/-- One pass of the inner loop of the timeout task. -/
theorem timeoutLoop (h : Fds s.io s.cont w) (hidle : Idle (s.cont t)) {ls : Node ℕ Fd}
    (e : s.timeoutLoop t ls = some s') : ∃ w', Fds s'.io s'.cont w' := by
  rcases timeoutLoop_eq e with ⟨-, rfl⟩ | ⟨-, fd, r, u, -, hr, -, rfl⟩
  · exact ⟨w, h.release (.of_idle hidle) _⟩
  · have h1 := h.setInner_same { r with error := { r.error with timeout := true } } hr rfl
    exact ⟨_, (h1.wheelDeleteElement fd).release (.of_idle hidle) _⟩

/-- `co_poll` after its context switch. -/
theorem coPollReturn (h : Fds s.io s.cont w) {fds : List PollFd} {timed : Bool} {tfd : Option Fd}
    (hc : s.cont t = .coPoll fds timed tfd) (e : s.coPollReturn t fds timed tfd = some s') :
    ∃ w', Fds s'.io s'.cont w' := by
  obtain ⟨w₁, h1, -, hout⟩ := h.stopTimer tfd
  unfold St.coPollReturn at e
  dsimp only at e
  cases hp : (s.io.stopTimer tfd).1.coPollCollect timed (s.io.stopTimer tfd).2 [] 0 fds with
  | none => simp [hp] at e
  | some x =>
      obtain ⟨io', array, j⟩ := x
      rw [hp] at e
      obtain rfl := Option.some.inj e
      obtain ⟨w₂, h2, hs, hfds⟩ := h1.coPollCollect hp
      refine ⟨w₂, h2.release (fun fd => ?_) .user⟩
      rw [hc]
      constructor
      · rintro (⟨p, hp, rfl⟩ | hfd)
        · exact (hfds p hp).1
        · exact hs.epoll fd (hout fd hfd).1
      · rintro (⟨ht, p, hp, rfl⟩ | hfd)
        · exact (hfds p hp).2 ht
        · exact hs.wheel fd (hout fd hfd).2

theorem goOn (h : Fds s.io s.cont w) {read : Bool} (e : s.goOn t read = some s') :
    ∃ w', Fds s'.io s'.cont w' := by
  unfold St.goOn at e
  cases hc : s.cont t with
  | user | timeoutRead => simp [hc] at e
  | mutexLock m r =>
      rw [hc] at e
      obtain rfl := Option.some.inj e
      exact ⟨w, h.mutexLoop (.of_cont hc fun _ => ⟨id, id⟩) m r⟩
  | condWait m =>
      rw [hc] at e
      exact ⟨w, h.coMutexLock (.of_cont hc fun _ => ⟨id, id⟩) e⟩
  | condWaitTill m tfd =>
      rw [hc] at e
      obtain ⟨w', h', -, hout⟩ := h.stopTimer tfd
      refine ⟨w', coMutexLock (s := { s with io := (s.io.stopTimer tfd).1 }) h' (fun fd => ?_) e⟩
      rw [hc]
      exact ⟨fun hw => (hout fd hw).1, fun hw => (hout fd hw).2⟩
  | semWait i =>
      rw [hc] at e
      obtain rfl := Option.some.inj e
      exact ⟨w, h.coSemWait (.of_cont hc fun _ => ⟨id, id⟩) i⟩
  | eventPoll fd caller =>
      rw [hc] at e
      cases hp : s.io.eventPollReturn fd with
      | none => simp [hp] at e
      | some x =>
          obtain ⟨io', r⟩ := x
          simp only [hp] at e
          obtain rfl := Option.some.inj e
          obtain ⟨h', he⟩ := h.eventPollReturn hp
          exact eventPollDone (s := { s with io := io' }) h'
            (.eventPoll hc he (View.free_delete h.rings.ok fd)) r read caller
  | coPoll fds timed tfd =>
      rw [hc] at e
      exact h.coPollReturn hc e
  | broadcast ls =>
      rw [hc] at e
      have hclear : Clear s.io s.cont w t := .of_cont hc fun _ => ⟨id, id⟩
      simp only [St.broadcastLoop] at e
      split_ifs at e
      · obtain rfl := Option.some.inj e
        exact ⟨w, h.release hclear .user⟩
      · cases ls with
        | head i => cases e
        | elem u =>
            obtain rfl := Option.some.inj e
            exact ⟨w, h.release hclear _⟩
  | timeoutList ls =>
      rw [hc] at e
      exact h.timeoutLoop (by rw [hc]; exact fun _ => ⟨id, id⟩) e

/-- `co_poll` up to its context switch. -/
theorem coPoll (h : Fds s.io s.cont w) (hidle : Idle (s.cont t)) {fds : List (PollFd × Bool)}
    {timed : Bool} {k : Io.TimerCall}
    (hfree : timed = true → ∀ p ∈ fds, w.Free (.sock p.1.fd))
    (e : s.coPoll t fds timed k = some s') : ∃ w', Fds s'.io s'.cont w' := by
  -- the loop keeps the invariant for the continuation that the call is going to have
  have hloop : ∀ {io' : Io} (tfd : Option Fd), s.io.coPollAdd t timed fds = some io' →
      ∃ w', Fds io' (Function.update s.cont t (.coPoll (fds.map Prod.fst) timed tfd)) w' := by
    intro io' tfd hp
    refine (h.release (.of_idle hidle) (.coPoll (fds.map Prod.fst) timed tfd)).coPollAdd hp ?_
    intro p hm
    have hmem : ∃ q ∈ fds.map Prod.fst, Fd.sock p.1.fd = .sock q.fd :=
      ⟨p.1, List.mem_map_of_mem hm, rfl⟩
    rw [Function.update_self]
    refine ⟨.inl hmem, ?_⟩
    cases timed with
    | true => exact .inr ⟨rfl, hfree rfl p hm⟩
    | false => exact .inl (.inl ⟨rfl, hmem⟩)
  unfold St.coPoll at e
  cases hp : s.io.coPollAdd t timed fds with
  | none => simp [hp] at e
  | some io₁ =>
      simp only [hp] at e
      split_ifs at e
      · cases hk : io₁.startTimer t k with
        | none => simp [hk] at e
        | some x =>
            obtain ⟨io₂, tfd⟩ := x
            simp only [hk] at e
            obtain rfl := Option.some.inj e
            obtain ⟨w', h'⟩ := hloop tfd hp
            refine ⟨w', h'.startTimer hk fun fd hfd => ?_⟩
            rw [Function.update_self]
            exact ⟨.inr hfd, .inr hfd⟩
      · obtain rfl := Option.some.inj e
        exact hloop none hp

/-- `co_sleep`. -/
theorem coSleep (h : Fds s.io s.cont w) (hidle : Idle (s.cont t)) {k : Io.TimerCall}
    {again ok : Bool} (e : s.coSleep t k again ok = some s') : ∃ w', Fds s'.io s'.cont w' := by
  unfold St.coSleep at e
  obtain ⟨-, e⟩ := Option.ite_none_right_eq_some.mp e
  dsimp only at e
  -- the timer is looked after by the continuation that `event_poll` is going to have
  have hfree : w.Free s.io.openTimer.2 := (h.free_of_unknown (h.timers _ le_rfl)).2
  have hself : Function.update s.cont t (.eventPoll s.io.openTimer.2 .sleep) t =
      .eventPoll s.io.openTimer.2 .sleep := Function.update_self ..
  have h1 := (h.release (.of_idle hidle) (.eventPoll s.io.openTimer.2 .sleep)).openTimer
  cases hset : s.io.openTimer.1.setTimer t s.io.openTimer.2 k.set k.added with
  | none => simp [hset] at e
  | some io' =>
      have h2 := h1.setTimer hset (by rw [hself]; exact rfl) (by rw [hself]; exact rfl)
      simp only [hset] at e
      split_ifs at e with hk hagain
      · exact eventPoll (s := { s with io := io' }) hidle h2 (fun _ => .inl hfree) e
      · obtain rfl := Option.some.inj e
        have h3 := (h2.close s.io.openTimer.2).release (.eventPoll hself (Io.close_epoll ..)
          (View.free_delete h2.rings.ok _)) .user
        rw [Function.update_idem] at h3
        exact ⟨_, h3⟩
      · obtain rfl := Option.some.inj e
        -- the timer is not set, so it is not in the epoll set
        have hio : s.io.openTimer.1 = io' := by
          simpa [Io.setTimer, hk] using hset
        have he : io'.epoll s.io.openTimer.2 = none := by
          rw [← hio]
          exact (h.free_of_unknown (h.timers _ le_rfl)).1
        have h3 := h2.release (.eventPoll hself he hfree) .user
        rw [Function.update_idem] at h3
        exact ⟨w, h3⟩

theorem coCondWaitTill (h : Fds s.io s.cont w) (hidle : Idle (s.cont t)) {c m : ℕ}
    {k : Io.TimerCall} (e : s.coCondWaitTill t c m k = some s') : ∃ w', Fds s'.io s'.cont w' := by
  unfold St.coCondWaitTill at e
  obtain ⟨-, e⟩ := Option.ite_none_left_eq_some.mp e
  cases hk : s.io.startTimer t k with
  | none => simp [hk] at e
  | some x =>
      obtain ⟨io', tfd⟩ := x
      simp only [hk] at e
      obtain ⟨s₁, e₁, rfl⟩ := Option.map_eq_some_iff.mp e
      obtain ⟨hio, hcont⟩ := coMutexUnlock_eq e₁
      refine ⟨w, ?_⟩
      show Fds s₁.io (Function.update s₁.cont t (.condWaitTill m tfd)) w
      rw [hio, hcont]
      refine (h.release (.of_idle hidle) (.condWaitTill m tfd)).startTimer hk fun fd hfd => ?_
      rw [Function.update_self]
      exact ⟨hfd, hfd⟩

theorem userAct (h : Fds s.io s.cont w) (hc : s.cont t = .user) {u : UserAct}
    (hok : noStaleLink s (.user u) = true) (e : userAct s t u = some s') :
    ∃ w', Fds s'.io s'.cont w' := by
  have hidle : Idle (s.cont t) := by
    rw [hc]
    exact fun _ => ⟨id, id⟩
  have hclear : Clear s.io s.cont w t := .of_idle hidle
  cases u with
  | create | yield | exit =>
      obtain rfl := Option.some.inj e
      exact ⟨w, h⟩
  | lock m => exact ⟨w, h.coMutexLock hclear e⟩
  | tryLock m =>
      obtain rfl := Option.some.inj e
      unfold St.coMutexTryLock
      cases s.lock m with
      | none | some u => exact ⟨w, h.release hclear .user⟩
  | unlock m =>
      obtain ⟨hio, hcont⟩ := coMutexUnlock_eq e
      rw [hio, hcont]
      exact ⟨w, h⟩
  | condWait c m =>
      obtain ⟨-, e⟩ := Option.ite_none_left_eq_some.mp e
      obtain ⟨s₁, e₁, rfl⟩ := Option.map_eq_some_iff.mp e
      obtain ⟨hio, hcont⟩ := coMutexUnlock_eq e₁
      refine ⟨w, ?_⟩
      show Fds s₁.io (Function.update s₁.cont t (.condWait m)) w
      rw [hio, hcont]
      exact h.release hclear _
  | condWaitTill c m k => exact h.coCondWaitTill hidle e
  | signal c | broadcast c =>
      obtain rfl := Option.some.inj e
      exact ⟨w, h.release hclear _⟩
  | semWait i =>
      obtain rfl := Option.some.inj e
      exact ⟨w, h.coSemWait hclear i⟩
  | semTryWait i =>
      obtain rfl := Option.some.inj e
      unfold St.coSemTryWait
      dsimp only
      split_ifs <;> exact ⟨w, h.release hclear .user⟩
  | semPost i =>
      obtain rfl := Option.some.inj e
      unfold St.coSemPost
      dsimp only
      split_ifs <;> exact ⟨w, h.release hclear .user⟩
  | socket =>
      obtain rfl := Option.some.inj e
      refine ⟨w, h.newRecord (h.socks _ le_rfl) _ rfl rfl rfl (fun n hn => ?_) fun n hn => ?_⟩
      · have hn' : s.io.socks + 1 ≤ n := hn
        exact ⟨by omega, by simp; omega⟩
      · exact ⟨hn, by simp⟩
  | listen n =>
      unfold Sched.userAct at e
      dsimp only at e
      cases hr : s.io.ifd (.sock n) with
      | none =>
          simp only [hr] at e
          obtain rfl := Option.some.inj e
          exact ⟨w, h⟩
      | some r =>
          simp only [hr] at e
          obtain rfl := Option.some.inj e
          exact ⟨w, h.setInner_same { r with timeout := -1 } hr rfl⟩
  | eventPoll n events ok =>
      refine eventPoll hidle (h.release hclear _) (fun hfail => .inl ?_) e
      subst hfail
      exact h.not_onWheel (by simpa [noStaleLink] using hok)
  | coPoll fds timed k =>
      refine h.coPoll hidle (fun ht p hp => ?_) e
      subst ht
      have hall := List.all_eq_true.mp hok p hp
      exact h.not_onWheel (by simpa using hall)
  | sleep k again ok => exact h.coSleep hidle e

theorem eventWait (h : Fds s.io s.cont w) {ev : Events} (e : s.eventWait fd ev = some s') :
    Fds s'.io s'.cont w := by
  obtain ⟨-, r, hr, rfl⟩ := eventWait_eq e
  exact (h.setInner_same { r with error := eventsToError ev } hr rfl).deleteEvents fd

theorem timeoutRead (h : Fds s.io s.cont w) (hc : s.cont t = .timeoutRead) {ok : Bool}
    {r : ReadResult} (e : timeoutRead s t ok r = some s') : ∃ w', Fds s'.io s'.cont w' := by
  have hidle : Idle (s.cont t) := by
    rw [hc]
    exact fun _ => ⟨id, id⟩
  cases r with
  | full =>
      obtain rfl := Option.some.inj e
      exact ⟨w, (h.release (.of_idle hidle) _).wheelRotate⟩
  | again => exact eventPoll hidle (h.release (.of_idle hidle) _) (fun _ => .inr ⟨rfl, rfl⟩) e
  | error =>
      obtain rfl := Option.some.inj e
      refine h.timeoutExit (fun fd hw => ?_) rfl
      exact hw.elim (fun hw => absurd hw (hidle fd).1) fun hw => absurd hw (hidle fd).2

theorem start (n : ℕ) (count : ℕ → ℕ) :
    Fds (start n count).io (start n count).cont (ListOps.empty : View ℕ Fd) := by
  refine ⟨rings_empty, fun fd h => absurd rfl h, fun fd h => ?_, fun n _ => rfl, fun n _ => rfl⟩
  exact absurd (fun i => List.not_mem_nil) h

end Fds

/-- Every step but the two of `noStaleLink` keeps every descriptor looked after. -/
theorem fds_step {s s' : St} {a : Act} (h : ∃ w, Fds s.io s.cont w) (hok : noStaleLink s a = true)
    (e : step s a = some s') : ∃ w, Fds s'.io s'.cont w := by
  obtain ⟨w, h⟩ := h
  unfold step at e
  cases hp : s.q.phase with
  | loop =>
      rw [hp] at e
      cases a with
      | event fd ev => exact ⟨w, h.eventWait e⟩
      | dispatch =>
          obtain ⟨q, -, rfl⟩ := Option.map_eq_some_iff.mp e
          exact ⟨w, h⟩
      | handlePrev | goOn r | timeoutRead r ok | user u => cases e
  | running t =>
      rw [hp] at e
      cases a with
      | goOn read => exact h.goOn e
      | timeoutRead r ok =>
          obtain ⟨hc, e⟩ := Option.ite_none_right_eq_some.mp e
          exact h.timeoutRead hc e
      | user u =>
          obtain ⟨hc, e⟩ := Option.ite_none_right_eq_some.mp e
          exact h.userAct hc hok e
      | handlePrev | event fd ev | dispatch => cases e
  | handle t =>
      rw [hp] at e
      cases a with
      | handlePrev =>
          obtain rfl := Option.some.inj e
          exact ⟨w, h⟩
      | event fd ev | dispatch | goOn r | timeoutRead r ok | user u => cases e

theorem fds_of_reach {s : St}
    (h : system.ReachVia (fun s a => noStaleLink s a = true) s) : ∃ w, Fds s.io s.cont w := by
  refine h.invariant (I := fun s => ∃ w, Fds s.io s.cont w) ?_ fun s a s' hs ha e => fds_step hs ha e
  rintro s ⟨n, count, rfl⟩
  exact ⟨_, Fds.start n count⟩

end Libcask.Sched
