import Libcask.IoWaiters

/-! # Timeouts and readiness

A task is the only one that waits for a descriptor.  `event_poll` returns `ETIME` when the timeout bit
is in the error word of the `inner_fd`; `event_wait` assigns that word, the timeout task adds to it.

* `timeout_never_masks`: if an event that says that the descriptor can be read or written was recorded,
  the result is not `ETIME`; in runs in which the timeout task does not take the descriptor off the
  wheel behind such an event (`noLateDrain`).
* `timeout_masks_event`: the event and the tick of the wheel in one batch of `epoll_wait`, in this
  order on the run queue, give `ETIME`. -/

namespace Libcask.Sched

variable {s s' : St} {v : View Head Tid} {a : Act} {t : Tid} {fd : Fd}

/-- The action polls the descriptor. -/
def Act.pollsOn (fd : Fd) : Act → Bool
  | .user (.eventPoll n _ _) => fd = .sock n
  | .user (.coPoll fds _ _) => fds.any fun p => fd = .sock p.1.fd
  | _ => false

theorem not_polls_of_pollsOn (h : a.pollsOn fd = false) : ∀ n, fd = .sock n → ¬s.polls a fd := by
  rintro n rfl hpoll
  cases a with
  | handlePrev | event fd' ev' | dispatch | goOn b => exact hpoll
  | timeoutRead r ok => cases hpoll
  | user u =>
      cases u with
      | eventPoll m events ok => exact of_decide_eq_false h hpoll
      | coPoll fds timed k =>
          rcases hpoll with ⟨p, hm, hp⟩ | ⟨m, -, hp⟩
          · exact Bool.false_ne_true (h.symm.trans (List.any_eq_true.mpr ⟨p, hm, decide_eq_true hp⟩))
          · cases hp
      | condWaitTill c m k | sleep k again ok =>
          obtain ⟨m, -, hp⟩ := hpoll
          cases hp
      | create | yield | exit | lock m | tryLock m | unlock m | condWait c m | signal c | broadcast c
      | semWait i | semTryWait i | semPost i | socket | listen n => exact hpoll

/-- The step is not a pass of the timeout task's loop that times the descriptor out although it can be
read or written. -/
def noLateDrain (fd : Fd) (s : St) (a : Act) : Bool :=
  match s.q.phase, a with
  | .running x, .goOn _ =>
      match s.cont x with
      | .timeoutList ls =>
          decide (listPeek s.io.wheel ls ≠ some fd) ||
            !(s.io.ifd fd).any fun r => r.error.read || r.error.write
      | _ => true
  | _, _ => true

/-- Only the task `t` looks after the descriptor, and it is blocked in `event_poll`. -/
structure SoleInPoll (s : St) (t : Tid) (fd : Fd) : Prop where
  inPoll : InPoll s t fd
  alone : ∀ u, (s.cont u).Watches fd → u = t

theorem SoleInPoll.stays (hf : Formed s v) (hw : Watched s) (h : SoleInPoll s t fd)
    (hpoll : a.pollsOn fd = false) (hd : s.dispatches a ≠ some t) (e : step s a = some s') :
    SoleInPoll s' t fd := by
  have hin := h.inPoll.stays hf e hd
  have hw' := watched_step hf hw e
  refine ⟨hin, fun u hu => ?_⟩
  rcases watches_step hf e hu with ⟨hu', -⟩ | ⟨hp, hpu⟩
  · exact h.alone u hu'
  · cases fd with
    | sock n => exact absurd hpu (not_polls_of_pollsOn hpoll n rfl)
    | timer n =>
        exact absurd (hw.timers t n h.inPoll.watches) (not_lt.mpr (timers_le_of_polls hpu))
    | wheelTimer => exact (hw'.first u (hw'.wheel u hu)).trans (hw'.first t (hw'.wheel t hin.watches)).symm

/-- An event has been recorded that says that the descriptor can be read or written. -/
def Recorded (s : St) (fd : Fd) : Prop :=
  s.io.epoll fd = none ∧ ∃ r, s.io.ifd fd = some r ∧ r.error.timeout = false ∧
    (r.error.read = true ∨ r.error.write = true)

theorem recorded_event {ev : Events} (e : step s (.event fd ev) = some s')
    (hev : ev.epollin = true ∨ ev.epollout = true) : Recorded s' fd := by
  obtain ⟨-, r, -, rfl⟩ := eventWait_eq (step_event e).2
  exact ⟨Function.update_self .., _, Io.setInner_self .., rfl, hev⟩

theorem recorded_step (hf : Formed s v) (hw : Watched s) (h : SoleInPoll s t fd)
    (hpoll : a.pollsOn fd = false) (hok : noLateDrain fd s a = true) (e : step s a = some s')
    (hrec : Recorded s fd) : Recorded s' fd := by
  obtain ⟨hepoll, r, hr, htime, hready⟩ := hrec
  by_cases hT : s.touches a fd
  · have hold : s.io.ifd fd ≠ none := by
      rw [hr]
      exact Option.some_ne_none r
    rcases touched_of_watches hw hf.apart h.inPoll.off h.inPoll.watches h.alone
        (not_polls_of_pollsOn hpoll) hold e hT with
      ⟨-, ev', -, e'⟩ | ⟨x, ls, b, hp, rfl, hc, hls⟩ | ⟨r', hr', -, hio⟩
    · -- the descriptor has left the epoll set
      exact absurd hepoll (eventWait_eq e').1
    · exfalso
      unfold noLateDrain at hok
      rw [hp] at hok
      dsimp only at hok
      rw [hc] at hok
      simp [hls, hr] at hok
      simp [hok] at hready
    · obtain rfl := Option.some.inj (hr.symm.trans hr')
      rw [Recorded, hio]
      exact ⟨hepoll, _, Io.setInner_self .., htime, hready⟩
  · obtain ⟨hifd, hep⟩ := (step_frame hf e).1 fd hT
    rw [Recorded, hifd, hep]
    exact ⟨hepoll, r, hr, htime, hready⟩

/-- What is recorded in a run stays until the task is dispatched. -/
theorem recorded_run : ∀ {as : List Act} {s s' : St} {v : View Head Tid}, Formed s v → Watched s →
    SoleInPoll s t fd →
    system.RunMeets (fun s a => a.pollsOn fd = false ∧ noLateDrain fd s a = true) s as →
    t ∉ dispatched s as → system.run s as = some s' →
    (Recorded s fd ∨ ∃ ev, .event fd ev ∈ as ∧ (ev.epollin = true ∨ ev.epollout = true)) →
    Recorded s' fd
  | [], s, s', v, _, _, _, _, _, hrun, hrec => by
      obtain rfl := Option.some.inj hrun
      rcases hrec with hrec | ⟨ev, hm, -⟩
      · exact hrec
      · cases hm
  | a :: as, s, s', v, hf, hw, h, hm, hd, hrun, hrec => by
      obtain ⟨s₁, e, hrun⟩ := Option.bind_eq_some_iff.mp hrun
      have e' : step s a = some s₁ := e
      obtain ⟨hd1, hd2⟩ := not_dispatched_cons e' hd
      obtain ⟨⟨hpoll, hok⟩, hrest⟩ := hm
      obtain ⟨v₁, hf₁, -⟩ := formed_step hf e'
      refine recorded_run hf₁ (watched_step hf hw e') (h.stays hf hw hpoll hd1 e') (hrest s₁ e) hd2 hrun ?_
      rcases hrec with hrec | ⟨ev, hmem, hev⟩
      · exact .inl (recorded_step hf hw h hpoll hok e' hrec)
      · rcases List.mem_cons.mp hmem with rfl | hmem
        · exact .inl (recorded_event e' hev)
        · exact .inr ⟨ev, hmem, hev⟩

/-- The task has control again, and its `event_poll` is going to return `r`. -/
def PollReturns (s : St) (t : Tid) (fd : Fd) (r : Io.PollResult) : Prop :=
  s.q.phase = .running t ∧ (∃ c, s.cont t = .eventPoll fd c) ∧
    (s.io.eventPollReturn fd).map Prod.snd = some r

theorem not_etime_of_recorded (h : Recorded s fd) : ¬PollReturns s t fd .etime := by
  rintro ⟨-, -, hret⟩
  obtain ⟨-, r, hr, htime, -⟩ := h
  rw [Io.eventPollReturn, hr] at hret
  have hres : Io.pollResult r.error = .etime := Option.some.inj hret
  unfold Io.pollResult at hres
  rw [htime] at hres
  simp only [Bool.false_eq_true, if_false] at hres
  split_ifs at hres

/-- The task `t` calls `event_poll` on a descriptor that nobody looks after, and no other task polls the
descriptor.  If the call returns `ETIME` after the next dispatch of the task, no event in between said
that the descriptor can be read or written. -/
theorem timeout_never_masks {s₁ s₂ s₃ : St} {ev : Events} {as : List Act} (h : system.Reachable s)
    (hcall : s.asks a = some (t, fd, ev)) (hsole : s.watched fd = false) (e : step s a = some s₁)
    (hm : system.RunMeets (fun s a => a.pollsOn fd = false ∧ noLateDrain fd s a = true) s₁ as)
    (hrun : system.run s₁ as = some s₂) (hd : t ∉ dispatched s₁ as)
    (hnext : step s₂ .dispatch = some s₃) (hret : PollReturns s₃ t fd .etime) :
    ∀ ev', .event fd ev' ∈ as → ev'.epollin = false ∧ ev'.epollout = false := by
  obtain ⟨v, hf⟩ := formed_of_reach h
  have hw := watched_of_reach h
  obtain ⟨v₁, hf₁, -⟩ := formed_step hf e
  obtain ⟨hin, -, -⟩ := asks_step hcall e
  -- nobody but `t` looks after the descriptor now
  have hp := phase_of_asks hcall
  have halone : ∀ u, (s₁.cont u).Watches fd → u = t := by
    intro u hu
    rcases watches_step hf e hu with ⟨hu', -⟩ | ⟨hpu, -⟩
    · exact absurd (hf.watched_iff.mpr ⟨u, hu'⟩) (by simp [hsole])
    · exact Phase.running.inj (hpu.symm.trans hp)
  by_contra hno
  simp only [not_forall, not_and_or, Bool.not_eq_false] at hno
  obtain ⟨ev', hmem, hev⟩ := hno
  have hrec := recorded_run hf₁ (watched_step hf hw e) ⟨hin, halone⟩ hm hd hrun
    (.inr ⟨ev', hmem, hev⟩)
  obtain ⟨-, q, -, rfl⟩ := step_dispatch hnext
  exact not_etime_of_recorded (s := { s₂ with q := q }) hrec hret

/-- The time wheel turns by one slot, with nothing in it. -/
def emptyTick : List Act :=
  [.event .wheelTimer { epollin := true }, .dispatch, .goOn true, .goOn true, .timeoutRead .again true,
    .handlePrev]

/-- The socket has been on the wheel for 60 ticks when the timer of the wheel fires once more; in the
same batch `epoll_wait` reports the events `ev` of the socket.  The timeout task runs first. -/
def lastTick (ev : Events) : List Act :=
  .handlePrev :: (List.replicate 60 emptyTick).flatten ++
    [.event .wheelTimer { epollin := true }, .event (.sock 0) ev, .dispatch, .goOn true, .goOn true,
      .goOn true, .timeoutRead .again true, .handlePrev]

/-- The peer has hung up, and there is nothing to read. -/
theorem timeout_never_masks_hangup : ∃ s : St, PollReturns s 2 (.sock 0) .etime ∧
    ∀ ev', .event (.sock 0) ev' ∈ lastTick { epollhup := true } →
      ev'.epollin = false ∧ ev'.epollout = false := by
  have hrun := TS.Reachable.exists_of_run (M := system) (s := start 1 fun _ => 0) openSocket
    (fun s => decide (s.asks readSocket = some (2, .sock 0, { epollin := true }) ∧
      s.watched (.sock 0) = false ∧ (step s readSocket).any fun s₁ => decide (
        system.RunMeets (fun s a => a.pollsOn (.sock 0) = false ∧ noLateDrain (.sock 0) s a = true) s₁
          (lastTick { epollhup := true }) ∧
        2 ∉ dispatched s₁ (lastTick { epollhup := true }) ∧
        (system.run s₁ (lastTick { epollhup := true })).any fun s₂ =>
          (step s₂ .dispatch).any fun s₃ => decide (s₃.q.phase = .running 2 ∧
            s₃.cont 2 = .eventPoll (.sock 0) .user ∧
            (s₃.io.eventPollReturn (.sock 0)).map Prod.snd = some .etime))))
    ⟨1, _, rfl⟩ (by decide +kernel)
  obtain ⟨s, hs, hP⟩ := hrun
  obtain ⟨hcall, hsole, hany⟩ := of_decide_eq_true hP
  obtain ⟨s₁, e, hs₁⟩ := (Option.any_eq_true _ _).mp hany
  obtain ⟨hm, hd, hany⟩ := of_decide_eq_true hs₁
  obtain ⟨s₂, hrun, hany⟩ := (Option.any_eq_true _ _).mp hany
  obtain ⟨s₃, hnext, hs₃⟩ := (Option.any_eq_true _ _).mp hany
  obtain ⟨hp, hc, hres⟩ := of_decide_eq_true hs₃
  exact ⟨s₃, ⟨hp, ⟨_, hc⟩, hres⟩,
    timeout_never_masks hs hcall hsole e hm hrun hd hnext ⟨hp, ⟨_, hc⟩, hres⟩⟩

/-- There is something to read, which `event_wait` records; the call returns `ETIME` all the same. -/
theorem timeout_masks_event :
    ¬∀ (s s₁ s₂ s₃ : St) (a : Act) (t : Tid) (fd : Fd) (ev : Events) (as : List Act),
      system.Reachable s → s.asks a = some (t, fd, ev) → s.watched fd = false → step s a = some s₁ →
      system.RunMeets (fun _ a => a.pollsOn fd = false) s₁ as → system.run s₁ as = some s₂ →
      t ∉ dispatched s₁ as → step s₂ .dispatch = some s₃ → PollReturns s₃ t fd .etime →
      ∀ ev', .event fd ev' ∈ as → ev'.epollin = false ∧ ev'.epollout = false := by
  intro hall
  have hrun := TS.Reachable.exists_of_run (M := system) (s := start 1 fun _ => 0) openSocket
    (fun s => decide (s.asks readSocket = some (2, .sock 0, { epollin := true }) ∧
      s.watched (.sock 0) = false ∧ (step s readSocket).any fun s₁ => decide (
        system.RunMeets (fun _ a => a.pollsOn (.sock 0) = false) s₁ (lastTick { epollin := true }) ∧
        2 ∉ dispatched s₁ (lastTick { epollin := true }) ∧
        (system.run s₁ (lastTick { epollin := true })).any fun s₂ =>
          (step s₂ .dispatch).any fun s₃ => decide (s₃.q.phase = .running 2 ∧
            s₃.cont 2 = .eventPoll (.sock 0) .user ∧
            (s₃.io.eventPollReturn (.sock 0)).map Prod.snd = some .etime))))
    ⟨1, _, rfl⟩ (by decide +kernel)
  obtain ⟨s, hs, hP⟩ := hrun
  obtain ⟨hcall, hsole, hany⟩ := of_decide_eq_true hP
  obtain ⟨s₁, e, hs₁⟩ := (Option.any_eq_true _ _).mp hany
  obtain ⟨hm, hd, hany⟩ := of_decide_eq_true hs₁
  obtain ⟨s₂, hrun, hany⟩ := (Option.any_eq_true _ _).mp hany
  obtain ⟨s₃, hnext, hs₃⟩ := (Option.any_eq_true _ _).mp hany
  obtain ⟨hp, hc, hres⟩ := of_decide_eq_true hs₃
  obtain ⟨hin, -⟩ := hall s s₁ s₂ s₃ _ 2 _ _ _ hs hcall hsole e hm hrun hd hnext ⟨hp, ⟨_, hc⟩, hres⟩
    { epollin := true } (by simp [lastTick])
  cases hin

end Libcask.Sched
