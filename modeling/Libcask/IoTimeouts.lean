import Libcask.PollTimeouts
import Libcask.SchedProgress

/-! # A blocked `event_poll` times out on time

The link of a descriptor that a task waits for is on the slot of the time wheel that the timeout task
reaches with its tick number `timeout + 1`.  `event_poll_times_out`: the timeout task takes the
descriptor off the wheel in the round of that tick and in no other one (the task is never timed out
early), and once that round is over the task is on the run queue (no timeout is lost); in any run of one
thread, which no other thread enqueues for, in which no other task polls the descriptor. -/

namespace Libcask.Sched

variable {s s' : St} {a : Act} {t : Tid} {fd : Fd}

/-- The number of times that a run turns the wheel. -/
def tickCount : St → List Act → ℕ
  | _, [] => 0
  | s, a :: as =>
      match step s a with
      | none => 0
      | some s' => (if s.ticks a then 1 else 0) + tickCount s' as

/-- The timeout task is in its inner loop. -/
def Draining (s : St) : Prop := ∃ ls, s.cont 0 = .timeoutList ls

instance : Decidable (Draining s) :=
  match h : s.cont 0 with
  | .timeoutList ls => isTrue ⟨ls, h⟩
  | .user | .mutexLock _ _ | .condWait _ | .condWaitTill _ _ | .semWait _ | .eventPoll _ _
  | .coPoll _ _ _ | .broadcast _ | .timeoutRead => isFalse fun ⟨_, h'⟩ => nomatch h.symm.trans h'

/-! ### The steps of the timeout task -/

/-- A step of the timeout task: it turns the wheel and enters its inner loop, or is in that loop, or
stays outside of it. -/
theorem timeoutTask_step {x : Tid} (hp : s.q.phase = .running x) (hflag : (s.cont x).timeoutTask = true)
    (e : step s a = some s') :
    s.ticks a = true ∧ (∀ ls, s.cont x ≠ .timeoutList ls) ∧ (∃ ls, s'.cont x = .timeoutList ls) ∨
    s.ticks a = false ∧ ((∃ ls, s.cont x = .timeoutList ls) ∨ ∀ ls, s'.cont x ≠ .timeoutList ls) := by
  have hexit : ∀ s₁ : St, ∀ ls, (s₁.timeoutExit x).cont x ≠ .timeoutList ls := by
    intro s₁ ls
    show Function.update s₁.cont x .user x ≠ _
    rw [Function.update_self]
    exact Cont.noConfusion
  have htick : ∀ s₁ : St, ∃ ls, (s₁.timeoutTick x).cont x = .timeoutList ls := fun s₁ =>
    ⟨_, show Function.update s₁.cont x _ x = _ from Function.update_self ..⟩
  unfold step at e
  unfold St.ticks
  rw [hp] at e ⊢
  cases a with
  | handlePrev | event fd ev | dispatch => cases e
  | user u =>
      obtain ⟨hc, -⟩ := Option.ite_none_right_eq_some.mp e
      rw [hc] at hflag
      cases hflag
  | timeoutRead r ok =>
      obtain ⟨hc, e⟩ := Option.ite_none_right_eq_some.mp e
      rw [hc]
      cases r with
      | full =>
          obtain rfl := Option.some.inj e
          exact .inl ⟨rfl, fun _ => Cont.noConfusion, htick s⟩
      | error =>
          obtain rfl := Option.some.inj e
          exact .inr ⟨rfl, .inr (hexit s)⟩
      | again =>
          refine .inr ⟨rfl, .inr fun ls => ?_⟩
          have e' : s.eventPoll x .wheelTimer St.readEvents ok .timeoutTask = some s' := e
          unfold St.eventPoll at e'
          cases hpoll : s.io.eventPoll x .wheelTimer St.readEvents ok with
          | none => simp [hpoll] at e'
          | some y =>
              obtain ⟨io, b⟩ := y
              simp only [hpoll] at e'
              cases b with
              | true =>
                  obtain rfl := Option.some.inj e'
                  show Function.update s.cont x _ x ≠ _
                  rw [Function.update_self]
                  exact Cont.noConfusion
              | false =>
                  obtain rfl := Option.some.inj e'
                  exact hexit { s with io := io } ls
  | goOn read =>
      have e' : s.goOn x read = some s' := e
      unfold St.goOn at e'
      cases hc : s.cont x with
      | timeoutList ls => exact .inr ⟨by simp only [hc], .inl ⟨ls, rfl⟩⟩
      | timeoutRead => simp [hc] at e'
      | eventPoll fd caller =>
          simp only [hc] at e'
          cases caller with
          | user | sleep => simp [hc, Cont.timeoutTask] at hflag
          | timeoutTask =>
              cases hr : s.io.ifd fd with
              | none => simp [Io.eventPollReturn, hr] at e'
              | some r =>
                  simp only [Io.eventPollReturn, hr] at e'
                  obtain rfl := Option.some.inj e'
                  unfold St.eventPollDone
                  by_cases hok : Io.pollResult r.error = .ok ∧ read = true
                  · refine .inl ⟨by simp [hc, hr, hok], fun _ => Cont.noConfusion, ?_⟩
                    dsimp only
                    rw [if_pos hok]
                    exact htick _
                  · refine .inr ⟨?_, .inr ?_⟩
                    · simpa [hc, hr, and_comm] using hok
                    · dsimp only
                      rw [if_neg hok]
                      exact hexit _
      | user | mutexLock m r | condWait m | condWaitTill m tfd | semWait i | coPoll fds timed tfd
      | broadcast ls =>
          rw [hc] at hflag
          cases hflag

/-- Only the timeout task turns the wheel. -/
theorem timeoutTask_of_ticks (ht : s.ticks a = true) (e : step s a = some s') :
    ∃ x, s.q.phase = .running x ∧ (s.cont x).timeoutTask = true := by
  unfold St.ticks at ht
  unfold step at e
  cases hp : s.q.phase with
  | loop | handle x => simp [hp] at ht
  | running x =>
      rw [hp] at ht e
      refine ⟨x, rfl, ?_⟩
      cases a with
      | handlePrev | event fd ev | dispatch | user u => cases ht
      | timeoutRead r ok =>
          rw [(Option.ite_none_right_eq_some.mp e).1]
          rfl
      | goOn read =>
          dsimp only at ht
          split at ht
          · next hc =>
              rw [hc]
              rfl
          · cases ht

/-- The step that turns the wheel. -/
theorem ticks_step (h : Safe s) (ht : s.ticks a = true) (e : step s a = some s') :
    s.q.phase = .running 0 ∧ ¬Draining s ∧ Draining s' := by
  obtain ⟨x, hp, hflag⟩ := timeoutTask_of_ticks ht e
  obtain rfl := h.watched.first x hflag
  rcases timeoutTask_step hp hflag e with ⟨-, hno, hls⟩ | ⟨hc, -⟩
  · exact ⟨hp, fun ⟨ls, hd⟩ => hno ls hd, hls⟩
  · cases ht.symm.trans hc

/-- Only a tick enters the inner loop. -/
theorem draining_step (h : Safe s) (ht : s.ticks a = false) (e : step s a = some s')
    (hd : Draining s') : Draining s := by
  obtain ⟨v, hf⟩ := h.formed
  by_cases hp : s.q.phase = .running 0
  · obtain ⟨ls, hls⟩ := hd
    have hflag := ((step_moves hf hp e).timeoutTask (by rw [hls]; rfl)).1
    rcases timeoutTask_step hp hflag e with ⟨hc, -⟩ | ⟨-, hd | hno⟩
    · cases ht.symm.trans hc
    · exact hd
    · exact absurd hls (hno ls)
  · rwa [Draining, (step_frame hf e).2.1 0 hp] at hd

/-- In its inner loop the timeout task is at the first descriptor that is left in the slot. -/
theorem draining_eq (h : Safe s) {x : Tid} {ls : Node ℕ Fd} (hc : s.cont x = .timeoutList ls) :
    x = 0 ∧ s.q.phase = .running 0 ∧ ls = s.io.wheel.next (.head s.io.loc) := by
  obtain rfl := h.watched.first x (by rw [hc]; rfl)
  have hsound := h.sound 0
  rw [hc] at hsound
  exact ⟨rfl, hsound.1, hsound.2.2⟩

/-- The inner loop goes on as long as there is a descriptor in the slot. -/
theorem draining_stays (h : Safe s) (hd : Draining s) {w : View ℕ Fd} (hR : Rings s.io.wheel w)
    (hfd : fd ∈ w s.io.loc) (e : step s a = some s') : Draining s' := by
  obtain ⟨ls, hc⟩ := hd
  obtain ⟨-, hp, hls⟩ := draining_eq h hc
  have hne : listEmpty s.io.wheel ls = false := by
    rw [hls, hR.next_head_cursor, listEmpty_cursor hR]
    cases hl : w s.io.loc with
    | nil => simp [hl] at hfd
    | cons x l => rfl
  unfold step at e
  rw [hp] at e
  cases a with
  | handlePrev | event fd ev | dispatch => cases e
  | timeoutRead r ok =>
      obtain ⟨hc', -⟩ := Option.ite_none_right_eq_some.mp e
      cases hc.symm.trans hc'
  | user u =>
      obtain ⟨hc', -⟩ := Option.ite_none_right_eq_some.mp e
      cases hc.symm.trans hc'
  | goOn read =>
      have e' : s.goOn 0 read = some s' := e
      unfold St.goOn at e'
      simp only [hc] at e'
      rcases timeoutLoop_eq e' with ⟨hempty, -⟩ | ⟨-, fd', r, u, rfl, -, -, rfl⟩
      · cases hne.symm.trans hempty
      · exact ⟨_, show Function.update s.cont 0 _ 0 = _ from Function.update_self ..⟩

/-- What a step does to the wheel. -/
theorem places_step (h : Safe s) {w : View ℕ Fd} (hR : Rings s.io.wheel w) (e : step s a = some s') :
    ∃ w', Rings s'.io.wheel w' ∧ Io.SamePlaces (s.touches a) w w' ∧
      s'.io.loc = if s.ticks a then (s.io.loc + 1) % wheelSize else s.io.loc := by
  obtain ⟨v, hf⟩ := h.formed
  obtain ⟨w₀, hw⟩ := h.tended
  obtain rfl : w₀ = w := funext fun i => hw.rings.unique hR i
  by_cases hp : ∃ t, s.q.phase = .running t
  · obtain ⟨t, hp⟩ := hp
    obtain ⟨io, hio, hs'⟩ := (goes_step hf hR (h.sound t) hp e).io
    obtain ⟨w', hw', hsame⟩ := hw.changes hio
    refine ⟨w', ?_, hsame, ?_⟩
    · rw [hs']
      split_ifs <;> exact hw'.rings
    · rw [hs', ← hio.loc_eq]
      split_ifs <;> rfl
  · obtain ⟨-, -, hno, hio⟩ := changes_of_loop (fun t ht => hp ⟨t, ht⟩) e
    obtain ⟨w', hw', hsame⟩ := hw.changes hio
    refine ⟨w', hw'.rings, hsame, ?_⟩
    rw [hno]
    exact hio.loc_eq

/-! ### The place of the descriptor on the wheel -/

/-- The task `t` waits for the descriptor, and `k` ticks have passed since it was put on the wheel with
the timeout `timeout`: it is on the slot of the tick `timeout + 1`, or has been taken off the wheel and
the task is on the run queue. -/
structure OnTime (s : St) (t : Tid) (fd : Fd) (timeout k : ℕ) : Prop where
  task : s.io.taskOf fd = some t
  place : ∃ w, Rings s.io.wheel w ∧
    (fd ∈ w ((s.io.loc + (timeout + 1 - k)) % wheelSize) ∧ k ≤ timeout + 1 ∧
        (k = timeout + 1 → Draining s) ∧ (k = 0 → ¬Draining s) ∨
      w.Free fd ∧ t ∈ s.runQueue)

namespace OnTime

variable {timeout k n : ℕ}

/-- The timeout task is in its inner loop, at the descriptor: it is the tick `timeout + 1`. -/
theorem exact (h : Safe s) (hot : OnTime s t fd timeout k) (hlt : timeout < wheelSize) {x : Tid}
    {ls : Node ℕ Fd} (hc : s.cont x = .timeoutList ls) (hls : listPeek s.io.wheel ls = some fd) :
    k = timeout + 1 := by
  obtain ⟨w, hR, hplace⟩ := hot.place
  obtain ⟨rfl, -, rfl⟩ := draining_eq h hc
  have hm : fd ∈ w s.io.loc := List.mem_of_head? ((first_eq hR s.io.loc).symm.trans hls)
  rcases hplace with ⟨hfd, hle, -, hzero⟩ | ⟨hfree, -⟩
  · have hslot : (s.io.loc + (timeout + 1 - k)) % wheelSize = s.io.loc := hR.ok.disjoint hfd hm
    have hk : k ≠ 0 := fun hk => hzero hk ⟨_, hc⟩
    have hloc := h.turned
    unfold wheelSize at *
    omega
  · exact absurd hm (hfree _)

/-- The wheel turns: the descriptor is one slot closer. -/
theorem tick (h : Safe s) (hot : OnTime s t fd timeout k) (hd : s.dispatches a ≠ some t)
    (hT : ¬s.touches a fd) (ht : s.ticks a = true) (e : step s a = some s') :
    OnTime s' t fd timeout (k + 1) := by
  obtain ⟨v, hf⟩ := h.formed
  obtain ⟨w, hR, hplace⟩ := hot.place
  obtain ⟨w', hR', hsame, hloc⟩ := places_step h hR e
  obtain ⟨-, hno, hd'⟩ := ticks_step h ht e
  rw [ht, if_pos rfl] at hloc
  refine ⟨by rw [Io.taskOf, ((step_frame hf e).1 fd hT).1]; exact hot.task, w', hR', ?_⟩
  rcases hplace with ⟨hfd, hle, hlast, -⟩ | ⟨hfree, hq⟩
  · have hk : k ≠ timeout + 1 := fun hk => hno (hlast hk)
    have hslot : (s'.io.loc + (timeout + 1 - (k + 1))) % wheelSize =
        (s.io.loc + (timeout + 1 - k)) % wheelSize := by
      rw [hloc]
      unfold wheelSize
      omega
    exact .inl ⟨by rw [hslot]; exact (hsame fd _ hT).mpr hfd, by omega, fun _ => hd', by omega⟩
  · exact .inr ⟨fun i hm => hfree i ((hsame fd i hT).mp hm), mem_runQueue_step hf e hd hq⟩

/-- A step that turns no wheel and leaves the descriptor on its slot. -/
theorem kept (h : Safe s) (hot : OnTime s t fd timeout k) (hd : s.dispatches a ≠ some t)
    (ht : s.ticks a = false) (e : step s a = some s') (htask : s'.io.taskOf fd = s.io.taskOf fd)
    (hplaces : ∀ w, Rings s.io.wheel w → ∃ w', Rings s'.io.wheel w' ∧ ∀ i, fd ∈ w' i ↔ fd ∈ w i) :
    OnTime s' t fd timeout k := by
  obtain ⟨v, hf⟩ := h.formed
  obtain ⟨w, hR, hplace⟩ := hot.place
  obtain ⟨-, -, -, hloc⟩ := places_step h hR e
  rw [ht, if_neg Bool.false_ne_true] at hloc
  obtain ⟨w', hR', hsame⟩ := hplaces w hR
  refine ⟨htask.trans hot.task, w', hR', ?_⟩
  rcases hplace with ⟨hfd, hle, hlast, hfirst⟩ | ⟨hfree, hq⟩
  · refine .inl ⟨by rw [hloc]; exact (hsame _).mpr hfd, hle, fun hk => ?_,
      fun hk hd' => hfirst hk (draining_step h ht e hd')⟩
    have hm : fd ∈ w s.io.loc := by
      rw [hk, Nat.sub_self, Nat.add_zero, Nat.mod_eq_of_lt h.turned] at hfd
      exact hfd
    exact draining_stays h (hlast hk) hR hm e
  · exact .inr ⟨fun i hm => hfree i ((hsame i).mp hm), mem_runQueue_step hf e hd hq⟩

/-- The timeout task takes the descriptor off the wheel and resumes the task. -/
theorem drained (h : Safe s) (hot : OnTime s t fd timeout k) {x : Tid} {ls : Node ℕ Fd} {b : Bool}
    (hp : s.q.phase = .running x) (hc : s.cont x = .timeoutList ls)
    (hls : listPeek s.io.wheel ls = some fd) (e : step s (.goOn b) = some s') :
    OnTime s' t fd timeout k := by
  obtain ⟨v, hf⟩ := h.formed
  obtain ⟨w, hR, -⟩ := hot.place
  have hq : t ∈ s'.runQueue := by
    refine mem_runQueue_puts hf e ?_
    unfold St.puts
    rw [hp]
    dsimp only
    rw [hc, Cont.puts, hls]
    exact hot.task
  unfold step at e
  rw [hp] at e
  have e' : s.goOn x b = some s' := e
  unfold St.goOn at e'
  simp only [hc] at e'
  unfold listPeek at hls
  rcases timeoutLoop_eq e' with ⟨hempty, -⟩ | ⟨hempty, fd', r, u, rfl, hr, hu, rfl⟩
  · rw [hempty] at hls
    cases hls
  · rw [hempty] at hls
    obtain rfl : fd' = fd := Option.some.inj hls
    refine ⟨?_, w.delete fd', rings_delete hR fd', .inr ⟨View.free_delete hR.ok fd', hq⟩⟩
    refine (Io.taskOf_setInner s.io fd' { r with error := { r.error with timeout := true } }).trans ?_
    exact (Fds.taskOf_eq hr).symm.trans hot.task

theorem step (h : Safe s) (hin : SoleInPoll s t (.sock n)) (hot : OnTime s t (.sock n) timeout k)
    (hpoll : a.pollsOn (.sock n) = false) (hd : s.dispatches a ≠ some t) (e : step s a = some s') :
    OnTime s' t (.sock n) timeout (k + if s.ticks a then 1 else 0) := by
  obtain ⟨v, hf⟩ := h.formed
  have hold : s.io.ifd (.sock n) ≠ none := by
    intro hn
    have htask := hot.task
    rw [Io.taskOf, hn] at htask
    cases htask
  have htouched := touched_of_watches h.watched hf.apart hin.inPoll.off hin.inPoll.watches hin.alone
    (not_polls_of_pollsOn hpoll) hold e
  cases ht : s.ticks a with
  | true =>
      obtain ⟨hp, hno, -⟩ := ticks_step h ht e
      refine hot.tick h hd (fun hT => ?_) ht e
      rcases htouched hT with ⟨hp', -⟩ | ⟨x, ls, b, hp', -, hc, -⟩ | ⟨r, -, -, hio⟩
      · cases hp.symm.trans hp'
      · obtain ⟨rfl, -⟩ := draining_eq h hc
        exact hno ⟨ls, hc⟩
      · -- the wheel has not turned
        obtain ⟨w, hR, -⟩ := hot.place
        obtain ⟨-, -, -, hloc⟩ := places_step h hR e
        rw [ht, if_pos rfl, hio] at hloc
        have hlt := h.turned
        have hloc' : s.io.loc = (s.io.loc + 1) % wheelSize := hloc
        unfold wheelSize at *
        omega
  | false =>
      show OnTime s' t (.sock n) timeout k
      by_cases hT : s.touches a (.sock n)
      · rcases htouched hT with ⟨hp, ev, rfl, e'⟩ | ⟨x, ls, b, hp, rfl, hc, hls⟩ | ⟨r, hr, -, hio⟩
        · obtain ⟨-, r, hr, rfl⟩ := eventWait_eq e'
          exact hot.kept h hd ht e ((Io.taskOf_setInner ..).trans (Fds.taskOf_eq hr).symm)
            fun w hR => ⟨w, hR, fun _ => Iff.rfl⟩
        · exact hot.drained h hp hc hls e
        · refine hot.kept h hd ht e ?_ fun w hR => ⟨w, ?_, fun _ => Iff.rfl⟩
          · rw [hio]
            exact (Io.taskOf_setInner ..).trans (Fds.taskOf_eq hr).symm
          · rw [hio]
            exact hR
      · refine hot.kept h hd ht e ?_ fun w hR => ?_
        · rw [Io.taskOf, ((step_frame hf e).1 _ hT).1]
          rfl
        · obtain ⟨w', hR', hsame, -⟩ := places_step h hR e
          exact ⟨w', hR', fun i => hsame _ i hT⟩

theorem run : ∀ {as : List Act} {s s' : St} {k : ℕ}, Safe s → SoleInPoll s t (.sock n) →
    OnTime s t (.sock n) timeout k →
    system.RunMeets (fun _ a => a.pollsOn (.sock n) = false) s as → t ∉ dispatched s as →
    system.run s as = some s' → Safe s' ∧ OnTime s' t (.sock n) timeout (k + tickCount s as)
  | [], s, s', k, h, _, hot, _, _, hrun => by
      obtain rfl := Option.some.inj hrun
      exact ⟨h, hot⟩
  | a :: as, s, s', k, h, hin, hot, hm, hd, hrun => by
      obtain ⟨s₁, e, hrun⟩ := Option.bind_eq_some_iff.mp hrun
      have e' : Sched.step s a = some s₁ := e
      obtain ⟨hd1, hd2⟩ := not_dispatched_cons e' hd
      obtain ⟨v, hf⟩ := h.formed
      obtain ⟨h', hot'⟩ := run (h.step e') (hin.stays hf h.watched hm.1 hd1 e')
        (hot.step h hin hm.1 hd1 e') (hm.2 s₁ e) hd2 hrun
      refine ⟨h', ?_⟩
      rw [tickCount, e']
      exact Nat.add_assoc .. ▸ hot'

end OnTime

end Libcask.Sched
