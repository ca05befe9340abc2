import Libcask.RoundRobin

/-! # The tasks that wait for a descriptor

A task that is blocked in `event_poll` on a descriptor is on the run queue, or the `inner_fd` names it
and the epoll set holds the events it asked for (`Attended`).

* `io_waiters_attended`: this holds in runs in which no task polls a descriptor while another one does
  (`soleWaiter`).
* `first_waiter_orphaned`: a second task that polls the descriptor takes the only slot. -/

namespace Libcask.Sched

/-! ### Who looks after a descriptor -/

instance Cont.decidableWatches : ∀ (c : Cont) (fd : Fd), Decidable (c.Watches fd)
  | .eventPoll fd' _, fd => inferInstanceAs (Decidable (fd = fd'))
  | .coPoll fds _ tfd, fd => inferInstanceAs (Decidable ((∃ p ∈ fds, fd = .sock p.fd) ∨ tfd = some fd))
  | .condWaitTill _ tfd, fd => inferInstanceAs (Decidable (tfd = some fd))
  | .user, _ | .mutexLock _ _, _ | .condWait _, _ | .semWait _, _ | .broadcast _, _ | .timeoutRead, _
  | .timeoutList _, _ => isFalse id

/-- Whoever looks after a timer opened it, and only the timeout task looks after the timer of the
wheel. -/
structure Watched (s : St) : Prop where
  timers : ∀ t n, (s.cont t).Watches (.timer n) → n < s.io.timers
  wheel : ∀ t, (s.cont t).Watches .wheelTimer → (s.cont t).timeoutTask = true
  first : ∀ t, (s.cont t).timeoutTask = true → t = 0

variable {s s' : St} {v : View Head Tid} {a : Act} {t : Tid} {fd : Fd}

/-- What a task looks after when it did not before. -/
theorem watches_step (hf : Formed s v) (e : step s a = some s') (hw : (s'.cont t).Watches fd) :
    (s.cont t).Watches fd ∧ s.q.phase ≠ .running t ∨ s.q.phase = .running t ∧ s.polls a fd := by
  by_cases hp : s.q.phase = .running t
  · exact .inr ⟨hp, ((step_moves hf hp e).watches fd hw).1⟩
  · rw [(step_frame hf e).2.1 t hp] at hw
    exact .inl ⟨hw, hp⟩

theorem watched_step (hf : Formed s v) (h : Watched s) (e : step s a = some s') : Watched s' := by
  obtain ⟨-, hcont, htimers⟩ := step_frame hf e
  refine ⟨fun t n hw => ?_, fun t hw => ?_, fun t hflag => ?_⟩
  · by_cases hp : s.q.phase = .running t
    · exact ((step_moves hf hp e).watches _ hw).2.2 n rfl
    · rw [hcont t hp] at hw
      exact (h.timers t n hw).trans_le htimers
  · by_cases hp : s.q.phase = .running t
    · exact ((step_moves hf hp e).watches _ hw).2.1 rfl
    · rw [hcont t hp] at hw ⊢
      exact h.wheel t hw
  · by_cases hp : s.q.phase = .running t
    · exact h.first t ((step_moves hf hp e).timeoutTask hflag).1
    · rw [hcont t hp] at hflag
      exact h.first t hflag

/-- Nothing is looked after when the thread enters `schedule`. -/
theorem start_not_watches (n : ℕ) (count : ℕ → ℕ) (t : Tid) (fd : Fd) :
    ¬((start n count).cont t).Watches fd := by
  rw [start_cont]
  by_cases ht : t = 0
  · rw [ht, Function.update_self]
    exact id
  · rw [Function.update_of_ne ht]
    exact id

theorem watched_of_reach {ok : St → Act → Prop} (h : system.ReachVia ok s) : Watched s := by
  refine h.invariant_of (fun s hs => formed_of_reach hs) ?_ ?_
  · rintro s ⟨n, count, rfl⟩
    refine ⟨fun t k hw => absurd hw (start_not_watches n count t _),
      fun t hw => absurd hw (start_not_watches n count t _), fun t hflag => ?_⟩
    by_contra ht
    rw [start_cont, Function.update_of_ne ht] at hflag
    cases hflag
  · rintro s a s' ⟨v, hf⟩ hw - e
    exact watched_step hf hw e

/-! ### Blocked in `event_poll` -/

/-- The task is blocked in `event_poll`. -/
structure InPoll (s : St) (t : Tid) (fd : Fd) : Prop where
  cont : ∃ c, s.cont t = .eventPoll fd c
  off : s.q.phase ≠ .running t

theorem InPoll.watches (h : InPoll s t fd) : (s.cont t).Watches fd := by
  obtain ⟨c, hc⟩ := h.cont
  rw [hc]
  exact rfl

/-- A task gets control by a dispatch only. -/
theorem step_phase (hf : Formed s v) (e : step s a = some s') (hp : s'.q.phase = .running t) :
    s.q.phase = .running t ∨ s.dispatches a = some t := by
  cases hphase : s.q.phase with
  | running x =>
      obtain ⟨v', hq⟩ := (step_moves hf hphase e).queues
      rcases hq.phase with ⟨h, -⟩ | ⟨h, -⟩
      · exact .inl (h.symm.trans hp)
      · cases h.symm.trans hp
  | loop =>
      unfold step at e
      rw [hphase] at e
      cases a with
      | event fd ev =>
          obtain ⟨-, r, -, rfl⟩ := eventWait_eq e
          have hloop : (r.task.elim s.q s.q.coResume).phase = .loop := by
            cases r.task <;> exact hphase
          cases hloop.symm.trans hp
      | dispatch =>
          obtain ⟨q, hq, rfl⟩ := Option.map_eq_some_iff.mp e
          obtain ⟨u, v', hpick, hu, -, -⟩ := hf.dispatch hq
          cases hu.symm.trans hp
          exact .inr (by rw [St.dispatches, if_pos rfl, hpick])
      | handlePrev | goOn r | timeoutRead r ok | user u => cases e
  | handle x =>
      unfold step at e
      rw [hphase] at e
      cases a with
      | handlePrev =>
          obtain rfl := Option.some.inj e
          have hloop : (s.q.handlePrev x).phase = .loop := by
            unfold Queues.handlePrev
            split <;> rfl
          cases hloop.symm.trans hp
      | event fd ev | dispatch | goOn r | timeoutRead r ok | user u => cases e

theorem InPoll.stays (hf : Formed s v) (h : InPoll s t fd) (e : step s a = some s')
    (hd : s.dispatches a ≠ some t) : InPoll s' t fd := by
  obtain ⟨c, hc⟩ := h.cont
  refine ⟨⟨c, ?_⟩, fun hp => ?_⟩
  · rw [(step_frame hf e).2.1 t h.off]
    exact hc
  · exact (step_phase hf e hp).elim h.off hd

/-- What happens to a descriptor while a blocked task looks after it and no other task polls it: an
event, the timeout task finds it on the wheel, or its timeout is switched off. -/
theorem touched_of_watches (hw : Watched s) (hap : s.io.Apart) (hoff : s.q.phase ≠ .running t)
    (hwatch : (s.cont t).Watches fd) (halone : ∀ u, (s.cont u).Watches fd → u = t)
    (hpoll : ∀ n, fd = .sock n → ¬s.polls a fd) (hold : s.io.ifd fd ≠ none)
    (e : step s a = some s') (hT : s.touches a fd) :
    (s.q.phase = .loop ∧ ∃ ev, a = .event fd ev ∧ s.eventWait fd ev = some s') ∨
    (∃ x ls b, s.q.phase = .running x ∧ a = .goOn b ∧ s.cont x = .timeoutList ls ∧
      listPeek s.io.wheel ls = some fd) ∨
    ∃ r, s.io.ifd fd = some r ∧ s'.q = s.q ∧ s'.io = s.io.setInner fd { r with timeout := -1 } := by
  unfold St.touches at hT
  unfold step at e
  cases hp : s.q.phase with
  | loop =>
      rw [hp] at hT e
      cases a with
      | event fd' ev =>
          obtain rfl : fd = fd' := hT
          exact .inl ⟨rfl, ev, rfl, e⟩
      | handlePrev | dispatch | goOn r | timeoutRead r ok | user u => exact hT.elim
  | handle x =>
      rw [hp] at hT
      cases a with
      | handlePrev | event fd' ev | dispatch | goOn r | timeoutRead r ok | user u => exact hT.elim
  | running x =>
      have hx : x ≠ t := by
        rintro rfl
        exact hoff hp
      -- two tasks cannot both be in the code of the timeout task
      have hwheel : (s.cont x).timeoutTask = true → fd ≠ .wheelTimer := by
        rintro hflag rfl
        exact hx ((hw.first x hflag).trans (hw.first t (hw.wheel t hwatch)).symm)
      have htimer : ¬∃ n, s.io.timers ≤ n ∧ fd = .timer n := by
        rintro ⟨n, hn, rfl⟩
        exact absurd (hw.timers t n hwatch) (not_lt.mpr hn)
      rw [hp] at hT e
      cases a with
      | goOn b =>
          rcases hT with hT | ⟨ls, hc, hls⟩ | ⟨hflag, rfl⟩
          · exact absurd (halone x hT) hx
          · exact .inr (.inl ⟨x, ls, b, rfl, rfl, hc, hls⟩)
          · exact absurd rfl (hwheel hflag)
      | timeoutRead r ok =>
          obtain ⟨hc, -⟩ := Option.ite_none_right_eq_some.mp e
          exact absurd hT (hwheel (by rw [hc]; rfl))
      | user u =>
          obtain ⟨-, e⟩ := Option.ite_none_right_eq_some.mp e
          cases u with
          | condWaitTill c m k | sleep k again ok => exact absurd hT htimer
          | eventPoll n events ok => exact absurd hT (hpoll n hT)
          | coPoll fds timed k =>
              rcases hT with ⟨p, hm, rfl⟩ | hT
              · exact absurd (.inl ⟨p, hm, rfl⟩) (hpoll _ rfl)
              · exact absurd hT htimer
          | socket =>
              obtain rfl : fd = .sock s.io.socks := hT
              exact absurd (hap.socks _ le_rfl) hold
          | listen n =>
              obtain rfl : fd = .sock n := hT
              cases hr : s.io.ifd (.sock n) with
              | none => exact absurd hr hold
              | some r =>
                  unfold userAct at e
                  simp only [hr] at e
                  obtain rfl := Option.some.inj e
                  exact .inr (.inr ⟨r, rfl, rfl, rfl⟩)
          | create | yield | exit | lock m | tryLock m | unlock m | condWait c m | signal c
          | broadcast c | semWait i | semTryWait i | semPost i => exact hT.elim
      | handlePrev | event fd' ev | dispatch => exact hT.elim

/-- The call of `event_poll` that a step makes and that blocks: the task, the descriptor and the
events. -/
def St.asks (s : St) (a : Act) : Option (Tid × Fd × Events) :=
  match s.q.phase, a with
  | .running t, .user (.eventPoll n events true) => some (t, .sock n, events)
  | .running t, .user (.sleep k true true) =>
      if k.opened ∧ k.set then some (t, .timer s.io.timers, St.readEvents) else none
  | .running t, .timeoutRead .again true => some (t, .wheelTimer, St.readEvents)
  | _, _ => none

theorem phase_of_asks {ev : Events} (h : s.asks a = some (t, fd, ev)) : s.q.phase = .running t := by
  unfold St.asks at h
  split at h
  · simp_all
  · simp_all
  · simp_all
  · cases h

theorem Io.wheelUpdateElement_frame (io : Io) (fd : Fd) (timeout : ℤ) :
    (io.wheelUpdateElement fd timeout).ifd = io.ifd ∧
      (io.wheelUpdateElement fd timeout).epoll = io.epoll := by
  unfold Io.wheelUpdateElement
  split_ifs <;> exact ⟨rfl, rfl⟩

theorem eventPoll_true {events : Events} {caller : Caller}
    (e : s.eventPoll t fd events true caller = some s') :
    InPoll s' t fd ∧ s'.io.taskOf fd = some t ∧ s'.io.epoll fd = some events := by
  unfold St.eventPoll Io.eventPoll at e
  cases hr : s.io.ifd fd with
  | none => simp [hr] at e
  | some r =>
      simp only [hr, if_true] at e
      obtain rfl := Option.some.inj e
      obtain ⟨hifd, hepoll⟩ := Io.wheelUpdateElement_frame ((s.io.setInner fd
        { r with error := ieNone, task := some t }).addEvents fd events true) fd r.timeout
      refine ⟨⟨⟨caller, Function.update_self ..⟩, by simp [St.coIoYield, Queues.yield]⟩, ?_, ?_⟩
      · exact (congrArg (fun f => (f fd).bind InnerFd.task) hifd).trans (Io.taskOf_setInner ..)
      · exact (congrFun hepoll fd).trans (Function.update_self ..)

theorem asks_step {ev : Events} (h : s.asks a = some (t, fd, ev)) (e : step s a = some s') :
    InPoll s' t fd ∧ s'.io.taskOf fd = some t ∧ s'.io.epoll fd = some ev := by
  unfold St.asks at h
  unfold step at e
  cases hp : s.q.phase with
  | loop | handle x => simp [hp] at h
  | running x =>
      rw [hp] at h e
      cases a with
      | handlePrev | event fd' ev' | dispatch | goOn b => cases h
      | timeoutRead r ok =>
          obtain ⟨-, e⟩ := Option.ite_none_right_eq_some.mp e
          cases r <;> cases ok <;> cases h
          exact eventPoll_true e
      | user u =>
          obtain ⟨-, e⟩ := Option.ite_none_right_eq_some.mp e
          cases u with
          | eventPoll n events ok =>
              cases ok <;> cases h
              exact eventPoll_true e
          | sleep k again ok =>
              cases again <;> cases ok <;> try cases h
              obtain ⟨⟨hopened, hset⟩, h⟩ := Option.ite_none_right_eq_some.mp h
              obtain ⟨rfl, rfl, rfl⟩ := Prod.mk.inj (Option.some.inj h) |>.imp_right Prod.mk.inj
              obtain ⟨-, e⟩ := Option.ite_none_right_eq_some.mp e
              simp only [hset, if_true] at e
              split at e
              · cases e
              · exact eventPoll_true e
          | create | yield | exit | lock m | tryLock m | unlock m | condWait c m | condWaitTill c m k
          | signal c | broadcast c | semWait i | semTryWait i | semPost i | socket | listen n
          | coPoll fds timed k => cases h

/-! ### One task for each descriptor -/

/-- Some task looks after the descriptor. -/
def St.watched (s : St) (fd : Fd) : Bool :=
  (List.range s.q.created).any fun t => decide ((s.cont t).Watches fd)

theorem Formed.watched_iff (hf : Formed s v) : s.watched fd = true ↔ ∃ t, (s.cont t).Watches fd := by
  unfold St.watched
  constructor
  · intro h
    obtain ⟨t, -, ht⟩ := List.any_eq_true.mp h
    exact ⟨t, of_decide_eq_true ht⟩
  · rintro ⟨t, ht⟩
    refine List.any_eq_true.mpr ⟨t, List.mem_range.mpr ?_, decide_eq_true ht⟩
    by_contra hlt
    rw [hf.fresh t (not_lt.mp hlt)] at ht
    exact ht

/-- No task polls a descriptor that another one looks after. -/
def soleWaiter (s : St) : Act → Bool
  | .user (.eventPoll n _ _) => !s.watched (.sock n)
  | .user (.coPoll fds _ _) => fds.all fun p => !s.watched (.sock p.1.fd)
  | _ => true

theorem not_watched_of_polls (hf : Formed s v) (hok : soleWaiter s a = true) {n : ℕ}
    (hpoll : s.polls a (.sock n)) : ¬(s.cont t).Watches (.sock n) := by
  have hno : s.watched (.sock n) = false → ¬(s.cont t).Watches (.sock n) := fun h hw =>
    Bool.false_ne_true (h.symm.trans (hf.watched_iff.mpr ⟨t, hw⟩))
  cases a with
  | handlePrev | event fd' ev' | dispatch | goOn b => exact hpoll.elim
  | timeoutRead r ok => cases hpoll
  | user u =>
      cases u with
      | eventPoll m events ok =>
          obtain rfl : n = m := Fd.sock.inj hpoll
          exact hno (by simpa [soleWaiter] using hok)
      | coPoll fds timed k =>
          rcases hpoll with ⟨p, hm, hp⟩ | ⟨m, -, hp⟩
          · have hall := List.all_eq_true.mp hok p hm
            rw [← hp] at hall
            exact hno (by simpa using hall)
          · cases hp
      | condWaitTill c m k | sleep k again ok =>
          obtain ⟨m, -, hp⟩ := hpoll
          cases hp
      | create | yield | exit | lock m | tryLock m | unlock m | condWait c m | signal c | broadcast c
      | semWait i | semTryWait i | semPost i | socket | listen n => exact hpoll.elim

theorem timers_le_of_polls {n : ℕ} (hpoll : s.polls a (.timer n)) : s.io.timers ≤ n := by
  cases a with
  | handlePrev | event fd' ev' | dispatch | goOn b => exact hpoll.elim
  | timeoutRead r ok => cases hpoll
  | user u =>
      cases u with
      | eventPoll m events ok => cases hpoll
      | coPoll fds timed k =>
          rcases hpoll with ⟨p, -, hp⟩ | ⟨m, hm, hp⟩
          · cases hp
          · exact Fd.timer.inj hp ▸ hm
      | condWaitTill c m k | sleep k again ok =>
          obtain ⟨m, hm, hp⟩ := hpoll
          exact Fd.timer.inj hp ▸ hm
      | create | yield | exit | lock m | tryLock m | unlock m | condWait c m | signal c | broadcast c
      | semWait i | semTryWait i | semPost i | socket | listen n => exact hpoll.elim

/-- No two tasks look after one descriptor. -/
def Single (s : St) : Prop := ∀ t u fd, (s.cont t).Watches fd → (s.cont u).Watches fd → t = u

/-- A descriptor that one task looks after at most stays so, unless it is a socket that the running task
polls while another one does. -/
theorem single_at_step (hf : Formed s v) (hw : Watched s)
    (h : ∀ t u, (s.cont t).Watches fd → (s.cont u).Watches fd → t = u)
    (hok : ∀ n u, fd = .sock n → s.polls a fd → ¬(s.cont u).Watches fd) (e : step s a = some s') :
    ∀ t u, (s'.cont t).Watches fd → (s'.cont u).Watches fd → t = u := by
  have hw' := watched_step hf hw e
  -- the running task `t` polls what another task looks after
  have hnew : ∀ {t u}, s.polls a fd → (s'.cont t).Watches fd → (s.cont u).Watches fd → t = u := by
    intro t u hpoll ht hu
    cases fd with
    | sock n => exact absurd hu (hok n u rfl hpoll)
    | timer n => exact absurd (hw.timers u n hu) (not_lt.mpr (timers_le_of_polls hpoll))
    | wheelTimer => exact (hw'.first t (hw'.wheel t ht)).trans (hw.first u (hw.wheel u hu)).symm
  intro t u ht hu
  rcases watches_step hf e ht with ⟨ht', -⟩ | ⟨hpt, hpollt⟩
  · rcases watches_step hf e hu with ⟨hu', -⟩ | ⟨-, hpollu⟩
    · exact h t u ht' hu'
    · exact (hnew hpollu hu ht').symm
  · rcases watches_step hf e hu with ⟨hu', -⟩ | ⟨hpu, -⟩
    · exact hnew hpollt ht hu'
    · exact Phase.running.inj (hpt.symm.trans hpu)

theorem single_of_reach (h : system.ReachVia (fun s a => soleWaiter s a = true) s) : Single s := by
  refine h.invariant_of (J := fun s => (∃ v, Formed s v) ∧ Watched s)
    (fun s hs => ⟨formed_of_reach hs, watched_of_reach hs⟩) ?_ ?_
  · rintro s ⟨n, count, rfl⟩ t u fd ht -
    exact absurd ht (start_not_watches n count t fd)
  · rintro s a s' ⟨⟨v, hf⟩, hw⟩ hs hok e t u fd
    refine single_at_step hf hw (fun t u => hs t u fd) ?_ e t u
    rintro n u rfl hpoll
    exact not_watched_of_polls hf hok hpoll

/-- A timer has one task that looks after it, in every run. -/
theorem timer_single {ok : St → Act → Prop} (h : system.ReachVia ok s) (n : ℕ) :
    ∀ t u, (s.cont t).Watches (.timer n) → (s.cont u).Watches (.timer n) → t = u := by
  refine h.invariant_of
    (I := fun s => ∀ t u, (s.cont t).Watches (.timer n) → (s.cont u).Watches (.timer n) → t = u)
    (J := fun s => (∃ v, Formed s v) ∧ Watched s)
    (fun s hs => ⟨formed_of_reach hs, watched_of_reach hs⟩) ?_ ?_
  · rintro s ⟨k, count, rfl⟩ t u ht -
    exact absurd ht (start_not_watches k count t _)
  · rintro s a s' ⟨⟨v, hf⟩, hw⟩ hs - e
    refine single_at_step hf hw hs ?_ e
    rintro m u ⟨⟩

/-! ### The waiting tasks are attended to -/

/-- The task is on the run queue, or the `inner_fd` names it and its events are in the epoll set. -/
def Attended (s : St) (t : Tid) (fd : Fd) (ev : Events) : Prop :=
  t ∈ s.runQueue ∨ s.io.taskOf fd = some t ∧ s.io.epoll fd = some ev

/-- A task on the run queue stays there until it is dispatched. -/
theorem mem_runQueue_step (hf : Formed s v) (e : step s a = some s') (hd : s.dispatches a ≠ some t)
    (ht : t ∈ s.runQueue) : t ∈ s'.runQueue := by
  by_cases ha : a = .dispatch
  · subst ha
    obtain ⟨-, q, hq, rfl⟩ := step_dispatch e
    obtain ⟨u, v', hpick, -, hl, hf'⟩ := hf.dispatch hq
    rw [hf.runQueue_eq, hl] at ht
    rw [hf'.runQueue_eq]
    refine (List.mem_append.mp ht).resolve_right fun hm => hd ?_
    rw [St.dispatches, if_pos rfl, hpick, List.mem_singleton.mp hm]
  · obtain ⟨v', hf', hrun⟩ := formed_step hf e
    rw [hf'.runQueue_eq, hrun, St.queueAfter, if_neg ha]
    rw [hf.runQueue_eq] at ht
    cases s.puts a with
    | none => exact ht
    | some u =>
        by_cases hu : t = u
        · exact hu ▸ List.mem_cons_self
        · exact List.mem_cons_of_mem u ((List.mem_erase_of_ne hu).mpr ht)

/-- The task that a step puts on the run queue is there. -/
theorem mem_runQueue_puts (hf : Formed s v) (e : step s a = some s') (ht : s.puts a = some t) :
    t ∈ s'.runQueue := by
  have ha : a ≠ .dispatch := by
    rintro rfl
    unfold St.puts at ht
    split at ht <;> simp_all
  obtain ⟨v', hf', hrun⟩ := formed_step hf e
  rw [hf'.runQueue_eq, hrun, St.queueAfter, if_neg ha, ht]
  exact List.mem_cons_self

theorem attended_step {ev : Events} (hf : Formed s v) (hw : Watched s) (h : InPoll s t fd)
    (halone : ∀ u, (s.cont u).Watches fd → u = t) (hpoll : ∀ n, fd = .sock n → ¬s.polls a fd)
    (hd : s.dispatches a ≠ some t) (e : step s a = some s') (hat : Attended s t fd ev) :
    Attended s' t fd ev := by
  rcases hat with hq | ⟨htask, hepoll⟩
  · exact .inl (mem_runQueue_step hf e hd hq)
  · by_cases hT : s.touches a fd
    · have hold : s.io.ifd fd ≠ none := by
        intro hn
        rw [Io.taskOf, hn] at htask
        cases htask
      rcases touched_of_watches hw hf.apart h.off h.watches halone hpoll hold e hT with
        ⟨hp, ev', rfl, -⟩ | ⟨x, ls, b, hp, rfl, hc, hls⟩ | ⟨r, hr, -, hio⟩
      · refine .inl (mem_runQueue_puts hf e ?_)
        unfold St.puts
        rw [hp]
        exact htask
      · refine .inl (mem_runQueue_puts hf e ?_)
        unfold St.puts
        rw [hp]
        dsimp only
        rw [hc, Cont.puts, hls]
        exact htask
      · refine .inr ?_
        rw [hio, Io.taskOf_setInner, ← Fds.taskOf_eq hr]
        exact ⟨htask, hepoll⟩
    · obtain ⟨hifd, hep⟩ := (step_frame hf e).1 fd hT
      rw [Attended, Io.taskOf, hifd, hep]
      exact .inr ⟨htask, hepoll⟩

theorem not_dispatched_cons {as : List Act} (e : step s a = some s') (hd : t ∉ dispatched s (a :: as)) :
    s.dispatches a ≠ some t ∧ t ∉ dispatched s' as := by
  rw [dispatched, e] at hd
  obtain ⟨hd1, hd2⟩ := not_or.mp (mt List.mem_append.mpr hd)
  refine ⟨fun hc => hd1 ?_, hd2⟩
  rw [hc]
  exact List.mem_singleton_self t

theorem attended_run {ev : Events} : ∀ {as : List Act} {s s' : St},
    system.ReachVia (fun s a => soleWaiter s a = true) s → InPoll s t fd → Attended s t fd ev →
    system.RunMeets (fun s a => soleWaiter s a = true) s as → t ∉ dispatched s as →
    system.run s as = some s' → Attended s' t fd ev
  | [], s, s', _, _, hat, _, _, hrun => by
      obtain rfl := Option.some.inj hrun
      exact hat
  | a :: as, s, s', hr, h, hat, hm, hd, hrun => by
      obtain ⟨s₁, e, hrun⟩ := Option.bind_eq_some_iff.mp hrun
      have e' : step s a = some s₁ := e
      obtain ⟨v, hf⟩ := formed_of_reach hr
      have hw := watched_of_reach hr
      have hsingle := single_of_reach hr
      obtain ⟨hd', hd2⟩ := not_dispatched_cons e' hd
      have hpoll : ∀ n, fd = .sock n → ¬s.polls a fd := by
        rintro n rfl hc
        exact not_watched_of_polls hf hm.1 hc h.watches
      refine attended_run (hr.step hm.1 e) (h.stays hf e' hd') ?_ (hm.2 s₁ e) hd2 hrun
      exact attended_step hf hw h (fun u hu => hsingle u t fd hu h.watches) hpoll hd' e' hat

/-- From the moment a task blocks in `event_poll` until it is dispatched, an event wakes it up, or it is
on the run queue. -/
theorem io_waiters_attended {s₁ s₂ : St} {ev : Events} {as : List Act}
    (h : system.ReachVia (fun s a => soleWaiter s a = true) s) (hok : soleWaiter s a = true)
    (hcall : s.asks a = some (t, fd, ev)) (e : step s a = some s₁)
    (hm : system.RunMeets (fun s a => soleWaiter s a = true) s₁ as)
    (hrun : system.run s₁ as = some s₂) (hd : t ∉ dispatched s₁ as) : Attended s₂ t fd ev := by
  obtain ⟨hpoll, htask, hepoll⟩ := asks_step hcall e
  exact attended_run (h.step hok e) hpoll (.inr ⟨htask, hepoll⟩) hm hd hrun

/-- The timeout task waits for its timer and the active task sleeps; the task 2 has opened the
socket 0. -/
def openSocket : List Act :=
  [.dispatch, .timeoutRead .again true, .handlePrev, .dispatch, .user (.semWait 0), .handlePrev,
    .dispatch, .user .socket]

/-- The task 2 wants to read from the socket 0. -/
def readSocket : Act := .user (.eventPoll 0 { epollin := true } true)

/-- The task 3 waits for a socket of its own, and is dispatched when it is ready. -/
def otherSocket : List Act :=
  [.handlePrev, .dispatch, .user .socket, .user (.eventPoll 1 { epollout := true } true), .handlePrev,
    .event (.sock 1) { epollout := true }, .dispatch]

theorem io_waiters_attended_two_sockets : ∃ s : St, s.q.phase = .running 3 ∧
    s.cont 2 = .eventPoll (.sock 0) .user ∧ Attended s 2 (.sock 0) { epollin := true } := by
  have hrun := TS.ReachVia.exists_of_run (M := system) (s := start 2 fun _ => 0)
    (fun s a => soleWaiter s a = true) openSocket
    (fun s => decide (soleWaiter s readSocket = true ∧
      s.asks readSocket = some (2, .sock 0, { epollin := true }) ∧
      (step s readSocket).any fun s₁ => decide (
        system.RunMeets (fun s a => soleWaiter s a = true) s₁ otherSocket ∧
        2 ∉ dispatched s₁ otherSocket ∧ (system.run s₁ otherSocket).any fun s₂ =>
          decide (s₂.q.phase = .running 3 ∧ s₂.cont 2 = .eventPoll (.sock 0) .user))))
    ⟨2, _, rfl⟩ (by decide +kernel) (by decide +kernel)
  obtain ⟨s, hs, hP⟩ := hrun
  obtain ⟨hok, hcall, hany⟩ := of_decide_eq_true hP
  obtain ⟨s₁, e, hs₁⟩ := (Option.any_eq_true _ _).mp hany
  obtain ⟨hm, hd, hany⟩ := of_decide_eq_true hs₁
  obtain ⟨s₂, hrun, hs₂⟩ := (Option.any_eq_true _ _).mp hany
  obtain ⟨hp, hc⟩ := of_decide_eq_true hs₂
  exact ⟨s₂, hp, hc, io_waiters_attended hs hok hcall e hm hrun hd⟩

/-- The task 3 wants to write to the socket that the task 2 reads from. -/
def sameSocket : List Act :=
  [.handlePrev, .dispatch, .user (.eventPoll 0 { epollout := true } true)]

theorem first_waiter_orphaned :
    ¬∀ (s s₁ s₂ : St) (a : Act) (t : Tid) (fd : Fd) (ev : Events) (as : List Act),
      system.Reachable s → s.asks a = some (t, fd, ev) → step s a = some s₁ →
      system.run s₁ as = some s₂ → t ∉ dispatched s₁ as → Attended s₂ t fd ev := by
  intro hall
  have hrun := TS.Reachable.exists_of_run (M := system) (s := start 2 fun _ => 0) openSocket
    (fun s => decide (s.asks readSocket = some (2, .sock 0, { epollin := true }) ∧
      (step s readSocket).any fun s₁ => decide (
        2 ∉ dispatched s₁ sameSocket ∧ (system.run s₁ sameSocket).any fun s₂ =>
          decide (2 ∉ s₂.runQueue ∧ s₂.io.taskOf (.sock 0) = some 3))))
    ⟨2, _, rfl⟩ (by decide +kernel)
  obtain ⟨s, hs, hP⟩ := hrun
  obtain ⟨hcall, hany⟩ := of_decide_eq_true hP
  obtain ⟨s₁, e, hs₁⟩ := (Option.any_eq_true _ _).mp hany
  obtain ⟨hd, hany⟩ := of_decide_eq_true hs₁
  obtain ⟨s₂, hrun, hs₂⟩ := (Option.any_eq_true _ _).mp hany
  obtain ⟨hq, htask⟩ := of_decide_eq_true hs₂
  rcases hall s s₁ s₂ _ 2 _ _ _ hs hcall e hrun hd with h | ⟨h, -⟩
  · exact hq h
  · cases htask.symm.trans h

end Libcask.Sched
