import Libcask.SchedCalls

/-! # A suspended call goes on

A `NULL` record, a `NULL` task, a list head taken for a task and a `PANIC` have no successor state in
the model (`Sched.lean`).  `library_goes_on`: none of them happens in `event_wait`, nor to a task that goes on
behind a context switch inside a call.  Every event that `epoll_wait` can report has a record and a task, and
a task that was suspended in a call always goes on.  This holds although user tasks close sockets (`closing`),
as long as no task is waiting for the socket (`closesIdle`); otherwise the waiting task goes on with a record
that is gone (`closed_while_waiting`).  The part of a call before its first context switch is not meant: there
`co_poll` on a descriptor without a record and `co_sleep` without a timer fail. -/

namespace Libcask.Sched

/-! ### What the suspended calls rely on -/

/-- A task that does not run relies on the same things after a step that keeps its records and does not
lock a mutex for it. -/
theorem Cont.Sound.frame {s s' : St} {c : Cont} {u : Tid} (h : c.Sound s u)
    (hoff : s.q.phase ≠ .running u) (hlock : ∀ m, s'.lock m = some u → s.lock m = some u)
    (hknown : ∀ fd, c.Watches fd ∨ c.timeoutTask = true ∧ fd = .wheelTimer →
      s.io.ifd fd ≠ none → s'.io.ifd fd ≠ none) : c.Sound s' u := by
  cases c with
  | user | mutexLock m r | semWait i => exact trivial
  | condWait m => exact fun hl => h (hlock m hl)
  | condWaitTill m tfd =>
      exact ⟨fun hl => h.1 (hlock m hl), fun fd hfd =>
        ⟨(h.2 fd hfd).1, hknown fd (.inl hfd) (h.2 fd hfd).2⟩⟩
  | eventPoll fd caller => exact ⟨hknown fd (.inl rfl) h.1, h.2⟩
  | coPoll fds timed tfd =>
      exact ⟨fun p hp => hknown _ (.inl (.inl ⟨p, hp, rfl⟩)) (h.1 p hp), fun fd hfd =>
        ⟨(h.2 fd hfd).1, hknown fd (.inl (.inr hfd)) (h.2 fd hfd).2⟩⟩
  | timeoutRead => exact hknown _ (.inr ⟨rfl, rfl⟩) h
  | broadcast ls => exact absurd h.1 hoff
  | timeoutList ls => exact absurd h.1 hoff

/-- The invariant: the links and the descriptors are in order, and every suspended call can rely on what
it needs. -/
structure Safe (s : St) : Prop where
  formed : ∃ v, Formed s v
  watched : Watched s
  single : ∀ n t u, (s.cont t).Watches (.timer n) → (s.cont u).Watches (.timer n) → t = u
  tended : ∃ w, s.io.Tended w
  turned : s.io.loc < wheelSize
  sound : ∀ t, (s.cont t).Sound s t

theorem Cont.watches_of_timer {c : Cont} {fd : Fd} (h : c.timer = some fd) : c.Watches fd := by
  cases c with
  | condWaitTill m tfd => exact h
  | coPoll fds timed tfd => exact .inr h
  | eventPoll fd' caller =>
      cases caller with
      | sleep => exact (Option.some.inj h).symm
      | user | timeoutTask => cases h
  | user | mutexLock m r | condWait m | semWait i | broadcast ls | timeoutRead | timeoutList ls => cases h

/-- The timer of a call is one of `timer.c`. -/
theorem Cont.Sound.timer {s : St} {c : Cont} {t : Tid} (h : c.Sound s t) {fd : Fd}
    (hfd : c.timer = some fd) : ∃ n, fd = .timer n := by
  cases c with
  | condWaitTill m tfd => exact (h.2 fd hfd).1
  | coPoll fds timed tfd => exact (h.2 fd hfd).1
  | eventPoll fd' caller =>
      cases caller with
      | sleep => exact Option.some.inj hfd ▸ h.2.1 rfl
      | user | timeoutTask => cases hfd
  | user | mutexLock m r | condWait m | semWait i | broadcast ls | timeoutRead | timeoutList ls =>
      cases hfd

namespace Safe

variable {s s' : St} {a : Act} {t u : Tid} {fd : Fd}

/-- The running task does not close what another task waits for. -/
theorem not_closes (h : Safe s) (hp : s.q.phase = .running t) (hut : u ≠ t) (e : step s a = some s')
    (hu : (s.cont u).Watches fd ∨ (s.cont u).timeoutTask = true ∧ fd = .wheelTimer) :
    ¬s.closes a fd := by
  intro hcl
  -- two tasks cannot both be in the code of the timeout task
  have hwheel : (s.cont t).timeoutTask = true → fd ≠ .wheelTimer := by
    rintro hflag rfl
    have hu' : (s.cont u).timeoutTask = true := hu.elim (h.watched.wheel u) And.left
    exact hut ((h.watched.first u hu').trans (h.watched.first t hflag).symm)
  unfold St.closes at hcl
  unfold step at e
  rw [hp] at hcl e
  cases a with
  | goOn read =>
      rcases hcl with htimer | ⟨hflag, rfl⟩
      · obtain ⟨n, rfl⟩ := (h.sound t).timer htimer
        rcases hu with hu | ⟨-, hu⟩
        · exact hut (h.single n u t hu (Cont.watches_of_timer htimer))
        · cases hu
      · exact hwheel hflag rfl
  | timeoutRead r ok =>
      obtain ⟨hc, -⟩ := Option.ite_none_right_eq_some.mp e
      exact hwheel (by rw [hc]; rfl) hcl
  | user x =>
      cases x with
      | sleep k again ok =>
          obtain rfl : fd = .timer s.io.timers := hcl
          rcases hu with hu | ⟨-, hu⟩
          · exact lt_irrefl _ (h.watched.timers u _ hu)
          · cases hu
      | create | yield | exit | lock m | tryLock m | unlock m | condWait c m | condWaitTill c m k
      | signal c | broadcast c | semWait i | semTryWait i | semPost i | socket | listen n
      | eventPoll n events ok | coPoll fds timed k => exact hcl
  | handlePrev | event fd' ev | dispatch => exact hcl

theorem step (h : Safe s) (e : step s a = some s') : Safe s' := by
  obtain ⟨v, hf⟩ := h.formed
  obtain ⟨w, hw⟩ := h.tended
  obtain ⟨v', hf', -⟩ := formed_step hf e
  suffices hrest : (∃ w, s'.io.Tended w) ∧ s'.io.loc < wheelSize ∧ ∀ t, (s'.cont t).Sound s' t from
    ⟨⟨v', hf'⟩, watched_step hf h.watched e,
      fun n => single_at_step hf h.watched (h.single n) (by rintro m u ⟨⟩) e, hrest.1, hrest.2.1,
      hrest.2.2⟩
  by_cases hp : ∃ t, s.q.phase = .running t
  · obtain ⟨t, hp⟩ := hp
    have hgo := goes_step hf hw.rings (h.sound t) hp e
    obtain ⟨io, hio, hs'⟩ := hgo.io
    obtain ⟨w', hw', -⟩ := hw.changes hio
    have hoff : ∀ {u}, u ≠ t → s.q.phase ≠ .running u :=
      fun hut hc => hut (Phase.running.inj (hc.symm.trans hp))
    refine ⟨⟨w', ?_⟩, ?_, fun u => ?_⟩
    · rw [hs']
      split_ifs
      · exact hw'.rotate
      · exact hw'
    · rw [hs']
      split_ifs
      · exact Nat.mod_lt _ (by decide)
      · exact hio.loc_eq ▸ h.turned
    · by_cases hut : u = t
      · rw [hut]
        exact hgo.sound
      · rw [(step_frame hf e).2.1 u (hoff hut)]
        refine (h.sound u).frame (hoff hut) (fun m => hgo.lock m u hut) fun fd hfd hold => ?_
        have hkeep := hio.known (h.not_closes hp hut e hfd) hold
        rw [hs']
        split_ifs <;> exact hkeep
  · have hoff : ∀ t, s.q.phase ≠ .running t := fun t ht => hp ⟨t, ht⟩
    obtain ⟨hcont, hlock, -, hio⟩ := changes_of_loop hoff e
    obtain ⟨w', hw', -⟩ := hw.changes hio
    refine ⟨⟨w', hw'⟩, hio.loc_eq ▸ h.turned, fun t => ?_⟩
    rw [hcont]
    exact (h.sound t).frame (hoff t) (fun m hm => hlock ▸ hm) fun fd _ => hio.known id

theorem start (n : ℕ) (count : ℕ → ℕ) : Safe (start n count) := by
  have hwheel : (Sched.start n count).io.ifd .wheelTimer ≠ none := by
    rw [show (Sched.start n count).io.ifd .wheelTimer = some _ from rfl]
    exact Option.some_ne_none _
  have hinit : system.Reachable (Sched.start n count) := .init ⟨n, count, rfl⟩
  refine ⟨Formed.start n count, watched_of_reach hinit,
    fun k t u ht => absurd ht (start_not_watches n count t _), ⟨_, rings_empty, fun fd h => absurd rfl h,
      fun fd h => absurd (fun _ => List.not_mem_nil) h, fun _ _ => rfl, fun _ _ => rfl⟩,
    (by decide : 0 < wheelSize), fun t => ?_⟩
  rw [start_cont]
  by_cases ht : t = 0
  · rw [ht, Function.update_self]
    exact hwheel
  · rw [Function.update_of_ne ht]
    exact trivial

/-- The running task closes a socket that no task waits for. -/
theorem close (h : Safe s) (hp : s.q.phase = .running t) (hc : s.cont t = .user) {n : ℕ}
    (hidle : ∀ u, ¬(s.cont u).Watches (.sock n)) : Safe { s with io := s.io.close (.sock n) } := by
  obtain ⟨v, hf⟩ := h.formed
  obtain ⟨w, hw⟩ := h.tended
  have hcont : s.cont = Function.update s.cont t .user := by
    rw [← hc, Function.update_eq_self]
  have hm : Moves s v t (· = .sock n) (fun _ => False) none { s with io := s.io.close (.sock n) } :=
    .goto (hf.control hp) rfl (.close s.io (.sock n)) hcont rfl fun _ => id
  obtain ⟨v', hf', -⟩ := hf.moves hp hm
  have hio : Io.Changes t (· = .sock n) (· = .sock n) s.io (s.io.close (.sock n)) :=
    .single (.close s.io rfl rfl)
  refine ⟨⟨v', hf'⟩, ⟨h.watched.timers, h.watched.wheel, h.watched.first⟩, h.single, ⟨_, hw.close (.sock n)⟩,
    h.turned, fun u => ?_⟩
  by_cases hut : u = t
  · show (s.cont u).Sound _ u
    rw [hut, hc]
    exact trivial
  · refine (h.sound u).frame (fun hc => hut (Phase.running.inj (hc.symm.trans hp))) (fun _ => id)
      fun fd hfd hold => hio.known ?_ hold
    rintro rfl
    rcases hfd with hfd | ⟨-, hfd⟩
    · exact hidle u hfd
    · cases hfd

end Safe

/-! ### Closing sockets -/

/-- What happens on the thread when its tasks close sockets as well. -/
inductive CloseAct where
  | act (a : Act)
  /-- The hooked `close`, with `delete_inner_fd`. -/
  | close (n : ℕ)
deriving DecidableEq, Repr

def closeStep (s : St) : CloseAct → Option St
  | .act a => step s a
  | .close n =>
      match s.q.phase with
      | .running t => if s.cont t = .user then some { s with io := s.io.close (.sock n) } else none
      | _ => none

/-- The thread, with tasks that close sockets. -/
def closing : TS St CloseAct where
  init s := ∃ n count, s = start n count
  step := closeStep

/-- No task closes a socket that a task waits for. -/
def closesIdle (s : St) : CloseAct → Bool
  | .act _ => true
  | .close n => !s.watched (.sock n)

theorem safe_of_closing {s : St} (hr : closing.ReachVia (fun s a => closesIdle s a = true) s) :
    Safe s := by
  refine hr.invariant ?_ ?_
  · rintro s ⟨n, count, rfl⟩
    exact .start n count
  · intro s a s' h hok e
    cases a with
    | act a => exact h.step e
    | close n =>
        obtain ⟨v, hf⟩ := h.formed
        have hidle : ∀ u, ¬(s.cont u).Watches (.sock n) := by
          intro u hu
          have hno : s.watched (.sock n) = false := by simpa [closesIdle] using hok
          exact Bool.false_ne_true (hno.symm.trans (hf.watched_iff.mpr ⟨u, hu⟩))
        have e' : closeStep s (.close n) = some s' := e
        unfold closeStep at e'
        cases hp : s.q.phase with
        | loop | handle t => simp [hp] at e'
        | running t =>
            simp only [hp] at e'
            obtain ⟨hc, e'⟩ := Option.ite_none_right_eq_some.mp e'
            obtain rfl := Option.some.inj e'
            exact h.close hp hc hidle

/-- The states of `system` are reached without closing a socket. -/
theorem safe_of_reach {ok : St → Act → Prop} {s : St} (hr : system.ReachVia ok s) : Safe s := by
  refine hr.invariant ?_ fun s a s' h _ e => h.step e
  rintro s ⟨n, count, rfl⟩
  exact .start n count

/-! ### Every call goes on -/

/-- The second loop of `co_poll` ends if all the records exist. -/
theorem Io.coPollCollect_total (timed fired : Bool) : ∀ (rest : List PollFd) (io : Io)
    (done : List PollFd) (j : ℕ), (∀ p ∈ rest, io.ifd (.sock p.fd) ≠ none) →
    ∃ x, io.coPollCollect timed fired done j rest = some x
  | [], io, done, j, _ => ⟨_, rfl⟩
  | p :: rest, io, done, j, h => by
      obtain ⟨hp, hrest⟩ := List.forall_mem_cons.mp h
      obtain ⟨r, hr⟩ := Option.ne_none_iff_exists'.mp hp
      unfold Io.coPollCollect
      rw [hr]
      dsimp only
      have hifd : ((if timed = true then io else
          io.wheelDeleteElement (.sock p.fd)).deleteEvents (.sock p.fd)).ifd = io.ifd := by
        cases timed <;> rfl
      generalize (if timed = true then io else
        io.wheelDeleteElement (.sock p.fd)).deleteEvents (.sock p.fd) = io₁ at hifd ⊢
      have h₁ : ∀ p ∈ rest, io₁.ifd (.sock p.fd) ≠ none := by rwa [hifd]
      split_ifs
      · refine coPollCollect_total timed fired rest _ _ _ fun q hq => ?_
        show Function.update io₁.ifd _ _ _ ≠ none
        rw [Function.update_apply]
        split_ifs
        · exact Option.some_ne_none _
        · exact h₁ q hq
      · exact coPollCollect_total timed fired rest io₁ _ _ h₁
      · exact coPollCollect_total timed fired rest io₁ _ _ h₁

theorem St.coMutexLock_total {s : St} {t : Tid} {m : ℕ} (r : Ret) (h : s.lock m ≠ some t) :
    ∃ s', s.coMutexLock t m r = some s' := ⟨_, if_neg h⟩

namespace Safe

variable {s : St} {t : Tid}

/-- An event that `epoll_wait` can report has a record, and a task that is resumed. -/
theorem event (h : Safe s) (hp : s.q.phase = .loop) {fd : Fd} (hfd : s.io.epoll fd ≠ none)
    (ev : Events) : (∃ u, s.io.taskOf fd = some u) ∧ ∃ s', Sched.step s (.event fd ev) = some s' := by
  obtain ⟨w, hw⟩ := h.tended
  have htask := hw.epolled fd hfd
  obtain ⟨r, hr⟩ := Io.taskOf_ne_none htask
  refine ⟨Option.ne_none_iff_exists'.mp htask, ?_⟩
  unfold Sched.step
  rw [hp]
  show ∃ s', s.eventWait fd ev = some s'
  unfold St.eventWait
  rw [if_neg hfd, hr]
  dsimp only
  split <;> exact ⟨_, rfl⟩

/-- The loop over the waiters of a condition meets tasks only. -/
theorem broadcast (h : Safe s) {ls : Node Head Tid} (hls : (Cont.broadcast ls).Sound s t) :
    ∃ s', s.broadcastLoop t ls = some s' := by
  obtain ⟨v, hf⟩ := h.formed
  obtain ⟨-, c, rfl⟩ := hls
  unfold St.broadcastLoop
  split_ifs with hempty
  · exact ⟨_, rfl⟩
  · obtain ⟨u, -, hu⟩ := elem_of_not_empty hf.listed.rings hempty
    rw [show listNext s.q.links (.head (.condWait c)) = .elem u from hu]
    exact ⟨_, rfl⟩

/-- The inner loop of the timeout task meets descriptors with a task only. -/
theorem timeoutList (h : Safe s) {ls : Node ℕ Fd} (hls : (Cont.timeoutList ls).Sound s t) :
    ∃ s', s.timeoutLoop t ls = some s' := by
  obtain ⟨w, hw⟩ := h.tended
  obtain ⟨-, -, rfl⟩ := hls
  unfold St.timeoutLoop
  split_ifs with hempty
  · exact ⟨_, rfl⟩
  · obtain ⟨fd, hm, hfd⟩ := elem_of_not_empty hw.rings hempty
    have htask := hw.wheeled fd fun hfree => hfree _ hm
    obtain ⟨r, hr⟩ := Io.taskOf_ne_none htask
    obtain ⟨u, hu⟩ := Option.ne_none_iff_exists'.mp htask
    rw [Fds.taskOf_eq hr] at hu
    rw [show listNext s.io.wheel (.head s.io.loc) = .elem fd from hfd]
    simp only [hr, hu]
    exact ⟨_, rfl⟩

/-- A task that has control inside a call goes on. -/
theorem goOn (h : Safe s) (hc : s.cont t ≠ .user) (hr : s.cont t ≠ .timeoutRead) (read : Bool) :
    ∃ s', s.goOn t read = some s' := by
  have hsound := h.sound t
  unfold St.goOn
  cases hk : s.cont t with
  | user => exact absurd hk hc
  | timeoutRead => exact absurd hk hr
  | mutexLock m r => exact ⟨_, rfl⟩
  | semWait i => exact ⟨_, rfl⟩
  | condWait m =>
      rw [hk] at hsound
      exact St.coMutexLock_total _ hsound
  | condWaitTill m tfd =>
      rw [hk] at hsound
      exact St.coMutexLock_total (s := { s with io := (s.io.stopTimer tfd).1 }) _ hsound.1
  | eventPoll fd caller =>
      rw [hk] at hsound
      obtain ⟨r, hr⟩ := Option.ne_none_iff_exists'.mp hsound.1
      simp only [Io.eventPollReturn, hr]
      exact ⟨_, rfl⟩
  | coPoll fds timed tfd =>
      rw [hk] at hsound
      obtain ⟨hfds, htfd⟩ := hsound
      have hknown : ∀ p ∈ fds, (s.io.stopTimer tfd).1.ifd (.sock p.fd) ≠ none := by
        intro p hp
        refine (Io.Changes.stopTimer (t := t) (T := fun _ => True) (C := (tfd = some ·))
          fun _ h => ⟨trivial, h⟩).known (fun hc => ?_) (hfds p hp)
        obtain ⟨⟨n, hn⟩, -⟩ := htfd _ hc
        cases hn
      obtain ⟨x, hx⟩ := Io.coPollCollect_total timed (s.io.stopTimer tfd).2 fds _ [] 0 hknown
      simp only [St.coPollReturn, hx]
      exact ⟨_, rfl⟩
  | broadcast ls =>
      rw [hk] at hsound
      exact h.broadcast hsound
  | timeoutList ls =>
      rw [hk] at hsound
      exact h.timeoutList hsound

/-- The timeout task goes on with whatever its `read` gives. -/
theorem timeoutRead (h : Safe s) (hc : s.cont t = .timeoutRead) (r : ReadResult) (ok : Bool) :
    ∃ s', Sched.timeoutRead s t ok r = some s' := by
  have hknown := h.sound t
  rw [hc] at hknown
  obtain ⟨r₀, hr₀⟩ := Option.ne_none_iff_exists'.mp hknown
  cases r with
  | full => exact ⟨_, rfl⟩
  | error => exact ⟨_, rfl⟩
  | again =>
      simp only [Sched.timeoutRead, St.eventPoll, Io.eventPoll, hr₀]
      cases ok <;> exact ⟨_, rfl⟩

end Safe

/-- Every event that `epoll_wait` can report finds its record and a task to resume, and a task that has
control behind a context switch inside a call, in a loop of `co_cond_broadcast`, or in the code of the
timeout task, goes on. -/
theorem library_goes_on {s : St} (hr : closing.ReachVia (fun s a => closesIdle s a = true) s) :
    (∀ fd ev, s.q.phase = .loop → s.io.epoll fd ≠ none →
      (∃ u, s.io.taskOf fd = some u) ∧ ∃ s', step s (.event fd ev) = some s') ∧
    ∀ t, s.q.phase = .running t → s.cont t ≠ .user →
      (s.cont t = .timeoutRead → ∀ r ok, ∃ s', step s (.timeoutRead r ok) = some s') ∧
      (s.cont t ≠ .timeoutRead → ∀ read, ∃ s', step s (.goOn read) = some s') := by
  have h := safe_of_closing hr
  refine ⟨fun fd ev hp hfd => h.event hp hfd ev, fun t hp hc => ⟨fun hk r ok => ?_, fun hk read => ?_⟩⟩
  · unfold step
    rw [hp]
    show ∃ s', (if s.cont t = .timeoutRead then timeoutRead s t ok r else none) = some s'
    rw [if_pos hk]
    exact h.timeoutRead hk r ok
  · unfold step
    rw [hp]
    exact h.goOn hc hk read

/-- The task 2 closes its first socket, opens another one, and is resumed by an event there. -/
def closeAndPoll : List CloseAct :=
  openSocket.map .act ++ [.close 0, .act (.user .socket),
    .act (.user (.eventPoll 1 { epollin := true } true)), .act .handlePrev,
    .act (.event (.sock 1) { epollin := true }), .act .dispatch, .act (.user .yield), .act .handlePrev,
    .act .dispatch]

theorem library_goes_on_closed_socket : ∃ s : St, s.q.phase = .running 2 ∧
    s.cont 2 = .eventPoll (.sock 1) .user ∧ s.io.ifd (.sock 0) = none ∧
    ∃ s', step s (.goOn true) = some s' := by
  have hrun := TS.ReachVia.exists_of_run (M := closing) (s := start 2 fun _ => 0)
    (fun s a => closesIdle s a = true) closeAndPoll
    (fun s => decide (s.q.phase = .running 2 ∧ s.cont 2 = .eventPoll (.sock 1) .user ∧
      s.io.ifd (.sock 0) = none)) ⟨2, _, rfl⟩ (by decide +kernel) (by decide +kernel)
  obtain ⟨s, hs, hP⟩ := hrun
  obtain ⟨hp, hc, hnone⟩ := of_decide_eq_true hP
  refine ⟨s, hp, hc, hnone, ((library_goes_on hs).2 2 hp ?_).2 ?_ true⟩
  · rw [hc]
    exact Cont.noConfusion
  · rw [hc]
    exact Cont.noConfusion

/-- The task 2 waits for the socket 0 and is resumed by an event; the task 3 is dispatched first and
closes the socket. -/
def closeWhileWaiting : List CloseAct :=
  (openSocket ++ [readSocket, .handlePrev, .dispatch, .user .yield, .handlePrev,
    .event (.sock 0) { epollin := true }, .dispatch]).map .act ++ [.close 0] ++
    [.user .yield, .handlePrev, .dispatch].map .act

/-- The task 2 goes on with a record that is gone. -/
theorem closed_while_waiting : ∃ s : St, closing.Reachable s ∧ s.q.phase = .running 2 ∧
    s.cont 2 = .eventPoll (.sock 0) .user ∧ step s (.goOn true) = none := by
  have hrun := TS.Reachable.exists_of_run (M := closing) (s := start 2 fun _ => 0) closeWhileWaiting
    (fun s => decide (s.q.phase = .running 2 ∧ s.cont 2 = .eventPoll (.sock 0) .user ∧
      (step s (.goOn true)).isNone = true)) ⟨2, _, rfl⟩ (by decide +kernel)
  obtain ⟨s, hs, hP⟩ := hrun
  obtain ⟨hp, hc, hnone⟩ := of_decide_eq_true hP
  exact ⟨s, hs, hp, hc, Option.isNone_iff_eq_none.mp hnone⟩

end Libcask.Sched
