import Libcask.SchedFds
import Libcask.SchedQueues

/-! # No task is lost

* `tasks_conserved`: whenever the scheduler loop has handled the task that ran last, the lists are
  well formed, every live task is on the run queue or blocked, and the tasks that exited are
  destroyed, once, and on no list (`Conserved`); in runs in which no call leaves a stale link on the
  time wheel (`noStaleLink`).
* `destroyed_task_queued`: without this condition a timeout can resume a task that is destroyed. -/

namespace Libcask.Sched

open Queues

/-- What the steps keep, next to `Fds`. -/
structure Kept (s : St) : Prop where
  settled : ∃ v, s.q.Settled v
  live : ∀ t, s.cont t ≠ .user → s.q.Live t

/-- A step of the running task `t`. -/
structure Next (s : St) (t : Tid) (s' : St) : Prop where
  settled : ∃ v, s'.q.Settled v
  cont : ∀ x, x ≠ t → s'.cont x = s.cont x
  live : ∀ x, s.q.Live x → s'.q.Live x ∨ (x = t ∧ s'.cont t = .user)
  destroyed : s'.q.destroyed = s.q.destroyed

theorem Kept.next {s s' : St} {t : Tid} (hk : Kept s) (ht : s.q.Live t) (hn : Next s t s') :
    Kept s' := by
  refine ⟨hn.settled, fun x hx => ?_⟩
  by_cases hxt : x = t
  · subst hxt
    exact (hn.live x ht).resolve_right fun hc => hx hc.2
  · rw [hn.cont x hxt] at hx
    exact (hn.live x (hk.live x hx)).resolve_right fun hc => hxt hc.1

/-- A task that waits for a descriptor is alive. -/
theorem Kept.live_of_waits {s : St} (hk : Kept s) {t : Tid} {fd : Fd}
    (h : (s.cont t).Watches fd ∨ (s.cont t).Wheels fd) : s.q.Live t := by
  apply hk.live
  intro hc
  rw [hc] at h
  exact h.elim id id

namespace Queues

theorem live_iff_of_history {q q' : Queues} (h : q'.history = q.history) {t : Tid} :
    q'.Live t ↔ q.Live t := by
  obtain ⟨hcreated, hexited, -⟩ := Prod.mk.inj h |>.imp_right Prod.mk.inj
  rw [Live, Live, hcreated, hexited]

theorem wakeFirst_frame (q : Queues) (h : Head) :
    (q.wakeFirst h).phase = q.phase ∧ (q.wakeFirst h).history = q.history := by
  unfold wakeFirst
  cases ListOps.first q.links h with
  | none | some t => exact ⟨rfl, rfl⟩

theorem dispatch_history {q q' : Queues} (e : q.dispatch = some q') : q'.history = q.history := by
  unfold dispatch at e
  cases hpick : rrPicknext .runList q.links with
  | none => simp [hpick] at e
  | some t =>
      simp only [hpick] at e
      obtain rfl := Option.some.inj e
      rfl

theorem handlePrev_live {q : Queues} {t x : Tid} (hx : q.Live x) : (q.handlePrev t).Live x := by
  unfold handlePrev
  split <;> exact hx

theorem handlePrev_destroyed (q : Queues) (t : Tid) :
    q.destroyed ⊆ (q.handlePrev t).destroyed := by
  unfold handlePrev
  split
  · exact List.Subset.refl _
  · exact List.subset_append_left ..
  · exact List.Subset.refl _

end Queues

namespace Next

variable {s s' : St} {v : View Head Tid} {t : Tid}

/-- The descriptors do not matter. -/
theorem of_io {io : Io} (hn : Next { s with io := io } t s') : Next s t s' :=
  ⟨hn.settled, hn.cont, hn.live, hn.destroyed⟩

/-- A step that leaves the queues alone and moves the running task to another continuation. -/
theorem goto (hr : Runs s.q v t) (hp : s.q.phase = .running t) {c : Cont} (hq : s'.q = s.q)
    (hcont : s'.cont = Function.update s.cont t c) : Next s t s' := by
  refine ⟨⟨v, ?_⟩, fun x hx => ?_, fun x hx => .inl ?_, by rw [hq]⟩
  · rw [hq]
    exact .running t hp hr
  · rw [hcont, Function.update_of_ne hx]
  · rw [hq]
    exact hx

/-- A step to a settled state with the same tasks. -/
theorem of_settled {c : Cont} (hs : ∃ v', s'.q.Settled v')
    (hcont : s'.cont = Function.update s.cont t c) (hh : s'.q.history = s.q.history) :
    Next s t s' := by
  refine ⟨hs, fun x hx => ?_, fun x hx => .inl ((live_iff_of_history hh).mpr hx),
    (Prod.mk.inj (Prod.mk.inj hh).2).2⟩
  rw [hcont, Function.update_of_ne hx]

theorem mutexLoop (hr : Runs s.q v t) (hp : s.q.phase = .running t) (m : ℕ) (r : Ret) :
    Next s t (s.mutexLoop t m r) := by
  unfold St.mutexLoop
  cases s.lock m with
  | none => exact goto hr hp rfl rfl
  | some u => exact of_settled (hr.wait (by simp)) rfl rfl

theorem coMutexLock (hr : Runs s.q v t) (hp : s.q.phase = .running t) {m : ℕ} {r : Ret}
    (e : s.coMutexLock t m r = some s') : Next s t s' := by
  obtain ⟨-, e⟩ := Option.ite_none_left_eq_some.mp e
  obtain rfl := Option.some.inj e
  exact mutexLoop hr hp m r

/-- The running task wakes the first waiter of a list. -/
theorem wakeFirst (hr : Runs s.q v t) (hp : s.q.phase = .running t) {c : Cont} {h : Head}
    (hq : s'.q = s.q.wakeFirst h) (hcont : s'.cont = Function.update s.cont t c) : Next s t s' := by
  obtain ⟨hphase, hh⟩ := wakeFirst_frame s.q h
  obtain ⟨v', hr'⟩ := hr.wakeFirst h
  refine of_settled ⟨v', ?_⟩ hcont (by rw [hq, hh])
  rw [hq]
  exact .running t (hphase.trans hp) hr'

/-- The first part of the two calls that wait on a condition. -/
theorem condWait (hr : Runs s.q v t) {io : Io} {c m : ℕ} {k : Cont} {s₁ : St}
    (e : St.coMutexUnlock { s with q := s.q.addWaiter (.condWait c) t, io := io } t m = some s₁) :
    Next s t (s₁.coSyncYield t k) := by
  obtain ⟨-, e⟩ := Option.ite_none_right_eq_some.mp e
  obtain rfl := Option.some.inj e
  obtain ⟨-, hh⟩ := wakeFirst_frame (s.q.addWaiter (.condWait c) t) (.mutexWait m)
  exact of_settled (hr.waitAndWake (by simp) (by simp)) rfl hh

theorem coSemWait (hr : Runs s.q v t) (hp : s.q.phase = .running t) (i : ℕ) :
    Next s t (s.coSemWait t i) := by
  unfold St.coSemWait
  dsimp only
  split_ifs
  · exact goto hr hp rfl rfl
  · exact of_settled (hr.wait (by simp)) rfl rfl
  · exact goto hr hp rfl rfl

theorem coIoYield (hr : Runs s.q v t) {c : Cont} (hq : s'.q = s.q.yield t .ioBlock)
    (hcont : s'.cont = Function.update s.cont t c) : Next s t s' := by
  refine of_settled ⟨v, ?_⟩ hcont (by rw [hq]; rfl)
  rw [hq]
  exact hr.block (.inl rfl)

/-- The running task exits. -/
theorem exit (hr : Runs s.q v t) (hq : s'.q = s.q.taskExit t)
    (hcont : s'.cont = Function.update s.cont t .user) : Next s t s' := by
  refine ⟨⟨v, ?_⟩, fun x hx => ?_, fun x hx => ?_, by rw [hq]; rfl⟩
  · rw [hq]
    exact hr.exit
  · rw [hcont, Function.update_of_ne hx]
  · by_cases hxt : x = t
    · refine .inr ⟨hxt, ?_⟩
      rw [hcont, Function.update_self]
    · refine .inl ?_
      rw [hq]
      refine ⟨hx.1, fun hm => ?_⟩
      rcases List.mem_append.mp hm with hm | hm
      · exact hx.2 hm
      · exact hxt (List.mem_singleton.mp hm)

theorem eventPollDone (hr : Runs s.q v t) (hp : s.q.phase = .running t) (fd : Fd)
    (r : Io.PollResult) (read : Bool) (caller : Caller) :
    Next s t (s.eventPollDone t fd r read caller) := by
  cases caller with
  | user => exact goto hr hp rfl rfl
  | sleep =>
      unfold St.eventPollDone
      dsimp only
      split_ifs
      · exact goto hr hp rfl rfl
      · exact goto hr hp rfl rfl
  | timeoutTask =>
      unfold St.eventPollDone
      dsimp only
      split_ifs
      · exact goto hr hp rfl rfl
      · exact exit hr rfl rfl

theorem eventPoll (hr : Runs s.q v t) (hp : s.q.phase = .running t) {fd : Fd} {events : Events}
    {ok : Bool} {caller : Caller} (e : s.eventPoll t fd events ok caller = some s') :
    Next s t s' := by
  unfold St.eventPoll at e
  cases hpoll : s.io.eventPoll t fd events ok with
  | none => simp [hpoll] at e
  | some x =>
      obtain ⟨io', b⟩ := x
      cases b with
      | true =>
          simp only [hpoll] at e
          obtain rfl := Option.some.inj e
          exact coIoYield hr rfl rfl
      | false =>
          simp only [hpoll] at e
          obtain rfl := Option.some.inj e
          exact of_io (eventPollDone (s := { s with io := io' }) hr hp fd .failed false caller)

/-- One pass of the loop of `co_cond_broadcast`. -/
theorem broadcastLoop (hr : Runs s.q v t) (hp : s.q.phase = .running t) {ls : Node Head Tid}
    (e : s.broadcastLoop t ls = some s') : Next s t s' := by
  rcases broadcastLoop_eq e with ⟨-, rfl⟩ | ⟨hlinked, u, rfl, rfl⟩
  · exact goto hr hp rfl rfl
  · have hlinked : ListOps.Linked v u := (linked_iff hr.lists.rings).mp hlinked
    obtain ⟨h, hm⟩ := not_forall_not.mp hlinked
    obtain ⟨v', hr'⟩ := hr.wake hm
    exact of_settled ⟨v', .running t hp hr'⟩ rfl rfl

/-- One pass of the inner loop of the timeout task: the task it resumes waits for the descriptor. -/
theorem timeoutLoop (hk : Kept s) {w : View ℕ Fd} (hf : Fds s.io s.cont w) (hr : Runs s.q v t)
    (hp : s.q.phase = .running t) {ls : Node ℕ Fd} (hc : s.cont t = .timeoutList ls)
    (e : s.timeoutLoop t ls = some s') : Next s t s' := by
  rcases timeoutLoop_eq e with ⟨-, rfl⟩ | ⟨hlinked, fd, r, u, rfl, hifd, ht, rfl⟩
  · exact goto hr hp rfl rfl
  · have hlinked : ListOps.Linked w fd := (linked_iff hf.rings).mp hlinked
    obtain ⟨x, hx, hw⟩ := hf.wheeled fd hlinked
    obtain rfl : u = x := Option.some.inj (ht.symm.trans ((Fds.taskOf_eq hifd).symm.trans hx))
    have hlive : s.q.Live u := hk.live_of_waits (.inr hw)
    have hut : u ≠ t := by
      rintro rfl
      rw [hc] at hw
      exact hw
    obtain ⟨v', hr'⟩ := hr.coResume hlive hut
    exact of_settled ⟨v', .running t hp hr'⟩ rfl rfl

theorem goOn (hk : Kept s) {w : View ℕ Fd} (hf : Fds s.io s.cont w) (hr : Runs s.q v t)
    (hp : s.q.phase = .running t) {read : Bool} (e : s.goOn t read = some s') : Next s t s' := by
  unfold St.goOn at e
  cases hc : s.cont t with
  | user | timeoutRead => simp [hc] at e
  | mutexLock m r =>
      rw [hc] at e
      obtain rfl := Option.some.inj e
      exact mutexLoop hr hp m r
  | condWait m =>
      rw [hc] at e
      exact coMutexLock hr hp e
  | condWaitTill m tfd =>
      rw [hc] at e
      exact of_io (coMutexLock (s := { s with io := (s.io.stopTimer tfd).1 }) hr hp e)
  | semWait i =>
      rw [hc] at e
      obtain rfl := Option.some.inj e
      exact coSemWait hr hp i
  | eventPoll fd caller =>
      rw [hc] at e
      cases hpoll : s.io.eventPollReturn fd with
      | none => simp [hpoll] at e
      | some x =>
          simp only [hpoll] at e
          obtain rfl := Option.some.inj e
          exact of_io (eventPollDone (s := { s with io := x.1 }) hr hp fd x.2 read caller)
  | coPoll fds timed tfd =>
      rw [hc] at e
      simp only [St.coPollReturn] at e
      cases hpoll : (s.io.stopTimer tfd).1.coPollCollect timed (s.io.stopTimer tfd).2 [] 0 fds with
      | none => simp [hpoll] at e
      | some x =>
          simp only [hpoll] at e
          obtain rfl := Option.some.inj e
          exact goto hr hp rfl rfl
  | broadcast ls =>
      rw [hc] at e
      exact broadcastLoop hr hp e
  | timeoutList ls =>
      rw [hc] at e
      exact timeoutLoop hk hf hr hp hc e

theorem timeoutRead (hr : Runs s.q v t) (hp : s.q.phase = .running t) {ok : Bool} {r : ReadResult}
    (e : timeoutRead s t ok r = some s') : Next s t s' := by
  cases r with
  | full =>
      obtain rfl := Option.some.inj e
      exact goto hr hp rfl rfl
  | again => exact eventPoll hr hp e
  | error =>
      obtain rfl := Option.some.inj e
      exact exit hr rfl rfl

theorem coSleep (hr : Runs s.q v t) (hp : s.q.phase = .running t) {k : Io.TimerCall}
    {again ok : Bool} (e : s.coSleep t k again ok = some s') : Next s t s' := by
  obtain ⟨-, e⟩ := Option.ite_none_right_eq_some.mp e
  dsimp only at e
  cases hset : s.io.openTimer.1.setTimer t s.io.openTimer.2 k.set k.added with
  | none => simp [hset] at e
  | some io' =>
      simp only [hset] at e
      split_ifs at e
      · exact of_io (eventPoll (s := { s with io := io' }) hr hp e)
      · obtain rfl := Option.some.inj e
        exact goto hr hp rfl rfl
      · obtain rfl := Option.some.inj e
        exact goto hr hp rfl rfl

theorem coPoll (hr : Runs s.q v t) {fds : List (PollFd × Bool)} {timed : Bool} {k : Io.TimerCall}
    (e : s.coPoll t fds timed k = some s') : Next s t s' := by
  unfold St.coPoll at e
  cases hadd : s.io.coPollAdd t timed fds with
  | none => simp [hadd] at e
  | some io₁ =>
      simp only [hadd] at e
      split_ifs at e
      · cases hk : io₁.startTimer t k with
        | none => simp [hk] at e
        | some x =>
            simp only [hk] at e
            obtain rfl := Option.some.inj e
            exact coIoYield hr rfl rfl
      · obtain rfl := Option.some.inj e
        exact coIoYield hr rfl rfl

theorem userAct (hr : Runs s.q v t) (hp : s.q.phase = .running t) (hc : s.cont t = .user)
    {u : UserAct} (e : userAct s t u = some s') : Next s t s' := by
  -- calls that leave the task in its own code
  have hcont : s.cont = Function.update s.cont t .user := by
    rw [← hc, Function.update_eq_self]
  cases u with
  | create =>
      obtain rfl := Option.some.inj e
      obtain ⟨v', hr'⟩ := hr.coCreate
      exact ⟨⟨v', .running t hp hr'⟩, fun _ _ => rfl,
        fun x hx => .inl ⟨hx.1.trans (Nat.lt_succ_self _), hx.2⟩, rfl⟩
  | yield =>
      obtain rfl := Option.some.inj e
      exact of_settled ⟨v, hr.yield⟩ hcont rfl
  | exit =>
      obtain rfl := Option.some.inj e
      exact exit hr rfl hcont
  | lock m => exact coMutexLock hr hp e
  | tryLock m =>
      obtain rfl := Option.some.inj e
      unfold St.coMutexTryLock
      cases s.lock m with
      | none | some u => exact goto hr hp rfl rfl
  | unlock m =>
      obtain ⟨-, e⟩ := Option.ite_none_right_eq_some.mp e
      obtain rfl := Option.some.inj e
      exact wakeFirst hr hp rfl hcont
  | condWait c m =>
      obtain ⟨-, e⟩ := Option.ite_none_left_eq_some.mp e
      obtain ⟨s₁, e₁, rfl⟩ := Option.map_eq_some_iff.mp e
      exact condWait hr e₁
  | condWaitTill c m k =>
      obtain ⟨-, e⟩ := Option.ite_none_left_eq_some.mp e
      cases hk : s.io.startTimer t k with
      | none => simp [hk] at e
      | some x =>
          simp only [hk] at e
          obtain ⟨s₁, e₁, rfl⟩ := Option.map_eq_some_iff.mp e
          exact condWait hr e₁
  | signal c =>
      obtain rfl := Option.some.inj e
      exact wakeFirst hr hp rfl rfl
  | broadcast c =>
      obtain rfl := Option.some.inj e
      exact goto hr hp rfl rfl
  | semWait i =>
      obtain rfl := Option.some.inj e
      exact coSemWait hr hp i
  | semTryWait i =>
      obtain rfl := Option.some.inj e
      unfold St.coSemTryWait
      dsimp only
      split_ifs <;> exact goto hr hp rfl rfl
  | semPost i =>
      obtain rfl := Option.some.inj e
      unfold St.coSemPost
      dsimp only
      split_ifs
      · exact goto hr hp rfl rfl
      · exact wakeFirst hr hp rfl rfl
      · exact goto hr hp rfl rfl
  | socket =>
      obtain rfl := Option.some.inj e
      exact goto hr hp rfl hcont
  | listen n =>
      unfold Sched.userAct at e
      dsimp only at e
      cases hifd : s.io.ifd (.sock n) with
      | none | some r =>
          simp only [hifd] at e
          obtain rfl := Option.some.inj e
          exact goto hr hp rfl hcont
  | eventPoll n events ok => exact eventPoll hr hp e
  | coPoll fds timed k => exact coPoll hr e
  | sleep k again ok => exact coSleep hr hp e

end Next

/-- A step of the scheduler thread: no task is destroyed twice. -/
structure Advance (s s' : St) : Prop where
  kept : Kept s'
  destroyed : s.q.destroyed ⊆ s'.q.destroyed

theorem Advance.of_next {s s' : St} {t : Tid} (hk : Kept s) (ht : s.q.Live t) (hn : Next s t s') :
    Advance s s' :=
  ⟨hk.next ht hn, fun _ hx => hn.destroyed ▸ hx⟩

/-- An event resumes a task that waits for it. -/
theorem Advance.eventWait {s s' : St} (hk : Kept s) {w : View ℕ Fd} (hf : Fds s.io s.cont w)
    (hp : s.q.phase = .loop) {fd : Fd} {ev : Events} (e : s.eventWait fd ev = some s') :
    Advance s s' := by
  obtain ⟨hreg, r, hifd, rfl⟩ := eventWait_eq e
  obtain ⟨u, hu, hw⟩ := hf.watched fd hreg
  have ht : r.task = some u := (Fds.taskOf_eq hifd).symm.trans hu
  have hlive : s.q.Live u := hk.live_of_waits (.inl hw)
  obtain ⟨v, hs⟩ := hk.settled
  rw [ht]
  exact ⟨⟨settled_coResume hs hp hlive, hk.live⟩, List.Subset.refl _⟩

theorem advance_step {s s' : St} {a : Act} (hk : Kept s) {w : View ℕ Fd} (hf : Fds s.io s.cont w)
    (e : step s a = some s') : Advance s s' := by
  obtain ⟨v, hs⟩ := hk.settled
  unfold step at e
  cases hp : s.q.phase with
  | loop =>
      rw [hp] at e
      cases a with
      | event fd ev => exact .eventWait hk hf hp e
      | dispatch =>
          obtain ⟨q, hq, rfl⟩ := Option.map_eq_some_iff.mp e
          obtain ⟨t, v', hp', hr⟩ := settled_dispatch hs hp hq
          have hh := dispatch_history hq
          have hd : q.destroyed = s.q.destroyed := (Prod.mk.inj (Prod.mk.inj hh).2).2
          refine ⟨⟨⟨v', .running t hp' hr⟩, fun x hx => ?_⟩, fun x hx => hd ▸ hx⟩
          exact (live_iff_of_history hh).mpr (hk.live x hx)
      | handlePrev | goOn r | timeoutRead r ok | user u => cases e
  | running t =>
      rw [hp] at e
      have hr := Runs.of_settled hs hp
      cases a with
      | goOn read => exact .of_next hk hr.live (.goOn hk hf hr hp e)
      | timeoutRead r ok =>
          obtain ⟨-, e⟩ := Option.ite_none_right_eq_some.mp e
          exact .of_next hk hr.live (.timeoutRead hr hp e)
      | user u =>
          obtain ⟨hc, e⟩ := Option.ite_none_right_eq_some.mp e
          exact .of_next hk hr.live (.userAct hr hp hc e)
      | handlePrev | event fd ev | dispatch => cases e
  | handle t =>
      rw [hp] at e
      cases a with
      | handlePrev =>
          obtain rfl := Option.some.inj e
          exact ⟨⟨settled_handlePrev hs hp, fun x hx => handlePrev_live (hk.live x hx)⟩,
            handlePrev_destroyed s.q t⟩
      | event fd ev | dispatch | goOn r | timeoutRead r ok | user u => cases e

/-! ### Whole runs -/

theorem Kept.start (n : ℕ) (count : ℕ → ℕ) : Kept (start n count) := by
  obtain ⟨v, hl⟩ := start_lists (n + 2)
  obtain ⟨hphase, hh⟩ := start_frame (n + 2)
  obtain ⟨hcreated, hlists⟩ := Prod.mk.inj hh
  obtain ⟨hexited, hdestroyed⟩ := Prod.mk.inj hlists
  refine ⟨⟨v, .loop hphase hl (hexited.trans hdestroyed.symm)⟩, fun t ht => ?_⟩
  -- only the timeout task is inside a call
  have h0 : t = 0 := by
    by_contra hne
    apply ht
    show Function.update (fun _ => Cont.user) 0 .timeoutRead t = .user
    rw [Function.update_of_ne hne]
  subst h0
  refine ⟨?_, ?_⟩
  · show 0 < (coCreate^[n + 2] empty).created
    omega
  · show 0 ∉ (coCreate^[n + 2] empty).exited
    rw [hexited]
    exact List.not_mem_nil

theorem advance_of_reach {s s' : St} {a : Act} (hk : Kept s)
    (h : system.ReachVia (fun s a => noStaleLink s a = true) s) (e : step s a = some s') :
    Advance s s' := by
  obtain ⟨w, hf⟩ := fds_of_reach h
  exact advance_step hk hf e

theorem kept_of_reach {s : St} (h : system.ReachVia (fun s a => noStaleLink s a = true) s) :
    Kept s := by
  induction h with
  | init h0 =>
      obtain ⟨n, count, rfl⟩ := h0
      exact Kept.start n count
  | step hr _ e ih => exact (advance_of_reach ih hr e).kept

/-- The lists are well formed, and the tasks that are destroyed are not on them. -/
theorem Queues.Settled.gone {q : Queues} {v : View Head Tid} (hs : q.Settled v) :
    Rings q.links v ∧ ∀ t ∈ q.destroyed, v.Free t := by
  have hgone : ∀ {away}, Lists q v away → q.destroyed ⊆ q.exited → ∀ t ∈ q.destroyed, v.Free t :=
    fun hl hsub t ht h hm => (hl.live hm).2 (hsub ht)
  cases hs with
  | loop _ hl hd => exact ⟨hl.rings, hgone hl (hd ▸ List.Subset.refl _)⟩
  | running t _ hr | yielded t _ hr =>
      exact ⟨hr.lists.rings, hgone hr.lists (hr.done ▸ List.Subset.refl _)⟩
  | blocked t _ hl _ hd => exact ⟨hl.rings, hgone hl (hd ▸ List.Subset.refl _)⟩
  | killed t _ hl _ _ hd => exact ⟨hl.rings, hgone hl (hd ▸ List.subset_append_left ..)⟩

/-! ### Conservation -/

/-- The task is linked once, on the run queue, and runnable. -/
structure Ready (q : Queues) (v : View Head Tid) (t : Tid) : Prop where
  once : (v .runList).count t = 1
  only : ∀ h, t ∈ v h → h = .runList
  status : q.status t = .runnable

/-- The task is blocked, not on the run queue, and on at most one wait list. -/
structure Waiting (q : Queues) (v : View Head Tid) (t : Tid) : Prop where
  status : q.status t = .ioBlock ∨ q.status t = .sysBlock
  off : t ∉ v .runList
  one : ∀ h h', t ∈ v h → t ∈ v h' → h = h'

/-- The lists, which are those of `v`, account for every task. -/
structure Conserved (s : St) (v : View Head Tid) : Prop where
  lists : Rings s.q.links v
  wheel : ∃ w, Rings s.io.wheel w
  placed : ∀ t < s.q.created, t ∉ s.q.destroyed → Xor (Ready s.q v t) (Waiting s.q v t)
  dispatched : ∀ s', step s .dispatch = some s' → ∃ t, s'.q.phase = .running t ∧
    s'.q.links.next (.elem t) = .elem t ∧ s'.q.links.prev (.elem t) = .elem t
  exited : s.q.exited = s.q.destroyed
  once : s.q.destroyed.Nodup
  gone : ∀ t ∈ s.q.destroyed, v.Free t

theorem Queues.Lists.xor {q : Queues} {v : View Head Tid} (hl : Lists q v fun _ => False) {t : Tid}
    (ht : q.Live t) : Xor (Ready q v t) (Waiting q v t) := by
  have hok := hl.rings.ok
  rcases hl.placed t ht id with ⟨hm, hst⟩ | ⟨hst, hm⟩
  · refine .inl ⟨⟨?_, fun h hmh => hok.disjoint hmh hm, hst⟩, fun hw => hw.off hm⟩
    exact List.count_eq_one_of_mem (hok.nodup _) hm
  · refine .inr ⟨⟨hst, hm, fun h h' => hok.disjoint⟩, fun hr => hm ?_⟩
    exact List.count_pos_iff.mp (hr.once ▸ Nat.one_pos)

/-- When the scheduler loop has handled the task that ran last, every task is accounted for. -/
theorem tasks_conserved {s : St} (h : system.ReachVia (fun s a => noStaleLink s a = true) s)
    (hloop : s.q.phase = .loop) :
    (∃ v, Conserved s v) ∧
    -- what is destroyed stays so, and off the lists, from then on
    ∀ as s', system.RunMeets (fun s a => noStaleLink s a = true) s as →
      system.run s as = some s' →
      ∃ v', Rings s'.q.links v' ∧ ∀ t ∈ s.q.destroyed, t ∈ s'.q.destroyed ∧ v'.Free t := by
  obtain ⟨w, hf⟩ := fds_of_reach h
  constructor
  · obtain ⟨v, hs⟩ := (kept_of_reach h).settled
    obtain ⟨hR, hgone⟩ := hs.gone
    have hdispatch : ∀ s', step s .dispatch = some s' → ∃ t, s'.q.phase = .running t ∧
        s'.q.links.next (.elem t) = .elem t ∧ s'.q.links.prev (.elem t) = .elem t := by
      intro s' e
      unfold step at e
      rw [hloop] at e
      obtain ⟨q, hq, rfl⟩ := Option.map_eq_some_iff.mp e
      obtain ⟨t, v', hp, hr⟩ := settled_dispatch hs hloop hq
      exact ⟨t, hp, hr.lists.rings.free hr.free⟩
    cases hs with
    | running t hp | yielded t hp | blocked t hp | killed t hp => cases hloop.symm.trans hp
    | loop _ hl hd =>
        refine ⟨v, hR, ⟨w, hf.rings⟩, fun t ht hnd => ?_, hdispatch, hd, hd ▸ hl.once, hgone⟩
        exact hl.xor ⟨ht, hd ▸ hnd⟩
  · intro as s' hm hrun
    obtain ⟨v', hs'⟩ := (kept_of_reach (.of_runMeets h hm hrun)).settled
    obtain ⟨hR, hgone⟩ := hs'.gone
    have hmono := TS.ReachVia.le_of_run (f := fun s : St => {t | t ∈ s.q.destroyed})
      (fun _ _ _ hr _ e => (advance_of_reach (kept_of_reach hr) hr e).destroyed) h hm hrun
    exact ⟨v', hR, fun t ht => ⟨hmono ht, hgone t (hmono ht)⟩⟩

/-- The timeout task and the active task wait for their descriptors, the task 2 for the socket 1,
which is on the time wheel. -/
def waitOnSocket : List Act :=
  [.dispatch, .timeoutRead .again true, .handlePrev, .dispatch, .user .socket, .user (.listen 0),
    .user (.eventPoll 0 { epollin := true } true), .handlePrev, .dispatch, .user .socket,
    .user (.eventPoll 1 { epollin := true } true), .handlePrev]

/-- The task 3 polls the socket `n` with a timeout, which passes, and exits. -/
def pollAndExit (n : ℕ) : List Act :=
  [.user (.coPoll [(⟨n, { epollin := true }, {}⟩, true)] true ⟨true, true, true⟩), .handlePrev,
    .event (.timer 0) { epollin := true }, .dispatch, .goOn false, .user .exit, .handlePrev]

/-- The time wheel turns by one slot with `k` descriptors in it. -/
def tick (k : ℕ) : List Act :=
  [.event .wheelTimer { epollin := true }, .dispatch, .goOn true] ++ List.replicate (k + 1) (.goOn true)
    ++ [.timeoutRead .again true, .handlePrev]

/-- The task 3 polls a socket of its own. -/
theorem tasks_conserved_own_socket :
    ∃ s, s.q.phase = .loop ∧ s.q.destroyed = [3] ∧ ∃ v, Conserved s v := by
  have hrun := TS.ReachVia.exists_of_run (M := system) (s := start 2 fun _ => 0)
    (fun s a => noStaleLink s a = true)
    (waitOnSocket ++ .dispatch :: .user .socket :: pollAndExit 2)
    (fun s => decide (s.q.phase = .loop ∧ s.q.destroyed = [3])) ⟨2, _, rfl⟩ (by decide +kernel)
    (by decide +kernel)
  obtain ⟨s, hs, hP⟩ := hrun
  obtain ⟨hloop, hd⟩ := of_decide_eq_true hP
  exact ⟨s, hloop, hd, (tasks_conserved hs hloop).1⟩

/-- The task 3 polls the socket of the task 2, exits and is destroyed.  The socket is still on the time
wheel, with the task 3 as its task, and its timeout puts that task back on the run queue. -/
theorem destroyed_task_queued :
    ¬∀ s, system.Reachable s → s.q.phase = .loop → ∃ v, Conserved s v := by
  have hrun := TS.Reachable.exists_of_run (M := system) (s := start 2 fun _ => 0)
    (waitOnSocket ++ .dispatch :: pollAndExit 1 ++ (List.replicate 60 (tick 0)).flatten ++ tick 1)
    (fun s => decide (s.q.phase = .loop ∧ s.q.destroyed = [3] ∧
      ListOps.last s.q.links Head.runList = some 3)) ⟨2, _, rfl⟩ (by decide +kernel)
  obtain ⟨s, hs, hP⟩ := hrun
  obtain ⟨hloop, hd, hlast⟩ := of_decide_eq_true hP
  intro h
  obtain ⟨v, hc⟩ := h s hs hloop
  rw [last_eq hc.lists] at hlast
  exact hc.gone 3 (hd ▸ List.mem_singleton_self 3) .runList (List.mem_of_getLast? hlast)

end Libcask.Sched
