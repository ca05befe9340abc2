import Libcask.IoWaiters

/-! # The wait list of a condition

A task is linked at the end of the wait list of a condition when it calls `co_cond_wait` or
`co_cond_wait_till` (`St.begins`), and `RR_enqueue` takes it out, whoever resumes it: a signal, a
broadcast, or the event loop when the timer fires.  `condQueue_step` says so for every step: the list
grows by the task that begins to wait, and loses the task that the step puts on the run queue. -/

namespace Libcask.Sched

/-- The tasks that wait for a condition, from the one that has been waiting longest on. -/
def St.condQueue (s : St) (c : ℕ) : List Tid :=
  Rings.walk s.q.links s.q.created (.head (.condWait c))

theorem Formed.condQueue_eq {s : St} {v : View Head Tid} (hf : Formed s v) (c : ℕ) :
    s.condQueue c = v (.condWait c) := hf.walk_eq _

/-- The call of a task that waits for the condition `c`: the task and the mutex. -/
def UserAct.begins (c : ℕ) (t : Tid) : UserAct → Option (Tid × ℕ)
  | .condWait c' m | .condWaitTill c' m _ => if c' = c then some (t, m) else none
  | _ => none

/-- The call with which a task begins to wait for the condition `c` in a step. -/
def St.begins (s : St) (c : ℕ) (a : Act) : Option (Tid × ℕ) :=
  match s.q.phase, a with
  | .running t, .user u => u.begins c t
  | _, _ => none

/-- The list of a wait queue after a task is put on the run queue, wherever it was. -/
def dropped : Option Tid → List Tid → List Tid
  | none, l => l
  | some u, l => l.erase u

/-- The links hold the lists `v`, except that on the list of the condition `c` the task of the call
`call` has been linked, and `put` is no longer on it. -/
def Shifts (c : ℕ) (v : View Head Tid) (call : Option (Tid × ℕ)) (put : Option Tid)
    (L : Links (Node Head Tid)) : Prop :=
  ∃ v', Rings L v' ∧ v' (.condWait c) = dropped put (v (.condWait c) ++ (call.map Prod.fst).toList)

namespace Shifts

variable {c : ℕ} {v : View Head Tid} {L : Links (Node Head Tid)} {t u : Tid} {s s' : St}

/-! ### The links -/

theorem keep (hR : Rings L v) : Shifts c v none none L := ⟨v, hR, (List.append_nil _).symm⟩

theorem rrEnqueue (hR : Rings L v) (u : Tid) :
    Shifts c v none (some u) (rrEnqueue .runList L u) := by
  refine ⟨_, rings_rrEnqueue hR .runList u, ?_⟩
  show (v.delete u).addAfter .runList u (.condWait c) = (v (.condWait c) ++ []).erase u
  rw [View.addAfter, Function.update_of_ne (by simp), List.append_nil]
  rfl

theorem wake (hR : Rings L v) (u : Tid) :
    Shifts c v none (some u) (Libcask.rrEnqueue .runList (ListOps.delete L u) u) := by
  obtain ⟨v', hR', hv'⟩ := rrEnqueue (c := c) (rings_delete hR u) u
  refine ⟨v', hR', hv'.trans ?_⟩
  show ((v (.condWait c)).erase u ++ []).erase u = (v (.condWait c) ++ []).erase u
  rw [List.append_nil, List.append_nil]
  exact List.erase_of_not_mem (hR.ok.nodup _).not_mem_erase

theorem wakeFirst {q : Queues} (hR : Rings q.links v) (h : Head) :
    Shifts c v none (ListOps.first q.links h) (q.wakeFirst h).links := by
  unfold Queues.wakeFirst
  cases ListOps.first q.links h with
  | none => exact keep hR
  | some u => exact wake hR u

theorem addBefore (hR : Rings L v) (ht : v.Free t) {h : Head} (hh : h ≠ .condWait c) :
    Shifts c v none none (ListOps.addBefore L h t) := by
  refine ⟨_, rings_addBefore hR ht, ?_⟩
  show Function.update v h _ (.condWait c) = v (.condWait c) ++ []
  rw [Function.update_of_ne hh.symm, List.append_nil]

/-- The task links itself on the wait list of a condition, and wakes the first task that waits for the
mutex. -/
theorem condWait {q : Queues} (hc : q.Control v t) (c' m : ℕ) :
    Shifts c v (if c' = c then some (t, m) else none) (ListOps.first q.links (.mutexWait m))
      ((q.addWaiter (.condWait c') t).wakeFirst (.mutexWait m)).links := by
  have hR' : Rings (q.addWaiter (.condWait c') t).links (v.addBefore (.condWait c') t) :=
    rings_addBefore hc.listed.rings hc.free
  obtain ⟨v', hv, hv'⟩ := wakeFirst (c := c) hR' (.mutexWait m)
  rw [hc.first_addWaiter (by simp)] at hv'
  refine ⟨v', hv, hv'.trans (congrArg _ ?_)⟩
  show v.addBefore (.condWait c') t (.condWait c) ++ [] = _
  rw [List.append_nil, View.addBefore]
  by_cases hcc : c' = c
  · subst hcc
    rw [Function.update_self, if_pos rfl]
    rfl
  · rw [Function.update_of_ne (by simpa using Ne.symm hcc), if_neg hcc]
    exact (List.append_nil _).symm

theorem coCreate {q : Queues} (hl : q.Listed v) :
    Shifts c v none (some q.created) q.coCreate.links := by
  have hfree : v.Free q.created := fun h hm => lt_irrefl _ (hl.created hm)
  have hinit := listInit_of_free hl.rings hfree
  show Shifts c v none (some q.created)
    (Libcask.rrEnqueue .runList (listInit q.links (.elem q.created)) q.created)
  rw [hinit]
  exact rrEnqueue hl.rings q.created

/-! ### The calls -/

theorem of_links (hR : Rings s.q.links v) (h : s'.q.links = s.q.links) :
    Shifts c v none none s'.q.links := h ▸ keep hR

theorem mutexLoop (hc : s.q.Control v t) (m : ℕ) (r : Ret) :
    Shifts c v none none (s.mutexLoop t m r).q.links := by
  unfold St.mutexLoop
  cases s.lock m with
  | none => exact keep hc.listed.rings
  | some u => exact addBefore hc.listed.rings hc.free (by simp)

theorem coMutexLock (hc : s.q.Control v t) {m : ℕ} {r : Ret} (e : s.coMutexLock t m r = some s') :
    Shifts c v none none s'.q.links := by
  obtain ⟨-, e⟩ := Option.ite_none_left_eq_some.mp e
  obtain rfl := Option.some.inj e
  exact mutexLoop hc m r

theorem coSemWait (hc : s.q.Control v t) (i : ℕ) :
    Shifts c v none none (s.coSemWait t i).q.links := by
  unfold St.coSemWait
  dsimp only
  split_ifs
  · exact keep hc.listed.rings
  · exact addBefore hc.listed.rings hc.free (by simp)
  · exact keep hc.listed.rings

theorem coSemPost (hc : s.q.Control v t) (i : ℕ) :
    Shifts c v none (UserAct.puts s.q s.sem (.semPost i)) (s.coSemPost t i).q.links := by
  unfold St.coSemPost UserAct.puts
  dsimp only
  split_ifs with h1 h2
  · rw [Function.update_self] at h2
    exact absurd h1 (not_lt.mpr h2)
  · exact wakeFirst hc.listed.rings _
  · exact keep hc.listed.rings

theorem coMutexUnlock (hc : s.q.Control v t) {m : ℕ} (e : s.coMutexUnlock t m = some s') :
    Shifts c v none (ListOps.first s.q.links (.mutexWait m)) s'.q.links := by
  obtain ⟨-, e⟩ := Option.ite_none_right_eq_some.mp e
  obtain rfl := Option.some.inj e
  exact wakeFirst hc.listed.rings _

theorem broadcastLoop (hR : Rings s.q.links v) {ls : Node Head Tid}
    (e : s.broadcastLoop t ls = some s') :
    Shifts c v none (listPeek s.q.links ls) s'.q.links := by
  unfold listPeek
  rcases broadcastLoop_eq e with ⟨hempty, rfl⟩ | ⟨hempty, u, rfl, rfl⟩
  · rw [hempty]
    exact keep hR
  · rw [hempty]
    exact wake hR u

theorem timeoutLoop (hR : Rings s.q.links v) {ls : Node ℕ Fd} (e : s.timeoutLoop t ls = some s') :
    Shifts c v none ((listPeek s.io.wheel ls).bind s.io.taskOf) s'.q.links := by
  unfold listPeek
  rcases timeoutLoop_eq e with ⟨hempty, rfl⟩ | ⟨hempty, fd, r, u, rfl, hr, ht, rfl⟩
  · rw [hempty]
    exact keep hR
  · rw [hempty]
    show Shifts c v none (s.io.taskOf fd) _
    rw [Fds.taskOf_eq hr, ht]
    exact rrEnqueue hR u

end Shifts

/-! ### The calls that link no task -/

section links
variable {s s' : St} {t : Tid}

theorem eventPollDone_links (s : St) (t : Tid) (fd : Fd) (r : Io.PollResult) (read : Bool)
    (caller : Caller) : (s.eventPollDone t fd r read caller).q.links = s.q.links := by
  unfold St.eventPollDone
  cases caller with
  | user => rfl
  | sleep | timeoutTask => split_ifs <;> rfl

theorem eventPoll_links {fd : Fd} {events : Events} {ok : Bool} {caller : Caller}
    (e : s.eventPoll t fd events ok caller = some s') : s'.q.links = s.q.links := by
  unfold St.eventPoll at e
  split at e
  · cases e
  · obtain rfl := Option.some.inj e
    rfl
  · obtain rfl := Option.some.inj e
    exact eventPollDone_links ..

theorem timeoutRead_links {ok : Bool} {r : ReadResult} (e : timeoutRead s t ok r = some s') :
    s'.q.links = s.q.links := by
  cases r with
  | full | error =>
      obtain rfl := Option.some.inj e
      rfl
  | again => exact eventPoll_links e

theorem coSleep_links {k : Io.TimerCall} {again ok : Bool} (e : s.coSleep t k again ok = some s') :
    s'.q.links = s.q.links := by
  obtain ⟨-, e⟩ := Option.ite_none_right_eq_some.mp e
  dsimp only at e
  split at e
  · cases e
  · split_ifs at e
    · exact (eventPoll_links e).trans rfl
    · obtain rfl := Option.some.inj e
      rfl
    · obtain rfl := Option.some.inj e
      rfl

theorem coPoll_links {fds : List (PollFd × Bool)} {timed : Bool} {k : Io.TimerCall}
    (e : s.coPoll t fds timed k = some s') : s'.q.links = s.q.links := by
  unfold St.coPoll at e
  split at e
  · cases e
  · split_ifs at e
    · split at e
      · cases e
      · obtain rfl := Option.some.inj e
        rfl
    · obtain rfl := Option.some.inj e
      rfl

theorem coPollReturn_links {fds : List PollFd} {timed : Bool} {tfd : Option Fd}
    (e : s.coPollReturn t fds timed tfd = some s') : s'.q.links = s.q.links := by
  unfold St.coPollReturn at e
  dsimp only at e
  split at e
  · cases e
  · obtain rfl := Option.some.inj e
    rfl

theorem coSemTryWait_links (s : St) (t : Tid) (i : ℕ) : (s.coSemTryWait t i).q.links = s.q.links := by
  unfold St.coSemTryWait
  dsimp only
  split_ifs <;> rfl

theorem coMutexTryLock_links (s : St) (t : Tid) (m : ℕ) :
    (s.coMutexTryLock t m).q.links = s.q.links := by
  unfold St.coMutexTryLock
  split <;> rfl

end links

/-! ### The steps -/

section steps
variable {c : ℕ} {v : View Head Tid} {t : Tid} {s s' : St} {a : Act}

theorem Shifts.userAct (hc : s.q.Control v t) {u : UserAct} (e : userAct s t u = some s') :
    Shifts c v (u.begins c t) (u.puts s.q s.sem) s'.q.links := by
  have hR := hc.listed.rings
  cases u with
  | create =>
      obtain rfl := Option.some.inj e
      exact coCreate hc.listed
  | yield | exit | broadcast c' | socket =>
      obtain rfl := Option.some.inj e
      exact keep hR
  | lock m => exact coMutexLock hc e
  | tryLock m =>
      obtain rfl := Option.some.inj e
      exact of_links hR (coMutexTryLock_links s t m)
  | unlock m => exact coMutexUnlock hc e
  | condWait c' m =>
      obtain ⟨-, e⟩ := Option.ite_none_left_eq_some.mp e
      obtain ⟨s₁, e₁, rfl⟩ := Option.map_eq_some_iff.mp e
      obtain ⟨-, e₁⟩ := Option.ite_none_right_eq_some.mp e₁
      obtain rfl := Option.some.inj e₁
      exact Shifts.condWait hc c' m
  | condWaitTill c' m k =>
      obtain ⟨-, e⟩ := Option.ite_none_left_eq_some.mp e
      split at e
      · cases e
      · obtain ⟨s₁, e₁, rfl⟩ := Option.map_eq_some_iff.mp e
        obtain ⟨-, e₁⟩ := Option.ite_none_right_eq_some.mp e₁
        obtain rfl := Option.some.inj e₁
        exact Shifts.condWait hc c' m
  | signal c' =>
      obtain rfl := Option.some.inj e
      exact wakeFirst hR _
  | semWait i =>
      obtain rfl := Option.some.inj e
      exact coSemWait hc i
  | semTryWait i =>
      obtain rfl := Option.some.inj e
      exact of_links hR (coSemTryWait_links s t i)
  | semPost i =>
      obtain rfl := Option.some.inj e
      exact coSemPost hc i
  | listen n =>
      unfold Sched.userAct at e
      dsimp only at e
      split at e
      · obtain rfl := Option.some.inj e
        exact keep hR
      · obtain rfl := Option.some.inj e
        exact keep hR
  | eventPoll n events ok => exact of_links hR (eventPoll_links e)
  | coPoll fds timed k => exact of_links hR (coPoll_links e)
  | sleep k again ok => exact of_links hR (coSleep_links e)

theorem Shifts.goOn (hc : s.q.Control v t) {read : Bool} (e : s.goOn t read = some s') :
    Shifts c v none ((s.cont t).puts s) s'.q.links := by
  have hR := hc.listed.rings
  unfold St.goOn at e
  cases hcont : s.cont t with
  | user | timeoutRead => simp [hcont] at e
  | mutexLock m r =>
      simp only [hcont] at e
      obtain rfl := Option.some.inj e
      exact mutexLoop hc m r
  | condWait m =>
      simp only [hcont] at e
      exact coMutexLock hc e
  | condWaitTill m tfd =>
      simp only [hcont] at e
      exact coMutexLock (s := { s with io := (s.io.stopTimer tfd).1 }) hc e
  | semWait i =>
      simp only [hcont] at e
      obtain rfl := Option.some.inj e
      exact coSemWait hc i
  | eventPoll fd caller =>
      simp only [hcont] at e
      split at e
      · cases e
      · obtain rfl := Option.some.inj e
        exact of_links hR (eventPollDone_links ..)
  | coPoll fds timed tfd =>
      simp only [hcont] at e
      exact of_links hR (coPollReturn_links e)
  | broadcast ls =>
      simp only [hcont] at e
      exact broadcastLoop hR e
  | timeoutList ls =>
      simp only [hcont] at e
      exact timeoutLoop hR e

theorem Shifts.handlePrev {q : Queues} (hR : Rings q.links v)
    (hdead : q.status t = .killed → v.Free t) :
    Shifts c v none (if q.status t = .runnable then some t else none) (q.handlePrev t).links := by
  unfold Queues.handlePrev
  cases hst : q.status t with
  | runnable => exact rrEnqueue hR t
  | killed =>
      refine ⟨_, rings_delete hR t, ?_⟩
      show v.delete t (.condWait c) = v (.condWait c) ++ []
      rw [View.delete_of_free (hdead hst), List.append_nil]
  | ready | ioBlock | sysBlock | sleep | dead => exact keep hR

theorem Shifts.eventWait (hR : Rings s.q.links v) {fd : Fd} {ev : Events}
    (e : s.eventWait fd ev = some s') : Shifts c v none (s.io.taskOf fd) s'.q.links := by
  obtain ⟨-, r, hr, rfl⟩ := eventWait_eq e
  rw [Fds.taskOf_eq hr]
  cases r.task with
  | none => exact keep hR
  | some u => exact rrEnqueue hR u

/-- The task that is dispatched comes from the run queue. -/
theorem Shifts.dispatch {q q' : Queues} (hR : Rings q.links v) (e : q.dispatch = some q') :
    Shifts c v none none q'.links := by
  unfold Queues.dispatch at e
  cases hpick : rrPicknext .runList q.links with
  | none => simp [hpick] at e
  | some t =>
      simp only [hpick] at e
      obtain rfl := Option.some.inj e
      rw [rrPicknext_eq hR] at hpick
      have hm : t ∈ v .runList := List.mem_of_getLast? hpick
      refine ⟨_, rings_rrDequeue hR t, ?_⟩
      show (v (.condWait c)).erase t = v (.condWait c) ++ []
      rw [List.append_nil]
      refine List.erase_of_not_mem fun hc => ?_
      cases hR.ok.disjoint hm hc

theorem Shifts.step (hf : Formed s v) (e : step s a = some s') :
    Shifts c v (s.begins c a) (s.puts a) s'.q.links := by
  have hR := hf.listed.rings
  unfold Sched.step at e
  unfold St.begins St.puts
  cases hp : s.q.phase with
  | loop =>
      rw [hp] at e
      cases a with
      | event fd ev => exact eventWait hR e
      | dispatch =>
          obtain ⟨q, hq, rfl⟩ := Option.map_eq_some_iff.mp e
          exact dispatch hR hq
      | handlePrev | goOn r | timeoutRead r ok | user u => cases e
  | handle t =>
      rw [hp] at e
      cases a with
      | handlePrev =>
          obtain rfl := Option.some.inj e
          exact handlePrev hR (hf.dead t hp)
      | event fd ev | dispatch | goOn r | timeoutRead r ok | user u => cases e
  | running t =>
      rw [hp] at e
      cases a with
      | goOn read => exact goOn (hf.control hp) e
      | timeoutRead r ok =>
          obtain ⟨-, e⟩ := Option.ite_none_right_eq_some.mp e
          exact of_links hR (timeoutRead_links e)
      | user u =>
          obtain ⟨-, e⟩ := Option.ite_none_right_eq_some.mp e
          exact userAct (hf.control hp) e
      | handlePrev | event fd ev | dispatch => cases e

/-- What a step does to the wait list of a condition. -/
theorem condQueue_step (hf : Formed s v) (e : step s a = some s') (c : ℕ) :
    s'.condQueue c = dropped (s.puts a) (s.condQueue c ++ ((s.begins c a).map Prod.fst).toList) := by
  obtain ⟨v', hf', -⟩ := formed_step hf e
  obtain ⟨w, hR, hw⟩ := Shifts.step (c := c) hf e
  rw [hf'.condQueue_eq, hf.condQueue_eq, hf'.listed.rings.unique hR, hw]

theorem begins_eq_some {m : ℕ} (h : s.begins c a = some (t, m)) :
    s.q.phase = .running t ∧ (a = .user (.condWait c m) ∨ ∃ k, a = .user (.condWaitTill c m k)) := by
  unfold St.begins at h
  split at h
  · rename_i x u hp
    unfold UserAct.begins at h
    split at h
    · obtain ⟨rfl, heq⟩ := Option.ite_none_right_eq_some.mp h
      obtain ⟨rfl, rfl⟩ := Prod.mk.inj (Option.some.inj heq)
      exact ⟨hp, .inl rfl⟩
    · obtain ⟨rfl, heq⟩ := Option.ite_none_right_eq_some.mp h
      obtain ⟨rfl, rfl⟩ := Prod.mk.inj (Option.some.inj heq)
      exact ⟨hp, .inr ⟨_, rfl⟩⟩
    · cases h
  · cases h

theorem puts_of_begins {m : ℕ} (h : s.begins c a = some (t, m)) :
    s.puts a = ListOps.first s.q.links (.mutexWait m) := by
  obtain ⟨hp, rfl | ⟨k, rfl⟩⟩ := begins_eq_some h
  · unfold St.puts
    rw [hp]
    rfl
  · unfold St.puts
    rw [hp]
    rfl

/-- The tasks on the wait list of a condition after a step. -/
theorem mem_condQueue_step (hf : Formed s v) (e : step s a = some s') {c : ℕ} {u : Tid} :
    u ∈ s'.condQueue c ↔
      s.puts a ≠ some u ∧ (u ∈ s.condQueue c ∨ ∃ m, s.begins c a = some (u, m)) := by
  have hnd := hf.listed.rings.ok.nodup (Head.condWait c)
  rw [condQueue_step hf e, hf.condQueue_eq]
  -- the task that begins to wait has control, so it is on no list
  have hnd' : (v (.condWait c) ++ ((s.begins c a).map Prod.fst).toList).Nodup := by
    cases hb : s.begins c a with
    | none => simpa using hnd
    | some p =>
        obtain ⟨t, m⟩ := p
        have hfree := hf.free t (begins_eq_some hb).1 (.condWait c)
        exact List.nodup_append.mpr ⟨hnd, by simp, fun x hx y hy hxy => hfree (by simp_all)⟩
  have hmem : u ∈ v (.condWait c) ++ ((s.begins c a).map Prod.fst).toList ↔
      u ∈ v (.condWait c) ∨ ∃ m, s.begins c a = some (u, m) := by
    simp
  rw [← hmem]
  cases s.puts a with
  | none => simp [dropped]
  | some x =>
      rw [dropped, hnd'.mem_erase_iff]
      simp [eq_comm]

theorem mem_condQueue_begins (hf : Formed s v) (e : step s a = some s') {m : ℕ}
    (h : s.begins c a = some (t, m)) : t ∈ s'.condQueue c := by
  refine (mem_condQueue_step hf e).mpr ⟨?_, .inr ⟨m, h⟩⟩
  rw [puts_of_begins h]
  exact (hf.control (begins_eq_some h).1).first_ne _

theorem not_mem_condQueue (hf : Formed s v) (hp : s.q.phase = .running t) : t ∉ s.condQueue c := by
  rw [hf.condQueue_eq]
  exact hf.free t hp _

theorem condQueue_sublist (hf : Formed s v) (e : step s a = some s') (c : ℕ) :
    (s'.condQueue c).Sublist (s.condQueue c ++ ((s.begins c a).map Prod.fst).toList) := by
  rw [condQueue_step hf e]
  cases s.puts a with
  | none => exact List.Sublist.refl _
  | some u => exact List.erase_sublist

/-- No task waits for a condition when the thread enters `schedule`. -/
theorem start_condQueue (n : ℕ) (count : ℕ → ℕ) (c : ℕ) : (start n count).condQueue c = [] := by
  have hempty : ∀ k, ∃ v, (Queues.coCreate^[k] Queues.empty).Listed v ∧ v (.condWait c) = [] := by
    intro k
    induction k with
    | zero => exact ⟨_, ⟨rings_empty, fun hx => absurd hx List.not_mem_nil⟩, rfl⟩
    | succ k ih =>
        obtain ⟨v, hl, hv⟩ := ih
        rw [Function.iterate_succ_apply']
        refine ⟨_, hl.coCreate.listed, ?_⟩
        obtain ⟨w, hR, hw⟩ := Shifts.coCreate (c := c) hl
        rw [hl.coCreate.listed.rings.unique hR, hw, hv]
        rfl
  obtain ⟨v, hf⟩ := Formed.start n count
  obtain ⟨w, hl, hw⟩ := hempty (n + 2)
  rw [hf.condQueue_eq, hf.listed.rings.unique hl.rings, hw]

end steps

end Libcask.Sched
