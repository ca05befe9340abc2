import Libcask.SchedMoves

/-! # What a step does to the run queue and to the descriptors

Every step puts at most one task on the run queue (`St.puts`), a dispatch takes the last one off it
(`St.queueAfter`), and all descriptors but those that the step names (`St.touches`) stay as they are.
`formed_step` and `step_frame` say so for every step from a state whose links are well formed
(`Formed`); `formed_of_reach` says that those of every reachable state are. -/

namespace Libcask.Sched

/-! ### What a step puts on the run queue, and which descriptors it touches -/

/-- The task that a call of the running task puts on the run queue. -/
def UserAct.puts (q : Queues) (sem : ℕ → ℤ) : UserAct → Option Tid
  | .create => some q.created
  | .unlock m | .condWait _ m | .condWaitTill _ m _ => ListOps.first q.links (.mutexWait m)
  | .signal c => ListOps.first q.links (.condWait c)
  | .semPost i => if toInt32 (sem i + 1) < 0 then ListOps.first q.links (.semWait i) else none
  | _ => none

/-- The task that the running task puts on the run queue when it goes on. -/
def Cont.puts (s : St) : Cont → Option Tid
  | .broadcast ls => listPeek s.q.links ls
  | .timeoutList ls => (listPeek s.io.wheel ls).bind s.io.taskOf
  | _ => none

/-- The task that a step puts on the run queue. -/
def St.puts (s : St) (a : Act) : Option Tid :=
  match s.q.phase, a with
  | .handle t, .handlePrev => if s.q.status t = .runnable then some t else none
  | .loop, .event fd _ => s.io.taskOf fd
  | .running t, .goOn _ => (s.cont t).puts s
  | .running _, .user u => u.puts s.q s.sem
  | _, _ => none

/-- The descriptors that a call of the running task may change. -/
def UserAct.touches (io : Io) : UserAct → Fd → Prop
  | .condWaitTill _ _ _, fd | .sleep _ _ _, fd => ∃ n, io.timers ≤ n ∧ fd = .timer n
  | .socket, fd => fd = .sock io.socks
  | .listen n, fd | .eventPoll n _ _, fd => fd = .sock n
  | .coPoll fds _ _, fd => (∃ p ∈ fds, fd = .sock p.1.fd) ∨ ∃ n, io.timers ≤ n ∧ fd = .timer n
  | _, _ => False

/-- The descriptors that the running task may change when it goes on. -/
def Cont.touches (io : Io) (c : Cont) (fd : Fd) : Prop :=
  c.Watches fd ∨ (∃ ls, c = .timeoutList ls ∧ listPeek io.wheel ls = some fd) ∨
    c.timeoutTask = true ∧ fd = .wheelTimer

/-- The descriptors that a step may change. -/
def St.touches (s : St) (a : Act) (fd : Fd) : Prop :=
  match s.q.phase, a with
  | .loop, .event fd' _ => fd = fd'
  | .running t, .goOn _ => (s.cont t).touches s.io fd
  | .running _, .timeoutRead _ _ => fd = .wheelTimer
  | .running _, .user u => u.touches s.io fd
  | _, _ => False

/-- The descriptors that a call of the running task waits for. -/
def UserAct.polls (io : Io) : UserAct → Fd → Prop
  | .condWaitTill _ _ _, fd | .sleep _ _ _, fd => ∃ n, io.timers ≤ n ∧ fd = .timer n
  | .eventPoll n _ _, fd => fd = .sock n
  | .coPoll fds _ _, fd => (∃ p ∈ fds, fd = .sock p.1.fd) ∨ ∃ n, io.timers ≤ n ∧ fd = .timer n
  | _, _ => False

/-- The descriptors that a step makes the running task wait for. -/
def St.polls (s : St) : Act → Fd → Prop
  | .timeoutRead _ _, fd => fd = .wheelTimer
  | .user u, fd => u.polls s.io fd
  | _, _ => False

namespace Moves

open Queues

variable {s s' : St} {v : View Head Tid} {t : Tid} {T P : Fd → Prop} {put : Option Tid}

theorem userAct (hr : Control s.q v t) (hc : s.cont t = .user) {u : UserAct}
    (e : userAct s t u = some s') :
    Moves s v t (u.touches s.io) (u.polls s.io) (u.puts s.q s.sem) s' := by
  have hflag : (s.cont t).timeoutTask = false := by
    rw [hc]
    rfl
  have hsame : Function.update s.cont t .user = s.cont := by
    rw [← hc, Function.update_eq_self]
  cases u with
  | create =>
      obtain rfl := Option.some.inj e
      refine of_ran ⟨_, hr.ran hr.listed.coCreate ?_⟩ (.refl ..) hsame.symm rfl fun _ => False.elim
      rintro ⟨⟩
      exact lt_irrefl _ hr.known
  | yield =>
      obtain rfl := Option.some.inj e
      exact of_ran ⟨v, hr.yield _⟩ (.refl ..) hsame.symm rfl fun _ => False.elim
  | exit =>
      obtain rfl := Option.some.inj e
      exact of_ran ⟨v, hr.exit⟩ (.refl ..) hsame.symm rfl fun _ => False.elim
  | lock m => exact coMutexLock hr e
  | tryLock m =>
      obtain rfl := Option.some.inj e
      unfold St.coMutexTryLock
      cases s.lock m with
      | none | some u => exact goto hr rfl (.refl ..) rfl rfl fun _ => id
  | unlock m =>
      obtain ⟨-, e⟩ := Option.ite_none_right_eq_some.mp e
      obtain rfl := Option.some.inj e
      exact of_ran (hr.wakeFirst _) (.refl ..) hsame.symm rfl fun _ => False.elim
  | condWait c m =>
      obtain ⟨-, e⟩ := Option.ite_none_left_eq_some.mp e
      obtain ⟨s₁, e₁, rfl⟩ := Option.map_eq_some_iff.mp e
      exact condWait hr (.refl ..) rfl (fun _ => False.elim) e₁
  | condWaitTill c m k =>
      obtain ⟨-, e⟩ := Option.ite_none_left_eq_some.mp e
      cases hk : s.io.startTimer t k with
      | none => simp [hk] at e
      | some x =>
          obtain ⟨io', tfd⟩ := x
          simp only [hk] at e
          obtain ⟨s₁, e₁, rfl⟩ := Option.map_eq_some_iff.mp e
          refine condWait hr ((Io.Upd.startTimer hk).mono fun _ h => ⟨_, le_rfl, h⟩) rfl ?_ e₁
          rintro fd rfl
          obtain ⟨rfl, hlt⟩ := Io.startTimer_new hk
          refine ⟨⟨_, le_rfl, rfl⟩, by simp, ?_⟩
          rintro n ⟨⟩
          exact hlt
  | signal c =>
      obtain rfl := Option.some.inj e
      exact of_ran (hr.wakeFirst _) (.refl ..) rfl rfl fun _ => False.elim
  | broadcast c =>
      obtain rfl := Option.some.inj e
      exact goto hr rfl (.refl ..) rfl rfl fun _ => id
  | semWait i =>
      obtain rfl := Option.some.inj e
      exact coSemWait hr i
  | semTryWait i =>
      obtain rfl := Option.some.inj e
      exact coSemTryWait hr i
  | semPost i =>
      obtain rfl := Option.some.inj e
      exact coSemPost hr i
  | socket =>
      obtain rfl := Option.some.inj e
      refine goto hr rfl (.newRecord (by simp) rfl rfl rfl rfl (fun n hn => ?_) le_rfl) hsame.symm rfl
        fun _ => id
      have hn' : s.io.socks + 1 ≤ n := hn
      exact ⟨by omega, by simp; omega⟩
  | listen n =>
      unfold Sched.userAct at e
      dsimp only at e
      cases hr' : s.io.ifd (.sock n) with
      | none =>
          simp only [hr'] at e
          obtain rfl := Option.some.inj e
          exact goto hr rfl (.refl ..) hsame.symm rfl fun _ => id
      | some r =>
          simp only [hr'] at e
          obtain rfl := Option.some.inj e
          exact goto hr rfl (.setInner s.io _ hr' (.inl rfl) (.inr (by simp))) hsame.symm rfl
            fun _ => id
  | eventPoll n events ok =>
      refine eventPoll hr rfl ?_ (by rintro ⟨⟩) rfl (by rintro ⟨⟩) (by rintro n ⟨⟩) e
      rw [hflag]
      rintro ⟨⟩
  | coPoll fds timed k =>
      exact coPoll hr (fun p hp => ⟨.inl ⟨p, hp, rfl⟩, .inl ⟨p, hp, rfl⟩⟩)
        (fun n hn => ⟨.inr ⟨n, hn, rfl⟩, .inr ⟨n, hn, rfl⟩⟩) e
  | sleep k again ok => exact coSleep hr hflag ⟨_, le_rfl, rfl⟩ ⟨_, le_rfl, rfl⟩ e

theorem timeoutRead (hr : Control s.q v t) (hc : s.cont t = .timeoutRead) {ok : Bool}
    {r : ReadResult} (e : timeoutRead s t ok r = some s') :
    Moves s v t (· = .wheelTimer) (· = .wheelTimer) none s' := by
  have hflag : (s.cont t).timeoutTask = true := by
    rw [hc]
    rfl
  cases r with
  | full =>
      obtain rfl := Option.some.inj e
      exact timeoutTick hr hflag
  | again =>
      exact eventPoll hr rfl (fun _ _ => id) (fun _ => ⟨hflag, rfl⟩) rfl (fun _ => rfl) (by rintro n ⟨⟩) e
  | error =>
      obtain rfl := Option.some.inj e
      exact timeoutExit hr rfl

theorem goOn (hr : Control s.q v t)
    (hown : ∀ fd u, s.io.taskOf fd = some u →
      u < s.q.created ∧ ((s.cont u).timeoutTask = true → fd = .wheelTimer))
    (hap : s.io.Apart) {read : Bool} (e : s.goOn t read = some s') :
    Moves s v t ((s.cont t).touches s.io) P ((s.cont t).puts s) s' := by
  unfold St.goOn at e
  cases hc : s.cont t with
  | user | timeoutRead => simp [hc] at e
  | mutexLock m r =>
      simp only [hc] at e
      obtain rfl := Option.some.inj e
      exact mutexLoop hr m r
  | condWait m =>
      simp only [hc] at e
      exact coMutexLock hr e
  | condWaitTill m tfd =>
      simp only [hc] at e
      have hio := (Io.Upd.stopTimer (t := t) s.io tfd).mono
        fun fd h => (.inl h : (Cont.condWaitTill m tfd).touches s.io fd)
      refine of_io hio ?_ (coMutexLock (s := { s with io := (s.io.stopTimer tfd).1 }) hr e)
      rw [hc]
      rintro ⟨⟩
  | semWait i =>
      simp only [hc] at e
      obtain rfl := Option.some.inj e
      exact coSemWait hr i
  | eventPoll fd caller =>
      simp only [hc] at e
      cases hret : s.io.eventPollReturn fd with
      | none => simp [hret] at e
      | some x =>
          obtain ⟨io', r⟩ := x
          simp only [hret] at e
          obtain rfl := Option.some.inj e
          have hio := (Io.Upd.eventPollReturn (t := t) hret).mono
            fun fd' h => (.inl h : (Cont.eventPoll fd caller).touches s.io fd')
          refine of_io hio (fun _ fd' h => .inl ?_) ?_
          · rwa [Io.taskOf, Io.eventPollReturn_ifd hret] at h
          · refine eventPollDone (s := { s with io := io' }) hr (.inl rfl) r read ?_
            rintro rfl
            exact ⟨by rw [hc]; rfl, .inr (.inr ⟨rfl, rfl⟩)⟩
  | coPoll fds timed tfd =>
      simp only [hc] at e
      exact coPollReturn hr (fun p hp => .inl (.inl ⟨p, hp, rfl⟩)) (fun fd h => .inl (.inr h)) e
  | broadcast ls =>
      simp only [hc] at e
      exact broadcastLoop hr e
  | timeoutList ls =>
      simp only [hc] at e
      refine timeoutLoop hr hc (fun fd h => .inr (.inl ⟨ls, rfl, h⟩)) (fun fd u hu => ?_) hap e
      obtain ⟨h1, h2⟩ := hown fd u hu
      refine ⟨h1, ?_⟩
      rintro rfl
      exact h2 (by rw [hc]; rfl)

end Moves

/-! ### Whole steps -/

/-- The links are well formed, and the task that has control is on no list. -/
structure Formed (s : St) (v : View Head Tid) : Prop where
  listed : s.q.Listed v
  known : ∀ t, s.q.phase = .running t ∨ s.q.phase = .handle t → t < s.q.created
  free : ∀ t, s.q.phase = .running t → v.Free t
  dead : ∀ t, s.q.phase = .handle t → s.q.status t = .killed → v.Free t
  owners : ∀ fd t, s.io.taskOf fd = some t →
    t < s.q.created ∧ ((s.cont t).timeoutTask = true → fd = .wheelTimer)
  apart : s.io.Apart
  fresh : ∀ t, s.q.created ≤ t → s.cont t = .user

/-- The run queue after a step. -/
def St.queueAfter (s : St) (a : Act) (l : List Tid) : List Tid :=
  if a = .dispatch then l.dropLast else enqueued (s.puts a) l

theorem start_cont (n : ℕ) (count : ℕ → ℕ) :
    (start n count).cont = Function.update (fun _ => .user) 0 .timeoutRead := rfl

namespace Formed

variable {s s' : St} {v : View Head Tid} {t : Tid}

theorem control (hf : Formed s v) (hp : s.q.phase = .running t) : s.q.Control v t :=
  ⟨hf.listed, hf.known t (.inl hp), hf.free t hp, hp⟩

/-- After a call of the running task. -/
theorem moves (hf : Formed s v) (hp : s.q.phase = .running t) {T P : Fd → Prop} {put : Option Tid}
    (hm : Moves s v t T P put s') : ∃ v', Formed s' v' ∧ v' .runList = enqueued put (v .runList) := by
  obtain ⟨v', hq⟩ := hm.queues
  have ht : t < s.q.created := hf.known t (.inl hp)
  -- whoever has control is `t`
  have hcontrol : ∀ {x}, s'.q.phase = .running x ∨ s'.q.phase = .handle x → x = t := by
    intro x hx
    rcases hq.phase with ⟨h, -⟩ | ⟨h, -⟩ <;> rcases hx with hx | hx <;> cases h.symm.trans hx <;> rfl
  refine ⟨v', ⟨hq.listed, fun x hx => ?_, fun x hx => ?_, fun x hx hk => ?_, fun fd x hx => ?_,
    hm.io.apart hf.apart, fun x hx => ?_⟩, hq.runList⟩
  · rw [hcontrol hx]
    exact ht.trans_le hq.grows
  · obtain rfl := hcontrol (.inl hx)
    rcases hq.phase with ⟨-, h⟩ | ⟨h, -⟩
    · exact h
    · cases h.symm.trans hx
  · obtain rfl := hcontrol (.inr hx)
    rcases hq.phase with ⟨h, -⟩ | ⟨-, h⟩
    · cases h.symm.trans hx
    · exact h hk
  · have hold : x = t ∨ s.io.taskOf fd = some x := (hm.io.task fd x hx).symm.imp And.right id
    by_cases hxt : x = t
    · subst hxt
      refine ⟨ht.trans_le hq.grows, fun hflag => ?_⟩
      obtain ⟨hflag', hown⟩ := hm.timeoutTask hflag
      rcases hown fd hx with h | h
      · exact (hf.owners fd x h).2 hflag'
      · exact h
    · obtain ⟨h1, h2⟩ := hf.owners fd x (hold.resolve_left hxt)
      rw [hm.cont x hxt]
      exact ⟨h1.trans_le hq.grows, h2⟩
  · have hx' := hq.grows.trans hx
    rw [hm.cont x (ht.trans_le hx').ne']
    exact hf.fresh x hx'

/-- After a step of the scheduler loop, which goes on or dispatches a task. -/
theorem sched (hf : Formed s v) {q : Queues} {io : Io} {v' : View Head Tid} (hl : q.Listed v')
    (hcreated : q.created = s.q.created)
    (hphase : q.phase = .loop ∨ ∃ t, q.phase = .running t ∧ t < s.q.created ∧ v'.Free t)
    (hio : s.io.Apart → io.Apart) (htask : ∀ fd, io.taskOf fd = s.io.taskOf fd) :
    Formed { s with q := q, io := io } v' := by
  have hcontrol : ∀ {x}, q.phase = .running x ∨ q.phase = .handle x →
      q.phase = .running x ∧ x < s.q.created ∧ v'.Free x := by
    intro x hx
    rcases hphase with h | ⟨t, h, ht⟩
    · rw [h] at hx
      rcases hx with hx | hx <;> cases hx
    · rw [h] at hx ⊢
      rcases hx with hx | hx
      · cases hx
        exact ⟨rfl, ht⟩
      · cases hx
  refine ⟨hl, fun t ht => ?_, fun t ht => ?_, fun t ht => ?_, fun fd t ht => ?_, hio hf.apart,
    fun t ht => ?_⟩
  · exact (hcontrol ht).2.1.trans_eq hcreated.symm
  · exact (hcontrol (.inl ht)).2.2
  · cases (hcontrol (.inr ht)).1.symm.trans ht
  · obtain ⟨h1, h2⟩ := hf.owners fd t ((htask fd).symm.trans ht)
    exact ⟨h1.trans_eq hcreated.symm, h2⟩
  · exact hf.fresh t (hcreated.symm.trans_le ht)

theorem handlePrev (hf : Formed s v) (hp : s.q.phase = .handle t) :
    ∃ v', Formed { s with q := s.q.handlePrev t } v' ∧
      v' .runList = enqueued (if s.q.status t = .runnable then some t else none) (v .runList) := by
  have hsched : ∀ {q : Queues} {v' : View Head Tid}, q.Listed v' → q.created = s.q.created →
      q.phase = .loop → Formed { s with q := q } v' :=
    fun hl hc hp => hf.sched hl hc (.inl hp) id fun _ => rfl
  unfold Queues.handlePrev
  cases hst : s.q.status t with
  | runnable =>
      have hput := hf.listed.coResume (hf.known t (.inr hp))
      exact ⟨_, hsched ⟨hput.listed.rings, hput.listed.created⟩ rfl rfl, hput.runList⟩
  | killed =>
      -- the task is on no list, so `list_delete` does nothing
      have hR := rings_delete hf.listed.rings t
      rw [show ListOps.delete v t = v from View.delete_of_free (hf.dead t hp hst)] at hR
      exact ⟨v, hsched ⟨hR, hf.listed.created⟩ rfl rfl, rfl⟩
  | ready | ioBlock | sysBlock | sleep | dead =>
      exact ⟨v, hsched ⟨hf.listed.rings, hf.listed.created⟩ rfl rfl, rfl⟩

theorem eventWait (hf : Formed s v) (hp : s.q.phase = .loop) {fd : Fd} {ev : Events}
    (e : s.eventWait fd ev = some s') :
    ∃ v', Formed s' v' ∧ v' .runList = enqueued (s.io.taskOf fd) (v .runList) := by
  obtain ⟨-, r, hr, rfl⟩ := eventWait_eq e
  have hio := (Io.Upd.setInner (t := 0) s.io { r with error := eventsToError ev } hr (.inl rfl)
    (.inl rfl)).trans (.deleteEvents _ fd)
  have htask : ∀ fd', ((s.io.setInner fd { r with error := eventsToError ev }).deleteEvents
      fd).taskOf fd' = s.io.taskOf fd' := by
    intro fd'
    by_cases hc : fd' = fd
    · subst hc
      exact (Io.taskOf_setInner ..).trans (Fds.taskOf_eq hr).symm
    · exact congrArg (Option.bind · InnerFd.task) (s.io.setInner_of_ne _ hc)
  have hput : ∃ v', Queues.Puts s.q v r.task (r.task.elim s.q s.q.coResume) v' := by
    cases ht : r.task with
    | none => exact ⟨v, hf.listed.keep⟩
    | some u => exact ⟨_, hf.listed.coResume (hf.owners fd u ((Fds.taskOf_eq hr).trans ht)).1⟩
  have hcreated : (r.task.elim s.q s.q.coResume).created = s.q.created := by
    cases r.task <;> rfl
  obtain ⟨v', hput⟩ := hput
  rw [Fds.taskOf_eq hr]
  exact ⟨v', hf.sched hput.listed hcreated (.inl (hput.phase.trans hp)) hio.apart htask, hput.runList⟩

theorem dispatch (hf : Formed s v) {q' : Queues} (e : s.q.dispatch = some q') :
    ∃ t v', rrPicknext .runList s.q.links = some t ∧ q'.phase = .running t ∧
      v .runList = v' .runList ++ [t] ∧ Formed { s with q := q' } v' := by
  have hR := hf.listed.rings
  unfold Queues.dispatch at e
  cases hpick : rrPicknext .runList s.q.links with
  | none => simp [hpick] at e
  | some t =>
      simp only [hpick] at e
      obtain rfl := Option.some.inj e
      rw [rrPicknext_eq hR] at hpick
      obtain ⟨l, hl⟩ : ∃ l, v .runList = l ++ [t] := List.getLast?_eq_some_iff.mp hpick
      have hm : t ∈ v .runList := List.mem_of_getLast? hpick
      have herase : (v .runList).erase t = l := by
        have hnd := hR.ok.nodup Head.runList
        rw [hl] at hnd ⊢
        have hnot : t ∉ l := fun h => (List.nodup_append.mp hnd).2.2 t h t (by simp) rfl
        rw [List.erase_append_right _ hnot]
        simp
      refine ⟨t, v.delete t, rfl, rfl, ?_, ?_⟩
      · show v .runList = (v .runList).erase t ++ [t]
        rw [herase, hl]
      · refine hf.sched ⟨rings_rrDequeue hR t, fun hx => ?_⟩ rfl
          (.inr ⟨t, rfl, hf.listed.created hm, View.free_delete hR.ok t⟩) id fun _ => rfl
        exact hf.listed.created ((View.mem_delete hR.ok).mp hx).2

theorem start (n : ℕ) (count : ℕ → ℕ) : ∃ v, Formed (start n count) v := by
  obtain ⟨v, hl⟩ := Queues.start_lists (n + 2)
  obtain ⟨hphase, hh⟩ := Queues.start_frame (n + 2)
  have hcreated : (Sched.start n count).q.created = n + 2 := (Prod.mk.inj hh).1
  have hloop : ∀ t, ¬((Sched.start n count).q.phase = .running t ∨ (Sched.start n count).q.phase = .handle t) := by
    intro t ht
    rcases ht with ht | ht <;> cases hphase.symm.trans ht
  -- the timer of the wheel names the timeout task, and no other descriptor exists
  have htask : ∀ fd t, (Sched.start n count).io.taskOf fd = some t → fd = .wheelTimer ∧ t = 0 := by
    intro fd t ht
    cases fd with
    | wheelTimer => exact ⟨rfl, (Option.some.inj ht).symm⟩
    | sock n | timer n => cases ht
  refine ⟨v, ⟨hl.rings, fun hm => (hl.live hm).1⟩, fun t ht => absurd ht (hloop t),
    fun t ht => absurd (.inl ht) (hloop t), fun t ht => absurd (.inr ht) (hloop t), fun fd t ht => ?_,
    ⟨⟨_, rings_empty, fun _ => List.not_mem_nil⟩, fun r hr => ?_, fun n _ => rfl⟩, fun t ht => ?_⟩
  · obtain ⟨rfl, rfl⟩ := htask fd t ht
    exact ⟨hcreated.symm ▸ Nat.succ_pos _, fun _ => rfl⟩
  · obtain rfl := Option.some.inj hr
    decide
  · rw [hcreated] at ht
    have hne : t ≠ 0 := Nat.ne_of_gt (Nat.lt_of_lt_of_le (Nat.succ_pos _) ht)
    rw [start_cont, Function.update_of_ne hne]

end Formed

/-- A step of the running task. -/
theorem step_moves {s s' : St} {v : View Head Tid} {a : Act} {t : Tid} (hf : Formed s v)
    (hp : s.q.phase = .running t) (e : step s a = some s') :
    Moves s v t (s.touches a) (s.polls a) (s.puts a) s' := by
  unfold step at e
  unfold St.touches St.puts
  rw [hp] at e ⊢
  cases a with
  | goOn read => exact .goOn (hf.control hp) hf.owners hf.apart e
  | timeoutRead r ok =>
      obtain ⟨hc, e⟩ := Option.ite_none_right_eq_some.mp e
      exact .timeoutRead (hf.control hp) hc e
  | user u =>
      obtain ⟨hc, e⟩ := Option.ite_none_right_eq_some.mp e
      exact .userAct (hf.control hp) hc e
  | handlePrev | event fd ev | dispatch => cases e

theorem step_dispatch {s s' : St} (e : step s .dispatch = some s') :
    s.q.phase = .loop ∧ ∃ q, s.q.dispatch = some q ∧ s' = { s with q := q } := by
  unfold step at e
  cases hp : s.q.phase with
  | running t | handle t =>
      rw [hp] at e
      cases e
  | loop =>
      rw [hp] at e
      obtain ⟨q, hq, rfl⟩ := Option.map_eq_some_iff.mp e
      exact ⟨rfl, q, hq, rfl⟩

theorem step_event {s s' : St} {fd : Fd} {ev : Events} (e : step s (.event fd ev) = some s') :
    s.q.phase = .loop ∧ s.eventWait fd ev = some s' := by
  unfold step at e
  cases hp : s.q.phase with
  | running t | handle t =>
      rw [hp] at e
      cases e
  | loop =>
      rw [hp] at e
      exact ⟨rfl, e⟩

/-- What a step does to the run queue. -/
theorem formed_step {s s' : St} {v : View Head Tid} {a : Act} (hf : Formed s v)
    (e : step s a = some s') : ∃ v', Formed s' v' ∧ v' .runList = s.queueAfter a (v .runList) := by
  by_cases ha : a = .dispatch
  · subst ha
    obtain ⟨-, q, hq, rfl⟩ := step_dispatch e
    obtain ⟨t, v', -, -, hl, hf'⟩ := hf.dispatch hq
    exact ⟨v', hf', by simp [St.queueAfter, hl]⟩
  · rw [St.queueAfter, if_neg ha]
    cases hp : s.q.phase with
    | running t => exact hf.moves hp (step_moves hf hp e)
    | loop =>
        unfold step at e
        unfold St.puts
        rw [hp] at e ⊢
        cases a with
        | event fd ev => exact hf.eventWait hp e
        | dispatch => exact absurd rfl ha
        | handlePrev | goOn r | timeoutRead r ok | user u => cases e
    | handle t =>
        unfold step at e
        unfold St.puts
        rw [hp] at e ⊢
        cases a with
        | handlePrev =>
            obtain rfl := Option.some.inj e
            exact hf.handlePrev hp
        | event fd ev | dispatch | goOn r | timeoutRead r ok | user u => cases e

/-- A step changes only the descriptors it touches, and moves only the running task. -/
theorem step_frame {s s' : St} {v : View Head Tid} {a : Act} (hf : Formed s v)
    (e : step s a = some s') :
    (∀ fd, ¬s.touches a fd → s'.io.ifd fd = s.io.ifd fd ∧ s'.io.epoll fd = s.io.epoll fd) ∧
      (∀ t, s.q.phase ≠ .running t → s'.cont t = s.cont t) ∧ s.io.timers ≤ s'.io.timers := by
  cases hp : s.q.phase with
  | running t =>
      have hm := step_moves hf hp e
      exact ⟨hm.io.frame, fun x hx => hm.cont x fun hc => hx (hc ▸ rfl), hm.io.timers⟩
  | loop =>
      unfold step at e
      unfold St.touches
      rw [hp] at e
      rw [hp]
      cases a with
      | event fd ev =>
          obtain ⟨-, r, -, rfl⟩ := eventWait_eq e
          exact ⟨fun _ h => ⟨Function.update_of_ne h _ _, Function.update_of_ne h _ _⟩, fun _ _ => rfl,
            le_rfl⟩
      | dispatch =>
          obtain ⟨q, -, rfl⟩ := Option.map_eq_some_iff.mp e
          exact ⟨fun _ _ => ⟨rfl, rfl⟩, fun _ _ => rfl, le_rfl⟩
      | handlePrev | goOn r | timeoutRead r ok | user u => cases e
  | handle t =>
      unfold step at e
      rw [hp] at e
      cases a with
      | handlePrev =>
          obtain rfl := Option.some.inj e
          exact ⟨fun _ _ => ⟨rfl, rfl⟩, fun _ _ => rfl, le_rfl⟩
      | event fd ev | dispatch | goOn r | timeoutRead r ok | user u => cases e

theorem formed_of_reach {ok : St → Act → Prop} {s : St} (h : system.ReachVia ok s) :
    ∃ v, Formed s v := by
  refine h.invariant (I := fun s => ∃ v, Formed s v) ?_ ?_
  · rintro s ⟨n, count, rfl⟩
    exact Formed.start n count
  · rintro s a s' ⟨v, hf⟩ - e
    obtain ⟨v', hf', -⟩ := formed_step hf e
    exact ⟨v', hf'⟩

end Libcask.Sched
