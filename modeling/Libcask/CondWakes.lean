import Libcask.CondLists

/-! # The wakes of a condition

The system of `Sched.lean` with a history variable (`CondLog`): for every task that is in a call of
`co_cond_wait` or `co_cond_wait_till` on one condition, when the call began, how often the task has been
taken off the wait list since, and whether the event loop has reported its timer.

`cond_wakes_exact`: in every run, a signal takes off the wait list and resumes the task whose call began
first, a broadcast all of them, no task whose timer has been reported is on the list, and a call that
returns has seen one removal and holds the mutex (`WakesExactly`).

The invariant is `Logged`: the tasks on the list are those whose calls have seen no removal, in the order
in which the calls began. -/

namespace Libcask.Sched

/-! ### The history of the calls -/

/-- A call of `co_cond_wait` or `co_cond_wait_till` that has not returned.  `began` is the number of steps
before it, `removals` counts the steps that took the task off the wait list, and `expired` tells whether
its timer has been reported. -/
structure CondCall where
  mutex : ℕ
  began : ℕ
  removals : ℕ
  expired : Bool
deriving DecidableEq, Repr

/-- The calls that wait for one condition, and the number of steps so far. -/
structure CondLog where
  now : ℕ
  calls : Tid → Option CondCall

def CondCall.observe (w : CondCall) (removed expires : Bool) : CondCall :=
  { w with removals := w.removals + removed.toNat, expired := w.expired || expires }

/-- The step reports the timer of the task, which is in `co_cond_wait_till`. -/
def St.expires (s : St) (a : Act) (u : Tid) : Bool :=
  match a, s.cont u with
  | .event (.timer n) _, .condWaitTill _ tfd => tfd = some (.timer n)
  | _, _ => false

/-- The task whose call returns in a step, behind a context switch. -/
def St.returns (s : St) (a : Act) (s' : St) : Option Tid :=
  match s.q.phase, a with
  | .running t, .goOn _ => if s'.cont t = .user then some t else none
  | _, _ => none

def CondLog.record (c : ℕ) (l : CondLog) (s : St) (a : Act) (s' : St) : CondLog where
  now := l.now + 1
  calls u :=
    let seen := (l.calls u).map fun w =>
      w.observe (u ∈ s.condQueue c ∧ u ∉ s'.condQueue c) (s.expires a u)
    match s.begins c a with
    | some (t, m) => if u = t then some ⟨m, l.now, 0, false⟩ else seen
    | none => if s.returns a s' = some u then none else seen

/-- The thread, with the history of the calls that wait for the condition `c`. -/
def logged (c : ℕ) : TS (St × CondLog) Act :=
  system.withHistory ⟨0, fun _ => none⟩ (CondLog.record c)

section record
variable {c m : ℕ} {l : CondLog} {s s' : St} {a : Act} {t u : Tid} {w : CondCall}

theorem phase_of_returns (h : s.returns a s' = some u) :
    s.q.phase = .running u ∧ (∃ b, a = .goOn b) ∧ s'.cont u = .user := by
  unfold St.returns at h
  split at h
  · rename_i x b hp
    obtain ⟨hc, hx⟩ := Option.ite_none_right_eq_some.mp h
    obtain rfl := Option.some.inj hx
    exact ⟨hp, ⟨b, rfl⟩, hc⟩
  · cases h

/-- A step does not begin a call and end one. -/
theorem returns_of_begins {p : Tid × ℕ} (h : s.begins c a = some p) : s.returns a s' = none := by
  obtain ⟨t, m⟩ := p
  obtain ⟨hp, rfl | ⟨k, rfl⟩⟩ := begins_eq_some h
  · unfold St.returns
    rw [hp]
  · unfold St.returns
    rw [hp]

theorem record_of_begins (h : s.begins c a = some (u, m)) :
    (l.record c s a s').calls u = some ⟨m, l.now, 0, false⟩ := by
  simp [CondLog.record, h]

theorem record_of_returns (h : s.returns a s' = some u) : (l.record c s a s').calls u = none := by
  cases hb : s.begins c a with
  | none => simp [CondLog.record, hb, h]
  | some p => cases (returns_of_begins hb).symm.trans h

theorem record_of_stays (hb : ∀ m, s.begins c a ≠ some (u, m)) (hr : s.returns a s' ≠ some u) :
    (l.record c s a s').calls u = (l.calls u).map fun w =>
      w.observe (u ∈ s.condQueue c ∧ u ∉ s'.condQueue c) (s.expires a u) := by
  cases h : s.begins c a with
  | none => simp [CondLog.record, h, hr]
  | some p =>
      obtain ⟨t, m⟩ := p
      have hne : u ≠ t := by
        rintro rfl
        exact hb m h
      simp [CondLog.record, h, hne]

/-- A call after a step began in it, or was there before and does not return in it. -/
theorem record_eq_some (h : (l.record c s a s').calls u = some w) :
    (∃ m, s.begins c a = some (u, m) ∧ w = ⟨m, l.now, 0, false⟩) ∨
      (∀ m, s.begins c a ≠ some (u, m)) ∧ s.returns a s' ≠ some u ∧ ∃ w₀, l.calls u = some w₀ ∧
        w = w₀.observe (u ∈ s.condQueue c ∧ u ∉ s'.condQueue c) (s.expires a u) := by
  by_cases hb : ∃ m, s.begins c a = some (u, m)
  · obtain ⟨m, hb⟩ := hb
    rw [record_of_begins hb] at h
    exact .inl ⟨m, hb, (Option.some.inj h).symm⟩
  · have hb' : ∀ m, s.begins c a ≠ some (u, m) := not_exists.mp hb
    have hr : s.returns a s' ≠ some u := by
      intro hr
      cases (record_of_returns hr).symm.trans h
    rw [record_of_stays hb' hr] at h
    obtain ⟨w₀, hw₀, rfl⟩ := Option.map_eq_some_iff.mp h
    exact .inr ⟨hb', hr, w₀, hw₀, rfl⟩

end record

/-! ### Where a waiting task goes on -/

/-- The task is in a call that waits for a condition with the mutex `m`, or locks the mutex. -/
def Cont.InWait (m : ℕ) : Cont → Prop
  | .condWait m' | .condWaitTill m' _ | .mutexLock m' _ => m' = m
  | _ => False

section inWait
variable {c m : ℕ} {s s' : St} {v : View Head Tid} {a : Act} {t u : Tid}

theorem inWait_mutexLoop (s : St) (t : Tid) (m : ℕ) (r : Ret) :
    ((s.mutexLoop t m r).cont t).InWait m ∨
      (s.mutexLoop t m r).cont t = .user ∧ (s.mutexLoop t m r).lock m = some t := by
  unfold St.mutexLoop
  cases s.lock m with
  | none => exact .inr ⟨Function.update_self .., Function.update_self ..⟩
  | some u =>
      refine .inl ?_
      show (Function.update s.cont t (.mutexLock m r) t).InWait m
      rw [Function.update_self]
      exact rfl

theorem inWait_coMutexLock {r : Ret} (e : s.coMutexLock t m r = some s') :
    (s'.cont t).InWait m ∨ s'.cont t = .user ∧ s'.lock m = some t := by
  obtain ⟨-, e⟩ := Option.ite_none_left_eq_some.mp e
  obtain rfl := Option.some.inj e
  exact inWait_mutexLoop s t m r

theorem inWait_goOn {read : Bool} (h : (s.cont t).InWait m) (e : s.goOn t read = some s') :
    (s'.cont t).InWait m ∨ s'.cont t = .user ∧ s'.lock m = some t := by
  unfold St.goOn at e
  cases hc : s.cont t with
  | mutexLock m' r =>
      rw [hc] at h e
      obtain rfl : m' = m := h
      obtain rfl := Option.some.inj e
      exact inWait_mutexLoop s t m' r
  | condWait m' =>
      rw [hc] at h e
      obtain rfl : m' = m := h
      exact inWait_coMutexLock e
  | condWaitTill m' tfd =>
      rw [hc] at h e
      obtain rfl : m' = m := h
      exact inWait_coMutexLock e
  | user | timeoutRead | semWait i | eventPoll fd caller | coPoll fds timed tfd | broadcast ls
  | timeoutList ls =>
      rw [hc] at h
      exact h.elim

/-- A call goes on waiting, or it returns with the mutex. -/
theorem inWait_step (hf : Formed s v) (h : (s.cont u).InWait m) (e : step s a = some s') :
    (s'.cont u).InWait m ∨ s.returns a s' = some u ∧ s'.lock m = some u := by
  by_cases hp : s.q.phase = .running u
  · unfold step at e
    rw [hp] at e
    cases a with
    | goOn b =>
        rcases inWait_goOn h e with hw | ⟨hc, hl⟩
        · exact .inl hw
        · refine .inr ⟨?_, hl⟩
          unfold St.returns
          rw [hp]
          exact if_pos hc
    | timeoutRead r ok =>
        rw [(Option.ite_none_right_eq_some.mp e).1] at h
        exact h.elim
    | user k =>
        rw [(Option.ite_none_right_eq_some.mp e).1] at h
        exact h.elim
    | handlePrev | event fd ev | dispatch => cases e
  · rw [(step_frame hf e).2.1 u hp]
    exact .inl h

theorem inWait_begins (h : s.begins c a = some (t, m)) (e : step s a = some s') :
    (s'.cont t).InWait m := by
  have hself : ∀ (s : St) (x : Cont), x.InWait m → ((s.coSyncYield t x).cont t).InWait m := by
    intro s x hx
    show (Function.update s.cont t x t).InWait m
    rwa [Function.update_self]
  unfold step at e
  obtain ⟨hp, rfl | ⟨k, rfl⟩⟩ := begins_eq_some h
  · rw [hp] at e
    obtain ⟨-, e⟩ := Option.ite_none_right_eq_some.mp e
    obtain ⟨-, e⟩ := Option.ite_none_left_eq_some.mp e
    obtain ⟨s₁, -, rfl⟩ := Option.map_eq_some_iff.mp e
    exact hself s₁ _ rfl
  · rw [hp] at e
    obtain ⟨-, e⟩ := Option.ite_none_right_eq_some.mp e
    obtain ⟨-, e⟩ := Option.ite_none_left_eq_some.mp e
    split at e
    · cases e
    · obtain ⟨s₁, -, rfl⟩ := Option.map_eq_some_iff.mp e
      exact hself s₁ _ rfl

end inWait

/-! ### The invariant -/

/-- The tasks on the wait list are those whose calls have seen no removal, in the order of their calls; no
call has seen more than one, and a call whose timer has been reported has seen one. -/
structure Logged (c : ℕ) (s : St) (l : CondLog) : Prop where
  began : ∀ {u w}, l.calls u = some w → w.began < l.now
  inWait : ∀ {u w}, l.calls u = some w → (s.cont u).InWait w.mutex
  once : ∀ {u w}, l.calls u = some w → w.removals ≤ 1
  expired : ∀ {u w}, l.calls u = some w → w.expired = true → w.removals = 1
  mem : ∀ {u}, u ∈ s.condQueue c ↔ ∃ w, l.calls u = some w ∧ w.removals = 0
  order : (s.condQueue c).Pairwise fun t u =>
    ∀ w w', l.calls t = some w → l.calls u = some w' → w.began < w'.began

namespace Logged

variable {c : ℕ} {l : CondLog} {s s' : St} {v : View Head Tid} {a : Act} {u : Tid} {w : CondCall}

theorem mem_iff (h : Logged c s l) (hw : l.calls u = some w) : u ∈ s.condQueue c ↔ w.removals = 0 := by
  constructor
  · intro hm
    obtain ⟨w', hw', h0⟩ := h.mem.mp hm
    exact Option.some.inj (hw.symm.trans hw') ▸ h0
  · exact fun h0 => h.mem.mpr ⟨w, hw, h0⟩

theorem removals_of_not_mem (h : Logged c s l) (hw : l.calls u = some w) (hm : u ∉ s.condQueue c) :
    w.removals = 1 := by
  have h0 := mt (h.mem_iff hw).mpr hm
  have h1 := h.once hw
  omega

/-- A call that a step neither begins nor ends. -/
theorem observe (h : Logged c s l) (hf : Formed s v) (e : Sched.step s a = some s')
    (hb : ∀ m, s.begins c a ≠ some (u, m)) (hw : l.calls u = some w) :
    (w.observe (u ∈ s.condQueue c ∧ u ∉ s'.condQueue c) (s.expires a u)).removals =
      if u ∈ s'.condQueue c then 0 else 1 := by
  by_cases hm' : u ∈ s'.condQueue c
  · have hm : u ∈ s.condQueue c :=
      ((mem_condQueue_step hf e).mp hm').2.resolve_right (not_exists.mpr hb)
    simp [CondCall.observe, hm', (h.mem_iff hw).mp hm]
  · by_cases hm : u ∈ s.condQueue c
    · simp [CondCall.observe, hm, hm', (h.mem_iff hw).mp hm]
    · simp [CondCall.observe, hm, hm', h.removals_of_not_mem hw hm]

theorem start (c n : ℕ) (count : ℕ → ℕ) : Logged c (Sched.start n count) ⟨0, fun _ => none⟩ := by
  have hempty := start_condQueue n count c
  refine ⟨nofun, nofun, nofun, nofun, fun {u} => ?_, ?_⟩
  · rw [hempty]
    simp
  · rw [hempty]
    exact List.Pairwise.nil

/-- The order of the calls does not change while their tasks are on the list. -/
theorem began_of_record (hf : Formed s v) (hm : u ∈ s.condQueue c)
    (hw : (l.record c s a s').calls u = some w) : ∃ w₀, l.calls u = some w₀ ∧ w.began = w₀.began := by
  rcases record_eq_some hw with ⟨m, hb, -⟩ | ⟨-, -, w₀, hw₀, rfl⟩
  · exact absurd hm (not_mem_condQueue hf (begins_eq_some hb).1)
  · exact ⟨w₀, hw₀, rfl⟩

theorem order_step (h : Logged c s l) (hf : Formed s v) (e : Sched.step s a = some s') :
    (s'.condQueue c).Pairwise fun t u => ∀ w w', (l.record c s a s').calls t = some w →
      (l.record c s a s').calls u = some w' → w.began < w'.began := by
  refine List.Pairwise.sublist (condQueue_sublist hf e c) (List.pairwise_append.mpr ⟨?_, ?_, ?_⟩)
  · refine h.order.imp_of_mem fun {t u} ht hu hlt w w' hw hw' => ?_
    obtain ⟨w₀, hw₀, hb⟩ := began_of_record hf ht hw
    obtain ⟨w₁, hw₁, hb'⟩ := began_of_record hf hu hw'
    rw [hb, hb']
    exact hlt w₀ w₁ hw₀ hw₁
  · cases s.begins c a with
    | none => exact List.Pairwise.nil
    | some p => exact List.pairwise_singleton ..
  · -- the call that begins in the step is the last one
    intro t ht u hu w w' hw hw'
    obtain ⟨⟨x, m⟩, hb, rfl⟩ := Option.map_eq_some_iff.mp (Option.mem_toList.mp hu)
    rw [record_of_begins hb] at hw'
    obtain rfl := Option.some.inj hw'
    obtain ⟨w₀, hw₀, hbegan⟩ := began_of_record hf ht hw
    rw [hbegan]
    exact h.began hw₀

theorem step (h : Logged c s l) (hf : Formed s v)
    (hexp : ∀ u, s.expires a u = true → s.puts a = some u) (e : Sched.step s a = some s') :
    Logged c s' (l.record c s a s') := by
  refine ⟨fun {u w} hw => ?_, fun {u w} hw => ?_, fun {u w} hw => ?_, fun {u w} hw hx => ?_,
    fun {u} => ⟨fun hm => ?_, ?_⟩, h.order_step hf e⟩
  · rcases record_eq_some hw with ⟨m, -, rfl⟩ | ⟨-, -, w₀, hw₀, rfl⟩
    · exact Nat.lt_succ_self _
    · exact (h.began hw₀).trans (Nat.lt_succ_self _)
  · rcases record_eq_some hw with ⟨m, hb, rfl⟩ | ⟨-, hr, w₀, hw₀, rfl⟩
    · exact inWait_begins hb e
    · exact (inWait_step hf (h.inWait hw₀) e).resolve_right fun hc => hr hc.1
  · rcases record_eq_some hw with ⟨m, -, rfl⟩ | ⟨hb, -, w₀, hw₀, rfl⟩
    · exact Nat.zero_le 1
    · rw [h.observe hf e hb hw₀]
      split_ifs <;> omega
  · rcases record_eq_some hw with ⟨m, -, rfl⟩ | ⟨hb, -, w₀, hw₀, rfl⟩
    · cases hx
    · -- the task was off the list before, or the step resumes it
      have hoff : u ∉ s'.condQueue c := by
        intro hm
        obtain ⟨hput, hm⟩ := (mem_condQueue_step hf e).mp hm
        rcases (Bool.or_eq_true _ _).mp hx with hx | hx
        · have h1 := h.expired hw₀ hx
          have h0 := (h.mem_iff hw₀).mp (hm.resolve_right (not_exists.mpr hb))
          omega
        · exact hput (hexp u hx)
      rw [h.observe hf e hb hw₀, if_neg hoff]
  · by_cases hb : ∃ m, s.begins c a = some (u, m)
    · obtain ⟨m, hb⟩ := hb
      exact ⟨_, record_of_begins hb, rfl⟩
    · have hm₀ := ((mem_condQueue_step hf e).mp hm).2.resolve_right hb
      obtain ⟨w₀, hw₀, -⟩ := h.mem.mp hm₀
      have hr : s.returns a s' ≠ some u :=
        fun hr => not_mem_condQueue hf (phase_of_returns hr).1 hm₀
      refine ⟨_, (record_of_stays (not_exists.mp hb) hr).trans (by rw [hw₀]; rfl), ?_⟩
      rw [h.observe hf e (not_exists.mp hb) hw₀, if_pos hm]
  · rintro ⟨w, hw, h0⟩
    rcases record_eq_some hw with ⟨m, hb, rfl⟩ | ⟨hb, -, w₀, hw₀, rfl⟩
    · exact mem_condQueue_begins hf e hb
    · rw [h.observe hf e hb hw₀] at h0
      by_contra hm
      rw [if_neg hm] at h0
      cases h0

end Logged

/-- The timer of a task in `co_cond_wait_till` names it, so its event resumes the task. -/
theorem puts_of_expires {s s' : St} {a : Act} {u : Tid} {w : View ℕ Fd} (hfds : Fds s.io s.cont w)
    (hone : ∀ n t u, (s.cont t).Watches (.timer n) → (s.cont u).Watches (.timer n) → t = u)
    (e : step s a = some s') (h : s.expires a u = true) : s.puts a = some u := by
  unfold St.expires at h
  split at h
  · rename_i n ev m tfd hc
    obtain rfl : tfd = some (.timer n) := of_decide_eq_true h
    have hu : (s.cont u).Watches (.timer n) := by
      rw [hc]
      exact rfl
    obtain ⟨hp, e⟩ := step_event e
    obtain ⟨t, ht, hw⟩ := hfds.watched _ (eventWait_eq e).1
    unfold St.puts
    rw [hp, ← hone n t u hw hu]
    exact ht
  · cases h

theorem logged_of_reach {c : ℕ} {x : St × CondLog}
    (hx : (logged c).ReachVia (fun x a => noStaleLink x.1 a = true) x) : Logged c x.1 x.2 := by
  refine hx.invariant_of (I := fun x => Logged c x.1 x.2)
    (J := fun x => system.ReachVia (fun s a => noStaleLink s a = true) x.1)
    (fun x hx => TS.ReachVia.fst (fun s a => noStaleLink s a = true) hx) ?_ ?_
  · rintro ⟨s, l⟩ ⟨⟨n, count, hs⟩, hl⟩
    obtain rfl : s = start n count := hs
    obtain rfl : l = _ := hl
    exact Logged.start c n count
  · intro x a x' hr h _ e
    obtain ⟨e, hl⟩ := TS.withHistory_step e
    rw [hl]
    obtain ⟨v, hf⟩ := formed_of_reach hr
    obtain ⟨w, hfds⟩ := fds_of_reach hr
    exact h.step hf (fun u hu => puts_of_expires hfds (timer_single hr) e hu) e

/-! ### Signals and broadcasts -/

section wakes
variable {c : ℕ} {s s' : St} {v : View Head Tid} {a : Act} {t u : Tid} {r : List Tid}

/-- A step that resumes the first task of the wait list. -/
theorem wakes_first (hf : Formed s v) (e : step s a = some s') (ha : a ≠ .dispatch)
    (hq : s.condQueue c = u :: r) (hb : s.begins c a = none) (hput : s.puts a = some u) :
    s'.condQueue c = r ∧ s'.runQueue = u :: s.runQueue := by
  constructor
  · rw [condQueue_step hf e, hq, hb, hput]
    show ((u :: r) ++ []).erase u = r
    rw [List.append_nil, List.erase_cons_head]
  · obtain ⟨v', hf', hrun⟩ := formed_step hf e
    have hu : u ∈ v (.condWait c) := by
      rw [← hf.condQueue_eq, hq]
      exact List.mem_cons_self
    have hoff : u ∉ v .runList := by
      intro hm
      cases hf.listed.rings.ok.disjoint hm hu
    rw [hf'.runQueue_eq, hrun, St.queueAfter, if_neg ha, hput, enqueued, List.erase_of_not_mem hoff,
      hf.runQueue_eq]

theorem first_condQueue (hf : Formed s v) (c : ℕ) :
    ListOps.first s.q.links (Head.condWait c) = (s.condQueue c).head? := by
  rw [first_eq hf.listed.rings, hf.condQueue_eq]
  rfl

theorem signal_step (hf : Formed s v) (hp : s.q.phase = .running t) (hc : s.cont t = .user)
    (hq : s.condQueue c = u :: r) :
    ∃ s', step s (.user (.signal c)) = some s' ∧ s'.condQueue c = r ∧
      s'.runQueue = u :: s.runQueue := by
  have e : step s (.user (.signal c)) = some (s.coCondSignal t c) := by
    unfold step
    rw [hp]
    exact if_pos hc
  refine ⟨_, e, wakes_first hf e (by simp) hq ?_ ?_⟩
  · unfold St.begins
    rw [hp]
    rfl
  · unfold St.puts
    rw [hp]
    exact (first_condQueue hf c).trans (by rw [hq]; rfl)

/-- The running task is in the loop of `co_cond_broadcast`, with the tasks `r` still to come. -/
structure Passing (c : ℕ) (t : Tid) (r : List Tid) (s : St) : Prop where
  phase : s.q.phase = .running t
  cont : s.cont t = .broadcast (Rings.cursor (.condWait c) r)
  queue : s.condQueue c = r

/-- No other step is possible in the loop. -/
theorem Passing.goOn (h : Passing c t r s) (e : step s a = some s') : ∃ read, a = .goOn read := by
  unfold step at e
  rw [h.phase] at e
  cases a with
  | goOn read => exact ⟨read, rfl⟩
  | timeoutRead k ok =>
      obtain ⟨hc, -⟩ := Option.ite_none_right_eq_some.mp e
      cases h.cont.symm.trans hc
  | user k =>
      obtain ⟨hc, -⟩ := Option.ite_none_right_eq_some.mp e
      cases h.cont.symm.trans hc
  | handlePrev | event fd ev | dispatch => cases e

theorem Passing.step_eq (h : Passing c t r s) (read : Bool) :
    step s (.goOn read) = s.broadcastLoop t (Rings.cursor (.condWait c) r) := by
  unfold step
  rw [h.phase]
  show s.goOn t read = _
  unfold St.goOn
  rw [h.cont]

theorem Passing.last (hf : Formed s v) (h : Passing c t [] s) (read : Bool) :
    step s (.goOn read) = some (s.callReturn t .void) := by
  have hempty := listEmpty_cursor hf.listed.rings (Head.condWait c)
  rw [← hf.condQueue_eq, h.queue] at hempty
  rw [h.step_eq]
  exact if_pos hempty

/-- One pass of the loop. -/
theorem Passing.next (hf : Formed s v) (h : Passing c t (u :: r) s) :
    ∃ s', (∀ read, step s (.goOn read) = some s') ∧ Passing c t r s' ∧
      s'.runQueue = u :: s.runQueue := by
  have hR := hf.listed.rings
  have hv : v (.condWait c) = u :: r := (hf.condQueue_eq c).symm.trans h.queue
  have hempty : listEmpty s.q.links (Rings.cursor (Head.condWait c) (u :: r)) = false := by
    have hcur := listEmpty_cursor hR (Head.condWait c)
    rwa [hv] at hcur
  have e : ∀ read, step s (.goOn read) = some ({ s with
      q := { s.q with links := ListOps.delete s.q.links u }.coResume u }.goto t
        (.broadcast (listNext s.q.links (.elem u)))) := by
    intro read
    rw [h.step_eq]
    exact if_neg (by rw [hempty]; exact Bool.false_ne_true)
  have hput : s.puts (.goOn true) = some u := by
    unfold St.puts
    rw [h.phase]
    show (s.cont t).puts s = some u
    rw [h.cont, Cont.puts, listPeek, hempty]
    rfl
  have hb : s.begins c (.goOn true) = none := by
    unfold St.begins
    rw [h.phase]
  obtain ⟨hq, hrun⟩ := wakes_first hf (e true) (by simp) h.queue hb hput
  refine ⟨_, e, ⟨h.phase, ?_, hq⟩, hrun⟩
  show Function.update s.cont t _ t = _
  rw [Function.update_self, listNext, hR.next_elem_cursor (A := []) hv]

/-- The broadcast is over: every waiting task is on the run queue, and the task goes on. -/
structure Released (c : ℕ) (t : Tid) (s s' : St) : Prop where
  queue : s'.condQueue c = []
  runQueue : s'.runQueue = (s.condQueue c).reverse ++ s.runQueue
  phase : s'.q.phase = .running t
  cont : s'.cont t = .user

theorem Passing.released (h : Passing c t [] s) : Released c t s (s.callReturn t .void) where
  queue := h.queue
  runQueue := by
    rw [h.queue]
    rfl
  phase := h.phase
  cont := Function.update_self ..

/-- The whole loop, by induction on the tasks still to come. -/
theorem Passing.run (hf : Formed s v) (h : Passing c t r s) :
    ∃ s', Released c t s s' ∧
      (∀ reads : List Bool, reads.length = r.length + 1 →
        system.run s (reads.map Act.goOn) = some s') ∧
      ∀ as s₁, as.length ≤ r.length + 1 → system.run s as = some s₁ →
        ∃ reads : List Bool, as = reads.map Act.goOn := by
  induction r generalizing s v with
  | nil =>
      refine ⟨_, h.released, fun reads hlen => ?_, fun as s₁ hlen hrun => ?_⟩
      · obtain ⟨read, rfl⟩ := List.length_eq_one_iff.mp hlen
        exact TS.run_cons (M := system) (Passing.last hf h read) []
      · cases as with
        | nil => exact ⟨[], rfl⟩
        | cons a as =>
            obtain ⟨s', e, -⟩ := Option.bind_eq_some_iff.mp hrun
            obtain ⟨read, rfl⟩ := h.goOn e
            obtain rfl := List.eq_nil_of_length_eq_zero (Nat.le_zero.mp (Nat.le_of_succ_le_succ hlen))
            exact ⟨[read], rfl⟩
  | cons u r ih =>
      obtain ⟨s₂, e, hpass, hqueue⟩ := Passing.next hf h
      obtain ⟨v₂, hf₂, -⟩ := formed_step hf (e true)
      obtain ⟨s', hrel, hrun, hall⟩ := ih hf₂ hpass
      refine ⟨s', ⟨hrel.queue, ?_, hrel.phase, hrel.cont⟩, fun reads hlen => ?_,
        fun as s₁ hlen hrun₁ => ?_⟩
      · rw [hrel.runQueue, hpass.queue, hqueue, h.queue, List.reverse_cons, List.append_assoc]
        rfl
      · cases reads with
        | nil => cases hlen
        | cons read reads =>
            rw [List.map_cons, TS.run_cons (M := system) (e read)]
            exact hrun reads (Nat.succ.inj hlen)
      · cases as with
        | nil => exact ⟨[], rfl⟩
        | cons a as =>
            obtain ⟨s₃, e₃, hrun₃⟩ := Option.bind_eq_some_iff.mp hrun₁
            obtain ⟨read, rfl⟩ := h.goOn e₃
            obtain rfl : s₂ = s₃ := Option.some.inj ((e read).symm.trans e₃)
            obtain ⟨reads, rfl⟩ := hall as s₁ (Nat.le_of_succ_le_succ hlen) hrun₃
            exact ⟨read :: reads, rfl⟩

theorem broadcast_run (hf : Formed s v) (hp : s.q.phase = .running t) (hc : s.cont t = .user) :
    ∃ s', Released c t s s' ∧
      (∀ reads : List Bool, reads.length = (s.condQueue c).length + 1 →
        system.run s (.user (.broadcast c) :: reads.map Act.goOn) = some s') ∧
      ∀ as s₁, as.length ≤ (s.condQueue c).length + 1 →
        system.run s (.user (.broadcast c) :: as) = some s₁ →
        ∃ reads : List Bool, as = reads.map Act.goOn := by
  let s₁ := s.goto t (.broadcast (listNext s.q.links (.head (.condWait c))))
  have e : step s (.user (.broadcast c)) = some s₁ := by
    unfold step
    rw [hp]
    exact if_pos hc
  obtain ⟨v₁, hf₁, -⟩ := formed_step hf e
  have hpass : Passing c t (s.condQueue c) s₁ := by
    refine ⟨hp, ?_, rfl⟩
    show Function.update s.cont t _ t = _
    rw [Function.update_self, listNext, hf.listed.rings.next_head_cursor, hf.condQueue_eq]
  obtain ⟨s', hrel, hrun, hall⟩ := Passing.run hf₁ hpass
  have hcons := TS.run_cons (M := system) e
  refine ⟨s', ⟨hrel.queue, hrel.runQueue, hrel.phase, hrel.cont⟩, fun reads hlen => ?_,
    fun as s₂ hlen h => ?_⟩
  · rw [hcons]
    exact hrun reads hlen
  · rw [hcons] at h
    exact hall as s₂ hlen h

end wakes

/-! ### The condition -/

/-- What the calls on the condition do, with the history of its calls. -/
structure WakesExactly (c : ℕ) (x : St × CondLog) : Prop where
  /-- A signal takes the task off the wait list whose call began first, and resumes it; its timer has
  not been reported. -/
  signal : ∀ t u r, x.1.q.phase = .running t → x.1.cont t = .user → x.1.condQueue c = u :: r →
    ∃ x', (logged c).step x (.user (.signal c)) = some x' ∧ x'.1.condQueue c = r ∧
      x'.1.runQueue = u :: x.1.runQueue ∧ ∃ w, x.2.calls u = some w ∧ w.expired = false ∧
        ∀ y ∈ r, ∃ w', x.2.calls y = some w' ∧ w.began < w'.began
  /-- A broadcast takes all tasks off the wait list and resumes them, and nothing else happens before it
  is over. -/
  broadcast : ∀ t, x.1.q.phase = .running t → x.1.cont t = .user → ∃ s', Released c t x.1 s' ∧
    (∀ reads : List Bool, reads.length = (x.1.condQueue c).length + 1 →
      system.run x.1 (.user (.broadcast c) :: reads.map Act.goOn) = some s') ∧
    ∀ as s₁, as.length ≤ (x.1.condQueue c).length + 1 →
      system.run x.1 (.user (.broadcast c) :: as) = some s₁ →
      ∃ reads : List Bool, as = reads.map Act.goOn
  /-- A task whose timer has been reported is not on the wait list. -/
  expired : ∀ u w, x.2.calls u = some w → w.expired = true → u ∉ x.1.condQueue c
  /-- A call that returns has seen one removal, and the task holds the mutex. -/
  returns : ∀ a x' u w, (logged c).step x a = some x' → x.2.calls u = some w → x'.2.calls u = none →
    w.removals = 1 ∧ x'.1.cont u = .user ∧ x'.1.lock w.mutex = some u

theorem Logged.signal {c : ℕ} {s : St} {l : CondLog} (h : Logged c s l) {u : Tid} {r : List Tid}
    (hq : s.condQueue c = u :: r) : ∃ w, l.calls u = some w ∧ w.expired = false ∧
      ∀ y ∈ r, ∃ w', l.calls y = some w' ∧ w.began < w'.began := by
  obtain ⟨w, hw, h0⟩ := h.mem.mp (hq ▸ List.mem_cons_self)
  refine ⟨w, hw, ?_, fun y hy => ?_⟩
  · by_contra hx
    rw [h.expired hw (Bool.eq_true_of_not_eq_false hx)] at h0
    cases h0
  · obtain ⟨w', hw', -⟩ := h.mem.mp (hq ▸ List.mem_cons_of_mem u hy)
    have horder := h.order
    rw [hq] at horder
    exact ⟨w', hw', (List.pairwise_cons.mp horder).1 y hy w w' hw hw'⟩

theorem Logged.returns {c : ℕ} {s s' : St} {l : CondLog} {v : View Head Tid} {a : Act} {u : Tid}
    {w : CondCall} (h : Logged c s l) (hf : Formed s v) (e : Sched.step s a = some s')
    (hw : l.calls u = some w) (hnone : (l.record c s a s').calls u = none) :
    w.removals = 1 ∧ s'.cont u = .user ∧ s'.lock w.mutex = some u := by
  have hb : ∀ m, s.begins c a ≠ some (u, m) := by
    intro m hb
    cases (record_of_begins hb).symm.trans hnone
  have hr : s.returns a s' = some u := by
    by_contra hr
    rw [record_of_stays hb hr, hw] at hnone
    cases hnone
  obtain ⟨hp, -, hc⟩ := phase_of_returns hr
  refine ⟨h.removals_of_not_mem hw (not_mem_condQueue hf hp), hc, ?_⟩
  rcases inWait_step hf (h.inWait hw) e with hwait | ⟨-, hlock⟩
  · rw [hc] at hwait
    exact hwait.elim
  · exact hlock

theorem cond_wakes_exact {c : ℕ} {x : St × CondLog}
    (hx : (logged c).ReachVia (fun x a => noStaleLink x.1 a = true) x) : WakesExactly c x := by
  have h := logged_of_reach hx
  obtain ⟨v, hf⟩ := formed_of_reach (TS.ReachVia.fst (fun s a => noStaleLink s a = true) hx)
  refine ⟨fun t u r hp hc hq => ?_, fun t hp hc => broadcast_run hf hp hc, fun u w hw hexp hm => ?_,
    fun a x' u w e hw hnone => ?_⟩
  · obtain ⟨s', e, hqueue, hrun⟩ := signal_step hf hp hc hq
    exact ⟨_, TS.withHistory_of_step e, hqueue, hrun, h.signal hq⟩
  · have h1 := h.expired hw hexp
    have h0 := (h.mem_iff hw).mp hm
    omega
  · obtain ⟨e, hl⟩ := TS.withHistory_step e
    rw [hl] at hnone
    exact h.returns hf e hw hnone

/-- The tasks 2, 3 and 4 wait for the condition 0, the task 2 with a timer; its timer fires, and the task 5
has control. -/
def timerFires : List Act :=
  [.dispatch, .timeoutRead .again true, .handlePrev, .dispatch, .user (.semWait 0), .handlePrev,
    .dispatch, .user (.lock 0), .user (.condWaitTill 0 0 ⟨true, true, true⟩), .handlePrev,
    .dispatch, .user (.lock 0), .user (.condWait 0 0), .handlePrev,
    .dispatch, .user (.lock 0), .user (.condWait 0 0), .handlePrev,
    .event (.timer 0) { epollin := true }, .dispatch]

/-- A signal then goes to the task 3, although the call of the task 2 began first and has not returned. -/
theorem cond_wakes_exact_timer : ∃ x : St × CondLog, x.1.q.phase = .running 5 ∧ x.1.cont 5 = .user ∧
    x.1.condQueue 0 = [3, 4] ∧ (x.2.calls 2).any CondCall.expired ∧ WakesExactly 0 x := by
  have hrun := TS.ReachVia.exists_of_run (M := logged 0) (s := (start 4 fun _ => 0, ⟨0, fun _ => none⟩))
    (fun x a => noStaleLink x.1 a = true) timerFires
    (fun x => decide (x.1.q.phase = .running 5 ∧ x.1.cont 5 = .user ∧ x.1.condQueue 0 = [3, 4] ∧
      (x.2.calls 2).any CondCall.expired = true))
    ⟨⟨4, _, rfl⟩, rfl⟩ (by decide +kernel) (by decide +kernel)
  obtain ⟨x, hx, hP⟩ := hrun
  obtain ⟨hp, hc, hq, hexp⟩ := of_decide_eq_true hP
  exact ⟨x, hp, hc, hq, hexp, cond_wakes_exact hx⟩

end Libcask.Sched
