import Libcask.CondWakes

/-! # What `co_cond_wait_till` reports

The system of `Sched.lean` with a history variable: for every task that is in a call of
`co_cond_wait_till` on one condition, whether it is still on the wait list, or what took it off (`Wake`).

* `timed_wait_cause`: the call returns 0 to a task that a signal or a broadcast took off the list, and 1
  to a task that its timer took off, in runs in which no timer expires between a signal and the dispatch
  of the task it woke (`inTime`).
* `signal_reported_as_timeout`: a timer that expires in between makes the call return 1.

The result is the bit `IEREAD` that the `inner_fd` of the timer has when the task goes on.  The invariant
is `Stands`: what the bit shows as long as the call has not read it, and what the call is going to return
afterwards. -/

namespace Libcask.Sched

/-! ### The history of the calls -/

/-- What takes a task off the wait list: a signal, a broadcast, its timer, or anything else that resumes
it. -/
inductive Wake where
  | signal
  | broadcast
  | timer
  | other
deriving DecidableEq, Repr

/-- A call of `co_cond_wait_till`: its task is on the wait list, or has been taken off. -/
inductive TimedCall where
  | waiting
  | woken (w : Wake)
deriving DecidableEq, Repr

/-- The task that calls `co_cond_wait_till` on the condition `c` in a step. -/
def St.beginsTill (s : St) (c : ℕ) (a : Act) : Option Tid :=
  match s.q.phase, a with
  | .running t, .user (.condWaitTill c' _ _) => if c' = c then some t else none
  | _, _ => none

/-- What takes the task `u` off the wait list, in a step that does so. -/
def St.wake (s : St) (a : Act) (u : Tid) : Wake :=
  match s.q.phase, a with
  | .running _, .user (.signal _) => .signal
  | .running t, .goOn _ =>
      match s.cont t with
      | .broadcast _ => .broadcast
      | _ => .other
  | .loop, .event fd e => if e.epollin ∧ (s.cont u).Watches fd then .timer else .other
  | _, _ => .other

def TimedCall.record (c : ℕ) (l : Tid → Option TimedCall) (s : St) (a : Act) (s' : St) (u : Tid) :
    Option TimedCall :=
  if s.beginsTill c a = some u then some .waiting
  else if s.returns a s' = some u then none
  else if u ∈ s.condQueue c ∧ u ∉ s'.condQueue c then (l u).map fun _ => .woken (s.wake a u)
  else l u

/-- The thread, with the history of the calls of `co_cond_wait_till` on the condition `c`. -/
def timed (c : ℕ) : TS (St × (Tid → Option TimedCall)) Act :=
  system.withHistory (fun _ => none) (TimedCall.record c)

/-- The result that tells what woke the task. -/
def Wake.Reported : Wake → Ret → Prop
  | .signal, r | .broadcast, r => r = .int 0
  | .timer, r => r = .int 1
  | .other, _ => True

/-- The task was taken off the wait list by a signal or a broadcast. -/
def TimedCall.signalled : TimedCall → Bool
  | .woken .signal | .woken .broadcast => true
  | _ => false

/-- A timer does not expire when its task has been signalled, and has not been dispatched yet. -/
def inTime (x : St × (Tid → Option TimedCall)) : Act → Bool
  | .event (.timer n) e =>
      !e.epollin || !((x.1.io.taskOf (.timer n)).bind x.2).any TimedCall.signalled
  | _ => true

section record
variable {c : ℕ} {l : Tid → Option TimedCall} {s s' : St} {v : View Head Tid} {a : Act} {u : Tid}
  {k : TimedCall}

theorem beginsTill_eq_some (h : s.beginsTill c a = some u) :
    s.q.phase = .running u ∧ ∃ m p, a = .user (.condWaitTill c m p) := by
  unfold St.beginsTill at h
  split at h
  · rename_i t c' m p hp
    obtain ⟨rfl, heq⟩ := Option.ite_none_right_eq_some.mp h
    obtain rfl := Option.some.inj heq
    exact ⟨hp, m, p, rfl⟩
  · cases h

theorem begins_of_beginsTill (h : s.beginsTill c a = some u) : ∃ m, s.begins c a = some (u, m) := by
  obtain ⟨hp, m, p, rfl⟩ := beginsTill_eq_some h
  refine ⟨m, ?_⟩
  unfold St.begins
  rw [hp]
  exact if_pos rfl

theorem timed_record_returns (hb : s.beginsTill c a ≠ some u) (h : s.returns a s' = some u) :
    TimedCall.record c l s a s' u = none := by
  rw [TimedCall.record, if_neg hb, if_pos h]

/-- A call after a step began in it, was woken in it, or is as it was before. -/
theorem timed_record_eq_some (h : TimedCall.record c l s a s' u = some k) :
    (s.beginsTill c a = some u ∧ k = .waiting) ∨ s.returns a s' ≠ some u ∧
      ((∃ k₀, l u = some k₀) ∧ (u ∈ s.condQueue c ∧ u ∉ s'.condQueue c) ∧ k = .woken (s.wake a u) ∨
        l u = some k ∧ (u ∈ s.condQueue c → u ∈ s'.condQueue c)) := by
  unfold TimedCall.record at h
  split_ifs at h with hb hr hq
  · exact .inl ⟨hb, (Option.some.inj h).symm⟩
  · obtain ⟨k₀, hk₀, rfl⟩ := Option.map_eq_some_iff.mp h
    exact .inr ⟨hr, .inl ⟨⟨k₀, hk₀⟩, hq, rfl⟩⟩
  · exact .inr ⟨hr, .inr ⟨h, fun hm => by_contra fun hm' => hq ⟨hm, hm'⟩⟩⟩

theorem wake_eq_timer (h : s.wake a u = .timer) :
    ∃ fd e, a = .event fd e ∧ (s.cont u).Watches fd := by
  unfold St.wake at h
  split at h
  · cases h
  · split at h <;> cases h
  · rename_i fd e _
    split_ifs at h with hw
    exact ⟨fd, e, rfl, hw.2⟩
  · cases h

/-- A task leaves the wait list when it is put on the run queue. -/
theorem puts_of_removed (hf : Formed s v) (e : step s a = some s') (hm : u ∈ s.condQueue c)
    (hm' : u ∉ s'.condQueue c) : s.puts a = some u := by
  by_contra hput
  exact hm' ((mem_condQueue_step hf e).mpr ⟨hput, .inl hm⟩)

end record

/-! ### The timers -/

section timers
variable {s s' : St} {v : View Head Tid} {a : Act} {t u : Tid} {n : ℕ}

theorem goOn_timeoutList {ls : Node ℕ Fd} {read : Bool} (hc : s.cont t = .timeoutList ls)
    (e : s.goOn t read = some s') : s.timeoutLoop t ls = some s' := by
  unfold St.goOn at e
  rwa [hc] at e

/-- A step that is not an event of the timer of a blocked task changes neither the bit `IEREAD` nor the
task of its record. -/
theorem timer_step {r : InnerFd} (hf : Formed s v) (hw : Watched s)
    (hone : ∀ t u, (s.cont t).Watches (.timer n) → (s.cont u).Watches (.timer n) → t = u)
    (hoff : s.q.phase ≠ .running u) (hwatch : (s.cont u).Watches (.timer n))
    (hr : s.io.ifd (.timer n) = some r) (hev : ∀ ev, a ≠ .event (.timer n) ev)
    (e : step s a = some s') :
    ∃ r', s'.io.ifd (.timer n) = some r' ∧ r'.task = r.task ∧ r'.error.read = r.error.read ∧
      s'.io.epoll (.timer n) = s.io.epoll (.timer n) := by
  by_cases hT : s.touches a (.timer n)
  · have hold : s.io.ifd (.timer n) ≠ none := by
      rw [hr]
      exact Option.some_ne_none r
    have hpoll : ∀ m, Fd.timer n = .sock m → ¬s.polls a (.timer n) := by
      rintro m ⟨⟩
    rcases touched_of_watches hw hf.apart hoff hwatch (fun x hx => hone x u hx hwatch) hpoll hold e hT
      with ⟨-, ev, rfl, -⟩ | ⟨x, ls, b, hp, rfl, hc, hls⟩ | ⟨r₀, hr₀, -, hio⟩
    · exact absurd rfl (hev ev)
    · -- the timeout task sets `IETIMEOUT` only
      unfold step at e
      rw [hp] at e
      rcases timeoutLoop_eq (goOn_timeoutList hc e) with
        ⟨hempty, -⟩ | ⟨hempty, fd, r₁, y, rfl, hr₁, -, rfl⟩
      · rw [listPeek, hempty] at hls
        cases hls
      · rw [listPeek, hempty] at hls
        obtain rfl : fd = .timer n := Option.some.inj hls
        obtain rfl := Option.some.inj (hr.symm.trans hr₁)
        exact ⟨_, Function.update_self .., rfl, rfl, rfl⟩
    · obtain rfl := Option.some.inj (hr.symm.trans hr₀)
      rw [hio]
      exact ⟨_, Function.update_self .., rfl, rfl, rfl⟩
  · obtain ⟨hifd, hep⟩ := (step_frame hf e).1 _ hT
    exact ⟨r, hifd.trans hr, rfl, rfl, hep⟩

/-- The timers that have not been opened are not in the epoll set. -/
def Io.Unopened (io : Io) : Prop := ∀ n, io.timers ≤ n → io.epoll (.timer n) = none

theorem startTimer_epoll {io io' : Io} {p : Io.TimerCall} {tfd : Option Fd}
    (e : io.startTimer t p = some (io', tfd)) (hn : io'.timers ≤ n) :
    io'.epoll (.timer n) = io.epoll (.timer n) := by
  cases tfd with
  | some fd =>
      have hlt := (Io.startTimer_new e).2
      refine ((Io.Upd.startTimer e).frame (.timer n) ?_).2
      rintro ⟨⟩
      omega
  | none =>
      unfold Io.startTimer at e
      split_ifs at e
      · obtain ⟨io₁, -, h1⟩ := Option.map_eq_some_iff.mp e
        cases (Prod.mk.inj h1).2
      · obtain ⟨rfl, -⟩ := Prod.mk.inj (Option.some.inj e)
        rfl

/-- The record of a new timer.  If `timerfd_settime` fails, the timer is not added to the epoll set. -/
theorem startTimer_record {io io' : Io} {p : Io.TimerCall} {fd : Fd}
    (e : io.startTimer t p = some (io', some fd)) : fd = .timer io.timers ∧
      ∃ r, io'.ifd fd = some r ∧ r.error = ieNone ∧
        (r.task = some t ∨ io'.epoll fd = io.epoll fd) := by
  unfold Io.startTimer at e
  split_ifs at e
  · obtain ⟨io₁, he, h1⟩ := Option.map_eq_some_iff.mp e
    obtain ⟨rfl, hfd⟩ := Prod.mk.inj h1
    obtain rfl : .timer io.timers = fd := Option.some.inj hfd
    refine ⟨rfl, ?_⟩
    have hnew : io.openTimer.1.ifd (.timer io.timers) =
        some { task := none, timeout := -1, error := ieNone } := Function.update_self ..
    replace he : io.openTimer.1.setTimer t (.timer io.timers) p.set p.added = some io₁ := he
    unfold Io.setTimer at he
    split_ifs at he
    · rw [hnew] at he
      obtain rfl := Option.some.inj he
      refine ⟨{ task := some t, timeout := -1, error := ieNone }, ?_, rfl, .inl rfl⟩
      rw [Io.addEvents_ifd]
      exact Io.setInner_self ..
    · obtain rfl := Option.some.inj he
      exact ⟨_, hnew, rfl, .inr rfl⟩
  · cases (Prod.mk.inj (Option.some.inj e)).2

theorem coCondWaitTill_io {c m : ℕ} {p : Io.TimerCall} (e : s.coCondWaitTill t c m p = some s') :
    ∃ tfd, s.io.startTimer t p = some (s'.io, tfd) ∧ s'.cont t = .condWaitTill m tfd := by
  obtain ⟨-, e⟩ := Option.ite_none_left_eq_some.mp e
  cases hp : s.io.startTimer t p with
  | none => simp [hp] at e
  | some x =>
      obtain ⟨io', tfd⟩ := x
      simp only [hp] at e
      obtain ⟨s₁, e₁, rfl⟩ := Option.map_eq_some_iff.mp e
      refine ⟨tfd, ?_, Function.update_self ..⟩
      obtain ⟨hio, -⟩ := Fds.coMutexUnlock_eq e₁
      rw [show (s₁.coSyncYield t (.condWaitTill m tfd)).io = io' from hio]

theorem coPoll_epoll {fds : List (PollFd × Bool)} {withTimer : Bool} {p : Io.TimerCall}
    (e : s.coPoll t fds withTimer p = some s') (hn : s'.io.timers ≤ n) :
    s'.io.epoll (.timer n) = s.io.epoll (.timer n) := by
  unfold St.coPoll at e
  cases hadd : s.io.coPollAdd t withTimer fds with
  | none => simp [hadd] at e
  | some io₁ =>
      simp only [hadd] at e
      -- the loop adds sockets only
      have h1 : io₁.epoll (.timer n) = s.io.epoll (.timer n) := by
        refine ((Io.Upd.coPollAdd (T := fun fd => ∃ m, fd = .sock m) hadd
          fun p _ => ⟨p.1.fd, rfl⟩).frame (.timer n) ?_).2
        rintro ⟨m, ⟨⟩⟩
      split_ifs at e
      · cases hp : io₁.startTimer t p with
        | none => simp [hp] at e
        | some x =>
            obtain ⟨io₂, tfd⟩ := x
            simp only [hp] at e
            obtain rfl := Option.some.inj e
            exact (startTimer_epoll hp hn).trans h1
      · obtain rfl := Option.some.inj e
        exact h1

theorem eventPoll_timers {fd : Fd} {events : Events} {ok : Bool} {caller : Caller}
    (hcaller : caller = .sleep) (e : s.eventPoll t fd events ok caller = some s') :
    s.io.timers ≤ s'.io.timers := by
  subst hcaller
  unfold St.eventPoll at e
  cases hp : s.io.eventPoll t fd events ok with
  | none => simp [hp] at e
  | some x =>
      obtain ⟨io', b⟩ := x
      rw [hp] at e
      have h1 := (Io.Upd.eventPoll hp).timers
      cases b with
      | true =>
          obtain rfl := Option.some.inj e
          exact h1
      | false =>
          obtain rfl := Option.some.inj e
          refine h1.trans ?_
          unfold St.eventPollDone
          dsimp only
          split_ifs <;> exact le_rfl

theorem coSleep_timers {p : Io.TimerCall} {again ok : Bool} (e : s.coSleep t p again ok = some s') :
    s.io.timers < s'.io.timers := by
  obtain ⟨-, e⟩ := Option.ite_none_right_eq_some.mp e
  dsimp only at e
  cases hset : s.io.openTimer.1.setTimer t s.io.openTimer.2 p.set p.added with
  | none => simp [hset] at e
  | some io' =>
      have h1 : s.io.timers < io'.timers :=
        (Nat.lt_succ_self _).trans_le (Io.Upd.setTimer hset).timers
      simp only [hset] at e
      split_ifs at e
      · exact h1.trans_le (eventPoll_timers rfl e)
      · obtain rfl := Option.some.inj e
        exact h1
      · obtain rfl := Option.some.inj e
        exact h1

/-- A call that opens a timer adds no timer to the epoll set that is still to be opened. -/
theorem userAct_epoll {k : UserAct} (hf : Formed s v) (hp : s.q.phase = .running t)
    (hc : s.cont t = .user) (hT : k.touches s.io (.timer n)) (e : userAct s t k = some s')
    (hn : s'.io.timers ≤ n) : s'.io.epoll (.timer n) = s.io.epoll (.timer n) := by
  cases k with
  | condWaitTill c m p =>
      obtain ⟨tfd, h, -⟩ := coCondWaitTill_io e
      exact startTimer_epoll h hn
  | coPoll fds withTimer p => exact coPoll_epoll e hn
  | sleep p again ok =>
      have hlt := coSleep_timers e
      have hflag : (s.cont t).timeoutTask = false := by
        rw [hc]
        rfl
      refine ((Moves.coSleep (T := (· = .timer s.io.timers)) (P := fun _ => True) (hf.control hp)
        hflag rfl trivial e).io.frame (.timer n) ?_).2
      rintro ⟨⟩
      omega
  | socket | listen m | eventPoll m events ok => cases hT
  | create | yield | exit | lock m | tryLock m | unlock m | condWait c m | signal c | broadcast c
  | semWait i | semTryWait i | semPost i => exact hT.elim

theorem unopened_step (hf : Formed s v) (hw : Watched s) (h : s.io.Unopened)
    (e : step s a = some s') : s'.io.Unopened := by
  intro n hn
  obtain ⟨hframe, -, hmono⟩ := step_frame hf e
  have hold := h n (hmono.trans hn)
  by_cases hT : s.touches a (.timer n)
  · rw [← hold]
    unfold St.touches at hT
    unfold step at e
    cases hp : s.q.phase with
    | loop =>
        rw [hp] at hT e
        cases a with
        | event fd ev =>
            obtain rfl : .timer n = fd := hT
            exact absurd hold (eventWait_eq e).1
        | handlePrev | dispatch | goOn b | timeoutRead r ok | user k => exact hT.elim
    | handle x =>
        rw [hp] at hT
        cases a with
        | handlePrev | event fd ev | dispatch | goOn b | timeoutRead r ok | user k => exact hT.elim
    | running x =>
        rw [hp] at hT e
        cases a with
        | goOn b =>
            rcases hT with hT | ⟨ls, hc, -⟩ | ⟨-, hT⟩
            · have hlt := hw.timers x n hT
              omega
            · rcases timeoutLoop_eq (goOn_timeoutList hc e) with
                ⟨-, rfl⟩ | ⟨-, fd, r, u, -, -, -, rfl⟩
              · rfl
              · rfl
            · cases hT
        | timeoutRead r ok => cases hT
        | user k =>
            obtain ⟨hc, e⟩ := Option.ite_none_right_eq_some.mp e
            exact userAct_epoll hf hp hc hT e hn
        | handlePrev | event fd ev | dispatch => exact hT.elim
  · exact (hframe _ hT).2.trans hold

theorem unopened_of_reach {ok : St → Act → Prop} (h : system.ReachVia ok s) : s.io.Unopened := by
  refine h.invariant_of (I := fun s => s.io.Unopened) (J := fun s => (∃ v, Formed s v) ∧ Watched s)
    (fun s hs => ⟨formed_of_reach hs, watched_of_reach hs⟩) ?_ ?_
  · rintro s ⟨k, count, rfl⟩ n -
    rfl
  · rintro s a s' ⟨⟨v, hf⟩, hw⟩ hs - e
    exact unopened_step hf hw hs e

end timers

/-! ### What the timer shows -/

/-- What the bit `IEREAD` of the timer shows during the call. -/
def TimedCall.Shows : TimedCall → Bool → Prop
  | .waiting, read | .woken .signal, read | .woken .broadcast, read => read = false
  | .woken .timer, read => read = true
  | .woken .other, _ => True

theorem TimedCall.Shows.reported {w : Wake} {read : Bool} (h : (TimedCall.woken w).Shows read) :
    w.Reported (.int (if read then 1 else 0)) := by
  cases w with
  | signal | broadcast | timer =>
      obtain rfl : read = _ := h
      rfl
  | other => trivial

theorem TimedCall.Shows.woken {w : Wake} {read : Bool} (h : TimedCall.waiting.Shows read)
    (hw : w ≠ .timer) : (TimedCall.woken w).Shows read := by
  cases w with
  | signal | broadcast => exact h
  | timer => exact absurd rfl hw
  | other => trivial

/-- The record of the timer of a call: an event of the timer resumes the task, and there is none after
the timer has expired. -/
structure Armed (s : St) (u : Tid) (k : TimedCall) (n : ℕ) (r : InnerFd) : Prop where
  record : s.io.ifd (.timer n) = some r
  shows : k.Shows r.error.read
  task : s.io.epoll (.timer n) ≠ none → r.task = some u ∧ k ≠ .woken .timer

/-- How the call of a task stands: it waits, without a timer if `open_timer` failed, or it has read its
result and locks the mutex. -/
inductive Stands (s : St) (u : Tid) : TimedCall → Prop
  | untimed {k : TimedCall} {m : ℕ} :
      s.cont u = .condWaitTill m none → k.Shows false → Stands s u k
  | timed {k : TimedCall} {m n : ℕ} {r : InnerFd} :
      s.cont u = .condWaitTill m (some (.timer n)) → Armed s u k n r → Stands s u k
  | locks {w : Wake} {m : ℕ} {r : Ret} :
      s.cont u = .mutexLock m r → w.Reported r → Stands s u (.woken w)

namespace Stands

variable {s s' : St} {v : View Head Tid} {a : Act} {u : Tid} {k : TimedCall} {w : Wake}

theorem cont_ne_user (h : Stands s u k) : s.cont u ≠ .user := by
  intro hc
  cases h with
  | untimed h _ | timed h _ | locks h _ => cases hc.symm.trans h

/-- When the task has control, it goes on with the call. -/
theorem act_eq (h : Stands s u k) (hp : s.q.phase = .running u) (e : Sched.step s a = some s') :
    ∃ read, a = .goOn read ∧ s.goOn u read = some s' := by
  unfold Sched.step at e
  rw [hp] at e
  cases a with
  | goOn read => exact ⟨read, rfl, e⟩
  | timeoutRead r ok =>
      obtain ⟨hc, -⟩ := Option.ite_none_right_eq_some.mp e
      cases h with
      | untimed h _ | timed h _ | locks h _ => cases hc.symm.trans h
  | user p => exact absurd (Option.ite_none_right_eq_some.mp e).1 h.cont_ne_user
  | handlePrev | event fd ev | dispatch => cases e

/-- The call that begins. -/
theorem begins {c m : ℕ} {p : Io.TimerCall} (hun : s.io.Unopened)
    (e : s.coCondWaitTill u c m p = some s') : Stands s' u .waiting := by
  obtain ⟨tfd, hio, hcont⟩ := coCondWaitTill_io e
  cases tfd with
  | none => exact .untimed hcont rfl
  | some fd =>
      obtain ⟨rfl, r, hr, herror, htask⟩ := startTimer_record hio
      refine .timed hcont ⟨hr, ?_, fun hep => ⟨?_, by simp⟩⟩
      · rw [herror]
        exact rfl
      · exact htask.resolve_right fun h => hep (h.trans (hun _ le_rfl))

/-- A step of another task, or of the scheduler. -/
theorem stays (hf : Formed s v) (hw : Watched s)
    (hone : ∀ n t u, (s.cont t).Watches (.timer n) → (s.cont u).Watches (.timer n) → t = u)
    (hoff : s.q.phase ≠ .running u) (hev : ∀ fd ev, a = .event fd ev → ¬(s.cont u).Watches fd)
    (e : step s a = some s') (h : Stands s u k) : Stands s' u k := by
  have hcont : s'.cont u = s.cont u := (step_frame hf e).2.1 u hoff
  cases h with
  | untimed hc hshows => exact .untimed (hcont.trans hc) hshows
  | @timed _ m n r hc harm =>
      have hwatch : (s.cont u).Watches (.timer n) := by
        rw [hc]
        exact rfl
      obtain ⟨r', hr', htask, hread, hep⟩ := timer_step hf hw (hone n) hoff hwatch harm.record
        (fun ev ha => hev _ ev ha hwatch) e
      refine .timed (hcont.trans hc) ⟨hr', ?_, ?_⟩
      · rw [hread]
        exact harm.shows
      · rw [hep, htask]
        exact harm.task
  | locks hc hrep => exact .locks (hcont.trans hc) hrep

/-- An event of the timer of the call. -/
theorem event {fd : Fd} {ev : Events} {k' : TimedCall} (hwatch : (s.cont u).Watches fd)
    (hk' : k'.Shows ev.epollin) (e : s.eventWait fd ev = some s') (h : Stands s u k) :
    Stands s' u k' := by
  cases h with
  | untimed hc _ | locks hc _ =>
      rw [hc] at hwatch
      cases hwatch
  | timed hc harm =>
      rw [hc] at hwatch
      obtain rfl := Option.some.inj hwatch
      obtain ⟨-, r', -, rfl⟩ := eventWait_eq e
      refine .timed hc ⟨Function.update_self .., hk', fun hep => ?_⟩
      exact absurd (Function.update_self ..) hep

/-- The timer names the task when an event of it is possible. -/
theorem taskOf {fd : Fd} (hwatch : (s.cont u).Watches fd) (hep : s.io.epoll fd ≠ none)
    (h : Stands s u k) : (∃ n, fd = .timer n) ∧ s.io.taskOf fd = some u ∧ k ≠ .woken .timer := by
  cases h with
  | untimed hc _ | locks hc _ =>
      rw [hc] at hwatch
      cases hwatch
  | @timed _ m n r hc harm =>
      rw [hc] at hwatch
      obtain rfl := Option.some.inj hwatch
      obtain ⟨htask, hk⟩ := harm.task hep
      exact ⟨⟨n, rfl⟩, (Fds.taskOf_eq harm.record).trans htask, hk⟩

/-- The task is taken off the wait list by something else than its timer. -/
theorem woken (hw : w ≠ .timer) (h : Stands s u .waiting) : Stands s u (.woken w) := by
  cases h with
  | untimed hc hshows => exact .untimed hc (hshows.woken hw)
  | timed hc harm =>
      refine .timed hc ⟨harm.record, harm.shows.woken hw, fun hep => ⟨(harm.task hep).1, ?_⟩⟩
      rintro ⟨⟩
      exact hw rfl

/-- When the task goes on, it closes its timer and locks the mutex; the result does not change any
more. -/
theorem goOn (h : Stands s u (.woken w)) : ∃ io m r, (s.cont u).InWait m ∧ w.Reported r ∧
    ∀ read, s.goOn u read = some ({ s with io := io }.mutexLoop u m r) ∨
      s.goOn u read = none ∧ s.lock m = some u := by
  have hlock : ∀ {m : ℕ} {io : Io} {r : Ret} {o : Option St},
      o = { s with io := io }.coMutexLock u m r →
      o = some ({ s with io := io }.mutexLoop u m r) ∨ o = none ∧ s.lock m = some u := by
    rintro m io r o rfl
    unfold St.coMutexLock
    split_ifs with hl
    · exact .inr ⟨rfl, hl⟩
    · exact .inl rfl
  cases h with
  | @untimed _ m hc hshows =>
      refine ⟨s.io, m, .int 0, by rw [hc]; exact rfl, hshows.reported, fun read => hlock ?_⟩
      unfold St.goOn
      rw [hc]
      rfl
  | @timed _ m n r hc harm =>
      refine ⟨s.io.close (.timer n), m, _, by rw [hc]; exact rfl, harm.shows.reported,
        fun read => hlock ?_⟩
      unfold St.goOn
      rw [hc]
      simp only [Io.stopTimer, Io.isTimeoutTimer, harm.record]
  | @locks _ m r hc hrep =>
      refine ⟨s.io, m, r, by rw [hc]; exact rfl, hrep, fun read => .inl ?_⟩
      unfold St.goOn
      rw [hc]

theorem mutexLoop {m : ℕ} {r : Ret} (s : St) (u : Tid) (hrep : w.Reported r) :
    (s.mutexLoop u m r).cont u = .user ∧ w.Reported ((s.mutexLoop u m r).ret u) ∨
      (s.mutexLoop u m r).cont u = .mutexLock m r ∧ Stands (s.mutexLoop u m r) u (.woken w) := by
  unfold St.mutexLoop
  cases s.lock m with
  | none =>
      refine .inl ⟨Function.update_self .., ?_⟩
      show w.Reported (Function.update s.ret u r u)
      rwa [Function.update_self]
  | some t => exact .inr ⟨Function.update_self .., .locks (Function.update_self ..) hrep⟩

/-- A step of the task itself: it returns the result, or it waits for the mutex with it. -/
theorem step (hp : s.q.phase = .running u) (e : Sched.step s a = some s')
    (h : Stands s u (.woken w)) :
    (s.returns a s' = some u ∧ w.Reported (s'.ret u)) ∨
      (∃ m r, s'.cont u = .mutexLock m r) ∧ Stands s' u (.woken w) := by
  obtain ⟨read, rfl, e'⟩ := h.act_eq hp e
  obtain ⟨io, m, r, -, hrep, hgo⟩ := h.goOn
  rcases hgo read with hgo | ⟨hgo, -⟩
  · obtain rfl := Option.some.inj (hgo.symm.trans e')
    rcases mutexLoop { s with io := io } u hrep with ⟨hc, hret⟩ | ⟨hc, hs⟩
    · refine .inl ⟨?_, hret⟩
      unfold St.returns
      rw [hp]
      exact if_pos hc
    · exact .inr ⟨⟨m, r, hc⟩, hs⟩
  · cases hgo.symm.trans e'

end Stands

/-! ### The invariant -/

/-- The calls stand as the history tells, and a task that has been woken is on its way. -/
structure TimedLog (c : ℕ) (s : St) (l : Tid → Option TimedCall) : Prop where
  stands : ∀ {u k}, l u = some k → Stands s u k
  mem : ∀ {u k}, l u = some k → (u ∈ s.condQueue c ↔ k = .waiting)
  ready : ∀ {u w m tfd}, l u = some (.woken w) → s.cont u = .condWaitTill m tfd →
    u ∈ s.runQueue ∨ s.q.phase = .running u

namespace TimedLog

variable {c : ℕ} {l : Tid → Option TimedCall} {s s' : St} {v : View Head Tid} {a : Act} {u : Tid}
  {k : TimedCall}

/-- The running task has been taken off the wait list. -/
theorem woken_of_running (h : TimedLog c s l) (hf : Formed s v) (hp : s.q.phase = .running u)
    (hk : l u = some k) : ∃ w, k = .woken w := by
  cases k with
  | waiting => exact absurd ((h.mem hk).mpr rfl) (not_mem_condQueue hf hp)
  | woken w => exact ⟨w, rfl⟩

/-- A task that is in a call does not begin another one. -/
theorem not_begins (h : TimedLog c s l) (e : Sched.step s a = some s') (hk : l u = some k) (m : ℕ) :
    s.begins c a ≠ some (u, m) := by
  intro hb
  obtain ⟨hp, ha⟩ := begins_eq_some hb
  obtain ⟨read, rfl, -⟩ := (h.stands hk).act_eq hp e
  rcases ha with ha | ⟨p, ha⟩ <;> cases ha

/-- An event of the timer of a call: the task is taken off the wait list, or it has been before and
the timer does not expire. -/
theorem shows_event (h : TimedLog c s l) (hf : Formed s v) {fd : Fd} {ev : Events}
    (hwatch : (s.cont u).Watches fd) (hok : inTime (s, l) (.event fd ev) = true)
    (e : Sched.step s (.event fd ev) = some s') (hk : l u = some k) :
    u ∉ s'.condQueue c ∧ (TimedCall.woken (s.wake (.event fd ev) u)).Shows ev.epollin ∧
      (k ≠ .waiting → k.Shows ev.epollin) := by
  obtain ⟨hp, e'⟩ := step_event e
  obtain ⟨⟨n, rfl⟩, htask, htimer⟩ := (h.stands hk).taskOf hwatch (eventWait_eq e').1
  refine ⟨fun hm => ?_, ?_, fun hwait => ?_⟩
  · refine ((mem_condQueue_step hf e).mp hm).1 ?_
    unfold St.puts
    rw [hp]
    exact htask
  · unfold St.wake
    rw [hp]
    cases hin : ev.epollin with
    | true => simp [hin, hwatch, TimedCall.Shows]
    | false => simp [hin, TimedCall.Shows]
  · have hsig : k.signalled = true → ev.epollin = false := by
      intro hs
      simpa [inTime, htask, hk, hs] using hok
    cases k with
    | waiting => exact absurd rfl hwait
    | woken w =>
        cases w with
        | signal | broadcast => exact hsig rfl
        | timer => exact absurd rfl htimer
        | other => trivial

/-- A call that neither begins nor returns in a step. -/
theorem stands_step (h : TimedLog c s l) (hf : Formed s v) (hw : Watched s)
    (hone : ∀ n t u, (s.cont t).Watches (.timer n) → (s.cont u).Watches (.timer n) → t = u)
    (hok : inTime (s, l) a = true) (e : Sched.step s a = some s') (hr : s.returns a s' ≠ some u)
    (hk : l u = some k) :
    (u ∈ s.condQueue c → u ∉ s'.condQueue c → Stands s' u (.woken (s.wake a u))) ∧
      ((u ∈ s.condQueue c → u ∈ s'.condQueue c) → Stands s' u k) := by
  have hs := h.stands hk
  by_cases hp : s.q.phase = .running u
  · obtain ⟨w, rfl⟩ := h.woken_of_running hf hp hk
    refine ⟨fun hm => absurd hm (not_mem_condQueue hf hp), fun _ => ?_⟩
    exact ((hs.step hp e).resolve_left fun hret => hr hret.1).2
  · by_cases hev : ∃ fd ev, a = .event fd ev ∧ (s.cont u).Watches fd
    · obtain ⟨fd, ev, rfl, hwatch⟩ := hev
      obtain ⟨-, e'⟩ := step_event e
      obtain ⟨hoff, hwake, hold⟩ := h.shows_event hf hwatch hok e hk
      refine ⟨fun _ _ => hs.event hwatch hwake e', fun hstay => ?_⟩
      exact hs.event hwatch (hold fun hwait => hoff (hstay ((h.mem hk).mpr hwait))) e'
    · have hs' := hs.stays hf hw hone hp (fun fd ev ha hwatch => hev ⟨fd, ev, ha, hwatch⟩) e
      refine ⟨fun hm _ => ?_, fun _ => hs'⟩
      obtain rfl := (h.mem hk).mp hm
      exact hs'.woken fun htimer => hev (wake_eq_timer htimer)

/-- A task that is on the run queue is still there after a step, or has control. -/
theorem ready_step (hf : Formed s v) (e : Sched.step s a = some s') (hm : u ∈ s.runQueue) :
    u ∈ s'.runQueue ∨ s'.q.phase = .running u := by
  by_cases hd : s.dispatches a = some u
  · refine .inr ?_
    unfold St.dispatches at hd
    obtain ⟨rfl, hpick⟩ := Option.ite_none_right_eq_some.mp hd
    obtain ⟨-, q, hq, rfl⟩ := step_dispatch e
    obtain ⟨t, v', ht, hrun, -, -⟩ := hf.dispatch hq
    rw [← Option.some.inj (ht.symm.trans hpick)]
    exact hrun
  · exact .inl (mem_runQueue_step hf e hd hm)

theorem start (c n : ℕ) (count : ℕ → ℕ) : TimedLog c (Sched.start n count) fun _ => none :=
  ⟨nofun, nofun, nofun⟩

theorem step (h : TimedLog c s l) (hf : Formed s v) (hw : Watched s) (hun : s.io.Unopened)
    (hone : ∀ n t u, (s.cont t).Watches (.timer n) → (s.cont u).Watches (.timer n) → t = u)
    (hok : inTime (s, l) a = true) (e : Sched.step s a = some s') :
    TimedLog c s' (TimedCall.record c l s a s') := by
  refine ⟨fun {u k} hk => ?_, fun {u k} hk => ?_, fun {u w m tfd} hk hc => ?_⟩
  · rcases timed_record_eq_some hk with ⟨hb, rfl⟩ | ⟨hr, ⟨⟨k₀, hk₀⟩, ⟨hm, hm'⟩, rfl⟩ | ⟨hk₀, hstay⟩⟩
    · obtain ⟨hp, m, p, rfl⟩ := beginsTill_eq_some hb
      unfold Sched.step at e
      rw [hp] at e
      exact .begins hun (Option.ite_none_right_eq_some.mp e).2
    · exact (h.stands_step hf hw hone hok e hr hk₀).1 hm hm'
    · exact (h.stands_step hf hw hone hok e hr hk₀).2 hstay
  · rcases timed_record_eq_some hk with ⟨hb, rfl⟩ | ⟨hr, ⟨⟨k₀, hk₀⟩, ⟨hm, hm'⟩, rfl⟩ | ⟨hk₀, hstay⟩⟩
    · obtain ⟨m, hb⟩ := begins_of_beginsTill hb
      exact iff_of_true (mem_condQueue_begins hf e hb) rfl
    · exact iff_of_false hm' (by simp)
    · rw [← h.mem hk₀]
      refine ⟨fun hm => ?_, hstay⟩
      exact ((mem_condQueue_step hf e).mp hm).2.resolve_right (not_exists.mpr (h.not_begins e hk₀))
  · rcases timed_record_eq_some hk with ⟨-, hk⟩ | ⟨hr, ⟨-, ⟨hm, hm'⟩, -⟩ | ⟨hk₀, -⟩⟩
    · cases hk
    · exact .inl (mem_runQueue_puts hf e (puts_of_removed hf e hm hm'))
    · have hoff : s.q.phase ≠ .running u := by
        intro hp
        obtain ⟨⟨m', r, hc'⟩, -⟩ :=
          ((h.stands hk₀).step hp e).resolve_left fun hret => hr hret.1
        cases hc.symm.trans hc'
      rw [(step_frame hf e).2.1 u hoff] at hc
      exact ready_step hf e ((h.ready hk₀ hc).resolve_right hoff)

end TimedLog

theorem reachable_of_timed {c : ℕ} {ok : St × (Tid → Option TimedCall) → Act → Prop}
    {x : St × (Tid → Option TimedCall)} (hx : (timed c).ReachVia ok x) : system.Reachable x.1 :=
  TS.ReachVia.fst (fun _ _ => True) (hx.mono fun _ _ _ => trivial)

theorem timedLog_of_reach {c : ℕ} {x : St × (Tid → Option TimedCall)}
    (hx : (timed c).ReachVia (fun x a => inTime x a = true) x) : TimedLog c x.1 x.2 := by
  refine hx.invariant_of (I := fun x => TimedLog c x.1 x.2) (J := fun x => system.Reachable x.1)
    (fun x hx => reachable_of_timed hx) ?_ ?_
  · rintro ⟨s, l⟩ ⟨⟨n, count, hs⟩, hl⟩
    obtain rfl : s = start n count := hs
    obtain rfl : l = _ := hl
    exact TimedLog.start c n count
  · intro x a x' hr h hok e
    obtain ⟨e, hl⟩ := TS.withHistory_step e
    rw [hl]
    obtain ⟨v, hf⟩ := formed_of_reach hr
    exact h.step hf (watched_of_reach hr) (unopened_of_reach hr) (timer_single hr) hok e

/-! ### The results -/

/-- What the calls of `co_cond_wait_till` on the condition `c` do, with their history. -/
structure ReportsCause (c : ℕ) (x : St × (Tid → Option TimedCall)) : Prop where
  /-- A call returns 0 after a signal or a broadcast, and 1 after the timer. -/
  returns : ∀ a x' u k, (timed c).step x a = some x' → x.2 u = some k → x'.2 u = none →
    ∃ w, k = .woken w ∧ w.Reported (x'.1.ret u) ∧ x'.1.cont u = .user
  /-- A task that has been taken off the wait list will be dispatched, unless it waits for the mutex. -/
  ready : ∀ u w m tfd, x.2 u = some (.woken w) → x.1.cont u = .condWaitTill m tfd →
    u ∈ x.1.runQueue ∨ x.1.q.phase = .running u
  /-- When it has control and the mutex is free, the call returns. -/
  goesOn : ∀ u k m read, x.1.q.phase = .running u → x.2 u = some k → (x.1.cont u).InWait m →
    x.1.lock m = none → ∃ x', (timed c).step x (.goOn read) = some x' ∧ x'.2 u = none

section results
variable {c : ℕ} {l : Tid → Option TimedCall} {s s' : St} {v : View Head Tid} {a : Act} {u : Tid}
  {k : TimedCall}

theorem Cont.InWait.unique {m m' : ℕ} {p : Cont} (h : p.InWait m) (h' : p.InWait m') : m = m' := by
  cases p with
  | condWait _ | condWaitTill _ _ | mutexLock _ _ => exact Eq.trans (Eq.symm h) h'
  | user | semWait _ | eventPoll _ _ | coPoll _ _ _ | broadcast _ | timeoutRead | timeoutList _ =>
      exact h.elim

theorem TimedLog.returns (h : TimedLog c s l) (hf : Formed s v) (e : Sched.step s a = some s')
    (hk : l u = some k) (hnone : TimedCall.record c l s a s' u = none) :
    ∃ w, k = .woken w ∧ w.Reported (s'.ret u) ∧ s'.cont u = .user := by
  have hret : s.returns a s' = some u := by
    by_contra hr
    unfold TimedCall.record at hnone
    rw [hk] at hnone
    split_ifs at hnone
    cases hnone
  obtain ⟨hp, -, hc⟩ := phase_of_returns hret
  obtain ⟨w, rfl⟩ := h.woken_of_running hf hp hk
  rcases (h.stands hk).step hp e with ⟨-, hrep⟩ | ⟨⟨m, r, hc'⟩, -⟩
  · exact ⟨w, rfl, hrep, hc⟩
  · cases hc.symm.trans hc'

theorem TimedLog.goesOn (h : TimedLog c s l) (hf : Formed s v) (hp : s.q.phase = .running u)
    (hk : l u = some k) {m : ℕ} (hm : (s.cont u).InWait m) (hfree : s.lock m = none) (read : Bool) :
    ∃ s', Sched.step s (.goOn read) = some s' ∧
      TimedCall.record c l s (.goOn read) s' u = none := by
  obtain ⟨w, rfl⟩ := h.woken_of_running hf hp hk
  obtain ⟨io, m', r, hm', -, hgo⟩ := (h.stands hk).goOn
  obtain rfl := hm.unique hm'
  rcases hgo read with hgo | ⟨-, hlock⟩
  · have hcont : ({ s with io := io }.mutexLoop u m r).cont u = .user := by
      unfold St.mutexLoop
      rw [show ({ s with io := io } : St).lock m = none from hfree]
      exact Function.update_self ..
    refine ⟨{ s with io := io }.mutexLoop u m r, ?_, timed_record_returns ?_ ?_⟩
    · unfold Sched.step
      rw [hp]
      exact hgo
    · unfold St.beginsTill
      rw [hp]
      exact fun hb => nomatch hb
    · unfold St.returns
      rw [hp]
      exact if_pos hcont
  · cases hfree.symm.trans hlock

end results

theorem timed_wait_cause {c : ℕ} {x : St × (Tid → Option TimedCall)}
    (hx : (timed c).ReachVia (fun x a => inTime x a = true) x) : ReportsCause c x := by
  have h := timedLog_of_reach hx
  obtain ⟨v, hf⟩ := formed_of_reach (reachable_of_timed hx)
  refine ⟨fun a x' u k e hk hnone => ?_, fun u w m tfd => h.ready, fun u k m read hp hk hm hfree => ?_⟩
  · obtain ⟨e, hl⟩ := TS.withHistory_step e
    rw [hl] at hnone
    exact h.returns hf e hk hnone
  · obtain ⟨s', e, hnone⟩ := h.goesOn hf hp hk hm hfree read
    exact ⟨_, TS.withHistory_of_step e, hnone⟩

/-- The tasks 2 and 3 call `co_cond_wait_till` on the condition 0, and the task 4 has control. -/
def timedWaiters : List Act :=
  [.dispatch, .timeoutRead .again true, .handlePrev, .dispatch, .user (.semWait 0), .handlePrev,
    .dispatch, .user (.lock 0), .user (.condWaitTill 0 0 ⟨true, true, true⟩), .handlePrev,
    .dispatch, .user (.lock 0), .user (.condWaitTill 0 0 ⟨true, true, true⟩), .handlePrev, .dispatch]

/-- The task 4 signals the condition and blocks. -/
def signalFirst : List Act :=
  [.user (.lock 0), .user (.signal 0), .user (.unlock 0), .user (.semWait 0), .handlePrev]

/-- The timer of the task 3 expires, and the tasks 2 and 3 are dispatched; the task 2 has returned 0, and
the task 3 is going to return 1. -/
theorem timed_wait_cause_both : ∃ x : St × (Tid → Option TimedCall), x.1.ret 2 = .int 0 ∧
    x.1.q.phase = .running 3 ∧ x.2 3 = some (.woken .timer) ∧ ReportsCause 0 x := by
  have hrun := TS.ReachVia.exists_of_run (M := timed 0) (s := (start 3 fun _ => 0, fun _ => none))
    (fun x a => inTime x a = true)
    (timedWaiters ++ signalFirst ++ [.event (.timer 1) { epollin := true }, .dispatch, .goOn true,
      .user (.unlock 0), .user .exit, .handlePrev, .dispatch])
    (fun x => decide (x.1.ret 2 = .int 0 ∧ x.1.q.phase = .running 3 ∧ x.2 3 = some (.woken .timer)))
    ⟨⟨3, _, rfl⟩, rfl⟩ (by decide +kernel) (by decide +kernel)
  obtain ⟨x, hx, hP⟩ := hrun
  obtain ⟨hret, hp, hk⟩ := of_decide_eq_true hP
  exact ⟨x, hret, hp, hk, timed_wait_cause hx⟩

/-- The timer of the task 2 expires after the signal: the call returns 1, the signal is lost, and the
task 3 waits on. -/
theorem signal_reported_as_timeout :
    ¬∀ (c : ℕ) (x : St × (Tid → Option TimedCall)), (timed c).Reachable x → ReportsCause c x := by
  intro hall
  have hrun := TS.Reachable.exists_of_run (M := timed 0) (s := (start 3 fun _ => 0, fun _ => none))
    (timedWaiters ++ signalFirst ++ [.event (.timer 0) { epollin := true }, .dispatch])
    (fun x => decide (x.2 2 = some (.woken .signal) ∧ x.2 3 = some .waiting ∧
      ((timed 0).step x (.goOn true)).any fun x' =>
        decide (x'.2 2 = none ∧ x'.1.ret 2 = .int 1)))
    ⟨⟨3, _, rfl⟩, rfl⟩ (by decide +kernel)
  obtain ⟨x, hx, hP⟩ := hrun
  obtain ⟨hk, -, hany⟩ := of_decide_eq_true hP
  obtain ⟨x', e, hx'⟩ := (Option.any_eq_true _ _).mp hany
  obtain ⟨hnone, hret⟩ := of_decide_eq_true hx'
  obtain ⟨w, hw, hrep, -⟩ := (hall 0 x hx).returns _ x' 2 _ e hk hnone
  cases hw
  cases hret.symm.trans hrep

end Libcask.Sched
