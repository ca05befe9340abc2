import Libcask.CInt
import Libcask.Logged

/-! # Durations of timers

The way of a duration from `sleep`, `co_cond_wait_till` and `co_poll` through `timer.c` to
`timerfd_settime`.  On this way it is an `unsigned int` number of seconds, an `unsigned long`, a `time_t`
or an `int`, and in the end a number of seconds and a number of nanoseconds.

The functions here are the parts of the source's functions that have to do with the timer, and their log
has the calls of `timerfd_settime`; what happens to the descriptors and the tasks is in
`Libcask.InnerFd` and `Libcask.Sched`.  `timed_calls_arm_iff` says which durations arrive.  `sleep`
multiplies in the type `unsigned int`, so that a sleep of 50 days or more is cut short, and
`co_cond_wait_till` with a time of 0 does not arm its timer at all. -/

namespace Libcask.Timer

open Logged

variable {α : Type}

/-- `struct timespec`. -/
structure Timespec where
  sec : ℤ
  nsec : ℤ
deriving DecidableEq, Repr

/-- `struct itimerspec`. -/
structure Itimerspec where
  value : Timespec
  interval : Timespec
deriving DecidableEq, Repr

/-- A call of `timerfd_settime`. -/
structure Settime where
  timerfd : ℤ
  ltv : Itimerspec
deriving DecidableEq, Repr

/-- The answers of the system: the results of `timerfd_create`, of `timerfd_settime` and of the `read`
of the timer, whether the timer has fired when the task is resumed, and the result of the `sleep` that
is not hooked. -/
structure Answers where
  create : ℤ
  settime : ℤ
  read : ℤ
  fired : Bool
  sleep : ℕ
deriving DecidableEq, Repr

/-! ### `timer.c` -/

/-- The call that `__set_timer` makes. -/
def settimeCall (timerfd ms : ℤ) : Settime where
  timerfd := timerfd
  ltv := { value := ⟨ms.tdiv 1000, ms.tmod 1000 * 1000000⟩, interval := ⟨0, 0⟩ }

/-- `__set_timer`. -/
def setTimerValue (k : Answers) (timerfd ms : ℤ) : Logged Settime ℤ :=
  if timerfd ≤ 0 then pure (-1)
  else do
    tell (settimeCall timerfd ms)
    pure k.settime

def openTimer (k : Answers) : ℤ := if k.create ≤ 0 then -1 else k.create

def setTimer (k : Answers) (timerfd ms : ℤ) : Logged Settime ℤ := do
  let res ← setTimerValue k timerfd ms
  pure (if res < 0 then res else 0)

def waitTimer (k : Answers) (timerfd ms : ℤ) : Logged Settime ℤ := do
  let res ← setTimer k timerfd ms
  pure (if res ≠ 0 then res else k.read)

def isTimeoutTimer (k : Answers) (timerfd : ℤ) : Bool := if timerfd ≤ 0 then false else k.fired

/-! ### The timed calls -/

/-- `co_sleep`; no value is a `PANIC`. -/
def coSleep (k : Answers) (mseconds : ℕ) : Logged Settime (Option ℤ) :=
  if mseconds = 0 then pure (some 0)
  else if openTimer k < 0 then pure none
  else do
    let res ← waitTimer k (openTimer k) (toInt64 mseconds)
    pure (some (if res < 0 then -1 else 0))

/-- The product is one of the type `unsigned int`. -/
def sleep (k : Answers) (hooked : Bool) (seconds : ℕ) : Logged Settime (Option ℕ) :=
  if hooked then do
    let res ← coSleep k (toUInt32 (seconds * 1000))
    pure (res.map toUInt32)
  else pure (some k.sleep)

/-- `co_cond_wait_till`, which looks neither at the result of `open_timer` nor at that of
`set_timer`; no value is a `PANIC`, as the mutex is not locked. -/
def coCondWaitTill (k : Answers) (locked : Bool) (ms : ℤ) : Logged Settime (Option Bool) :=
  if locked then do
    let _ ← setTimer k (openTimer k) ms
    pure (some (isTimeoutTimer k (openTimer k)))
  else pure none

/-- `co_poll`, up to the variable `timeout_event`. -/
def coPoll (k : Answers) (timeout : ℤ) : Logged Settime Bool :=
  if timeout ≠ 0 ∧ timeout ≠ -1 then do
    let _ ← setTimer k (openTimer k) timeout
    pure (isTimeoutTimer k (openTimer k))
  else pure false

/-! ### What is armed -/

/-- The value stands for `ms` milliseconds, in the form that `timerfd_settime` asks for, and does not
disarm the timer. -/
def Settime.Asks (c : Settime) (ms : ℤ) : Prop :=
  c.ltv.value.sec * 1000 + c.ltv.value.nsec / 10 ^ 6 = ms ∧
    0 ≤ c.ltv.value.nsec ∧ c.ltv.value.nsec < 10 ^ 9 ∧ c.ltv.value ≠ ⟨0, 0⟩

instance (c : Settime) (ms : ℤ) : Decidable (c.Asks ms) :=
  inferInstanceAs (Decidable (_ ∧ _ ∧ _ ∧ _))

/-- `timerfd_settime` is called once, with `ms` milliseconds. -/
def Arms (x : Logged Settime α) (ms : ℤ) : Prop := ∃ c, x.log = [c] ∧ c.Asks ms

theorem arms_of_log {x : Logged Settime α} {c : Settime} (h : x.log = [c]) (ms : ℤ) :
    Arms x ms ↔ c.Asks ms := by
  unfold Arms
  rw [h]
  constructor
  · rintro ⟨c', hc, ha⟩
    rwa [List.singleton_inj.mp hc]
  · exact fun ha => ⟨c, rfl, ha⟩

theorem not_arms_of_log {x : Logged Settime α} (h : x.log = []) (ms : ℤ) : ¬ Arms x ms := by
  rintro ⟨c, hc, -⟩
  rw [h] at hc
  exact List.cons_ne_nil _ _ hc.symm

/-- A time that is not negative is split into seconds and nanoseconds without loss; only 0 disarms the
timer. -/
theorem settimeCall_asks_iff {ms : ℤ} (h : 0 ≤ ms) (fd d : ℤ) :
    (settimeCall fd ms).Asks d ↔ d = ms ∧ ms ≠ 0 := by
  have hdiv : ms.tdiv 1000 = ms / 1000 := Int.tdiv_eq_ediv_of_nonneg h
  have hmod : ms.tmod 1000 = ms % 1000 := Int.tmod_eq_emod_of_nonneg h
  simp only [Settime.Asks, settimeCall, hdiv, hmod, ne_eq, Timespec.mk.injEq]
  omega

variable {k : Answers}

theorem openTimer_of_pos (hk : 0 < k.create) : openTimer k = k.create := if_neg (not_le.mpr hk)

theorem setTimer_log (hk : 0 < k.create) (ms : ℤ) :
    (setTimer k (openTimer k) ms).log = [settimeCall k.create ms] := by
  simp [setTimer, setTimerValue, openTimer_of_pos hk, not_le.mpr hk]

theorem coSleep_log (hk : 0 < k.create) (n : ℕ) :
    (coSleep k n).log = if n = 0 then [] else [settimeCall k.create (toInt64 n)] := by
  have hopen : ¬ openTimer k < 0 := by
    rw [openTimer_of_pos hk]
    exact hk.not_gt
  unfold coSleep
  split_ifs with hn
  · rfl
  · simp only [bind_log, pure_log, List.append_nil, waitTimer, setTimer_log hk]

theorem sleep_log (k : Answers) (s : ℕ) :
    (sleep k true s).log = (coSleep k (1000 * s % 2 ^ 32)).log := by
  have hprod : toUInt32 ((s : ℤ) * 1000) = 1000 * s % 2 ^ 32 := by
    unfold toUInt32
    omega
  simp only [sleep, if_true, bind_log, pure_log, List.append_nil, hprod]

/-- A sleep arms what is left of its number of milliseconds in an `unsigned int`. -/
theorem sleep_arms_iff (hk : 0 < k.create) (s : ℕ) (d : ℤ) :
    Arms (sleep k true s) d ↔ d = (1000 * s % 2 ^ 32 : ℕ) ∧ 1000 * s % 2 ^ 32 ≠ 0 := by
  have hlog := (sleep_log k s).trans (coSleep_log hk _)
  split_ifs at hlog with h0
  · exact iff_of_false (not_arms_of_log hlog d) fun h => h.2 h0
  · have hlt : 1000 * s % 2 ^ 32 < 2 ^ 63 := by omega
    rw [arms_of_log hlog, toInt64_natCast hlt, settimeCall_asks_iff (Int.natCast_nonneg _),
      Int.natCast_ne_zero]

theorem coCondWaitTill_log (hk : 0 < k.create) (ms : ℤ) :
    (coCondWaitTill k true ms).log = [settimeCall k.create ms] := by
  simp [coCondWaitTill, setTimer_log hk]

theorem coPoll_log (hk : 0 < k.create) {timeout : ℤ} (h : 1 ≤ timeout) :
    (coPoll k timeout).log = [settimeCall k.create timeout] := by
  have huse : timeout ≠ 0 ∧ timeout ≠ -1 := by omega
  simp [coPoll, if_pos huse, setTimer_log hk]

/-- **Which durations are armed.**  Let a timer be opened.  A hooked `sleep` arms the number of seconds
it is given exactly if the number of milliseconds is below `2 ^ 32`; `co_cond_wait_till` arms its time
exactly if this is not 0; `co_poll` arms every timeout from 1 on. -/
theorem timed_calls_arm_iff (hk : 0 < k.create) :
    (∀ seconds : ℕ, 1 ≤ seconds →
      (Arms (sleep k true seconds) (1000 * seconds) ↔ 1000 * seconds < 2 ^ 32)) ∧
    (∀ ms : ℤ, 0 ≤ ms → (Arms (coCondWaitTill k true ms) ms ↔ ms ≠ 0)) ∧
    (∀ timeout : ℤ, 1 ≤ timeout → Arms (coPoll k timeout) timeout) := by
  refine ⟨fun s hs => ?_, fun ms hms => ?_, fun timeout ht => ?_⟩
  · rw [sleep_arms_iff hk]
    omega
  · rw [arms_of_log (coCondWaitTill_log hk ms), settimeCall_asks_iff hms]
    exact and_iff_right rfl
  · rw [arms_of_log (coPoll_log hk ht), settimeCall_asks_iff (by omega)]
    exact ⟨rfl, by omega⟩

/-- A sleep of 4294967 seconds, the longest that is not cut short, a timed wait of one millisecond and a
poll of one and a half seconds. -/
theorem timed_calls_arm_longest_sleep :
    let k : Answers := { create := 5, settime := 0, read := 8, fired := true, sleep := 0 }
    Arms (sleep k true 4294967) 4294967000 ∧ Arms (coCondWaitTill k true 1) 1 ∧
      Arms (coPoll k 1500) 1500 := by
  intro k
  have h := timed_calls_arm_iff (k := k) (by decide)
  exact ⟨(h.1 4294967 (by decide)).mpr (by decide), (h.2.1 1 (by decide)).mpr (by decide),
    h.2.2 1500 (by decide)⟩

/-- One second longer, and `sleep` arms 704 milliseconds; `2 ^ 29` seconds are no time at all.  A timed
wait of 0 milliseconds passes the value that disarms the timer. -/
theorem cut_short :
    let k : Answers := { create := 5, settime := 0, read := 8, fired := true, sleep := 0 }
    sleep k true 4294968 = ⟨some 0, [⟨5, ⟨⟨0, 704000000⟩, ⟨0, 0⟩⟩⟩]⟩ ∧
      ¬ Arms (sleep k true 4294968) 4294968000 ∧
      sleep k true (2 ^ 29) = ⟨some 0, []⟩ ∧ ¬ Arms (sleep k true (2 ^ 29)) (1000 * 2 ^ 29) ∧
      coCondWaitTill k true 0 = ⟨some true, [⟨5, ⟨⟨0, 0⟩, ⟨0, 0⟩⟩⟩]⟩ ∧
      ¬ Arms (coCondWaitTill k true 0) 0 := by
  intro k
  have hshort : sleep k true 4294968 = ⟨some 0, [⟨5, ⟨⟨0, 704000000⟩, ⟨0, 0⟩⟩⟩]⟩ := by decide +kernel
  have hnone : sleep k true (2 ^ 29) = ⟨some 0, []⟩ := by decide +kernel
  have hzero : coCondWaitTill k true 0 = ⟨some true, [⟨5, ⟨⟨0, 0⟩, ⟨0, 0⟩⟩⟩]⟩ := by decide +kernel
  refine ⟨hshort, ?_, hnone, ?_, hzero, ?_⟩
  · rw [hshort, arms_of_log rfl]
    decide
  · rw [hnone]
    exact not_arms_of_log rfl _
  · rw [hzero, arms_of_log rfl]
    decide

end Libcask.Timer
