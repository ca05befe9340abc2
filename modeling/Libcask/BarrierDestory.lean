import Libcask.Barrier

/-! # `co_bar_destory`

`co_bar_destory` locks the mutex, sets the counter to 0, resumes every waiter and unlocks.  The tasks of
`Barrier.lean` may call it too, any number of times.

As far as the calls of `co_bar_wait` are concerned, a barrier that has been destroyed is one for as many
calls as have decremented its counter.  So `Inv` holds of every state for some number of calls
(`inv_destory`), and what it says of a barrier that has been passed holds of one that has been destroyed:
nobody stays inside (`destory_releases`). -/

namespace Libcask.Barrier

/-- `co_bar_destory`, up to the loop of `co_cond_broadcast`.  A task in its own code finds the mutex free
(`destory_releases`); the history counts the call like one of `co_bar_wait`. -/
def St.coBarDestory (s : St) (me : Tid) : Option St :=
  match s.lock with
  | some _ => none
  | none =>
      some ({ s.setLock (some me) with count := 0, entered := s.entered + 1 }.goto me
        (.broadcast (listNext s.links (.head .condWait))))

/-- An action of `Barrier.lean`, or the running task calls `co_bar_destory`. -/
inductive DestoryAct where
  | act (a : Act)
  | destory
deriving DecidableEq, Repr

def destoryStep (s : St) : DestoryAct → Option St
  | .act a => step s a
  | .destory =>
      match s.current with
      | none => none
      | some me => if s.ctl me = .idle then s.coBarDestory me else none

/-- Tasks of one scheduler thread that use one barrier, and destroy it. -/
def destroying (cnt : ℕ) : TS St DestoryAct where
  init s := ∃ n, s = start cnt n
  step := destoryStep

variable {cnt : ℕ} {s s' : St} {v : View Head Tid} {me : Tid}

/-- The counter is 0 from now on, as if no more calls had been needed. -/
theorem Counts.destory {count : ℤ} {entered subtracted returned : ℕ}
    (h : Counts cnt count entered subtracted returned) :
    Counts subtracted 0 (entered + 1) subtracted returned where
  nonneg := le_rfl
  total := by simp
  le_entered := Nat.le_succ_of_le h.le_entered
  blocking hpos := absurd hpos (lt_irrefl 0)
  zero_of_returned _ := rfl

theorem InCode.coBarDestory (h : InCode cnt s v me) :
    ∃ s', s.coBarDestory me = some s' ∧ s'.count = 0 ∧ Releases s.subtracted s' v me := by
  let s₁ : St := { s.setLock (some me) with count := 0, entered := s.entered + 1 }
  have hr : Runs s.subtracted s₁ v me :=
    ⟨⟨h.rings, h.known, h.live, h.mutex, h.cond⟩, h.counts.destory, h.current, h.free, h.created, h.rest⟩
  refine ⟨s₁.goto me (.broadcast (listNext s.links (.head .condWait))), ?_, rfl, ?_⟩
  · unfold St.coBarDestory
    rw [h.lock]
  · have hr' := hr.goto (.broadcast (listNext s.links (.head .condWait)))
    refine { hr' with lock := rfl, zero := rfl, ls := ?_ }
    rw [s₁.goto_ctl_self]
    exact congrArg Ctl.broadcast (h.rings.next_head_cursor .condWait)

theorem Inv.counts (h : Inv cnt s) : Counts cnt s.count s.entered s.subtracted s.returned := by
  cases h with
  | rest h => exact h.counts
  | inCode h => exact h.counts
  | releases h => exact h.counts

/-- Who runs in its own code. -/
theorem Inv.inCode_of_idle (h : Inv cnt s) (hc : s.current = some me) (hi : s.ctl me = .idle) :
    ∃ v, InCode cnt s v me := by
  cases h with
  | rest h => cases h.current.symm.trans hc
  | @inCode v u h =>
      obtain rfl : u = me := Option.some.inj (h.current.symm.trans hc)
      exact ⟨v, h⟩
  | @releases v u h =>
      obtain rfl : u = me := Option.some.inj (h.current.symm.trans hc)
      cases h.ls.symm.trans hi

theorem inv_destoryStep (h : Inv cnt s) (hcnt : cnt < 2 ^ 31) {a : DestoryAct}
    (hs : destoryStep s a = some s') : ∃ n < 2 ^ 31, Inv n s' := by
  cases a with
  | act a => exact ⟨cnt, hcnt, inv_step h hcnt hs⟩
  | destory =>
      simp only [destoryStep] at hs
      split at hs
      · cases hs
      · next me hc =>
          by_cases hi : s.ctl me = .idle
          · rw [if_pos hi] at hs
            obtain ⟨v, hin⟩ := h.inCode_of_idle hc hi
            obtain ⟨s₁, hs₁, -, hr⟩ := hin.coBarDestory
            obtain rfl := Option.some.inj (hs₁.symm.trans hs)
            refine ⟨s.subtracted, ?_, .releases hr⟩
            have htotal := h.counts.total
            have hnonneg := h.counts.nonneg
            omega
          · rw [if_neg hi] at hs
            cases hs

theorem inv_destory (hcnt : cnt < 2 ^ 31) (hs : (destroying cnt).Reachable s) :
    ∃ n < 2 ^ 31, Inv n s := by
  refine hs.invariant (I := fun s => ∃ n < 2 ^ 31, Inv n s) ?_ fun _ _ _ ⟨n, hn, h⟩ _ hstep =>
    inv_destoryStep h hn hstep
  rintro s ⟨n, rfl⟩
  obtain ⟨v, hv⟩ := rest_start cnt n hcnt
  exact ⟨cnt, hcnt, .rest hv⟩

/-! ### The counter stays 0 -/

theorem Runs.count_barLoop (h : Runs cnt s v me) (hlock : s.lock = some me) (h0 : s.count = 0)
    (hs : s.barLoop me = .ok s') : s'.count = 0 := by
  have hpos : ¬s.count > 0 := by rw [h0]; exact lt_irrefl 0
  rw [St.barLoop, if_neg hpos, St.barEnd, coMutexUnlock_eq h.rings h.mutex hlock] at hs
  obtain rfl := Except.ok.inj hs
  exact h0

theorem Rest.count_dispatch (h : Rest cnt s v) {t : Tid} (ht : rrPicknext .runList s.links = some t)
    (h0 : s.count = 0) (hs : Barrier.dispatch s t = .ok s') : s'.count = 0 := by
  have hr := h.dequeue ht
  obtain ⟨hmutex, hbroadcast, -⟩ := h.rest t
  unfold Barrier.dispatch at hs
  cases hc : s.ctl t with
  | idle | elsewhere =>
      simp only [St.setLinks, hc] at hs
      obtain rfl := Except.ok.inj hs
      exact h0
  | cond =>
      simp only [St.setLinks, hc, St.coMutexLock, St.lockLoop, h.lock] at hs
      exact (hr.setLock (some t)).count_barLoop rfl h0 hs
  | mutex p => exact absurd hc (hmutex p)
  | broadcast ls => exact absurd hc (hbroadcast ls)
  | finished =>
      simp only [St.setLinks, hc] at hs
      cases hs

theorem count_userAct (h0 : s.count = 0) {a : Act} (hs : userAct s me a = .ok s') : s'.count = 0 := by
  cases a with
  | barWait =>
      have hpass : s.coBarWait me = .ok (({ s with entered := s.entered + 1 } : St).callReturn me) :=
        if_pos h0
      obtain rfl := Except.ok.inj (hpass.symm.trans hs)
      exact h0
  | yield | block | exit | create =>
      obtain rfl := Except.ok.inj hs
      exact h0
  | dispatch | goOn | wake => cases hs

theorem Releases.count_broadcastLoop (h : Releases cnt s v me) {ls : Node Head Tid}
    (hs : s.broadcastLoop me ls = .ok s') : s'.count = 0 := by
  unfold St.broadcastLoop at hs
  split at hs
  · rw [St.barEnd, coMutexUnlock_eq h.rings h.mutex h.lock] at hs
    obtain rfl := Except.ok.inj hs
    exact h.zero
  · split at hs
    · cases hs
    · obtain rfl := Except.ok.inj hs
      exact h.zero

theorem Inv.count_step (h : Inv cnt s) (h0 : s.count = 0) {a : Act} (hs : step s a = some s') :
    s'.count = 0 := by
  cases h with
  | rest h =>
      cases a with
      | dispatch =>
          simp only [step, h.current] at hs
          obtain ⟨t, ht, hs⟩ := Option.bind_eq_some_iff.mp hs
          exact h.count_dispatch ht h0 (ok_of_toOption hs)
      | wake t =>
          simp only [step, h.current] at hs
          split at hs
          · obtain rfl := Option.some.inj hs
            exact h0
          · cases hs
      | barWait | goOn | yield | block | create | exit => simp [step, h.current] at hs
  | @inCode v me h =>
      have hs : (userAct s me a).toOption = some s' := by
        simpa only [step, h.current, h.idle] using hs
      exact count_userAct h0 (ok_of_toOption hs)
  | @releases v me h =>
      cases a with
      | goOn =>
          simp only [step, h.current, h.ls] at hs
          exact h.count_broadcastLoop (ok_of_toOption hs)
      | dispatch | wake | barWait | yield | block | create | exit => simp [step, h.current, h.ls] at hs

theorem Inv.count_destoryStep (h : Inv cnt s) (h0 : s.count = 0) {a : DestoryAct}
    (hs : destoryStep s a = some s') : s'.count = 0 := by
  cases a with
  | act a => exact h.count_step h0 hs
  | destory =>
      simp only [destoryStep] at hs
      split at hs
      · cases hs
      · split at hs
        · unfold St.coBarDestory at hs
          split at hs
          · cases hs
          · obtain rfl := Option.some.inj hs
            rfl
        · cases hs

/-- With the counter at 0 nobody waits, and nobody is left inside when the run queue is empty. -/
theorem Inv.none_inside (h : Inv cnt s) (h0 : s.count = 0) (hc : s.current = none)
    (hq : rrPicknext .runList s.links = none) (t : Tid) : (s.ctl t).inside = false := by
  cases h with
  | rest h =>
      have hle : cnt ≤ s.entered := by
        have htotal := h.counts.total
        have hentered := h.counts.le_entered
        omega
      exact h.none_inside hq hle t
  | inCode h => cases h.current.symm.trans hc
  | releases h => cases h.current.symm.trans hc

/-- What `co_bar_destory` is for.  A task in its own code can always call it, without waiting for the mutex;
from then on, whatever the tasks do, the counter is 0, and whenever the run queue is empty nobody is inside
`co_bar_wait`. -/
theorem destory_releases {cnt : ℕ} (hcnt : cnt < 2 ^ 31) {s : St} (hs : (destroying cnt).Reachable s)
    {me : Tid} (hc : s.current = some me) (hi : s.ctl me = .idle) :
    ∃ s₁, destoryStep s .destory = some s₁ ∧ ∀ as s₂, (destroying cnt).run s₁ as = some s₂ →
      s₂.count = 0 ∧ (s₂.current = none → rrPicknext .runList s₂.links = none →
        ∀ t, (s₂.ctl t).inside = false) := by
  obtain ⟨n, hn, h⟩ := inv_destory hcnt hs
  obtain ⟨v, hin⟩ := h.inCode_of_idle hc hi
  obtain ⟨s₁, hs₁, hz, -⟩ := hin.coBarDestory
  have hstep : (destroying cnt).step s .destory = some s₁ := by
    show destoryStep s .destory = some s₁
    simp only [destoryStep, hc, hi, if_true]
    exact hs₁
  refine ⟨s₁, hstep, fun as s₂ hrun => ?_⟩
  have hreach : (destroying cnt).Reachable s₁ := hs.step trivial hstep
  -- the counter is 0 along the run, and `Inv` holds at its end
  have hend : s₂.count = 0 ∧ (destroying cnt).Reachable s₂ := by
    clear hstep hs₁ hin hc hi h hs
    induction as generalizing s₁ with
    | nil =>
        obtain rfl : s₁ = s₂ := Option.some.inj hrun
        exact ⟨hz, hreach⟩
    | cons a as ih =>
        obtain ⟨s₃, hs₃, hrun⟩ := Option.bind_eq_some_iff.mp hrun
        obtain ⟨m, -, hm⟩ := inv_destory hcnt hreach
        exact ih s₃ (hm.count_destoryStep hz hs₃) hrun (hreach.step trivial hs₃)
  obtain ⟨m, -, hm⟩ := inv_destory hcnt hend.2
  exact ⟨hend.1, fun hc hq t => hm.none_inside hend.1 hc hq t⟩

/-- Two tasks wait at a barrier for three; a third one destroys it, and they leave. -/
theorem destory_releases_two : ∃ s s₁ s₂ : St, destoryStep s .destory = some s₁ ∧
    s.ctl 0 = .cond ∧ s.ctl 1 = .cond ∧ (destroying 3).run s₁ [.act .goOn, .act .goOn, .act .goOn, .act .exit,
      .act .dispatch, .act .exit, .act .dispatch, .act .exit] = some s₂ ∧
    ∀ t, (s₂.ctl t).inside = false := by
  have hrun := TS.Reachable.exists_of_run (M := destroying 3) (s := start 3 3)
    [.act .dispatch, .act .barWait, .act .dispatch, .act .barWait, .act .dispatch]
    (fun s => decide (s.current = some 2 ∧ s.ctl 2 = .idle ∧ s.ctl 0 = .cond ∧ s.ctl 1 = .cond ∧
      ((destoryStep s .destory).bind fun s₁ => (destroying 3).run s₁ [.act .goOn, .act .goOn, .act .goOn,
        .act .exit, .act .dispatch, .act .exit, .act .dispatch, .act .exit]).any fun s₂ =>
          decide (s₂.current = none ∧ rrPicknext .runList s₂.links = none)))
    ⟨3, rfl⟩ (by decide +kernel)
  obtain ⟨s, hs, hP⟩ := hrun
  obtain ⟨hc, hi, h₀, h₁, hany⟩ := of_decide_eq_true hP
  obtain ⟨s₁, hs₁, hall⟩ := destory_releases (by decide) hs hc hi
  rw [hs₁] at hany
  obtain ⟨s₂, hs₂, hq⟩ := (Option.any_eq_true _ _).mp hany
  obtain ⟨hnone, hempty⟩ := of_decide_eq_true hq
  exact ⟨s, s₁, s₂, hs₁, h₀, h₁, hs₂, (hall _ s₂ hs₂).2 hnone hempty⟩

end Libcask.Barrier
