import Libcask.Threads

/-! # The life of a task among several threads

Whatever the order in which the accesses of the threads fall, one access changes what the threads share about one
task.  So the system of `Threads` is followed task by task: `Task` is what the threads share about a task and what
each of them is doing with it, `Task.Step` says how one access changes it (the table of the life of a task), and
`Task.Good` is kept by every entry of the table (`Task.Good.step`). -/

namespace Libcask.Threads

/-- What the threads share about one task, and what they are doing with it. -/
@[ext] structure Task (R : Type) where
  alive : Bool
  status : Status
  home : Option R
  /-- It waits for descriptors, or has not gone on since. -/
  polls : Prop
  /-- One of them is in an epoll set or on a wheel. -/
  events : Prop
  hired : Bool
  /-- The lists its `run_link` is on. -/
  lists : Set (Head R)
  hold : R → Option Hold
  aid : R → Option Aid

namespace Task

variable {R : Type}

/-- The task is on a list, has a worker, or is being put on its run queue by a thread that is not its own. -/
def Engaged (k : Task R) : Prop := k.lists.Nonempty ∨ k.hired = true ∨ ∃ r, k.aid r ≠ none

/-- The task will be put on its run queue, or is there. -/
def Waits (k : Task R) : Prop := k.events ∨ k.Engaged

/-- Only the descriptors of the task refer to it. -/
structure Alone (k : Task R) : Prop where
  free : k.lists = ∅
  unhired : k.hired = false
  unaided : ∀ r, k.aid r = none

/-- Nothing but its own thread refers to the task. -/
structure Quiet (k : Task R) : Prop extends k.Alone where
  unpolled : ¬k.polls
  silent : ¬k.events

/-- The worker of the task has not made its last access to the task's stack. -/
def Awaits (k : Task R) : Prop := k.hired = true ∨ ∃ r, k.aid r = some .working

/-- The task belongs to the thread `r`: no other run queue has it; one thread at most aids it, which has taken it
off its wait list; and a task that has a worker waits for nothing else. -/
structure Owned (k : Task R) (r : R) : Prop where
  alive : k.alive = true
  home : k.home = some r
  queued : ∀ r', .run r' ∈ k.lists → r' = r
  helper : ∀ r₁ r₂, k.aid r₁ ≠ none → k.aid r₂ ≠ none → r₁ = r₂
  unhelped : k.hired = true → ∀ r', k.aid r' = none
  unlinked : ∀ r', k.aid r' ≠ none → ∀ w, .wait w ∉ k.lists
  unlisted : ∀ r', k.aid r' = some .linking → k.lists = ∅
  awaits : k.Awaits → k.lists = ∅ ∧ ¬k.events

/-- What holds of a task that its thread has in hand.  Nobody else refers to a task that runs its own code; a
task that is on its way to sleep waits already; a task whose status is `KILLED` can be freed; a task that has a
worker is not put on the run queue by its scheduler. -/
def Fits (k : Task R) : Hold → Prop
  | .picked | .requeue => ¬k.Awaits
  | .dispatch => k.Alone
  | .runs => k.Quiet ∧ k.status ≠ .blocked
  | .leaving => k.Quiet ∧ k.status = .killed
  | .destroy => k.Quiet
  | .linked => k.Waits
  | .blocked => k.Waits ∧ k.status ≠ .killed ∧ (k.status = .runnable → ¬k.Awaits)
  | .handle => (k.status = .blocked → k.Waits) ∧ (k.status = .killed → k.Quiet) ∧
      (k.status = .runnable → ¬k.Awaits)
  | .relink => ¬k.Awaits ∧ k.lists = ∅ ∧ ∀ r, k.aid r ≠ some .linking

theorem Alone.not_engaged {k : Task R} (ha : k.Alone) : ¬k.Engaged := by
  rintro (⟨h, hh⟩ | hh | ⟨r, hr⟩)
  · rw [ha.free] at hh
    exact hh
  · cases ha.unhired.symm.trans hh
  · exact hr (ha.unaided r)

theorem Quiet.not_waits {k : Task R} (hq : k.Quiet) : ¬k.Waits := by
  rintro (he | he)
  · exact hq.silent he
  · exact hq.not_engaged he

theorem Awaits.engaged {k : Task R} (h : k.Awaits) : k.Engaged := by
  rcases h with h | ⟨r, hr⟩
  · exact .inr (.inl h)
  · exact .inr (.inr ⟨r, hr ▸ nofun⟩)

theorem Alone.not_awaits {k : Task R} (ha : k.Alone) : ¬k.Awaits := fun h => ha.not_engaged h.engaged

theorem Owned.not_awaits_of_waking {k : Task R} {r r' : R} (ho : k.Owned r) (h : k.aid r' = some .waking) :
    ¬k.Awaits := by
  rintro (hh | ⟨r₁, h₁⟩)
  · cases (ho.unhelped hh r').symm.trans h
  · obtain rfl := ho.helper r₁ r' (h₁ ▸ nofun) (h ▸ nofun)
    cases h₁.symm.trans h

theorem Owned.unhired {k : Task R} {r r' : R} (ho : k.Owned r) (h : k.aid r' ≠ none) : k.hired = false :=
  Bool.not_eq_true _ ▸ fun hh => h (ho.unhelped hh r')

theorem unhired_of_not_awaits {k : Task R} (h : ¬k.Awaits) : k.hired = false :=
  Bool.not_eq_true _ ▸ fun hh => h (.inl hh)

/-- A task that others refer to goes on being handled as before when one of them changes what is shared about
it, and it still waits. -/
theorem Fits.touched {k k' : Task R} {p : Hold} (hp : k.Fits p) (he : k.Engaged) (hw : k'.Waits)
    (hs : k'.status = k.status ∨ k'.status = .runnable ∧ ¬k.Awaits) (ha : k'.Awaits → k.Awaits)
    (hr : p = .relink → k'.Fits .relink) : k'.Fits p := by
  have hna : ¬k.Alone := fun h => h.not_engaged he
  have hkilled : k'.status = .killed → k.status = .killed := by
    intro hk
    rcases hs with hs | hs
    · exact hs.symm.trans hk
    · cases hs.1.symm.trans hk
  have hrunnable : (k.status = .runnable → ¬k.Awaits) → k'.status = .runnable → ¬k'.Awaits := by
    intro h hk ha'
    rcases hs with hs | hs
    · exact h (hs.symm.trans hk) (ha ha')
    · exact hs.2 (ha ha')
  cases p with
  | picked => exact fun h => hp (ha h)
  | requeue => exact fun h => hp (ha h)
  | dispatch => exact absurd hp hna
  | runs => exact absurd hp.1.toAlone hna
  | leaving => exact absurd hp.1.toAlone hna
  | destroy => exact absurd hp.toAlone hna
  | linked => exact hw
  | blocked => exact ⟨hw, fun hk => hp.2.1 (hkilled hk), hrunnable hp.2.2⟩
  | handle =>
      exact ⟨fun _ => hw, fun hk => absurd (hp.2.1 (hkilled hk)).toAlone hna, hrunnable hp.2.2⟩
  | relink => exact hr rfl

variable [DecidableEq R]

/-- Only the thread `r` has the task in hand. -/
def only (r : R) (p : Hold) : R → Option Hold := Function.update (fun _ => none) r (some p)

theorem only_eq_some {r r' : R} {p q : Hold} : only r p r' = some q ↔ r' = r ∧ p = q := by
  unfold only
  by_cases h : r' = r <;> simp [h]

/-- What holds of every task in every interleaving: it has not been created or has been freed, it is in no
thread's hand and waits, or its own thread has it in hand, and no other. -/
inductive Good (k : Task R) : Prop
  | dead (ha : k.alive = false) (hh : k.hold = fun _ => none) (hq : k.Quiet)
  | away (r : R) (ho : k.Owned r) (hh : k.hold = fun _ => none) (hw : k.Waits)
  | held (r : R) (p : Hold) (ho : k.Owned r) (hh : k.hold = only r p) (hp : k.Fits p)

theorem Good.of_hold {k : Task R} (hg : k.Good) {r : R} {p : Hold} (h : k.hold r = some p) :
    k.Owned r ∧ k.hold = only r p ∧ k.Fits p := by
  cases hg with
  | dead _ hh _ =>
      rw [hh] at h
      cases h
  | away _ _ hh _ =>
      rw [hh] at h
      cases h
  | held r₀ p₀ ho hh hp =>
      rw [hh, only_eq_some] at h
      obtain ⟨rfl, rfl⟩ := h
      exact ⟨ho, hh, hp⟩

/-- A task that waits is in the hand of no thread, or in that of its own. -/
theorem Good.of_waits {k : Task R} (hg : k.Good) (hw : k.Waits) :
    ∃ r, k.Owned r ∧ ((k.hold = fun _ => none) ∨ ∃ p, k.hold = only r p ∧ k.Fits p) := by
  cases hg with
  | dead _ _ hq => exact absurd hw hq.not_waits
  | away r ho hh _ => exact ⟨r, ho, .inl hh⟩
  | held r p ho hh hp => exact ⟨r, ho, .inr ⟨p, hh, hp⟩⟩

theorem Good.quiet {k : Task R} (hg : k.Good) (ha : k.alive = false) : k.Quiet := by
  cases hg with
  | dead _ _ hq => exact hq
  | away r ho => cases ha.symm.trans ho.alive
  | held r p ho => cases ha.symm.trans ho.alive

/-- The thread `r` does `p` with the task from now on. -/
def holdBy (k : Task R) (r : R) (p : Option Hold) : Task R := { k with hold := Function.update k.hold r p }

/-- The thread `r` does `a` for the task from now on. -/
def aidBy (k : Task R) (r : R) (a : Option Aid) : Task R := { k with aid := Function.update k.aid r a }

/-- How one access of a thread `r` changes what the threads share about a task. -/
inductive Step (k : Task R) : Task R → Prop
  | created (r) (ha : k.alive = false) :
      Step k ({ k with alive := true, status := .runnable, home := some r }.aidBy r (some .waking))
  | picked (r) (hl : .run r ∈ k.lists) (hh : k.hold r = none) : Step k (k.holdBy r (some .picked))
  | dequeued (r) (hh : k.hold r = some .picked) (ha : ∀ r, k.aid r = none) :
      Step k ({ k with lists := ∅ }.holdBy r (some .dispatch))
  | started (r) (hh : k.hold r = some .dispatch) :
      Step k ({ k with status := .runnable, polls := False, events := False }.holdBy r (some .runs))
  | slept (r) (hh : k.hold r = some .runs) (l : Set (Head R)) (p e : Prop) (hl : ∀ r', .run r' ∉ l)
      (hw : e ∨ l.Nonempty) :
      Step k ({ k with lists := l, polls := p, events := e }.holdBy r (some .linked))
  | awaited (r) (hh : k.hold r = some .runs) : Step k ({ k with hired := true }.holdBy r (some .linked))
  | hired (r) (hh : k.hired = true) : Step k ({ k with hired := false }.aidBy r (some .working))
  | blocked (r) (hh : k.hold r = some .linked) :
      Step k ({ k with status := .blocked }.holdBy r (some .blocked))
  | exited (r) (hh : k.hold r = some .runs) :
      Step k ({ k with status := .killed }.holdBy r (some .leaving))
  | switched (r) (p) (hh : k.hold r = some p) (hp : p = .runs ∨ p = .blocked ∨ p = .leaving) :
      Step k (k.holdBy r (some .handle))
  | requeued (r) (hh : k.hold r = some .handle) (hs : k.status = .runnable) :
      Step k (k.holdBy r (some .requeue))
  | dropped (r) (hh : k.hold r = some .handle) (hs : k.status = .blocked) : Step k (k.holdBy r none)
  | destroying (r) (hh : k.hold r = some .handle) (hs : k.status = .killed) :
      Step k (k.holdBy r (some .destroy))
  | destroyed (r) (hh : k.hold r = some .destroy) : Step k ({ k with alive := false }.holdBy r none)
  | reported (r) (hh : k.hold r = none) (hr : k.home = some r) (he : k.events) (e : Prop) (hee : e → k.events) :
      Step k ({ k with events := e }.holdBy r (some .requeue))
  | unlinked (r) (w : ℕ) (hl : .wait w ∈ k.lists) : Step k ({ k with lists := ∅ }.aidBy r (some .waking))
  | readied (r) (hh : k.hold r = some .requeue) :
      Step k ({ k with status := .runnable }.holdBy r (some .requeue))
  | runnable (r) (ha : k.aid r = some .waking) :
      Step k ({ k with status := .runnable }.aidBy r (some .waking))
  | unlisted (r) (hh : k.hold r = some .requeue) (ha : ∀ r', k.aid r' ≠ some .linking) :
      Step k ({ k with lists := ∅ }.holdBy r (some .relink))
  | relisted (r) (ha : k.aid r ≠ none) (hn : ∀ r', k.aid r' ≠ some .linking)
      (hh : ∀ r', k.hold r' ≠ some .relink) : Step k ({ k with lists := ∅ }.aidBy r (some .linking))
  | enqueued (r) (hh : k.hold r = some .relink) : Step k ({ k with lists := {Head.run r} }.holdBy r none)
  | resumed (r r') (ha : k.aid r = some .linking) (hr : k.home = some r') :
      Step k ({ k with lists := {Head.run r'} }.aidBy r none)

/-! ### Every entry keeps what holds of a task -/

omit [DecidableEq R] in
theorem Quiet.withStatus {k : Task R} (hq : k.Quiet) (st : Status) (f : R → Option Hold) :
    Quiet { k with status := st, hold := f } :=
  ⟨⟨hq.free, hq.unhired, hq.unaided⟩, hq.unpolled, hq.silent⟩

omit [DecidableEq R] in
theorem Owned.withStatus {k : Task R} {r : R} (ho : k.Owned r) (st : Status) (f : R → Option Hold) :
    Owned { k with status := st, hold := f } r :=
  ⟨ho.alive, ho.home, ho.queued, ho.helper, ho.unhelped, ho.unlinked, ho.unlisted, ho.awaits⟩

omit [DecidableEq R] in
/-- A task that nobody aids, and that has no worker, is its thread's whatever its lists and descriptors. -/
theorem Owned.of_unaided {k k' : Task R} {r : R} (ho : k.Owned r) (ha : k'.alive = k.alive)
    (hh : k'.home = k.home) (hu : ∀ r', k'.aid r' = none) (hw : k'.hired = true → k'.lists = ∅ ∧ ¬k'.events)
    (hl : ∀ r', .run r' ∈ k'.lists → r' = r) : k'.Owned r where
  alive := ha.trans ho.alive
  home := hh.trans ho.home
  queued := hl
  helper r₁ _ h₁ := absurd (hu r₁) h₁
  unhelped _ := hu
  unlinked r' h := absurd (hu r') h
  unlisted r' h := by cases (hu r').symm.trans h
  awaits := by
    rintro (h | ⟨r', h⟩)
    · exact hw h
    · cases (hu r').symm.trans h

omit [DecidableEq R] in
/-- A task that one thread aids, which is on no list. -/
theorem Owned.of_aided {k k' : Task R} {r r₀ : R} (ho : k.Owned r) (ha : k'.alive = k.alive)
    (hh : k'.home = k.home) (hu : ∀ r', k'.aid r' ≠ none → r' = r₀) (hw : k'.hired = false)
    (hl : k'.lists = ∅) (he : k'.Awaits → ¬k'.events) : k'.Owned r where
  alive := ha.trans ho.alive
  home := hh.trans ho.home
  queued r' h := by
    rw [hl] at h
    cases h
  helper r₁ r₂ h₁ h₂ := (hu r₁ h₁).trans (hu r₂ h₂).symm
  unhelped h := by cases hw.symm.trans h
  unlinked r' _ w hm := by
    rw [hl] at hm
    exact hm
  unlisted _ _ := hl
  awaits h := ⟨hl, he h⟩

/-- The thread goes on with a task it has in hand. -/
theorem Good.next {k k' : Task R} (hg : k.Good) {r : R} {p q : Hold} (h : k.hold r = some p)
    (ho : k'.Owned r) (hh : k'.hold = Function.update k.hold r (some q)) (hq : k'.Fits q) : k'.Good := by
  refine .held r q ho ?_ hq
  rw [hh, (hg.of_hold h).2.1]
  exact Function.update_idem ..

/-- The thread takes a task in hand that is in nobody's. -/
theorem Good.take {k k' : Task R} (hg : k.Good) (hw : k.Waits) {r : R} {q : Hold} (h : k.hold r = none)
    (ho : k.Owned r) (ho' : k'.Owned r) (hh : k'.hold = Function.update k.hold r (some q)) (hq : k'.Fits q) :
    k'.Good := by
  obtain ⟨r₀, ho₀, hc | ⟨p, hc, -⟩⟩ := hg.of_waits hw
  · exact .held r q ho' (hh.trans (congrArg (Function.update · r _) hc)) hq
  · obtain rfl : r₀ = r := Option.some.inj (ho₀.home.symm.trans ho.home)
    rw [hc] at h
    cases (only_eq_some.mpr ⟨rfl, rfl⟩).symm.trans h

/-- The thread lets a task go that it has in hand. -/
theorem Good.none_of_hold {k : Task R} (hg : k.Good) {r : R} {p : Hold} (h : k.hold r = some p) :
    Function.update k.hold r none = fun _ => none := by
  rw [(hg.of_hold h).2.1]
  exact (Function.update_idem ..).trans (Function.update_eq_self r _)

/-- A thread changes what is shared about a task that it does not have in hand. -/
theorem Good.touched {k k' : Task R} (hg : k.Good) (he : k.Engaged)
    (ho : ∀ r, k.Owned r → k'.Owned r) (hh : k'.hold = k.hold) (hw : k'.Waits)
    (hs : k'.status = k.status ∨ k'.status = .runnable ∧ ¬k.Awaits) (ha : k'.Awaits → k.Awaits)
    (hr : ∀ r, k.hold r = some .relink → k.Fits .relink → k'.Fits .relink) : k'.Good := by
  obtain ⟨r, hr', hc | ⟨p, hc, hp⟩⟩ := hg.of_waits (.inr he)
  · exact .away r (ho r hr') (hh.trans hc) hw
  · refine .held r p (ho r hr') (hh.trans hc) (hp.touched he hw hs ha fun hrel => ?_)
    subst hrel
    exact hr r (hc ▸ only_eq_some.mpr ⟨rfl, rfl⟩) hp

omit [DecidableEq R] in
theorem Owned.not_awaits {k : Task R} {r : R} (ho : k.Owned r) (h : k.lists.Nonempty ∨ k.events) :
    ¬k.Awaits := by
  intro ha
  rcases h with ⟨l, hl⟩ | he
  · rw [(ho.awaits ha).1] at hl
    exact hl
  · exact (ho.awaits ha).2 he

theorem aid_aidBy (k : Task R) (r : R) (a : Option Aid) : (k.aidBy r a).aid r = a := Function.update_self ..

/-- The thread that aids the task from now on is the only one. -/
theorem only_aid {k : Task R} {r : R} {a : Option Aid} (h : ∀ r', k.aid r' ≠ none → r' = r) :
    ∀ r', (k.aidBy r a).aid r' ≠ none → r' = r := by
  intro r' hr'
  by_contra hne
  exact hne (h r' fun hn => hr' ((Function.update_of_ne hne _ _).trans hn))

theorem waits_aidBy (k : Task R) (r : R) (a : Aid) : (k.aidBy r (some a)).Waits :=
  .inr (.inr (.inr ⟨r, by rw [aid_aidBy]; nofun⟩))

theorem not_awaits_aidBy {k : Task R} {r : R} {a : Option Aid} (hh : k.hired = false)
    (h : ∀ r', k.aid r' ≠ none → r' = r) (ha : a ≠ some .working) : ¬(k.aidBy r a).Awaits := by
  rintro (hw | ⟨r', hw⟩)
  · cases hh.symm.trans hw
  · obtain rfl := only_aid h r' (by rw [hw]; nofun)
    exact ha ((aid_aidBy k r' a).symm.trans hw)

theorem Good.created {k : Task R} (hg : k.Good) (r : R) (ha : k.alive = false) :
    Good ({ k with alive := true, status := .runnable, home := some r }.aidBy r (some .waking)) := by
  have hq : k.Quiet := hg.quiet ha
  have hnone : ∀ r', k.aid r' ≠ none → r' = r := fun r' h => absurd (hq.unaided r') h
  cases hg with
  | dead _ hh _ =>
      refine .away r ⟨rfl, rfl, ?_, ?_, ?_, ?_, ?_, ?_⟩ hh (waits_aidBy _ r _)
      · intro r' hr'
        exact absurd hr' (hq.free ▸ Set.notMem_empty _)
      · exact fun r₁ r₂ h₁ h₂ => (only_aid hnone r₁ h₁).trans (only_aid hnone r₂ h₂).symm
      · exact fun h => Bool.noConfusion (hq.unhired.symm.trans h)
      · exact fun _ _ w => hq.free ▸ Set.notMem_empty _
      · exact fun _ _ => hq.free
      · exact fun _ => ⟨hq.free, hq.silent⟩
  | away r ho => cases ha.symm.trans ho.alive
  | held r p ho => cases ha.symm.trans ho.alive

theorem Good.picked {k : Task R} (hg : k.Good) {r : R} (hl : .run r ∈ k.lists) (hh : k.hold r = none) :
    Good (k.holdBy r (some .picked)) := by
  have hw : k.Waits := .inr (.inl ⟨_, hl⟩)
  obtain ⟨r₀, ho, -⟩ := hg.of_waits hw
  obtain rfl : r = r₀ := ho.queued r hl
  exact hg.take hw hh ho (ho.withStatus _ _) rfl (ho.not_awaits (.inl ⟨_, hl⟩))

theorem Good.dequeued {k : Task R} (hg : k.Good) {r : R} (hh : k.hold r = some .picked)
    (ha : ∀ r, k.aid r = none) : Good ({ k with lists := ∅ }.holdBy r (some .dispatch)) := by
  obtain ⟨ho, -, hf⟩ := hg.of_hold hh
  have hunhired : k.hired = false := unhired_of_not_awaits hf
  refine hg.next hh (ho.of_unaided rfl rfl ha ?_ ?_) rfl ⟨rfl, hunhired, ha⟩
  · exact fun h => Bool.noConfusion (hunhired.symm.trans h)
  · exact fun r' hr' => absurd hr' (Set.notMem_empty _)

theorem Good.started {k : Task R} (hg : k.Good) {r : R} (hh : k.hold r = some .dispatch) :
    Good ({ k with status := .runnable, polls := False, events := False }.holdBy r (some .runs)) := by
  obtain ⟨ho, -, hf⟩ := hg.of_hold hh
  refine hg.next hh (ho.of_unaided rfl rfl hf.unaided ?_ ho.queued) rfl
    ⟨⟨⟨hf.free, hf.unhired, hf.unaided⟩, id, id⟩, nofun⟩
  exact fun h => Bool.noConfusion (hf.unhired.symm.trans h)

theorem Good.switched {k : Task R} (hg : k.Good) {r : R} {p : Hold} (hh : k.hold r = some p)
    (hp : p = .runs ∨ p = .blocked ∨ p = .leaving) : Good (k.holdBy r (some .handle)) := by
  obtain ⟨ho, -, hf⟩ := hg.of_hold hh
  refine hg.next hh (ho.withStatus _ _) rfl ?_
  rcases hp with rfl | rfl | rfl
  · exact ⟨fun hs => absurd hs hf.2, fun _ => hf.1.withStatus _ _, fun _ => hf.1.not_awaits⟩
  · exact ⟨fun _ => hf.1, fun hs => absurd hs hf.2.1, hf.2.2⟩
  · exact ⟨fun hs => Status.noConfusion (hs.symm.trans hf.2), fun _ => hf.1.withStatus _ _,
      fun _ => hf.1.not_awaits⟩

theorem Good.reported {k : Task R} (hg : k.Good) {r : R} (hh : k.hold r = none) (hr : k.home = some r)
    (he : k.events) {e : Prop} (hee : e → k.events) :
    Good ({ k with events := e }.holdBy r (some .requeue)) := by
  obtain ⟨r₀, ho, -⟩ := hg.of_waits (.inl he)
  obtain rfl : r₀ = r := Option.some.inj (ho.home.symm.trans hr)
  refine hg.take (.inl he) hh ho ?_ rfl (ho.not_awaits (.inr he))
  exact ⟨ho.alive, ho.home, ho.queued, ho.helper, ho.unhelped, ho.unlinked, ho.unlisted,
    fun ha => ⟨(ho.awaits ha).1, fun h => (ho.awaits ha).2 (hee h)⟩⟩

theorem Good.hired {k : Task R} (hg : k.Good) (r : R) (hh : k.hired = true) :
    Good ({ k with hired := false }.aidBy r (some .working)) := by
  have hw : k.Awaits := .inl hh
  refine hg.touched hw.engaged (fun r₀ ho => ?_) rfl (waits_aidBy _ r _) (.inl rfl) (fun _ => hw)
    fun r' _ hf => absurd hw hf.1
  have hnone : ∀ r', k.aid r' ≠ none → r' = r := fun r' h => absurd (ho.unhelped hh r') h
  exact ho.of_aided rfl rfl (only_aid hnone) rfl (ho.awaits hw).1 fun _ => (ho.awaits hw).2

theorem Good.unlinked {k : Task R} (hg : k.Good) (r : R) {w : ℕ} (hl : .wait w ∈ k.lists) :
    Good ({ k with lists := ∅ }.aidBy r (some .waking)) := by
  have hne : k.lists.Nonempty := ⟨_, hl⟩
  obtain ⟨r₀, ho₀, -⟩ := hg.of_waits (.inr (.inl hne))
  -- the task was on a wait list, so nobody was resuming it
  have hnone : ∀ r', k.aid r' ≠ none → r' = r := fun r' h => absurd hl (ho₀.unlinked r' h w)
  have hunhired : k.hired = false := unhired_of_not_awaits (ho₀.not_awaits (.inl hne))
  have hna : ¬Awaits ({ k with lists := ∅ }.aidBy r (some .waking)) := not_awaits_aidBy hunhired hnone nofun
  refine hg.touched (.inl hne) (fun r₁ ho => ?_) rfl (waits_aidBy _ r _) (.inl rfl) (fun h => absurd h hna)
    fun _ _ hf => ?_
  · exact ho.of_aided rfl rfl (only_aid hnone) hunhired rfl fun h => absurd h hna
  · rw [hf.2.1] at hl
    cases hl

/-- The thread is behind `list_delete`: the task is on no list. -/
theorem Good.relisted {k : Task R} (hg : k.Good) {r : R} (ha : k.aid r ≠ none)
    (hh : ∀ r', k.hold r' ≠ some .relink) : Good ({ k with lists := ∅ }.aidBy r (some .linking)) := by
  have he : k.Engaged := .inr (.inr ⟨r, ha⟩)
  obtain ⟨r₀, ho₀, -⟩ := hg.of_waits (.inr he)
  have hunhired : k.hired = false := ho₀.unhired ha
  have honly : ∀ r', k.aid r' ≠ none → r' = r := fun r' h => ho₀.helper r' r h ha
  have hna : ¬Awaits ({ k with lists := ∅ }.aidBy r (some .linking)) := not_awaits_aidBy hunhired honly nofun
  refine hg.touched he (fun r₁ ho => ?_) rfl (waits_aidBy _ r _) (.inl rfl) (fun h => absurd h hna)
    fun r' hr' _ => absurd hr' (hh r')
  exact ho.of_aided rfl rfl (only_aid honly) hunhired rfl fun h => absurd h hna

theorem Good.runnable {k : Task R} (hg : k.Good) {r : R} (ha : k.aid r = some .waking) :
    Good ({ k with status := .runnable }.aidBy r (some .waking)) := by
  have he : k.Engaged := .inr (.inr ⟨r, ha ▸ nofun⟩)
  obtain ⟨r₀, ho₀, -⟩ := hg.of_waits (.inr he)
  have hsame : aidBy { k with status := .runnable } r (some .waking) = { k with status := .runnable } := by
    unfold aidBy
    rw [Function.update_eq_self_iff.mpr ha.symm]
  rw [hsame]
  exact hg.touched he (fun _ ho => ho.withStatus _ _) rfl (.inr he) (.inr ⟨rfl, ho₀.not_awaits_of_waking ha⟩) id
    fun _ _ hf => hf

theorem Good.unlisted {k : Task R} (hg : k.Good) {r : R} (hh : k.hold r = some .requeue)
    (ha : ∀ r', k.aid r' ≠ some .linking) : Good ({ k with lists := ∅ }.holdBy r (some .relink)) := by
  obtain ⟨ho, -, hf⟩ := hg.of_hold hh
  refine hg.next hh ⟨ho.alive, ho.home, ?_, ho.helper, ho.unhelped, ?_, fun _ _ => rfl, ?_⟩ rfl ⟨hf, rfl, ha⟩
  · exact fun r' hr' => absurd hr' (Set.notMem_empty _)
  · exact fun _ _ _ => Set.notMem_empty _
  · exact fun h => absurd h hf

theorem Good.enqueued {k : Task R} (hg : k.Good) {r : R} (hh : k.hold r = some .relink) :
    Good ({ k with lists := {Head.run r} }.holdBy r none) := by
  obtain ⟨ho, -, hf⟩ := hg.of_hold hh
  refine .away r ⟨ho.alive, ho.home, ?_, ho.helper, ho.unhelped, ?_, ?_, ?_⟩ (hg.none_of_hold hh)
    (.inr (.inl ⟨_, rfl⟩))
  · rintro r' ⟨⟩
    rfl
  · rintro _ _ w ⟨⟩
  · exact fun r' h => absurd h (hf.2.2 r')
  · exact fun h => absurd h hf.1

theorem Good.resumed {k : Task R} (hg : k.Good) {r r' : R} (ha : k.aid r = some .linking)
    (hr : k.home = some r') : Good ({ k with lists := {Head.run r'} }.aidBy r none) := by
  have hsome : k.aid r ≠ none := by rw [ha]; nofun
  have he : k.Engaged := .inr (.inr ⟨r, hsome⟩)
  obtain ⟨r₀, ho₀, -⟩ := hg.of_waits (.inr he)
  have hunhired : k.hired = false := ho₀.unhired hsome
  have honly : ∀ r', k.aid r' ≠ none → r' = r := fun r' h => ho₀.helper r' r h hsome
  have hnone : ∀ r₁, Function.update k.aid r none r₁ = none := fun r₁ => not_not.mp fun h => by
    obtain rfl := only_aid honly r₁ h
    exact h (Function.update_self ..)
  refine hg.touched he (fun r₁ ho => ?_) rfl (.inr (.inl ⟨_, rfl⟩)) (.inl rfl)
    (fun h => absurd h (not_awaits_aidBy hunhired honly nofun)) fun _ _ hf => absurd ha (hf.2.2 r)
  obtain rfl : r₁ = r' := Option.some.inj (ho.home.symm.trans hr)
  refine ho.of_unaided rfl rfl hnone (fun h => Bool.noConfusion (hunhired.symm.trans h)) ?_
  rintro r₂ ⟨⟩
  rfl

/-- Every access keeps what holds of a task. -/
theorem Good.step {k k' : Task R} (hg : k.Good) (h : Step k k') : k'.Good := by
  cases h with
  | created r ha => exact hg.created r ha
  | picked r hl hh => exact hg.picked hl hh
  | dequeued r hh ha => exact hg.dequeued hh ha
  | started r hh => exact hg.started hh
  | slept r hh l p e hl hw =>
      obtain ⟨ho, -, hq, -⟩ := hg.of_hold hh
      refine hg.next hh (ho.of_unaided rfl rfl hq.unaided ?_ ?_) rfl (hw.imp_right .inl)
      · exact fun h => Bool.noConfusion (hq.unhired.symm.trans h)
      · exact fun r' hr' => absurd hr' (hl r')
  | awaited r hh =>
      obtain ⟨ho, -, hq, -⟩ := hg.of_hold hh
      exact hg.next hh (ho.of_unaided rfl rfl hq.unaided (fun _ => ⟨hq.free, hq.silent⟩) ho.queued) rfl
        (.inr (.inr (.inl rfl)))
  | hired r hh => exact hg.hired r hh
  | blocked r hh =>
      obtain ⟨ho, -, hw⟩ := hg.of_hold hh
      exact hg.next hh (ho.withStatus _ _) rfl ⟨hw, nofun, nofun⟩
  | exited r hh =>
      obtain ⟨ho, -, hq, -⟩ := hg.of_hold hh
      exact hg.next hh (ho.withStatus _ _) rfl ⟨hq.withStatus _ _, rfl⟩
  | switched r p hh hp => exact hg.switched hh hp
  | requeued r hh hs =>
      obtain ⟨ho, -, hf⟩ := hg.of_hold hh
      exact hg.next hh (ho.withStatus _ _) rfl (hf.2.2 hs)
  | dropped r hh hs =>
      obtain ⟨ho, -, hf⟩ := hg.of_hold hh
      exact .away r (ho.withStatus _ _) (hg.none_of_hold hh) (hf.1 hs)
  | destroying r hh hs =>
      obtain ⟨ho, -, hf⟩ := hg.of_hold hh
      exact hg.next hh (ho.withStatus _ _) rfl ((hf.2.1 hs).withStatus _ _)
  | destroyed r hh =>
      have hq : k.Quiet := (hg.of_hold hh).2.2
      exact .dead rfl (hg.none_of_hold hh) ⟨⟨hq.free, hq.unhired, hq.unaided⟩, hq.unpolled, hq.silent⟩
  | reported r hh hr he e hee => exact hg.reported hh hr he hee
  | unlinked r w hl => exact hg.unlinked r hl
  | readied r hh =>
      obtain ⟨ho, -, hf⟩ := hg.of_hold hh
      exact hg.next hh (ho.withStatus _ _) rfl hf
  | runnable r ha => exact hg.runnable ha
  | unlisted r hh ha => exact hg.unlisted hh ha
  | relisted r ha hn hh => exact hg.relisted ha hh
  | enqueued r hh => exact hg.enqueued hh
  | resumed r r' ha hr => exact hg.resumed ha hr

end Task

end Libcask.Threads
