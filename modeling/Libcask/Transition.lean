import Mathlib.Tactic

/-! # Labelled transition systems

A system is a predicate on initial states and an executable partial step: `step s a` is the
state after the action `a`, or `none` when `a` is not enabled in `s`.

* **Reachability.** `M.ReachVia ok s`: the state `s` is reached from an initial state by
  steps `(s', a)` that all satisfy `ok s' a`.  `M.Reachable` is the case without a
  condition.  `ReachVia.invariant` is the induction rule; `ReachVia.invariant_of` is the same
  rule relative to a property that is already known of every reachable state.
* **Runs.** `M.run s as` executes a list of actions; `ReachVia.of_runMeets` and
  `ReachVia.le_of_run` carry reachability and a monotone quantity along it, and
  `ReachVia.exists_of_run` turns a run on a
  concrete list of actions, and a test of its last state, into a reachability proof.
* **Simulation.** `Lockstep M N R`: the two systems take the same actions, with related
  results (`Option.Rel R`).  Reachability then transfers from the one to the other
  (`Lockstep.reach`).
* **History.** `M.withHistory h₀ record` is the system with a variable that every step updates and no
  step reads; its runs are those of `M` (`ReachVia.fst`). -/

namespace Libcask

/-- A labelled transition system with an executable partial step. -/
structure TS (σ ι : Type) where
  init : σ → Prop
  step : σ → ι → Option σ

namespace TS

variable {σ τ ι : Type} {M : TS σ ι} {N : TS τ ι}

/-- States reached from an initial one by steps that all meet the condition `ok`. -/
inductive ReachVia (M : TS σ ι) (ok : σ → ι → Prop) : σ → Prop
  | init {s : σ} : M.init s → ReachVia M ok s
  | step {s s' : σ} {a : ι} : ReachVia M ok s → ok s a → M.step s a = some s' → ReachVia M ok s'

/-- The reachable states. -/
def Reachable (M : TS σ ι) : σ → Prop := M.ReachVia fun _ _ => True

/-- Execute a list of actions. -/
def run (M : TS σ ι) : σ → List ι → Option σ
  | s, [] => some s
  | s, a :: as => (M.step s a).bind fun s' => M.run s' as

theorem run_cons {s s' : σ} {a : ι} (h : M.step s a = some s') (as : List ι) :
    M.run s (a :: as) = M.run s' as := by
  rw [run, h]
  rfl

namespace ReachVia

variable {ok : σ → ι → Prop}

/-- An invariant relative to `J`, which is known of all states reached. -/
theorem invariant_of {I J : σ → Prop} (hJ : ∀ s, M.ReachVia ok s → J s)
    (h0 : ∀ s, M.init s → I s)
    (hstep : ∀ s a s', J s → I s → ok s a → M.step s a = some s' → I s')
    {s : σ} (hr : M.ReachVia ok s) : I s := by
  induction hr with
  | init h => exact h0 _ h
  | step hr ha hs ih => exact hstep _ _ _ (hJ _ hr) ih ha hs

/-- What holds initially and is preserved by every step holds of every state reached. -/
theorem invariant {I : σ → Prop} (h0 : ∀ s, M.init s → I s)
    (hstep : ∀ s a s', I s → ok s a → M.step s a = some s' → I s')
    {s : σ} (hr : M.ReachVia ok s) : I s :=
  hr.invariant_of (J := fun _ => True) (fun _ _ => trivial) h0
    fun s a s' _ => hstep s a s'

/-- A weaker condition reaches more states. -/
theorem mono {ok' : σ → ι → Prop} (h : ∀ s a, ok s a → ok' s a) {s : σ} (hr : M.ReachVia ok s) :
    M.ReachVia ok' s := by
  induction hr with
  | init h0 => exact .init h0
  | step _ ha hs ih => exact ih.step (h _ _ ha) hs

end ReachVia

/-- Every step of the run `as` from `s` meets the condition. -/
def RunMeets (M : TS σ ι) (ok : σ → ι → Prop) : σ → List ι → Prop
  | _, [] => True
  | s, a :: as => ok s a ∧ ∀ s', M.step s a = some s' → M.RunMeets ok s' as

/-- Whether a run on a concrete list of actions meets a condition can be computed. -/
instance RunMeets.decidable {ok : σ → ι → Prop} [∀ s a, Decidable (ok s a)] :
    ∀ (as : List ι) (s : σ), Decidable (M.RunMeets ok s as)
  | [], _ => isTrue trivial
  | a :: as, s =>
      match h : M.step s a with
      | none => decidable_of_iff (ok s a) ⟨fun ha => ⟨ha, fun _ hs => by cases h.symm.trans hs⟩, And.left⟩
      | some s₁ =>
          have : Decidable (M.RunMeets ok s₁ as) := RunMeets.decidable as s₁
          decidable_of_iff (ok s a ∧ M.RunMeets ok s₁ as)
            ⟨fun hr => ⟨hr.1, fun s' hs => by
              obtain rfl : s₁ = s' := Option.some.inj (h.symm.trans hs)
              exact hr.2⟩, fun hr => ⟨hr.1, hr.2 s₁ h⟩⟩

theorem ReachVia.of_runMeets {ok : σ → ι → Prop} : ∀ {as : List ι} {s s' : σ},
    M.ReachVia ok s → M.RunMeets ok s as → M.run s as = some s' → M.ReachVia ok s'
  | [], s, s', hs, _, h => by
      obtain rfl : s = s' := Option.some.inj h
      exact hs
  | a :: as, s, s', hs, hm, h => by
      obtain ⟨s₁, h₁, h₂⟩ := Option.bind_eq_some_iff.mp h
      exact of_runMeets (hs.step hm.1 h₁) (hm.2 s₁ h₁) h₂

/-- What no step lowers, no run lowers. -/
theorem ReachVia.le_of_run {ok : σ → ι → Prop} {β : Type} [Preorder β] {f : σ → β}
    (hstep : ∀ s a s', M.ReachVia ok s → ok s a → M.step s a = some s' → f s ≤ f s') :
    ∀ {as : List ι} {s s' : σ}, M.ReachVia ok s → M.RunMeets ok s as → M.run s as = some s' →
      f s ≤ f s'
  | [], s, s', _, _, h => by
      obtain rfl : s = s' := Option.some.inj h
      exact le_refl _
  | a :: as, s, s', hs, hm, h => by
      obtain ⟨s₁, h₁, h₂⟩ := Option.bind_eq_some_iff.mp h
      have hrest := le_of_run hstep (hs.step hm.1 h₁) (hm.2 s₁ h₁) h₂
      exact (hstep s a s₁ hs hm.1 h₁).trans hrest

theorem runMeets_true : ∀ (as : List ι) (s : σ), M.RunMeets (fun _ _ => True) s as
  | [], _ => trivial
  | _ :: as, _ => ⟨trivial, fun s' _ => runMeets_true as s'⟩

/-- Two conditions that agree where an invariant holds are met by the same runs. -/
theorem runMeets_congr {I : σ → Prop} {ok ok' : σ → ι → Prop}
    (hI : ∀ s a s', I s → M.step s a = some s' → I s') (h : ∀ s a, I s → (ok s a ↔ ok' s a)) :
    ∀ {as : List ι} {s : σ}, I s → (M.RunMeets ok s as ↔ M.RunMeets ok' s as)
  | [], _, _ => Iff.rfl
  | a :: _, s, hs => and_congr (h s a hs) (forall₂_congr fun s' hs' =>
      runMeets_congr hI h (hI s a s' hs hs'))

/-- Where an invariant makes every action possible, every list of actions is a run. -/
theorem exists_run_of_total {I : σ → Prop} (h : ∀ s a, I s → ∃ s', M.step s a = some s' ∧ I s') :
    ∀ (as : List ι) {s : σ}, I s → ∃ s', M.run s as = some s'
  | [], s, _ => ⟨s, rfl⟩
  | a :: as, s, hs => by
      obtain ⟨s₁, h₁, hs₁⟩ := h s a hs
      obtain ⟨s', hs'⟩ := exists_run_of_total h as hs₁
      exact ⟨s', (run_cons h₁ as).trans hs'⟩

/-- A run from an initial state, evaluated up to a test of its last state. -/
theorem ReachVia.exists_of_run (ok : σ → ι → Prop) (as : List ι) (P : σ → Bool) {s : σ}
    (h0 : M.init s) (hm : M.RunMeets ok s as) (hP : (M.run s as).any P = true) :
    ∃ s', M.ReachVia ok s' ∧ P s' = true := by
  cases hr : M.run s as with
  | none =>
      rw [hr] at hP
      cases hP
  | some s' =>
      rw [hr] at hP
      exact ⟨s', .of_runMeets (.init h0) hm hr, hP⟩

theorem Reachable.exists_of_run (as : List ι) (P : σ → Bool) {s : σ} (h0 : M.init s)
    (hP : (M.run s as).any P = true) : ∃ s', M.Reachable s' ∧ P s' = true :=
  ReachVia.exists_of_run _ as P h0 (runMeets_true as s) hP

/-! ### Simulation -/

/-- The systems `M` and `N` take the same actions, with results related by `R`.  The relation
is only used along runs of `N` that meet `ok`. -/
structure Lockstep (M : TS σ ι) (N : TS τ ι) (ok : τ → ι → Prop) (R : σ → τ → Prop) : Prop where
  init : ∀ s, M.init s → ∃ t, N.init t ∧ R s t
  init_back : ∀ t, N.init t → ∃ s, M.init s ∧ R s t
  step : ∀ s t a, N.ReachVia ok t → R s t → ok t a → Option.Rel R (M.step s a) (N.step t a)

variable {ok : τ → ι → Prop} {R : σ → τ → Prop}

/-- States of `M` reached under a condition that implies `ok` are related to states of `N`. -/
theorem Lockstep.reach (h : Lockstep M N ok R) {okM : σ → ι → Prop}
    (hok : ∀ s t a, R s t → okM s a → ok t a) {s : σ} (hr : M.ReachVia okM s) :
    ∃ t, N.ReachVia ok t ∧ R s t := by
  induction hr with
  | init h0 =>
      obtain ⟨t, ht, hR⟩ := h.init _ h0
      exact ⟨t, .init ht, hR⟩
  | @step s s' a _ ha hs ih =>
      obtain ⟨t, ht, hR⟩ := ih
      have hrel := h.step s t a ht hR (hok s t a hR ha)
      rw [hs] at hrel
      generalize hN : N.step t a = o at hrel
      cases hrel with
      | some hR' => exact ⟨_, ht.step (hok s t a hR ha) hN, hR'⟩

/-! ### History -/

section history
variable {η : Type} {h₀ : η} {record : η → σ → ι → σ → η} {x x' : σ × η} {a : ι}

/-- The system with a history variable. -/
def withHistory (M : TS σ ι) (h₀ : η) (record : η → σ → ι → σ → η) : TS (σ × η) ι where
  init x := M.init x.1 ∧ x.2 = h₀
  step x a := (M.step x.1 a).map fun s' => (s', record x.2 x.1 a s')

theorem withHistory_of_step {s' : σ} (h : M.step x.1 a = some s') :
    (M.withHistory h₀ record).step x a = some (s', record x.2 x.1 a s') := by
  show (M.step x.1 a).map _ = _
  rw [h]
  rfl

theorem withHistory_step (h : (M.withHistory h₀ record).step x a = some x') :
    M.step x.1 a = some x'.1 ∧ x'.2 = record x.2 x.1 a x'.1 := by
  obtain ⟨s', hs, rfl⟩ := Option.map_eq_some_iff.mp h
  exact ⟨hs, rfl⟩

theorem ReachVia.fst (ok : σ → ι → Prop)
    (hr : (M.withHistory h₀ record).ReachVia (fun x a => ok x.1 a) x) : M.ReachVia ok x.1 := by
  induction hr with
  | init h => exact .init h.1
  | step _ ha hs ih => exact ih.step ha (withHistory_step hs).1

end history

end TS

end Libcask
