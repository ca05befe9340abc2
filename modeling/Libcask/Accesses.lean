import Libcask.Transition

/-! # Programs that share a memory

Agents share a memory of cells.  An operation on it is a program that accesses one cell after the other
(`Prog`); between two accesses of one agent the others may make theirs.  `Agents` is a system of such agents:
`M.fine` takes every access as a step of its own, `M.coarse` every operation.

Two operations race if the one writes a cell that the other accesses, and the second one begins before the
first one has ended.  `fine_refines`: in runs without races (`raceFree`), the state of the fine system is one of
the coarse system once the operations in progress are finished (`Finished`), each of which has its whole
effect at its beginning.  So whatever holds of the coarse system holds of the fine one, up to the operations
in progress. -/

namespace Libcask

/-! ### Programs -/

/-- A program that accesses cells one at a time and gives a result. -/
inductive Prog (C V ρ : Type) where
  | done (r : ρ)
  | read (c : C) (k : V → Prog C V ρ)
  | write (c : C) (v : V) (k : Prog C V ρ)

namespace Prog

variable {C V ρ : Type} [DecidableEq C]

/-- The result of a program that runs alone. -/
def result : Prog C V ρ → (C → V) → ρ
  | done r, _ => r
  | read c k, m => (k (m c)).result m
  | write c v k, m => k.result (Function.update m c v)

/-- The memory that it leaves. -/
def final : Prog C V ρ → (C → V) → C → V
  | done _, m => m
  | read c k, m => (k (m c)).final m
  | write c v k, m => k.final (Function.update m c v)

/-- The result and the memory. -/
def run (p : Prog C V ρ) (m : C → V) : ρ × (C → V) := (p.result m, p.final m)

theorem run_done (r : ρ) (m : C → V) : (done r : Prog C V ρ).run m = (r, m) := rfl

theorem run_read (c : C) (k : V → Prog C V ρ) (m : C → V) : (read c k).run m = (k (m c)).run m := rfl

theorem run_write (c : C) (v : V) (k : Prog C V ρ) (m : C → V) :
    (write c v k).run m = k.run (Function.update m c v) := rfl

/-- No access is left. -/
def isDone : Prog C V ρ → Bool
  | done _ => true
  | _ => false

/-- The cells that it reads or writes. -/
def accesses : Prog C V ρ → (C → V) → List C
  | done _, _ => []
  | read c k, m => c :: (k (m c)).accesses m
  | write c v k, m => c :: k.accesses (Function.update m c v)

/-- The cells that it writes. -/
def writes : Prog C V ρ → (C → V) → List C
  | done _, _ => []
  | read c k, m => (k (m c)).writes m
  | write c v k, m => c :: k.writes (Function.update m c v)

theorem mem_accesses_of_mem_writes {p : Prog C V ρ} {m : C → V} {c : C} (h : c ∈ p.writes m) :
    c ∈ p.accesses m := by
  induction p generalizing m with
  | done r => exact h
  | read d k ih => exact List.mem_cons_of_mem d (ih _ h)
  | write d v k ih =>
      rcases List.mem_cons.mp h with rfl | h
      · exact List.mem_cons_self
      · exact List.mem_cons_of_mem d (ih h)

/-- A cell that is not written keeps its value. -/
theorem final_of_not_mem {p : Prog C V ρ} {m : C → V} {c : C} (h : c ∉ p.writes m) : p.final m c = m c := by
  induction p generalizing m with
  | done r => rfl
  | read d k ih => exact ih _ h
  | write d v k ih =>
      obtain ⟨hne, hk⟩ := not_or.mp (mt List.mem_cons.mpr h)
      exact (ih hk).trans (Function.update_of_ne hne v m)

/-- What a program does in two memories that agree on the cells it accesses. -/
structure Same (p : Prog C V ρ) (m m' : C → V) : Prop where
  result : p.result m' = p.result m
  accesses : p.accesses m' = p.accesses m
  writes : p.writes m' = p.writes m
  final : ∀ c, m' c = m c → p.final m' c = p.final m c

/-- A program depends on the cells it accesses. -/
theorem same_of_agree {p : Prog C V ρ} {m m' : C → V} (h : ∀ c ∈ p.accesses m, m' c = m c) :
    p.Same m m' := by
  induction p generalizing m m' with
  | done r => exact ⟨rfl, rfl, rfl, fun _ hc => hc⟩
  | read d k ih =>
      have hd : m' d = m d := h d List.mem_cons_self
      have hk := ih (m d) fun c hc => h c (List.mem_cons_of_mem d hc)
      refine ⟨?_, ?_, ?_, fun c hc => ?_⟩
      · rw [Prog.result, Prog.result, hd, hk.result]
      · rw [Prog.accesses, Prog.accesses, hd, hk.accesses]
      · rw [Prog.writes, Prog.writes, hd, hk.writes]
      · rw [Prog.final, Prog.final, hd, hk.final c hc]
  | write d v k ih =>
      -- the two memories agree at `d` after the write
      have hupd : ∀ c, (c = d ∨ m' c = m c) → Function.update m' d v c = Function.update m d v c := by
        rintro c hc
        by_cases hcd : c = d
        · rw [hcd, Function.update_self, Function.update_self]
        · rw [Function.update_of_ne hcd, Function.update_of_ne hcd]
          exact hc.resolve_left hcd
      have hk := ih fun c hc => hupd c (.inr (h c (List.mem_cons_of_mem d hc)))
      refine ⟨hk.result, ?_, ?_, fun c hc => hk.final c (hupd c (.inr hc))⟩
      · rw [Prog.accesses, Prog.accesses, hk.accesses]
      · rw [Prog.writes, Prog.writes, hk.writes]

/-- Neither program writes what the other one accesses. -/
def Apart (m : C → V) (p q : Prog C V ρ) : Prop :=
  (∀ c ∈ p.writes m, c ∉ q.accesses m) ∧ ∀ c ∈ q.writes m, c ∉ p.accesses m

instance (m : C → V) (p q : Prog C V ρ) : Decidable (p.Apart m q) :=
  inferInstanceAs (Decidable ((∀ c ∈ p.writes m, c ∉ q.accesses m) ∧ ∀ c ∈ q.writes m, c ∉ p.accesses m))

end Prog

/-! ### Systems of agents -/

/-- Agents with a place each, and a state `σ` that they share beside the memory.  An action of an agent changes
the shared state at once and begins an operation, whose result is the agent's next place. -/
structure Agents (ι σ P A C V : Type) where
  agent : A → ι
  start : σ → P → A → Option (σ × Prog C V P)
  shared₀ : σ
  mem₀ : C → V
  place₀ : ι → P

namespace Agents

variable {ι σ P A C V : Type} [DecidableEq ι] [DecidableEq C]

/-- A state in which no operation is in progress. -/
structure Coarse (ι σ P C V : Type) where
  shared : σ
  mem : C → V
  place : ι → P

/-- A state with what is left of the operation of each agent. -/
structure Fine (ι σ P C V : Type) where
  shared : σ
  mem : C → V
  prog : ι → Prog C V P

/-- The beginning of an operation, or one access of an agent. -/
inductive FineAct (ι A : Type) where
  | start (a : A)
  | access (i : ι)
deriving DecidableEq, Repr

variable (M : Agents ι σ P A C V)

def coarseStep (s : Coarse ι σ P C V) (a : A) : Option (Coarse ι σ P C V) :=
  (M.start s.shared (s.place (M.agent a)) a).map fun x =>
    ⟨x.1, x.2.final s.mem, Function.update s.place (M.agent a) (x.2.result s.mem)⟩

variable {M} in
/-- A step of the coarse system runs an operation alone. -/
theorem exists_of_coarseStep {s s' : Coarse ι σ P C V} {a : A} (h : M.coarseStep s a = some s') :
    ∃ x q, M.start s.shared (s.place (M.agent a)) a = some (x, q) ∧
      s' = ⟨x, (q.run s.mem).2, Function.update s.place (M.agent a) (q.run s.mem).1⟩ := by
  obtain ⟨⟨x, q⟩, hx, rfl⟩ := Option.map_eq_some_iff.mp h
  exact ⟨x, q, hx, rfl⟩

/-- Every operation is one step. -/
def coarse : TS (Coarse ι σ P C V) A where
  init s := s = ⟨M.shared₀, M.mem₀, M.place₀⟩
  step := M.coarseStep

/-- The shared state and the operation with which an action begins, if no operation of its agent is in
progress. -/
def starts (s : Fine ι σ P C V) (a : A) : Option (σ × Prog C V P) :=
  match s.prog (M.agent a) with
  | .done p => M.start s.shared p a
  | _ => none

def fineStep (s : Fine ι σ P C V) : FineAct ι A → Option (Fine ι σ P C V)
  | .start a => (M.starts s a).map fun x =>
      { s with shared := x.1, prog := Function.update s.prog (M.agent a) x.2 }
  | .access i =>
      match s.prog i with
      | .done _ => none
      | .read c k => some { s with prog := Function.update s.prog i (k (s.mem c)) }
      | .write c v k => some { s with
          mem := Function.update s.mem c v
          prog := Function.update s.prog i k }

/-- Every access is a step of its own. -/
def fine : TS (Fine ι σ P C V) (FineAct ι A) where
  init s := s = ⟨M.shared₀, M.mem₀, fun i => .done (M.place₀ i)⟩
  step := M.fineStep

/-- An operation begins only if it is apart from what is left of the other operations. -/
def raceFree (s : Fine ι σ P C V) : FineAct ι A → Prop
  | .start a => ∀ x ∈ M.starts s a, ∀ j, j ≠ M.agent a → x.2.Apart s.mem (s.prog j)
  | .access _ => True

instance [Fintype ι] (s : Fine ι σ P C V) : ∀ a, Decidable (M.raceFree s a)
  | .start a => inferInstanceAs
      (Decidable (∀ x ∈ M.starts s a, ∀ j, j ≠ M.agent a → x.2.Apart s.mem (s.prog j)))
  | .access _ => isTrue trivial

/-- Where an agent is when its operation in progress is finished. -/
def Fine.place (s : Fine ι σ P C V) (i : ι) : P := (s.prog i).result s.mem

/-- A condition on the actions of the coarse system, for the fine one. -/
def meets (ok : σ → (ι → P) → A → Prop) (s : Fine ι σ P C V) : FineAct ι A → Prop
  | .start a => ok s.shared s.place a
  | .access _ => True

instance {ok : σ → (ι → P) → A → Prop} [∀ x p a, Decidable (ok x p a)] (s : Fine ι σ P C V) :
    ∀ a : FineAct ι A, Decidable (meets ok s a)
  | .start a => inferInstanceAs (Decidable (ok s.shared s.place a))
  | .access _ => isTrue trivial

/-! ### Without races -/

/-- The coarse state `t` is the fine state `s` with the operations in progress finished. -/
structure Finished (s : Fine ι σ P C V) (t : Coarse ι σ P C V) : Prop where
  shared : t.shared = s.shared
  place : t.place = s.place
  apart : ∀ i j, i ≠ j → ∀ c ∈ (s.prog i).writes s.mem, c ∉ (s.prog j).accesses s.mem
  written : ∀ i, ∀ c ∈ (s.prog i).writes s.mem, t.mem c = (s.prog i).final s.mem c
  kept : ∀ c, (∀ i, c ∉ (s.prog i).writes s.mem) → t.mem c = s.mem c

variable {M} {s : Fine ι σ P C V} {t : Coarse ι σ P C V} {i : ι}

omit [DecidableEq ι] in
/-- Nothing is in progress. -/
theorem Finished.of_done {p : ι → P} (hp : ∀ i, s.prog i = .done (p i)) :
    Finished s ⟨s.shared, s.mem, p⟩ where
  shared := rfl
  place := funext fun i => by
    show p i = (s.prog i).result s.mem
    rw [hp i]
    rfl
  apart i _ _ c hc := by
    rw [hp i] at hc
    cases hc
  written i c hc := by
    rw [hp i] at hc
    cases hc
  kept _ _ := rfl

omit [DecidableEq ι] in
/-- When nothing is in progress, the memories are the same. -/
theorem Finished.mem_eq (h : Finished s t) (hd : ∀ i, (s.prog i).isDone = true) : t.mem = s.mem := by
  funext c
  refine h.kept c fun i hc => ?_
  have hi := hd i
  cases hp : s.prog i with
  | done p =>
      rw [hp] at hc
      cases hc
  | read c k =>
      rw [hp] at hi
      cases hi
  | write c v k =>
      rw [hp] at hi
      cases hi

/-- One access of the agent `i`, which has `q` left after it and the memory `m` behind it. -/
theorem Finished.access (h : Finished s t) {m : C → V} {q : Prog C V P}
    (hothers : ∀ j, j ≠ i → ∀ c ∈ (s.prog j).accesses s.mem, m c = s.mem c)
    (hresult : q.result m = (s.prog i).result s.mem) (hfinal : q.final m = (s.prog i).final s.mem)
    (haccesses : q.accesses m ⊆ (s.prog i).accesses s.mem) (hwrites : q.writes m ⊆ (s.prog i).writes s.mem)
    (hmem : ∀ c, c ∉ (s.prog i).writes s.mem → m c = s.mem c) :
    Finished { s with mem := m, prog := Function.update s.prog i q } t := by
  have hsame : ∀ j, j ≠ i → (s.prog j).Same s.mem m := fun j hj => Prog.same_of_agree (hothers j hj)
  -- for every agent: what is left gives the same as before, and accesses no other cells
  have hleft : ∀ j, (Function.update s.prog i q j).result m = (s.prog j).result s.mem ∧
      (∀ c ∈ (s.prog j).writes s.mem, (Function.update s.prog i q j).final m c = (s.prog j).final s.mem c) ∧
      (Function.update s.prog i q j).accesses m ⊆ (s.prog j).accesses s.mem ∧
      (Function.update s.prog i q j).writes m ⊆ (s.prog j).writes s.mem := by
    intro j
    by_cases hj : j = i
    · rw [hj, Function.update_self]
      exact ⟨hresult, fun c _ => congrFun hfinal c, haccesses, hwrites⟩
    · rw [Function.update_of_ne hj]
      obtain ⟨hr, ha, hw, hf⟩ := hsame j hj
      refine ⟨hr, fun c hc => ?_, ha ▸ List.Subset.refl _, hw ▸ List.Subset.refl _⟩
      exact hf c (hothers j hj c (Prog.mem_accesses_of_mem_writes hc))
  refine ⟨h.shared, h.place.trans (funext fun j => (hleft j).1.symm), ?_, ?_,
    fun c (hc : ∀ j, c ∉ (Function.update s.prog i q j).writes m) => ?_⟩
  · exact fun j l hjl c hc hl => h.apart j l hjl c ((hleft j).2.2.2 hc) ((hleft l).2.2.1 hl)
  · intro j c hc
    have hc' := (hleft j).2.2.2 hc
    exact (h.written j c hc').trans ((hleft j).2.1 c hc').symm
  · by_cases hi : c ∈ (s.prog i).writes s.mem
    · -- the agent has written the cell, and does not write it again
      have hq : c ∉ q.writes m := by
        have := hc i
        rwa [Function.update_self] at this
      rw [h.written i c hi, ← hfinal, Prog.final_of_not_mem hq]
    · refine (h.kept c fun j hj => ?_).trans (hmem c hi).symm
      by_cases hji : j = i
      · exact hi (hji ▸ hj)
      · refine hc j ?_
        rwa [Function.update_of_ne hji, (hsame j hji).writes]

theorem Finished.read (h : Finished s t) {c : C} {k : V → Prog C V P} (hi : s.prog i = .read c k) :
    Finished { s with prog := Function.update s.prog i (k (s.mem c)) } t := by
  refine h.access (m := s.mem) (fun _ _ _ _ => rfl) ?_ ?_ ?_ ?_ fun _ _ => rfl
  · rw [hi]
    rfl
  · rw [hi]
    rfl
  · rw [hi]
    exact List.subset_cons_self c _
  · rw [hi]
    exact List.Subset.refl _

theorem Finished.write (h : Finished s t) {c : C} {v : V} {k : Prog C V P} (hi : s.prog i = .write c v k) :
    Finished { s with
      mem := Function.update s.mem c v
      prog := Function.update s.prog i k } t := by
  have hc : c ∈ (s.prog i).writes s.mem := by
    rw [hi]
    exact List.mem_cons_self
  refine h.access (fun j hj d hd => ?_) ?_ ?_ ?_ ?_ fun d hd => ?_
  · refine Function.update_of_ne ?_ v s.mem
    rintro rfl
    exact h.apart i j hj.symm d hc hd
  · rw [hi]
    rfl
  · rw [hi]
    rfl
  · rw [hi]
    exact List.subset_cons_self c _
  · rw [hi]
    exact List.subset_cons_self c _
  · refine Function.update_of_ne ?_ v s.mem
    rintro rfl
    exact hd hc

/-- An operation begins: it has its whole effect on the coarse state. -/
theorem Finished.start (h : Finished s t) {p : P} {x : σ} {q : Prog C V P} (hi : s.prog i = .done p)
    (hapart : ∀ j, j ≠ i → q.Apart s.mem (s.prog j)) :
    Finished { s with shared := x, prog := Function.update s.prog i q }
      ⟨x, q.final t.mem, Function.update t.place i (q.result t.mem)⟩ := by
  -- nobody is going to write what the operation accesses
  have hagree : ∀ c ∈ q.accesses s.mem, t.mem c = s.mem c := by
    refine fun c hc => h.kept c fun j hj => ?_
    by_cases hji : j = i
    · rw [hji, hi] at hj
      cases hj
    · exact (hapart j hji).2 c hj hc
  have hsame : q.Same s.mem t.mem := Prog.same_of_agree hagree
  refine ⟨rfl, ?_, ?_, ?_, ?_⟩
  · funext j
    show Function.update t.place i (q.result t.mem) j = (Function.update s.prog i q j).result s.mem
    by_cases hj : j = i
    · rw [hj, Function.update_self, Function.update_self, hsame.result]
    · rw [Function.update_of_ne hj, Function.update_of_ne hj, h.place]
      rfl
  · intro j l hjl c (hc : c ∈ (Function.update s.prog i q j).writes s.mem)
      (hl : c ∈ (Function.update s.prog i q l).accesses s.mem)
    by_cases hj : j = i
    · have hli : l ≠ i := fun hli => hjl (hj.trans hli.symm)
      rw [hj, Function.update_self] at hc
      rw [Function.update_of_ne hli] at hl
      exact (hapart l hli).1 c hc hl
    · rw [Function.update_of_ne hj] at hc
      by_cases hli : l = i
      · rw [hli, Function.update_self] at hl
        exact (hapart j hj).2 c hc hl
      · rw [Function.update_of_ne hli] at hl
        exact h.apart j l hjl c hc hl
  · intro j c (hc : c ∈ (Function.update s.prog i q j).writes s.mem)
    show q.final t.mem c = (Function.update s.prog i q j).final s.mem c
    by_cases hj : j = i
    · rw [hj, Function.update_self] at hc ⊢
      exact hsame.final c (hagree c (Prog.mem_accesses_of_mem_writes hc))
    · rw [Function.update_of_ne hj] at hc ⊢
      have hq : c ∉ q.writes t.mem := by
        rw [hsame.writes]
        exact fun hw => (hapart j hj).1 c hw (Prog.mem_accesses_of_mem_writes hc)
      exact (Prog.final_of_not_mem hq).trans (h.written j c hc)
  · intro c (hc : ∀ j, c ∉ (Function.update s.prog i q j).writes s.mem)
    have hq : c ∉ q.writes t.mem := by
      have := hc i
      rwa [Function.update_self, ← hsame.writes] at this
    refine (Prog.final_of_not_mem hq).trans (h.kept c fun j hj => ?_)
    by_cases hji : j = i
    · rw [hji, hi] at hj
      cases hj
    · refine hc j ?_
      rwa [Function.update_of_ne hji]

/-- **Without races every operation is atomic.**  A state that the fine system reaches in a run without races is,
with the operations in progress finished, a state that the coarse system reaches. -/
theorem fine_refines {ok : σ → (ι → P) → A → Prop}
    (hr : M.fine.ReachVia (fun s a => M.raceFree s a ∧ meets ok s a) s) :
    ∃ t, M.coarse.ReachVia (fun t a => ok t.shared t.place a) t ∧ Finished s t := by
  induction hr with
  | init h0 =>
      obtain rfl := h0
      exact ⟨_, .init rfl, .of_done fun _ => rfl⟩
  | @step s s' a _ hok hs ih =>
      obtain ⟨t, ht, hf⟩ := ih
      cases a with
      | start a =>
          obtain ⟨⟨x, q⟩, hx, rfl⟩ := Option.map_eq_some_iff.mp hs
          have hfree := hok.1 _ hx
          unfold starts at hx
          split at hx
          · next p hp =>
              have hplace : t.place (M.agent a) = p := by
                rw [hf.place, Fine.place, hp]
                rfl
              have hmeets : ok t.shared t.place a := by
                rw [hf.shared, hf.place]
                exact hok.2
              refine ⟨_, ht.step hmeets ?_, hf.start hp hfree⟩
              show (M.start t.shared (t.place (M.agent a)) a).map _ = _
              rw [hf.shared, hplace, hx]
              rfl
          · cases hx
      | access i =>
          simp only [fine, fineStep] at hs
          split at hs
          · cases hs
          · next c k hi =>
              cases hs
              exact ⟨t, ht, hf.read hi⟩
          · next c v k hi =>
              cases hs
              exact ⟨t, ht, hf.write hi⟩

end Agents

end Libcask
