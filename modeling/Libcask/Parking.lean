import Mathlib.Tactic

/-! # A wait list guarded by a spin lock

Tasks that have to wait link themselves on a list, under a lock, and go to sleep; a task that wants
to wake one takes it off the list, under the lock, and resumes it after giving the lock back.

`Lot` is the lock, the list and what every task is doing with them (`Role`); `Lot.Step` are the
moves of one task.  `Lot.Ok`, kept by every step (`Lot.Ok.step`), says that the tasks in the
critical section are the owner of the lock, that the tasks on the list sleep or are about to, and
that a task taken off the list sleeps until it is resumed, by exactly one other task. -/

namespace Libcask

/-- What a task is doing with the lock and the list. -/
inductive Role (T : Type) where
  | out
  /-- In the critical section. -/
  | inside
  /-- In the critical section, linked on the list. -/
  | linked
  | asleep
  /-- In the critical section, after looking for a waiter. -/
  | taking (o : Option T)
  /-- About to resume a waiter, outside of the critical section. -/
  | resuming (u : T)

namespace Role

variable {T : Type}

def inCritical : Role T → Bool
  | .inside | .linked | .taking _ => true
  | .out | .asleep | .resuming _ => false

/-- The waiter that was taken off the list and is not resumed yet. -/
def takes : Role T → Option T
  | .taking o => o
  | .resuming u => some u
  | .out | .inside | .linked | .asleep => none

end Role

/-- A wait list and its lock. -/
structure Lot (T : Type) where
  owner : Option T
  list : List T
  role : T → Role T

namespace Lot

variable {T : Type} [DecidableEq T] {l l' : Lot T} {t : T}

/-- The moves of one task. -/
inductive Step (l : Lot T) : Lot T → Prop
  | stay : Step l l
  | lock (t : T) (hfree : l.owner = none) (hr : l.role t = .out) :
      Step l { l with owner := some t, role := Function.update l.role t .inside }
  | unlock (t : T) (hr : l.role t = .inside ∨ l.role t = .taking none) :
      Step l { l with owner := none, role := Function.update l.role t .out }
  | link (t : T) (hr : l.role t = .inside) :
      Step l { l with list := l.list ++ [t], role := Function.update l.role t .linked }
  | sleep (t : T) (hr : l.role t = .linked) :
      Step l { l with owner := none, role := Function.update l.role t .asleep }
  | take (t : T) (hr : l.role t = .inside) :
      Step l { l with
        list := l.list.tail, role := Function.update l.role t (.taking l.list.head?) }
  | handOver (t u : T) (hr : l.role t = .taking (some u)) :
      Step l { l with owner := none, role := Function.update l.role t (.resuming u) }
  | resume (t u : T) (hr : l.role t = .resuming u) :
      Step l { l with role := Function.update (Function.update l.role u .out) t .out }

/-- The lock, the wait list and the tasks that were taken off it are in order. -/
structure Ok (l : Lot T) : Prop where
  owner : ∀ t, (l.role t).inCritical = true ↔ l.owner = some t
  listed : ∀ u ∈ l.list, l.role u = .linked ∨ l.role u = .asleep
  nodup : l.list.Nodup
  taken : ∀ t u, (l.role t).takes = some u → l.role u = .asleep ∧ u ∉ l.list
  alone : ∀ t t' u, (l.role t).takes = some u → (l.role t').takes = some u → t = t'

namespace Ok

omit [DecidableEq T] in
/-- Nobody has come yet. -/
theorem init : Ok (⟨none, [], fun _ => .out⟩ : Lot T) :=
  ⟨fun _ => ⟨fun h => (nomatch h), fun h => (nomatch h)⟩, fun _ h => (nomatch h), List.nodup_nil,
    fun _ _ h => (nomatch h), fun _ _ _ h => (nomatch h)⟩

/-- One task changes its role, not on the list and not taken off it, and the lock follows. -/
theorem move (hl : l.Ok) {r : Role T} {o : Option T}
    (howner : ∀ u, o = some u ↔ (u = t ∧ r.inCritical = true) ∨ (u ≠ t ∧ l.owner = some u))
    (htakes : r.takes = none ∨ r.takes = (l.role t).takes) (hsleep : l.role t ≠ .asleep)
    (hlinked : l.role t = .linked → r = .asleep) :
    Ok { l with owner := o, role := Function.update l.role t r } := by
  have hne : ∀ {u}, u ≠ t → Function.update l.role t r u = l.role u :=
    fun hu => Function.update_of_ne hu _ _
  have htk : ∀ {u v}, (Function.update l.role t r u).takes = some v →
      (l.role u).takes = some v := by
    intro u v hu
    by_cases hut : u = t
    · subst hut
      rw [Function.update_self] at hu
      rcases htakes with h | h
      · cases h.symm.trans hu
      · exact h.symm.trans hu
    · rwa [hne hut] at hu
  refine ⟨fun u => ?_, fun u hu => ?_, hl.nodup, fun u v hu => ?_,
    fun u u' v hu hu' => hl.alone u u' v (htk hu) (htk hu')⟩
  · dsimp only
    rw [howner]
    by_cases hut : u = t
    · simp [hut]
    · simp [hut, hl.owner]
  · by_cases hut : u = t
    · subst hut
      rcases hl.listed u hu with h | h
      · exact .inr ((Function.update_self ..).trans (hlinked h))
      · exact absurd h hsleep
    · simpa only [hne hut] using hl.listed u hu
  · obtain ⟨h1, h2⟩ := hl.taken u v (htk hu)
    have hvt : v ≠ t := fun hc => hsleep (hc ▸ h1)
    exact ⟨(hne hvt).trans h1, h2⟩

theorem lock (hl : l.Ok) (hfree : l.owner = none) (hr : l.role t = .out) :
    Ok { l with owner := some t, role := Function.update l.role t .inside } := by
  refine hl.move (fun u => ?_) (.inl rfl) (by simp [hr]) (by simp [hr])
  simp [hfree, Role.inCritical, eq_comm]

/-- A task in the critical section gives the lock back. -/
theorem release (hl : l.Ok) {r : Role T} (hin : (l.role t).inCritical = true)
    (hr : r.inCritical = false) (htakes : r.takes = none ∨ r.takes = (l.role t).takes)
    (hlinked : l.role t = .linked → r = .asleep) :
    Ok { l with owner := none, role := Function.update l.role t r } := by
  have howner := (hl.owner t).mp hin
  refine hl.move (fun u => ?_) htakes ?_ hlinked
  · rw [hr, howner]
    simp [eq_comm]
  · intro hc
    rw [hc] at hin
    cases hin

theorem link (hl : l.Ok) (hr : l.role t = .inside) :
    Ok { l with list := l.list ++ [t], role := Function.update l.role t .linked } := by
  have howner : l.owner = some t := (hl.owner t).mp (by rw [hr]; rfl)
  have hmv : Ok { l with owner := l.owner, role := Function.update l.role t .linked } := by
    refine hl.move (fun u => ?_) (.inl rfl) (by simp [hr]) (by simp [hr])
    simp [howner, Role.inCritical, eq_comm]
  have hfresh : t ∉ l.list := fun hm => by simpa [hr] using hl.listed t hm
  refine ⟨hmv.owner, fun u hu => ?_, ?_, fun u v hu => ?_, hmv.alone⟩
  · rcases List.mem_append.mp hu with hu | hu
    · exact hmv.listed u hu
    · rw [List.mem_singleton.mp hu]
      exact .inl (Function.update_self ..)
  · refine List.nodup_append.mpr ⟨hl.nodup, List.nodup_singleton t, fun u hu v hv => ?_⟩
    rw [List.mem_singleton.mp hv]
    exact ne_of_mem_of_not_mem hu hfresh
  · obtain ⟨h1, h2⟩ := hmv.taken u v hu
    refine ⟨h1, fun hm => ?_⟩
    rcases List.mem_append.mp hm with hm | hm
    · exact h2 hm
    · rw [List.mem_singleton.mp hm] at h1
      cases (Function.update_self ..).symm.trans h1

/-- The task that is taken off the list sleeps, since it does not hold the lock. -/
theorem take (hl : l.Ok) (hr : l.role t = .inside) :
    Ok { l with list := l.list.tail, role := Function.update l.role t (.taking l.list.head?) } := by
  have howner : l.owner = some t := (hl.owner t).mp (by rw [hr]; rfl)
  have hne : ∀ {u}, u ≠ t → Function.update l.role t (.taking l.list.head?) u = l.role u :=
    fun hu => Function.update_of_ne hu _ _
  have hasleep : ∀ u ∈ l.list, u ≠ t ∧ l.role u = .asleep := by
    intro u hu
    have hut : u ≠ t := by
      rintro rfl
      simpa [hr] using hl.listed u hu
    refine ⟨hut, (hl.listed u hu).resolve_left fun h => hut ?_⟩
    have hown := (hl.owner u).mp (by rw [h]; rfl)
    exact Option.some.inj (hown.symm.trans howner)
  have hcases : ∀ {u v}, (Function.update l.role t (.taking l.list.head?) u).takes = some v →
      (u = t ∧ l.list.head? = some v) ∨ (u ≠ t ∧ (l.role u).takes = some v) := by
    intro u v hu
    by_cases hut : u = t
    · subst hut
      rw [Function.update_self] at hu
      exact .inl ⟨rfl, hu⟩
    · rw [hne hut] at hu
      exact .inr ⟨hut, hu⟩
  refine ⟨fun u => ?_, fun u hu => ?_, hl.nodup.tail, fun u v hu => ?_, fun u u' v hu hu' => ?_⟩
  · by_cases hut : u = t
    · subst hut
      simp [howner, Role.inCritical]
    · simpa only [hne hut] using hl.owner u
  · obtain ⟨hut, h⟩ := hasleep u (List.mem_of_mem_tail hu)
    exact .inr ((hne hut).trans h)
  · rcases hcases hu with ⟨-, hv⟩ | ⟨-, hv⟩
    · obtain ⟨hvt, h⟩ := hasleep v (List.mem_of_head? hv)
      refine ⟨(hne hvt).trans h, ?_⟩
      obtain ⟨r, hlist⟩ := List.head?_eq_some_iff.mp hv
      have hnd := hl.nodup
      dsimp only
      rw [hlist] at hnd ⊢
      exact (List.nodup_cons.mp hnd).1
    · obtain ⟨h1, h2⟩ := hl.taken u v hv
      have hvt : v ≠ t := by
        rintro rfl
        cases hr.symm.trans h1
      exact ⟨(hne hvt).trans h1, fun hm => h2 (List.mem_of_mem_tail hm)⟩
  · rcases hcases hu with ⟨rfl, h1⟩ | ⟨-, h1⟩ <;> rcases hcases hu' with ⟨rfl, h2⟩ | ⟨-, h2⟩
    · rfl
    · exact absurd (List.mem_of_head? h1) (hl.taken u' v h2).2
    · exact absurd (List.mem_of_head? h2) (hl.taken u v h1).2
    · exact hl.alone u u' v h1 h2

omit [DecidableEq T] in
/-- A task that is about to be resumed sleeps, and is another task. -/
theorem resuming (hl : l.Ok) {u : T} (hr : l.role t = .resuming u) :
    l.role u = .asleep ∧ u ∉ l.list ∧ u ≠ t := by
  obtain ⟨h1, h2⟩ := hl.taken t u (by rw [hr]; rfl)
  refine ⟨h1, h2, ?_⟩
  rintro rfl
  cases hr.symm.trans h1

theorem resume (hl : l.Ok) {u : T} (hr : l.role t = .resuming u) :
    Ok { l with role := Function.update (Function.update l.role u .out) t .out } := by
  obtain ⟨hu, hlist, hut⟩ := hl.resuming hr
  have hrole : ∀ v, Function.update (Function.update l.role u .out) t .out v =
      if v = t then .out else if v = u then .out else l.role v := by
    intro v
    simp [Function.update_apply]
  have htk : ∀ {v x}, (Function.update (Function.update l.role u .out) t .out v).takes = some x →
      v ≠ t ∧ (l.role v).takes = some x := by
    intro v x hv
    rw [hrole] at hv
    split_ifs at hv with h1 h2
    · cases hv
    · cases hv
    · exact ⟨h1, hv⟩
  refine ⟨fun v => ?_, fun v hv => ?_, hl.nodup, fun v x hv => ?_,
    fun v v' x hv hv' => hl.alone v v' x (htk hv).2 (htk hv').2⟩
  · dsimp only
    rw [hrole, ← hl.owner]
    split_ifs with h1 h2
    · rw [h1, hr]
      rfl
    · rw [h2, hu]
      rfl
    · exact Iff.rfl
  · have hvu : v ≠ u := ne_of_mem_of_not_mem hv hlist
    have hvt : v ≠ t := by
      rintro rfl
      simpa [hr] using hl.listed v hv
    dsimp only
    rw [hrole, if_neg hvt, if_neg hvu]
    exact hl.listed v hv
  · obtain ⟨hvt, hvx⟩ := htk hv
    obtain ⟨h1, h2⟩ := hl.taken v x hvx
    have hxu : x ≠ u := by
      rintro rfl
      exact hvt (hl.alone v t x hvx (by rw [hr]; rfl))
    have hxt : x ≠ t := by
      rintro rfl
      cases hr.symm.trans h1
    dsimp only
    rw [hrole, if_neg hxt, if_neg hxu]
    exact ⟨h1, h2⟩

theorem step (hl : l.Ok) (h : l.Step l') : l'.Ok := by
  cases h with
  | stay => exact hl
  | lock t hfree hr => exact hl.lock hfree hr
  | unlock t hr =>
      refine hl.release ?_ rfl (.inl rfl) ?_
      · rcases hr with hr | hr <;> rw [hr] <;> rfl
      · rcases hr with hr | hr <;> simp [hr]
  | link t hr => exact hl.link hr
  | sleep t hr => exact hl.release (by rw [hr]; rfl) rfl (.inl rfl) fun _ => rfl
  | take t hr => exact hl.take hr
  | handOver t u hr =>
      exact hl.release (by rw [hr]; rfl) rfl (.inr (by rw [hr]; rfl)) (by simp [hr])
  | resume t u hr => exact hl.resume hr

omit [DecidableEq T] in
/-- Two tasks are not in the critical section at once. -/
theorem unique (hl : l.Ok) {u : T} (ht : (l.role t).inCritical = true)
    (hu : (l.role u).inCritical = true) : t = u :=
  Option.some.inj (((hl.owner t).mp ht).symm.trans ((hl.owner u).mp hu))

end Ok

end Lot

end Libcask
