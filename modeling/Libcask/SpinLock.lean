import Mathlib.Data.Fintype.Card
import Libcask.Transition

/-! # The spin locks of `co_spin_lock.c`

The two builds of the spin lock, each with the threads of a type `T` that use it.  The threads
interleave between any two atomic operations; the program counter of a thread says which operation
comes next.  A thread calls `spin_lock` or `spin_trylock` when it does not hold the lock, and
`spin_unlock` when it does.

* `RawSpin`, the default: one word.  `spin_trylock` reports success when it finds the lock *taken*
  (`two_spin_holders`); as long as it never does, `spin_exclusion` holds.
* `TicketSpin`, the build with `CO_TICKET_SPINLOCK`: two counters that wrap around.  The threads that
  have drawn a ticket form a queue (`Queued`), and `ticket_lock` reads everything off it. -/

namespace Libcask.RawSpin

/-! ### The raw lock -/

/-- `SPIN_RELESAED` and `SPIN_ACQUIRED`. -/
inductive Word where
  | released | acquired
deriving DecidableEq, Repr

/-- The next atomic operation of a thread. -/
inductive Pc where
  | idle
  /-- The compare-and-swap of `spin_lock`. -/
  | lockSwap
  /-- `spin_trylock`: `spin_locked`, and the compare-and-swap. -/
  | tryLocked | trySwap
  /-- `spin_unlock`: `spin_locked`, and the compare-and-swap. -/
  | unlockLocked | unlockSwap
  /-- The `PANIC` of `spin_unlock`. -/
  | panic
deriving DecidableEq, Repr

/-- A lock with its threads.  `holds` is history: the threads between an acquisition that was reported
to them and their release. -/
structure St (T : Type) where
  lock : Word
  pc : T → Pc
  holds : T → Bool

variable {T : Type} [DecidableEq T]

namespace St

def goto (s : St T) (t : T) (p : Pc) : St T := { s with pc := Function.update s.pc t p }

/-- The call returns and reports that the lock is acquired. -/
def gets (s : St T) (t : T) : St T :=
  { s with holds := Function.update s.holds t true }.goto t .idle

/-- The thread no longer counts as holding the lock. -/
def leaves (s : St T) (t : T) : St T :=
  { s with holds := Function.update s.holds t false }.goto t .idle

def spinLocked (s : St T) : Bool := s.lock == .acquired

/-- `atomic_compare_and_swap`: the new state, if the word is the old value. -/
def swap (s : St T) (old new : Word) : Option (St T) :=
  if s.lock = old then some { s with lock := new } else none

end St

/-- A thread makes a call, or its next atomic operation. -/
inductive Act (T : Type) where
  | spinLock (t : T) | spinTrylock (t : T) | spinUnlock (t : T)
  | run (t : T)
deriving DecidableEq, Repr

/-- The next atomic operation of the thread `t`. -/
def run (s : St T) (t : T) : Option (St T) :=
  match s.pc t with
  | .idle | .panic => none
  | .lockSwap => some (((s.swap .released .acquired).map fun s => s.gets t).getD s)
  | .tryLocked => some (if s.spinLocked then s.gets t else s.goto t .trySwap)
  | .trySwap => some (((s.swap .released .acquired).map fun s => s.gets t).getD (s.goto t .idle))
  | .unlockLocked => some (s.goto t (if s.spinLocked then .unlockSwap else .panic))
  | .unlockSwap => some (((s.swap .acquired .released).getD s).leaves t)

def step (s : St T) : Act T → Option (St T)
  | .spinLock t =>
      if s.pc t = .idle ∧ s.holds t = false then some (s.goto t .lockSwap) else none
  | .spinTrylock t =>
      if s.pc t = .idle ∧ s.holds t = false then some (s.goto t .tryLocked) else none
  | .spinUnlock t =>
      if s.pc t = .idle ∧ s.holds t = true then some (s.goto t .unlockLocked) else none
  | .run t => run s t

/-- `spin_lock_init`. -/
def spinLockInit : St T where
  lock := .released
  pc := fun _ => .idle
  holds := fun _ => false

def system (T : Type) [DecidableEq T] : TS (St T) (Act T) where
  init s := s = spinLockInit
  step := step

/-- The first operation of `spin_trylock` finds the lock released. -/
def findsReleased (s : St T) : Act T → Bool
  | .run t => s.pc t ≠ .tryLocked || s.lock == .released
  | _ => true

/-! ### Exclusion -/

/-- The operations of `spin_unlock`. -/
def Pc.unlocks : Pc → Bool
  | .unlockLocked | .unlockSwap => true
  | _ => false

/-- A holder has the lock to itself, and only a holder unlocks. -/
structure Owned (s : St T) : Prop where
  taken : ∀ t, s.holds t = true → s.lock = .acquired
  one : ∀ t u, s.holds t = true → s.holds u = true → t = u
  unlocks : ∀ t, (s.pc t).unlocks = true → s.holds t = true
  calm : ∀ t, s.pc t ≠ .panic

namespace Owned

variable {s s' : St T} {t : T} {p : Pc}

theorem goto (h : Owned s) (hp : p.unlocks = true → s.holds t = true) (hcalm : p ≠ .panic) :
    Owned (s.goto t p) := by
  refine ⟨h.taken, h.one, fun u hu => ?_, fun u => ?_⟩
  · by_cases hut : u = t
    · subst hut
      apply hp
      simpa [St.goto] using hu
    · apply h.unlocks u
      simpa [St.goto, hut] using hu
  · by_cases hut : u = t
    · subst hut
      simpa [St.goto] using hcalm
    · simpa [St.goto, hut] using h.calm u

/-- A compare-and-swap on a released lock. -/
theorem gets (h : Owned s) (hfree : s.lock = .released) :
    Owned (St.gets { s with lock := .acquired } t) := by
  have hnone : ∀ u, s.holds u = false := by
    intro u
    by_contra hu
    have hlock := h.taken u (by simpa using hu)
    rw [hfree] at hlock
    cases hlock
  refine goto ⟨fun u hu => rfl, fun u w hu hw => ?_, fun u hu => ?_, h.calm⟩ nofun nofun
  · have honly : ∀ x, Function.update s.holds t true x = true → x = t := by
      intro x hx
      by_contra hne
      rw [Function.update_of_ne hne, hnone x] at hx
      cases hx
    rw [honly u hu, honly w hw]
  · have hold := h.unlocks u hu
    rw [hnone u] at hold
    cases hold

theorem swap (h : Owned s) (hs : Owned s') :
    Owned (((s.swap .released .acquired).map fun s => s.gets t).getD s') := by
  unfold St.swap
  split_ifs with hfree
  · exact h.gets hfree
  · exact hs

/-- The release. -/
theorem leaves (h : Owned s) (hpc : s.pc t = .unlockSwap) :
    Owned (((s.swap .acquired .released).getD s).leaves t) := by
  have ht : s.holds t = true := h.unlocks t (by rw [hpc]; rfl)
  have hnone : ∀ u, Function.update s.holds t false u = false := by
    intro u
    by_cases hut : u = t
    · rw [hut, Function.update_self]
    · rw [Function.update_of_ne hut]
      by_contra hu
      exact hut (h.one u t (by simpa using hu) ht)
  rw [St.swap, if_pos (h.taken t ht), Option.getD_some]
  refine ⟨fun u hu => ?_, fun u w hu => ?_, fun u hu => ?_, fun u => ?_⟩
  · cases (hnone u).symm.trans hu
  · cases (hnone u).symm.trans hu
  · by_cases hut : u = t
    · simp [St.leaves, St.goto, hut, Pc.unlocks] at hu
    · have hold : s.holds u = true := h.unlocks u (by simpa [St.leaves, St.goto, hut] using hu)
      exact absurd (h.one u t hold ht) hut
  · by_cases hut : u = t
    · simp [St.leaves, St.goto, hut]
    · simpa [St.leaves, St.goto, hut] using h.calm u

theorem run (h : Owned s) (hok : findsReleased s (.run t) = true)
    (e : RawSpin.run s t = some s') : Owned s' := by
  unfold RawSpin.run at e
  cases hpc : s.pc t with
  | idle | panic =>
      rw [hpc] at e
      cases e
  | lockSwap =>
      rw [hpc] at e
      obtain rfl := Option.some.inj e
      exact h.swap h
  | tryLocked =>
      rw [hpc] at e
      obtain rfl := Option.some.inj e
      have hfree : s.lock = .released := by simpa [findsReleased, hpc] using hok
      rw [St.spinLocked, hfree]
      exact h.goto nofun nofun
  | trySwap =>
      rw [hpc] at e
      obtain rfl := Option.some.inj e
      exact h.swap (h.goto nofun nofun)
  | unlockLocked =>
      rw [hpc] at e
      obtain rfl := Option.some.inj e
      have ht : s.holds t = true := h.unlocks t (by rw [hpc]; rfl)
      rw [St.spinLocked, h.taken t ht]
      exact h.goto (fun _ => ht) nofun
  | unlockSwap =>
      rw [hpc] at e
      obtain rfl := Option.some.inj e
      exact h.leaves hpc

theorem step (h : Owned s) {a : Act T} (hok : findsReleased s a = true)
    (e : RawSpin.step s a = some s') : Owned s' := by
  cases a with
  | spinLock t | spinTrylock t =>
      obtain ⟨-, e⟩ := Option.ite_none_right_eq_some.mp e
      obtain rfl := Option.some.inj e
      exact h.goto nofun nofun
  | spinUnlock t =>
      obtain ⟨hc, e⟩ := Option.ite_none_right_eq_some.mp e
      obtain rfl := Option.some.inj e
      exact h.goto (fun _ => hc.2) nofun
  | run t => exact h.run hok e

end Owned

/-- At most one thread holds the lock, and no thread that does gets to the `PANIC`. -/
theorem spin_exclusion {s : St T} (hr : (system T).ReachVia (fun s a => findsReleased s a = true) s) :
    (∀ t u, s.holds t = true → s.holds u = true → t = u) ∧ ∀ t, s.pc t ≠ .panic := by
  have howned : Owned s := by
    refine hr.invariant (fun s h0 => ?_) fun s a s' h hok e => h.step hok e
    obtain rfl : s = spinLockInit := h0
    exact ⟨nofun, nofun, nofun, nofun⟩
  exact ⟨howned.one, howned.calm⟩

/-- A thread tries while another one is between its test and its compare-and-swap. -/
theorem spin_exclusion_contended : ∃ s : St (Fin 2),
    (system (Fin 2)).ReachVia (fun s a => findsReleased s a = true) s ∧
    (s.holds 1 = true ∧ s.pc 0 = .idle ∧ s.holds 0 = false) ∧
    (∀ t u, s.holds t = true → s.holds u = true → t = u) ∧ ∀ t, s.pc t ≠ .panic := by
  obtain ⟨s, hr, ht⟩ := TS.ReachVia.exists_of_run (M := system (Fin 2))
    (fun s a => findsReleased s a = true)
    [.spinTrylock 0, .run 0, .spinLock 1, .run 1, .run 0]
    (fun s => decide (s.holds 1 = true ∧ s.pc 0 = .idle ∧ s.holds 0 = false)) rfl
    (by decide +kernel) (by decide +kernel)
  exact ⟨s, hr, of_decide_eq_true ht, spin_exclusion hr⟩

/-- `spin_trylock` on a lock that is taken reports success; the holder's release then makes the
`spin_unlock` of the other thread panic. -/
theorem two_spin_holders :
    (∃ s, (system (Fin 2)).Reachable s ∧ s.holds 0 = true ∧ s.holds 1 = true) ∧
    ∃ s, (system (Fin 2)).Reachable s ∧ s.holds 1 = true ∧ s.pc 1 = .panic := by
  constructor
  · obtain ⟨s, hr, ht⟩ := TS.Reachable.exists_of_run (M := system (Fin 2))
      [.spinLock 0, .run 0, .spinTrylock 1, .run 1]
      (fun s => decide (s.holds 0 = true ∧ s.holds 1 = true)) rfl (by decide +kernel)
    exact ⟨s, hr, of_decide_eq_true ht⟩
  · obtain ⟨s, hr, ht⟩ := TS.Reachable.exists_of_run (M := system (Fin 2))
      [.spinLock 0, .run 0, .spinTrylock 1, .run 1, .spinUnlock 0, .run 0, .run 0, .spinUnlock 1,
        .run 1]
      (fun s => decide (s.holds 1 = true ∧ s.pc 1 = .panic)) rfl (by decide +kernel)
    exact ⟨s, hr, of_decide_eq_true ht⟩

end Libcask.RawSpin

namespace Libcask.TicketSpin

/-! ### The ticket lock -/

/-- Where a thread is: outside, in the loop of `spin_lock` with its ticket, or in possession. -/
inductive Pc where
  | idle
  | wait (id : BitVec 32)
  | holding
deriving DecidableEq, Repr

/-- A lock with its threads; the counters are `int`s.  `drawn` and `acquired` are history: the threads
in the order in which they drew their tickets, and in which they got the lock. -/
structure St (T : Type) where
  next : BitVec 32
  owner : BitVec 32
  pc : T → Pc
  drawn : List T
  acquired : List T

/-- A thread draws a ticket, reads `owner` in its loop, or calls `spin_unlock`. -/
inductive Act (T : Type) where
  | draw (t : T) | look (t : T) | spinUnlock (t : T)
deriving DecidableEq, Repr

variable {T : Type} [DecidableEq T]

def St.goto (s : St T) (t : T) (p : Pc) : St T := { s with pc := Function.update s.pc t p }

/-- What `spin_locked` tests. -/
def St.spinLocked (s : St T) : Bool := s.owner != s.next

def step (s : St T) : Act T → Option (St T)
  | .draw t =>
      if s.pc t = .idle then
        some ({ s with next := s.next + 1, drawn := s.drawn ++ [t] }.goto t (.wait s.next))
      else none
  | .look t =>
      match s.pc t with
      | .wait id =>
          some (if id = s.owner then { s with acquired := s.acquired ++ [t] }.goto t .holding else s)
      | _ => none
  | .spinUnlock t =>
      if s.pc t = .holding then some ({ s with owner := s.owner + 1 }.goto t .idle) else none

/-- `spin_lock_init`. -/
def spinLockInit : St T where
  next := 0
  owner := 0
  pc := fun _ => .idle
  drawn := []
  acquired := []

def system (T : Type) [DecidableEq T] : TS (St T) (Act T) where
  init s := s = spinLockInit
  step := step

section goto
variable (s : St T) (t : T) (p : Pc)

@[simp] theorem goto_pc_self : (s.goto t p).pc t = p := Function.update_self ..

theorem goto_pc_of_ne {t u : T} (h : u ≠ t) : (s.goto t p).pc u = s.pc u :=
  Function.update_of_ne h _ _

end goto

/-! ### The queue of tickets -/

/-- Fewer than `2 ^ 32` tickets ahead, a ticket is `owner` only if it is the next one. -/
theorem eq_add_ofNat_iff (x : BitVec 32) {n : ℕ} (hn : n < 2 ^ 32) :
    x = x + BitVec.ofNat 32 n ↔ n = 0 := by
  rw [← BitVec.toNat_inj, BitVec.toNat_add, BitVec.toNat_ofNat]
  have hx := x.isLt
  omega

theorem add_ofNat_succ (x : BitVec 32) (n : ℕ) :
    x + 1 + BitVec.ofNat 32 n = x + BitVec.ofNat 32 (n + 1) := by
  rw [BitVec.add_assoc, BitVec.add_comm 1, BitVec.ofNat_add]
  rfl

/-- What the place `i` in the queue says about a thread. -/
def St.At (s : St T) (i : ℕ) (t : T) : Prop :=
  s.pc t = .wait (s.owner + BitVec.ofNat 32 i) ∨ i = 0 ∧ s.pc t = .holding

/-- The threads `q` have tickets, in this order; the others are outside.  Those that are still waiting
are the ones that have drawn a ticket and not got the lock. -/
structure Queued (s : St T) (q : List T) : Prop where
  nodup : q.Nodup
  next : s.next = s.owner + BitVec.ofNat 32 q.length
  places : ∀ i (h : i < q.length), s.At i q[i]
  idle : ∀ t, t ∉ q → s.pc t = .idle
  order : s.drawn = s.acquired ++ q.filter fun t => s.pc t ≠ .holding

namespace Queued

variable {s s' : St T} {q : List T} {t : T}

/-- Only the first thread of the queue can have the lock. -/
theorem holding (h : Queued s q) (ht : s.pc t = .holding) : ∃ r, q = t :: r := by
  have hmem : t ∈ q := by
    by_contra hn
    cases (h.idle t hn).symm.trans ht
  obtain ⟨i, hi, rfl⟩ := List.getElem_of_mem hmem
  rcases h.places i hi with hw | ⟨rfl, -⟩
  · cases ht.symm.trans hw
  · cases q with
    | nil => cases hi
    | cons t r => exact ⟨r, rfl⟩

/-- Only the first thread of the queue finds its ticket called: the tickets of the others differ from
`owner` by less than `2 ^ 32`. -/
theorem called [Fintype T] (h : Queued s q) (hT : Fintype.card T < 2 ^ 32)
    (ht : s.pc t = .wait s.owner) : ∃ r, q = t :: r := by
  have hmem : t ∈ q := by
    by_contra hn
    cases (h.idle t hn).symm.trans ht
  obtain ⟨i, hi, rfl⟩ := List.getElem_of_mem hmem
  have hlen : q.length < 2 ^ 32 := lt_of_le_of_lt h.nodup.length_le_card hT
  have hi0 : i = 0 := by
    rcases h.places i hi with hw | ⟨hi0, -⟩
    · exact (eq_add_ofNat_iff s.owner (hi.trans hlen)).mp (Pc.wait.inj (ht.symm.trans hw))
    · exact hi0
  subst hi0
  cases q with
  | nil => cases hi
  | cons t r => exact ⟨r, rfl⟩

/-- A thread that moves does not change the others. -/
theorem filter_goto {p : Pc} {r : List T} (ht : t ∉ r) :
    (r.filter fun u => (s.goto t p).pc u ≠ .holding) = r.filter fun u => s.pc u ≠ .holding := by
  refine List.filter_congr fun u hu => ?_
  have hut : u ≠ t := fun hc => ht (hc ▸ hu)
  rw [goto_pc_of_ne s p hut]

theorem draw (h : Queued s q) (ht : s.pc t = .idle) :
    Queued ({ s with next := s.next + 1, drawn := s.drawn ++ [t] }.goto t (.wait s.next))
      (q ++ [t]) := by
  have hnot : t ∉ q := by
    intro hm
    obtain ⟨i, hi, rfl⟩ := List.getElem_of_mem hm
    rcases h.places i hi with hw | ⟨-, hw⟩ <;> cases ht.symm.trans hw
  refine ⟨List.nodup_append.mpr ⟨h.nodup, List.nodup_singleton t, ?_⟩, ?_, fun i hi => ?_,
    fun u hu => ?_, ?_⟩
  · intro x hx y hy hxy
    rw [List.mem_singleton] at hy
    exact hnot (hy ▸ hxy ▸ hx)
  · show s.next + 1 = s.owner + BitVec.ofNat 32 (q ++ [t]).length
    rw [h.next, List.length_append, List.length_singleton, BitVec.ofNat_add, BitVec.add_assoc]
    rfl
  · rw [List.length_append, List.length_singleton] at hi
    by_cases hiq : i < q.length
    · have hne : q[i] ≠ t := fun hc => hnot (hc ▸ List.getElem_mem hiq)
      rw [List.getElem_append_left hiq]
      unfold St.At
      rw [goto_pc_of_ne _ _ hne]
      exact h.places i hiq
    · obtain rfl : i = q.length := by omega
      left
      rw [List.getElem_concat_length rfl, goto_pc_self]
      exact congrArg Pc.wait h.next
  · rw [List.mem_append, List.mem_singleton, not_or] at hu
    rw [goto_pc_of_ne _ _ hu.2]
    exact h.idle u hu.1
  · have hself : ([t].filter fun u => (s.goto t (.wait s.next)).pc u ≠ .holding) = [t] := by
      simp
    show s.drawn ++ [t] = s.acquired ++ (q ++ [t]).filter fun u => (s.goto t (.wait s.next)).pc u ≠ .holding
    rw [List.filter_append, filter_goto hnot, hself, h.order, List.append_assoc]

theorem gets {r : List T} (h : Queued s (t :: r)) (ht : s.pc t = .wait s.owner) :
    Queued ({ s with acquired := s.acquired ++ [t] }.goto t .holding) (t :: r) := by
  obtain ⟨hnot, hnd⟩ := List.nodup_cons.mp h.nodup
  refine ⟨h.nodup, h.next, fun i hi => ?_, fun u hu => ?_, ?_⟩
  · cases i with
    | zero => exact .inr ⟨rfl, Function.update_self ..⟩
    | succ i =>
        have hi' : i < r.length := by simpa using hi
        have hne : r[i] ≠ t := fun hc => hnot (hc ▸ List.getElem_mem hi')
        have hold := h.places (i + 1) hi
        rw [List.getElem_cons_succ] at hold ⊢
        unfold St.At
        rw [goto_pc_of_ne _ _ hne]
        exact hold
  · have hut : u ≠ t := fun hc => hu (hc ▸ List.mem_cons_self)
    rw [goto_pc_of_ne _ _ hut]
    exact h.idle u hu
  · have horder := h.order
    rw [List.filter_cons_of_pos (by simp [ht])] at horder
    show s.drawn = (s.acquired ++ [t]) ++ (t :: r).filter fun u => (s.goto t .holding).pc u ≠ .holding
    rw [List.filter_cons_of_neg (by simp), filter_goto hnot, horder, List.append_assoc]
    rfl

theorem unlock {r : List T} (h : Queued s (t :: r)) (ht : s.pc t = .holding) :
    Queued ({ s with owner := s.owner + 1 }.goto t .idle) r := by
  obtain ⟨hnot, hnd⟩ := List.nodup_cons.mp h.nodup
  refine ⟨hnd, ?_, fun i hi => ?_, fun u hu => ?_, ?_⟩
  · show s.next = s.owner + 1 + BitVec.ofNat 32 r.length
    rw [add_ofNat_succ]
    exact h.next
  · have hne : r[i] ≠ t := fun hc => hnot (hc ▸ List.getElem_mem hi)
    left
    show Function.update s.pc t .idle r[i] = .wait (s.owner + 1 + BitVec.ofNat 32 i)
    rw [Function.update_of_ne hne, add_ofNat_succ]
    have hold := h.places (i + 1) (by simpa using hi)
    rcases hold with hw | ⟨h0, -⟩
    · exact hw
    · cases h0
  · by_cases hut : u = t
    · rw [hut]
      exact Function.update_self ..
    · rw [goto_pc_of_ne _ _ hut]
      exact h.idle u fun hm => (List.mem_cons.mp hm).elim hut hu
  · have horder := h.order
    rw [List.filter_cons_of_neg (by simp [ht])] at horder
    show s.drawn = s.acquired ++ r.filter fun u => (s.goto t .idle).pc u ≠ .holding
    rw [filter_goto hnot, horder]

theorem step [Fintype T] (h : Queued s q) (hT : Fintype.card T < 2 ^ 32) {a : Act T}
    (e : TicketSpin.step s a = some s') : ∃ q', Queued s' q' := by
  cases a with
  | draw t =>
      obtain ⟨ht, e⟩ := Option.ite_none_right_eq_some.mp e
      obtain rfl := Option.some.inj e
      exact ⟨_, h.draw ht⟩
  | look t =>
      unfold TicketSpin.step at e
      dsimp only at e
      cases ht : s.pc t with
      | idle | holding =>
          rw [ht] at e
          cases e
      | wait id =>
          rw [ht] at e
          obtain rfl := Option.some.inj e
          split_ifs with hid
          · rw [hid] at ht
            obtain ⟨r, rfl⟩ := h.called hT ht
            exact ⟨_, h.gets ht⟩
          · exact ⟨q, h⟩
  | spinUnlock t =>
      obtain ⟨ht, e⟩ := Option.ite_none_right_eq_some.mp e
      obtain rfl := Option.some.inj e
      obtain ⟨r, rfl⟩ := h.holding ht
      exact ⟨r, h.unlock ht⟩

end Queued

theorem queued_of_reach [Fintype T] (hT : Fintype.card T < 2 ^ 32) {s : St T}
    (hr : (system T).Reachable s) : ∃ q, Queued s q := by
  refine TS.ReachVia.invariant (I := fun s => ∃ q, Queued s q) (fun s h0 => ?_)
    (fun s a s' h _ e => ?_) hr
  · obtain rfl : s = spinLockInit := h0
    exact ⟨[], List.nodup_nil, rfl, fun i hi => (by cases hi), fun _ _ => rfl, rfl⟩
  · obtain ⟨q, hq⟩ := h
    exact hq.step hT e

/-- With fewer than `2 ^ 32` threads, at most one holds the lock, they get it in the order of their
tickets, and `spin_locked` tells whether a ticket is out. -/
theorem ticket_lock [Fintype T] (hT : Fintype.card T < 2 ^ 32) {s : St T}
    (hr : (system T).Reachable s) :
    (∀ t u, s.pc t = .holding → s.pc u = .holding → t = u) ∧
    s.acquired <+: s.drawn ∧
    (s.spinLocked = true ↔ ∃ t, s.pc t ≠ .idle) := by
  obtain ⟨q, hq⟩ := queued_of_reach hT hr
  refine ⟨fun t u ht hu => ?_, ⟨_, hq.order.symm⟩, ?_⟩
  · obtain ⟨r, hr⟩ := hq.holding ht
    obtain ⟨r', hr'⟩ := hq.holding hu
    exact List.head_eq_of_cons_eq (hr.symm.trans hr')
  · have hlen : q.length < 2 ^ 32 := lt_of_le_of_lt hq.nodup.length_le_card hT
    rw [St.spinLocked, bne_iff_ne, hq.next, ne_eq, eq_add_ofNat_iff s.owner hlen,
      List.length_eq_zero_iff]
    constructor
    · intro hne
      cases q with
      | nil => exact absurd rfl hne
      | cons t r =>
          refine ⟨t, fun hidle => ?_⟩
          rcases hq.places 0 (by simp) with hw | ⟨-, hw⟩ <;> cases hidle.symm.trans hw
    · rintro ⟨t, ht⟩ rfl
      exact ht (hq.idle t List.not_mem_nil)

/-- Three threads: one holds the lock, two wait. -/
theorem ticket_lock_three : ∃ s : St (Fin 3), (system (Fin 3)).Reachable s ∧
    (s.pc 1 = .holding ∧ s.drawn = [2, 1, 0, 2]) ∧
    (∀ t u, s.pc t = .holding → s.pc u = .holding → t = u) ∧
    s.acquired <+: s.drawn ∧ (s.spinLocked = true ↔ ∃ t, s.pc t ≠ .idle) := by
  obtain ⟨s, hr, ht⟩ := TS.Reachable.exists_of_run (M := system (Fin 3))
    [.draw 2, .draw 1, .look 2, .draw 0, .look 0, .spinUnlock 2, .draw 2, .look 1]
    (fun s => decide (s.pc 1 = .holding ∧ s.drawn = [2, 1, 0, 2])) rfl (by decide +kernel)
  exact ⟨s, hr, of_decide_eq_true ht, ticket_lock (by simp) hr⟩

end Libcask.TicketSpin
