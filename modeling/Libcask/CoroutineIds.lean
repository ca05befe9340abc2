import Libcask.Heap
import Libcask.RunQueue

/-! # Coroutine ids

The id allocator of a thread (`cid.c`), and the `cid` field of the tasks (`task.c`).  New ids are taken
from `base` up to `max_id`, then from the heap of the ids that were given back.  An id is an
`unsigned long`, the elements of the heap are pointers, and `base` is an `int`.

When all ids are in use `alloc_cid` returns -1, and `task_init` stores it.  `Pool` is what the allocator
knows: how many ids it has handed out, and which were given back.

* `id_allocator`: the ids given back and the ids in use are the ones handed out, each once.
* `live_ids_distinct`: as long as no task is created then, the tasks alive have different ids.
* `exhausted_ids_equal`: two tasks with the id -1. -/

namespace Libcask.Cid

open Heap HeapOrder

/-- `_id_cmp`. -/
def idCmp (l r : ℕ) : Bool := decide (toInt32 l < toInt32 r)

/-- `id_dispatch_t`. -/
structure IdDispatch where
  recycle : Heap ℕ
  base : ℤ
  maxId : ℕ

def threadMaxTaskSize : ℕ := 100000

def idDispatchInit (max : ℕ) : IdDispatch := ⟨heapInit id (some idCmp), 0, max⟩

/-- The allocator of the thread, and what the call returns. -/
def cidAllocatorInit (allocator : Option IdDispatch) (max : ℕ) : Option IdDispatch × ℤ :=
  match allocator with
  | some d => (some d, -1)
  | none => (some (idDispatchInit max), 0)

def allocCid (allocator : Option IdDispatch) : Option (IdDispatch × ℕ) :=
  let d := allocator.getD (idDispatchInit threadMaxTaskSize)
  if toUInt64 d.base ≥ d.maxId then
    match heapPop d.recycle with
    | none => none
    | some (recycle, ret, elm) =>
        if ret < 0 then some ({ d with recycle := recycle }, toUInt64 (-1))
        else elm.map fun elm => ({ d with recycle := recycle }, toUInt64 (toInt32 elm))
  else some ({ d with base := toInt32 (d.base + 1) }, toUInt64 d.base)

def freeCid (allocator : Option IdDispatch) (cid : ℕ) : Option (Option IdDispatch) :=
  match allocator with
  | none => some none
  | some d =>
      if d.maxId = 0 then none
      else (heapPush d.recycle (cid % d.maxId)).map fun r => some { d with recycle := r.1 }

/-- A thread: `_cid_allocator`, and the `cid` of the tasks alive. -/
structure St where
  allocator : Option IdDispatch
  cid : Tid → Option ℕ

/-- `task_create`; `t` is the address that `malloc` returns. -/
def taskCreate (s : St) (t : Tid) : Option St :=
  if (s.cid t).isSome then none
  else (allocCid s.allocator).map fun r => ⟨some r.1, Function.update s.cid t (some r.2)⟩

def taskDestory (s : St) (t : Tid) : Option St :=
  match s.cid t with
  | none => none
  | some c => (freeCid s.allocator c).map fun a => ⟨a, Function.update s.cid t none⟩

inductive Act where
  | create (t : Tid)
  | destory (t : Tid)
deriving DecidableEq, Repr

def step (s : St) : Act → Option St
  | .create t => taskCreate s t
  | .destory t => taskDestory s t

/-- The thread after `cid_allocator_init`. -/
def start (max : ℕ) : St := ⟨(cidAllocatorInit none max).1, fun _ => none⟩

def system : TS St Act where
  init s := ∃ max, 1 ≤ max ∧ s = start max
  step := step

/-! ### The ids in use -/

/-- A task is created only when there is an id for it: a new one (and `base` does not overflow), or
one that was given back. -/
def idFree (s : St) : Act → Prop
  | .create _ => ∀ d ∈ s.allocator, toUInt64 d.base < d.maxId ∧ toUInt64 d.base + 1 < 2 ^ 31 ∨
      d.maxId ≤ toUInt64 d.base ∧ heapSize d.recycle ≠ 0
  | .destory _ => True

instance (s : St) (a : Act) : Decidable (idFree s a) :=
  match a with
  | .create _ => inferInstanceAs (Decidable (∀ d ∈ s.allocator, _))
  | .destory _ => inferInstanceAs (Decidable True)

theorem orders : Orders id (some idCmp) fun x y => idCmp x y = true :=
  .strict idCmp
    { irrefl := fun x => by simp [idCmp]
      trans := fun x y z => by
        simp only [idCmp, decide_eq_true_eq]
        omega
      incomp_trans := fun x y z => by
        simp only [idCmp, decide_eq_true_eq]
        omega }

/-- The allocator has handed out the ids below `n`; those in the list `l` were given back. -/
structure Pool (d : IdDispatch) (n : ℕ) (l : List ℕ) : Prop where
  base : d.base = n
  le : n ≤ d.maxId
  bound : n < 2 ^ 31
  cmp : d.recycle.cmp = idCmp
  valid : Valid (fun x y => idCmp x y = true) d.recycle l
  nodup : l.Nodup
  lt : ∀ x ∈ l, x < n

namespace Pool

variable {d : IdDispatch} {n : ℕ} {l : List ℕ} {c : ℕ}

theorem init (max : ℕ) : Pool (idDispatchInit max) 0 [] where
  base := rfl
  le := Nat.zero_le _
  bound := by decide
  cmp := heapInit_some_cmp id idCmp
  valid := valid_init
  nodup := List.nodup_nil
  lt := by simp

theorem compares (h : Pool d n l) : Compares d.recycle.cmp fun x y => idCmp x y = true := by
  have hc := orders.compares
  rw [heapInit_some_cmp] at hc
  rw [h.cmp]
  exact hc

theorem length_le (h : Pool d n l) : l.length ≤ n := Rings.length_le h.nodup h.lt

theorem toUInt64_base (h : Pool d n l) : toUInt64 d.base = n := by
  have hb := h.bound
  rw [h.base, toUInt64_natCast (by omega)]

/-- A new id. -/
theorem alloc_new (h : Pool d n l) (hn : n < d.maxId) (hb : n + 1 < 2 ^ 31) :
    ∃ d', allocCid (some d) = some (d', n) ∧ d'.maxId = d.maxId ∧ Pool d' (n + 1) l := by
  have hbase : toInt32 (d.base + 1) = ((n + 1 : ℕ) : ℤ) := by
    rw [h.base, ← toInt32_natCast (n := n + 1) (by omega)]
    rfl
  refine ⟨{ d with base := toInt32 (d.base + 1) }, ?_, rfl, hbase, hn, hb, h.cmp, h.valid, h.nodup, ?_⟩
  · unfold allocCid
    dsimp only [Option.getD_some]
    rw [h.toUInt64_base, if_neg (by omega)]
  · intro x hx
    have hlt := h.lt x hx
    omega

/-- The smallest id that was given back. -/
theorem alloc_recycled (h : Pool d n l) (hn : d.maxId ≤ n) (hl : l ≠ []) :
    ∃ d' x l', allocCid (some d) = some (d', x) ∧ d'.maxId = d.maxId ∧ l.Perm (x :: l') ∧
      (∀ y ∈ l', x ≤ y) ∧ Pool d' n l' := by
  have hlen := h.length_le
  have hb := h.bound
  have := orders.isStrictWeakOrder
  obtain ⟨hp, l', x, he, hc, hperm, hv, hfirst⟩ := heapPop_spec h.compares h.valid (by omega) hl
  have hnodup : (x :: l').Nodup := hperm.nodup_iff.mp h.nodup
  have hlt := h.lt x (hperm.mem_iff.mpr List.mem_cons_self)
  have hsub : ∀ y ∈ l', y < n := fun y hy => h.lt y (hperm.mem_iff.mpr (List.mem_cons_of_mem x hy))
  refine ⟨{ d with recycle := hp }, x, l', ?_, rfl, hperm, fun y hy => ?_, h.base, h.le, hb,
    hc.trans h.cmp, hv, (List.nodup_cons.mp hnodup).2, hsub⟩
  · unfold allocCid
    dsimp only [Option.getD_some]
    rw [h.toUInt64_base, if_pos hn, he]
    simp [toInt32_natCast (show x < 2 ^ 31 by omega), toUInt64_natCast (show x < 2 ^ 64 by omega)]
  · have hy' := hsub y hy
    have hge := hfirst y hy
    unfold idCmp at hge
    rw [toInt32_natCast (by omega), toInt32_natCast (by omega), decide_eq_true_eq] at hge
    omega

/-- No id is left. -/
theorem alloc_none (h : Pool d n []) (hn : d.maxId ≤ n) :
    allocCid (some d) = some (d, toUInt64 (-1)) := by
  unfold allocCid
  dsimp only [Option.getD_some]
  rw [h.toUInt64_base, if_pos hn, heapPop_nil h.valid.holds]
  rfl

theorem free (h : Pool d n l) (hlt : c < n) (hmem : c ∉ l) :
    ∃ d' l', freeCid (some d) c = some (some d') ∧ d'.maxId = d.maxId ∧ l'.Perm (c :: l) ∧
      Pool d' n l' := by
  have hle := h.le
  have hb := h.bound
  have := orders.isStrictWeakOrder
  have hnodup : (c :: l).Nodup := List.nodup_cons.mpr ⟨hmem, h.nodup⟩
  have hall : ∀ x ∈ c :: l, x < n := by
    intro x hx
    rcases List.mem_cons.mp hx with rfl | hx
    · exact hlt
    · exact h.lt x hx
  have hlen := Rings.length_le hnodup hall
  rw [List.length_cons] at hlen
  obtain ⟨hp, l', he, hcmp, hperm, hv⟩ := heapPush_spec h.compares h.valid (by omega) c
  refine ⟨{ d with recycle := hp }, l', ?_, rfl, hperm, h.base, hle, hb, hcmp.trans h.cmp, hv,
    hperm.nodup_iff.mpr hnodup, fun x hx => hall x (hperm.mem_iff.mp hx)⟩
  unfold freeCid
  dsimp only
  rw [if_neg (by omega), Nat.mod_eq_of_lt (by omega), he]
  rfl

end Pool

/-- The ids below `n` have been handed out; those in the list `l` were given back. -/
structure Ids (d : IdDispatch) (cid : Tid → Option ℕ) (n : ℕ) (l : List ℕ) : Prop where
  base : d.base = n
  le : n ≤ d.maxId
  bound : n < 2 ^ 31
  cmp : d.recycle.cmp = idCmp
  valid : Valid (fun x y => idCmp x y = true) d.recycle l
  nodup : l.Nodup
  lt : ∀ x ∈ l, x < n
  live : ∀ t c, cid t = some c → c < n ∧ c ∉ l
  inj : ∀ t t' c, cid t = some c → cid t' = some c → t = t'

variable {d d' : IdDispatch} {cid : Tid → Option ℕ} {n : ℕ} {l : List ℕ} {t : Tid}

theorem Ids.pool (h : Ids d cid n l) : Pool d n l :=
  ⟨h.base, h.le, h.bound, h.cmp, h.valid, h.nodup, h.lt⟩

theorem Ids.of_pool (h : Pool d n l) (hlive : ∀ t c, cid t = some c → c < n ∧ c ∉ l)
    (hinj : ∀ t t' c, cid t = some c → cid t' = some c → t = t') : Ids d cid n l :=
  ⟨h.base, h.le, h.bound, h.cmp, h.valid, h.nodup, h.lt, hlive, hinj⟩

theorem ids_start (max : ℕ) : Ids (idDispatchInit max) (fun _ => none) 0 [] :=
  .of_pool (.init max) (by simp) (by simp)

/-- The `cid` of a task that is created. -/
theorem update_eq_some {x c : ℕ} {u : Tid} (h : Function.update cid t (some x) u = some c) :
    u = t ∧ c = x ∨ u ≠ t ∧ cid u = some c := by
  by_cases hu : u = t
  · subst hu
    rw [Function.update_self] at h
    exact .inl ⟨rfl, (Option.some.inj h).symm⟩
  · rw [Function.update_of_ne hu] at h
    exact .inr ⟨hu, h⟩

/-- An id that no task has goes to a task. -/
theorem inj_update {x : ℕ} (hinj : ∀ t t' c, cid t = some c → cid t' = some c → t = t')
    (hx : ∀ u, cid u ≠ some x) (u u' : Tid) (c : ℕ)
    (hu : Function.update cid t (some x) u = some c)
    (hu' : Function.update cid t (some x) u' = some c) : u = u' := by
  rcases update_eq_some hu with ⟨rfl, rfl⟩ | ⟨-, hc⟩
  · rcases update_eq_some hu' with ⟨rfl, -⟩ | ⟨-, hc'⟩
    · rfl
    · exact absurd hc' (hx u')
  · rcases update_eq_some hu' with ⟨rfl, rfl⟩ | ⟨-, hc'⟩
    · exact absurd hc (hx u)
    · exact hinj u u' c hc hc'

theorem Ids.create_new (h : Ids d cid n l) (hn : n < d.maxId) (hb : n + 1 < 2 ^ 31) :
    ∃ d', allocCid (some d) = some (d', n) ∧ Ids d' (Function.update cid t (some n)) (n + 1) l := by
  obtain ⟨d', he, -, hpool⟩ := h.pool.alloc_new hn hb
  refine ⟨d', he, .of_pool hpool ?_ ?_⟩
  · intro u c hu
    rcases update_eq_some hu with ⟨-, rfl⟩ | ⟨-, hc⟩
    · exact ⟨Nat.lt_succ_self _, fun hc => Nat.lt_irrefl _ (h.lt _ hc)⟩
    · have hlive := h.live u c hc
      exact ⟨Nat.lt_succ_of_lt hlive.1, hlive.2⟩
  · exact inj_update h.inj fun u hu => Nat.lt_irrefl _ (h.live u n hu).1

theorem Ids.create_recycled (h : Ids d cid n l) (hn : d.maxId ≤ n) (hl : l ≠ []) :
    ∃ d' x l', allocCid (some d) = some (d', x) ∧ Ids d' (Function.update cid t (some x)) n l' := by
  obtain ⟨d', x, l', he, -, hperm, -, hpool⟩ := h.pool.alloc_recycled hn hl
  have hx : x ∈ l := hperm.mem_iff.mpr List.mem_cons_self
  have hnodup : (x :: l').Nodup := hperm.nodup_iff.mp h.nodup
  refine ⟨d', x, l', he, .of_pool hpool ?_ ?_⟩
  · intro u c hu
    rcases update_eq_some hu with ⟨-, rfl⟩ | ⟨-, hc⟩
    · exact ⟨h.lt c hx, (List.nodup_cons.mp hnodup).1⟩
    · have hlive := h.live u c hc
      exact ⟨hlive.1, fun hm => hlive.2 (hperm.mem_iff.mpr (List.mem_cons_of_mem x hm))⟩
  · exact inj_update h.inj fun u hu => (h.live u x hu).2 hx

theorem Ids.destory (h : Ids d cid n l) {c : ℕ} (hc : cid t = some c) :
    ∃ d' l', freeCid (some d) c = some (some d') ∧ Ids d' (Function.update cid t none) n l' := by
  obtain ⟨hlt, hmem⟩ := h.live t c hc
  obtain ⟨d', l', he, -, hperm, hpool⟩ := h.pool.free hlt hmem
  have hother : ∀ {u x}, Function.update cid t none u = some x → u ≠ t ∧ cid u = some x := by
    intro u x hu
    by_cases hut : u = t
    · subst hut
      simp at hu
    · exact ⟨hut, by rwa [Function.update_of_ne hut] at hu⟩
  refine ⟨d', l', he, .of_pool hpool ?_ ?_⟩
  · intro u x hu
    obtain ⟨hut, hx⟩ := hother hu
    refine ⟨(h.live u x hx).1, fun hm => ?_⟩
    rcases List.mem_cons.mp (hperm.mem_iff.mp hm) with rfl | hm
    · exact hut (h.inj u t x hx hc)
    · exact (h.live u x hx).2 hm
  · intro u u' x hu hu'
    exact h.inj u u' x (hother hu).2 (hother hu').2

/-! ### Runs -/

/-- The ids of a thread. -/
def Sound (s : St) : Prop := ∃ d n l, s.allocator = some d ∧ Ids d s.cid n l

theorem sound_step {s s' : St} {a : Act} (h : Sound s) (hok : idFree s a) (he : step s a = some s') :
    Sound s' := by
  obtain ⟨d, n, l, ha, h⟩ := h
  cases a with
  | create t =>
      obtain ⟨-, he⟩ := Option.ite_none_left_eq_some.mp he
      rw [ha] at he
      have hfree := hok d ha
      rw [h.pool.toUInt64_base] at hfree
      rcases hfree with ⟨hn, hb⟩ | ⟨hn, hl⟩
      · obtain ⟨d', hal, h'⟩ := h.create_new (t := t) hn hb
        rw [hal] at he
        obtain rfl := Option.some.inj he
        exact ⟨d', _, l, rfl, h'⟩
      · have hne : l ≠ [] := by
          rintro rfl
          exact hl h.valid.holds.size
        obtain ⟨d', x, l', hal, h'⟩ := h.create_recycled (t := t) hn hne
        rw [hal] at he
        obtain rfl := Option.some.inj he
        exact ⟨d', n, l', rfl, h'⟩
  | destory t =>
      cases hc : s.cid t with
      | none =>
          rw [step, taskDestory, hc] at he
          cases he
      | some c =>
          rw [step, taskDestory, hc, ha] at he
          obtain ⟨d', l', hfree, h'⟩ := h.destory hc
          dsimp only at he
          rw [hfree] at he
          obtain rfl := Option.some.inj he
          exact ⟨d', n, l', rfl, h'⟩

theorem sound_of_reach {s : St} (hr : system.ReachVia idFree s) : Sound s := by
  refine hr.invariant (fun s h0 => ?_) fun s a s' h hok he => sound_step h hok he
  obtain ⟨max, -, rfl⟩ := h0
  exact ⟨_, 0, [], rfl, ids_start max⟩

/-- In every run that creates a task only when an id is left, no two tasks alive have the same id. -/
theorem live_ids_distinct {s : St} (hr : system.ReachVia idFree s) :
    ∀ t t' c, s.cid t = some c → s.cid t' = some c → t = t' := by
  obtain ⟨d, n, l, -, h⟩ := sound_of_reach hr
  exact h.inj

/-- All ids are in use, one is given back and used again. -/
theorem live_ids_distinct_recycled : ∃ s, system.ReachVia idFree s ∧
    (s.cid 1 = some 1 ∧ s.cid 2 = some 0) ∧
    ∀ t t' c, s.cid t = some c → s.cid t' = some c → t = t' := by
  obtain ⟨s, hr, hs⟩ := TS.ReachVia.exists_of_run (M := system) idFree
    [.create 0, .create 1, .destory 0, .create 2]
    (fun s => decide (s.cid 1 = some 1 ∧ s.cid 2 = some 0)) ⟨2, by decide, rfl⟩ (by decide +kernel)
    (by decide +kernel)
  exact ⟨s, hr, of_decide_eq_true hs, live_ids_distinct hr⟩

/-- With one id and three tasks, two tasks alive have the id -1. -/
theorem exhausted_ids_equal : ∃ s, system.Reachable s ∧ ∃ t t' c, t ≠ t' ∧ s.cid t = some c ∧
    s.cid t' = some c := by
  obtain ⟨s, hr, hs⟩ := TS.Reachable.exists_of_run (M := system) [.create 0, .create 1, .create 2]
    (fun s => decide (s.cid 1 = some (2 ^ 64 - 1) ∧ s.cid 2 = some (2 ^ 64 - 1)))
    ⟨1, by decide, rfl⟩ (by decide +kernel)
  obtain ⟨h1, h2⟩ := of_decide_eq_true hs
  exact ⟨s, hr, 1, 2, _, by decide, h1, h2⟩

/-! ### The allocator by itself -/

/-- An allocator with the ids that `alloc_cid` returned and that were not given back since. -/
structure Handed where
  allocator : IdDispatch
  ids : List ℕ

inductive Call where
  | alloc
  | free (cid : ℕ)
deriving DecidableEq, Repr

/-- Only an id that is allocated is given back; `(cid_t)-1` is not an id. -/
def call (s : Handed) : Call → Option Handed
  | .alloc => (allocCid (some s.allocator)).map fun r =>
      ⟨r.1, if r.2 = toUInt64 (-1) then s.ids else r.2 :: s.ids⟩
  | .free c =>
      if c ∈ s.ids then
        (freeCid (some s.allocator) c).bind fun a => a.map fun d => ⟨d, s.ids.erase c⟩
      else none

/-- An allocator for `max` ids. -/
def calls (max : ℕ) : TS Handed Call where
  init s := (cidAllocatorInit none max).1 = some s.allocator ∧ s.ids = []
  step := call

/-- The ids below `n` are divided between those given back and those allocated. -/
structure Divided (max : ℕ) (s : Handed) (n : ℕ) (l : List ℕ) : Prop where
  pool : Pool s.allocator n l
  max : s.allocator.maxId = max
  ids : (l ++ s.ids).Perm (List.range n)

section divided
variable {max : ℕ} {s s' : Handed} {n c : ℕ} {l : List ℕ}

theorem Divided.nodup (h : Divided max s n l) : (l ++ s.ids).Nodup :=
  h.ids.nodup_iff.mpr List.nodup_range

theorem Divided.mem_iff (h : Divided max s n l) : c ∈ l ++ s.ids ↔ c < n := by
  rw [h.ids.mem_iff, List.mem_range]

theorem Divided.length (h : Divided max s n l) : l.length + s.ids.length = n := by
  rw [← List.length_append, h.ids.length_eq, List.length_range]

/-- What `alloc_cid` does. -/
inductive Allocates (max : ℕ) (s : Handed) (n : ℕ) (l : List ℕ) : IdDispatch → ℕ → Prop
  | new {d : IdDispatch} (hn : n < max) (h : Divided max ⟨d, n :: s.ids⟩ (n + 1) l) : Allocates max s n l d n
  | recycled {d : IdDispatch} {x : ℕ} {l' : List ℕ} (hn : n = max) (hx : x ∈ l) (hfirst : ∀ y ∈ l, x ≤ y)
      (h : Divided max ⟨d, x :: s.ids⟩ n l') : Allocates max s n l d x
  | none (hn : n = max) (hl : l = []) : Allocates max s n l s.allocator (toUInt64 (-1))

theorem Divided.alloc (h : Divided max s n l) (hmax : max < 2 ^ 31) :
    ∃ d x, allocCid (some s.allocator) = some (d, x) ∧ Allocates max s n l d x := by
  have hle := h.pool.le
  rw [h.max] at hle
  by_cases hn : n < max
  · obtain ⟨d, he, hd, hpool⟩ := h.pool.alloc_new (by rw [h.max]; exact hn) (by omega)
    refine ⟨d, n, he, .new hn ⟨hpool, hd.trans h.max, ?_⟩⟩
    rw [List.range_succ]
    exact List.perm_middle.trans ((h.ids.cons n).trans (List.perm_append_singleton n _).symm)
  · have hn : n = max := by omega
    have hge : s.allocator.maxId ≤ n := by rw [h.max, hn]
    by_cases hl : l = []
    · exact ⟨_, _, (hl ▸ h.pool).alloc_none hge, .none hn hl⟩
    · obtain ⟨d, x, l', he, hd, hperm, hmin, hpool⟩ := h.pool.alloc_recycled hge hl
      refine ⟨d, x, he, .recycled hn (hperm.mem_iff.mpr List.mem_cons_self) (fun y hy => ?_)
        ⟨hpool, hd.trans h.max, ?_⟩⟩
      · rcases List.mem_cons.mp (hperm.mem_iff.mp hy) with rfl | hy
        · exact le_refl y
        · exact hmin y hy
      · exact List.perm_middle.trans ((hperm.symm.append_right s.ids).trans h.ids)

theorem Divided.free (h : Divided max s n l) (hc : c ∈ s.ids) :
    ∃ d l', freeCid (some s.allocator) c = some (some d) ∧
      Divided max ⟨d, s.ids.erase c⟩ n l' := by
  have hlt : c < n := h.mem_iff.mp (List.mem_append_right l hc)
  have hnot : c ∉ l := fun hm => (List.nodup_append.mp h.nodup).2.2 c hm c hc rfl
  obtain ⟨d, l', he, hd, hperm, hpool⟩ := h.pool.free hlt hnot
  refine ⟨d, l', he, hpool, hd.trans h.max, ?_⟩
  have hids : (c :: s.ids.erase c).Perm s.ids := (List.perm_cons_erase hc).symm
  exact (hperm.append_right _).trans (List.perm_middle.symm.trans ((hids.append_left l).trans h.ids))

/-- An id is not `(cid_t)-1`. -/
theorem ne_minus_one (hc : c < 2 ^ 31) : c ≠ toUInt64 (-1) := by
  have hm : toUInt64 (-1) = 2 ^ 64 - 1 := rfl
  omega

theorem divided_step (hmax : max < 2 ^ 31) {a : Call} (h : Divided max s n l)
    (e : call s a = some s') : ∃ n' l', Divided max s' n' l' := by
  have hb := h.pool.bound
  cases a with
  | alloc =>
      obtain ⟨d, x, he, hal⟩ := h.alloc hmax
      unfold call at e
      dsimp only at e
      rw [he] at e
      obtain rfl := Option.some.inj e
      dsimp only
      cases hal with
      | new hn h' =>
          rw [if_neg (ne_minus_one hb)]
          exact ⟨_, _, h'⟩
      | recycled hn hx hfirst h' =>
          have hlt := h.pool.lt x hx
          rw [if_neg (ne_minus_one (by omega))]
          exact ⟨_, _, h'⟩
      | none hn hl =>
          rw [if_pos rfl]
          exact ⟨n, l, h⟩
  | free c =>
      obtain ⟨hc, e⟩ := Option.ite_none_right_eq_some.mp e
      obtain ⟨d, l', he, h'⟩ := h.free hc
      rw [he] at e
      obtain rfl := Option.some.inj e
      exact ⟨n, l', h'⟩

theorem divided_of_reach (hmax : max < 2 ^ 31) (hr : (calls max).Reachable s) :
    ∃ n l, Divided max s n l := by
  refine TS.ReachVia.invariant (I := fun s => ∃ n l, Divided max s n l) (fun s h0 => ?_)
    (fun s a s' h _ e => ?_) hr
  · obtain ⟨ha, hids⟩ := h0
    have ha : idDispatchInit max = s.allocator := Option.some.inj ha
    refine ⟨0, [], ha ▸ .init max, by rw [← ha]; rfl, ?_⟩
    rw [hids]
    exact .refl _
  · obtain ⟨n, l, h⟩ := h
    exact divided_step hmax h e

/-- The ids given back and the ids allocated are those below `base`, each once; `alloc_cid` fails
exactly when all are allocated; once `base` has reached `max`, it returns the smallest id that is
not allocated; and an allocated id can be given back. -/
theorem id_allocator (hmax : max < 2 ^ 31) (hr : (calls max).Reachable s) :
    (s.allocator.recycle.array.toList ++ s.ids).Nodup ∧
    (∀ x : ℕ, x ∈ s.allocator.recycle.array.toList ++ s.ids ↔ (x : ℤ) < s.allocator.base) ∧
    s.allocator.base ≤ max ∧
    (∃ d c, allocCid (some s.allocator) = some (d, c) ∧
      (c = toUInt64 (-1) ↔ s.ids.length = max) ∧
      (s.allocator.base = max → c ≠ toUInt64 (-1) → IsLeast { x | x ∉ s.ids } c)) ∧
    ∀ c ∈ s.ids, ∃ s', call s (.free c) = some s' := by
  obtain ⟨n, l, h⟩ := divided_of_reach hmax hr
  have hb := h.pool.bound
  have hle := h.pool.le
  have hlen := h.length
  rw [h.max] at hle
  rw [h.pool.valid.holds.toList_eq, h.pool.base]
  refine ⟨h.nodup, fun x => ?_, by omega, ?_, fun c hc => ?_⟩
  · rw [h.mem_iff, Nat.cast_lt]
  · obtain ⟨d, c, he, hal⟩ := h.alloc hmax
    refine ⟨d, c, he, ?_, fun hbase hc => ?_⟩
    · cases hal with
      | new hn _ => exact iff_of_false (ne_minus_one hb) (by omega)
      | recycled hn hx _ _ =>
          have hlt := h.pool.lt c hx
          have hpos := List.length_pos_of_mem hx
          exact iff_of_false (ne_minus_one (by omega)) (by omega)
      | none hn hl =>
          rw [hl] at hlen
          exact iff_of_true rfl (by simpa [hn] using hlen)
    · cases hal with
      | new hn _ => omega
      | recycled hn hx hfirst _ =>
          refine ⟨fun hm => (List.nodup_append.mp h.nodup).2.2 c hx c hm rfl, fun x hxs => ?_⟩
          by_cases hxn : x < n
          · rcases List.mem_append.mp (h.mem_iff.mpr hxn) with hxl | hxi
            · exact hfirst x hxl
            · exact absurd hxi hxs
          · have hlt := h.pool.lt c hx
            omega
      | none => exact absurd rfl hc
  · obtain ⟨d, l', he, -⟩ := h.free hc
    refine ⟨⟨d, s.ids.erase c⟩, ?_⟩
    rw [call, if_pos hc, he]
    rfl

end divided

/-- Three ids are allocated, two are given back, and the smaller one comes first. -/
theorem id_allocator_recycles : ∃ s, (calls 3).Reachable s ∧ s.ids = [1] ∧ s.allocator.base = 3 ∧
    ∃ d c, allocCid (some s.allocator) = some (d, c) ∧ (c = toUInt64 (-1) ↔ s.ids.length = 3) ∧
      (s.allocator.base = (3 : ℕ) → c ≠ toUInt64 (-1) → IsLeast { x | x ∉ s.ids } c) := by
  obtain ⟨s, hr, hs⟩ := TS.Reachable.exists_of_run (M := calls 3)
    [.alloc, .alloc, .alloc, .free 2, .free 0]
    (fun s => decide (s.ids = [1] ∧ s.allocator.base = 3))
    (s := ⟨idDispatchInit 3, []⟩) ⟨rfl, rfl⟩ (by decide +kernel)
  obtain ⟨hids, hbase⟩ := of_decide_eq_true hs
  exact ⟨s, hr, hids, hbase, (id_allocator (by decide) hr).2.2.2.1⟩

end Libcask.Cid
