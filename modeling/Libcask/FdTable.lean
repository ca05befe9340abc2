import Libcask.CList
import Libcask.Transition

/-! # The table of `inner_fd.c`

`g_inner_fd_list` holds for every descriptor below `MAX_FD_NUM` a pointer to its record, or `NULL`.  The
records are allocated one by one and have their own link field, which `new_inner_fd` links to itself and
`delete_inner_fd` unlinks.  An index outside of the table and a pointer without a record are undefined
(`none`).

The table should be a partial map from descriptors to records (`Op.onMap`).  `new_inner_fd` does not check
its argument, and `set_inner_fd_timeout` has its test the wrong way round: it stores through the pointer
if it is `NULL`.

* `Tracks s m`: the state `s` holds the map `m`.
* `Tracks.done_iff`: a call does the operation on the map exactly if its arguments avoid these two mistakes
  (`Op.Ok`).
* `fd_table`: what follows for whole runs. -/

namespace Libcask.FdTable

/-! ### Definitions -/

/-- `inner_fd` without its link field. -/
structure InnerFd where
  fd : ℤ
  flags : ℤ
  userFlags : ℤ
  task : Option ℕ
  timeout : ℤ
  error : ℤ
deriving DecidableEq, Repr

/-- The table, and the records with their link fields; `brk` is the address that `malloc` returns next. -/
structure St where
  gInnerFdList : ℤ → Option ℕ
  heap : ℕ → Option InnerFd
  links : Links ℕ
  brk : ℕ
  errno : ℤ

def invalidFd : ℤ := -1

def maxFdNum : ℤ := 102400

def fdTimeout : ℤ := 60

def ieNone : ℤ := 0

def ebadf : ℤ := 9

def isFdValid (fd : ℤ) : Bool := fd > invalidFd ∧ fd < maxFdNum

namespace St

/-- The cell of the table at an index. -/
def cell (s : St) (fd : ℤ) : Option (Option ℕ) :=
  if 0 ≤ fd ∧ fd < maxFdNum then some (s.gInnerFdList fd) else none

def setCell (s : St) (fd : ℤ) (ifd : Option ℕ) : Option St :=
  if 0 ≤ fd ∧ fd < maxFdNum then some { s with gInnerFdList := Function.update s.gInnerFdList fd ifd }
  else none

/-- `ifd->timeout = msecs`. -/
def storeTimeout (s : St) (ifd : Option ℕ) (msecs : ℤ) : Option St :=
  ifd.bind fun p => (s.heap p).map fun r =>
    { s with heap := Function.update s.heap p (some { r with timeout := msecs }) }

end St

/-- The fields that `new_inner_fd` writes. -/
def freshRecord (fd : ℤ) : InnerFd := ⟨fd, 0, 0, none, fdTimeout, ieNone⟩

def newInnerFd (s : St) (fd : ℤ) : Option (St × ℕ) :=
  let ifd := s.brk
  let s := { s with
    heap := Function.update s.heap ifd (some (freshRecord fd))
    links := listInit s.links ifd
    brk := s.brk + 1 }
  (s.setCell fd (some ifd)).map fun s => (s, ifd)

def deleteInnerFd (s : St) (fd : ℤ) : Option St :=
  if !isFdValid fd then some s
  else
    (s.cell fd).bind fun
      | none => some s
      | some ifd =>
          (s.heap ifd).bind fun _ =>
            St.setCell { s with
              links := listDelete s.links ifd
              heap := Function.update s.heap ifd none } fd none

def getInnerFd (s : St) (fd : ℤ) : Option (St × Option ℕ) :=
  if !isFdValid fd then some ({ s with errno := ebadf }, none)
  else (s.cell fd).map fun ifd => (s, ifd)

/-- The test is `if(!ifd)`. -/
def setInnerFdTimeout (s : St) (fd : ℤ) (msecs : ℤ) : Option St :=
  if isFdValid fd then
    (getInnerFd s fd).bind fun (s, ifd) => if ifd.isNone then s.storeTimeout ifd msecs else some s
  else some s

/-- A call. -/
inductive Op where
  | new (fd : ℤ) | delete (fd : ℤ) | get (fd : ℤ) | setTimeout (fd msecs : ℤ)
deriving DecidableEq, Repr

def opStep (s : St) : Op → Option St
  | .new fd => (newInnerFd s fd).map Prod.fst
  | .delete fd => deleteInnerFd s fd
  | .get fd => (getInnerFd s fd).map Prod.fst
  | .setTimeout fd msecs => setInnerFdTimeout s fd msecs

/-- A partial map from descriptors to records, with their addresses. -/
abbrev Map := ℤ → Option (ℕ × InnerFd)

namespace Op

/-- The calls as operations on a map; a new record is at the address `p`. -/
def onMap (p : ℕ) (m : Map) : Op → Map
  | new fd => if isFdValid fd then Function.update m fd (some (p, freshRecord fd)) else m
  | delete fd => Function.update m fd none
  | get _ => m
  | setTimeout fd msecs =>
      Function.update m fd ((m fd).map fun (p, r) => (p, { r with timeout := msecs }))

/-- `new_inner_fd` gets a valid descriptor, and `set_inner_fd_timeout` one that is not valid or has the
timeout already. -/
def Ok (m : Map) : Op → Prop
  | new fd => isFdValid fd = true
  | setTimeout fd msecs => isFdValid fd = true → (m fd).map (·.2.timeout) = some msecs
  | _ => True

instance (m : Map) (op : Op) : Decidable (op.Ok m) :=
  match op with
  | new fd => inferInstanceAs (Decidable (isFdValid fd = true))
  | setTimeout fd msecs =>
      inferInstanceAs (Decidable (isFdValid fd = true → (m fd).map (·.2.timeout) = some msecs))
  | delete _ | get _ => isTrue trivial

end Op

/-- What the table says about a descriptor: the record and its address. -/
def St.lookup (s : St) (fd : ℤ) : Option (ℕ × InnerFd) :=
  if isFdValid fd then (s.gInnerFdList fd).bind fun p => (s.heap p).map fun r => (p, r) else none

/-- The empty table. -/
def init : St := ⟨fun _ => none, fun _ => none, ⟨id, id⟩, 0, 0⟩

/-- Calls from the empty table on; the history is the map. -/
def system : TS (St × Map) Op :=
  TS.withHistory ⟨fun s => s = init, opStep⟩ (fun _ => none) fun m s op _ => op.onMap s.brk m

/-! ### The table holds a map -/

theorem isFdValid_iff {fd : ℤ} : isFdValid fd = true ↔ 0 ≤ fd ∧ fd < maxFdNum := by
  show decide (fd > -1 ∧ fd < maxFdNum) = true ↔ _
  rw [decide_eq_true_iff]
  omega

/-- The table and the records are those of the map `m`.  A record has the number of its descriptor, so no
two descriptors share one. -/
structure Tracks (s : St) (m : Map) : Prop where
  table : ∀ fd, isFdValid fd = true → s.gInnerFdList fd = (m fd).map Prod.fst
  heap : ∀ fd p r, m fd = some (p, r) → s.heap p = some r ∧ r.fd = fd ∧ p < s.brk
  valid : ∀ fd, m fd ≠ none → isFdValid fd = true
  links : s.links = ⟨id, id⟩

variable {s : St} {m : Map} {fd : ℤ}

theorem tracks_init : Tracks init fun _ => none where
  table _ _ := rfl
  heap _ _ _ h := nomatch h
  valid _ h := absurd rfl h
  links := rfl

theorem Tracks.cell (h : Tracks s m) (hv : isFdValid fd = true) :
    s.cell fd = some ((m fd).map Prod.fst) := by
  rw [St.cell, if_pos (isFdValid_iff.mp hv), h.table fd hv]

/-- No two descriptors share a record: it would have both numbers. -/
theorem Tracks.addr_ne (h : Tracks s m) {fd' : ℤ} {p p' : ℕ} {r r' : InnerFd}
    (hm : m fd = some (p, r)) (hm' : m fd' = some (p', r')) (hfd : fd' ≠ fd) : p' ≠ p := by
  rintro rfl
  obtain ⟨hheap, hr, -⟩ := h.heap fd p' r hm
  obtain ⟨hheap', hr', -⟩ := h.heap fd' p' r' hm'
  obtain rfl := Option.some.inj (hheap.symm.trans hheap')
  exact hfd (hr'.symm.trans hr)

theorem Tracks.eq_none (h : Tracks s m) (hv : ¬isFdValid fd = true) : m fd = none := by
  by_contra hne
  exact hv (h.valid fd hne)

theorem Tracks.lookup (h : Tracks s m) (fd : ℤ) : s.lookup fd = m fd := by
  unfold St.lookup
  by_cases hv : isFdValid fd = true
  · rw [if_pos hv, h.table fd hv]
    cases hm : m fd with
    | none => rfl
    | some pr =>
        obtain ⟨p, r⟩ := pr
        simp [(h.heap fd p r hm).1]
  · rw [if_neg hv, h.eq_none hv]

theorem Tracks.getInnerFd (h : Tracks s m) (fd : ℤ) :
    ∃ s', FdTable.getInnerFd s fd = some (s', (m fd).map Prod.fst) ∧ Tracks s' m := by
  unfold FdTable.getInnerFd
  by_cases hv : isFdValid fd = true
  · rw [if_neg (by simp [hv]), h.cell hv]
    exact ⟨s, rfl, h⟩
  · rw [if_pos (by simp [hv]), h.eq_none hv]
    exact ⟨_, rfl, h.table, h.heap, h.valid, h.links⟩

theorem listInit_id (p : ℕ) : listInit ⟨id, id⟩ p = ⟨id, id⟩ := listInit_eq_self _ rfl rfl

theorem listDelete_id (p : ℕ) : listDelete ⟨id, id⟩ p = ⟨id, id⟩ := by
  have hself : Function.update id p p = (id : ℕ → ℕ) := Function.update_eq_self p id
  simp [listDelete_eq, Links.unlink, Links.setNext, Links.setPrev, hself]

/-- `new_inner_fd` on a valid descriptor. -/
theorem Tracks.newInnerFd (h : Tracks s m) (hv : isFdValid fd = true) :
    ∃ s', FdTable.newInnerFd s fd = some (s', s.brk) ∧
      Tracks s' (Function.update m fd (some (s.brk, freshRecord fd))) := by
  unfold FdTable.newInnerFd St.setCell
  dsimp only
  rw [if_pos (isFdValid_iff.mp hv)]
  refine ⟨_, rfl, fun fd' hv' => ?_, fun fd' p r hm => ?_, fun fd' hm => ?_, ?_⟩
  · by_cases hfd : fd' = fd
    · subst hfd
      simp
    · simp only [Function.update_of_ne hfd]
      exact h.table fd' hv'
  · by_cases hfd : fd' = fd
    · subst hfd
      rw [Function.update_self] at hm
      cases hm
      exact ⟨Function.update_self .., rfl, Nat.lt_succ_self _⟩
    · rw [Function.update_of_ne hfd] at hm
      obtain ⟨hheap, hr, hp⟩ := h.heap fd' p r hm
      exact ⟨(Function.update_of_ne hp.ne _ _).trans hheap, hr, Nat.lt_succ_of_lt hp⟩
  · by_cases hfd : fd' = fd
    · rw [hfd]
      exact hv
    · rw [Function.update_of_ne hfd] at hm
      exact h.valid fd' hm
  · show listInit s.links s.brk = _
    rw [h.links, listInit_id]

/-- Outside of the table `new_inner_fd` is undefined. -/
theorem newInnerFd_of_not_valid (s : St) (hv : ¬isFdValid fd = true) : newInnerFd s fd = none := by
  unfold newInnerFd St.setCell
  dsimp only
  rw [if_neg fun hc => hv (isFdValid_iff.mpr hc)]
  rfl

theorem Tracks.deleteInnerFd (h : Tracks s m) (fd : ℤ) :
    ∃ s', FdTable.deleteInnerFd s fd = some s' ∧ Tracks s' (Function.update m fd none) := by
  unfold FdTable.deleteInnerFd
  by_cases hv : isFdValid fd = true
  · rw [if_neg (by simp [hv]), h.cell hv]
    cases hm : m fd with
    | none =>
        refine ⟨s, rfl, ?_⟩
        rwa [← hm, Function.update_eq_self]
    | some pr =>
        obtain ⟨p, r⟩ := pr
        simp only [Option.map_some, Option.bind_some, (h.heap fd p r hm).1]
        unfold St.setCell
        rw [if_pos (isFdValid_iff.mp hv)]
        refine ⟨_, rfl, fun fd' hv' => ?_, fun fd' p' r' hm' => ?_, fun fd' hm' => ?_, ?_⟩
        · by_cases hfd : fd' = fd
          · subst hfd
            simp
          · simp only [Function.update_of_ne hfd]
            exact h.table fd' hv'
        · have hfd : fd' ≠ fd := by
            rintro rfl
            rw [Function.update_self] at hm'
            cases hm'
          rw [Function.update_of_ne hfd] at hm'
          obtain ⟨hheap', hr', hp'⟩ := h.heap fd' p' r' hm'
          exact ⟨(Function.update_of_ne (h.addr_ne hm hm' hfd) _ _).trans hheap', hr', hp'⟩
        · have hfd : fd' ≠ fd := by
            rintro rfl
            exact hm' (Function.update_self ..)
          rw [Function.update_of_ne hfd] at hm'
          exact h.valid fd' hm'
        · show listDelete s.links p = _
          rw [h.links, listDelete_id]
  · rw [if_pos (by simp [hv])]
    refine ⟨s, rfl, ?_⟩
    rwa [← h.eq_none hv, Function.update_eq_self]

/-- On a record the test of `set_inner_fd_timeout` fails, and on a valid descriptor without one the store
goes through `NULL`. -/
theorem Tracks.setInnerFdTimeout (h : Tracks s m) (hv : isFdValid fd = true) (msecs : ℤ) :
    FdTable.setInnerFdTimeout s fd msecs = (m fd).map fun _ => s := by
  unfold FdTable.setInnerFdTimeout FdTable.getInnerFd
  rw [if_pos hv, if_neg (by simp [hv]), h.cell hv]
  cases m fd <;> rfl

/-! ### One call -/

/-- The call does the operation on the map. -/
def Done (s : St) (m : Map) (op : Op) : Prop :=
  ∃ s', opStep s op = some s' ∧ ∀ fd, s'.lookup fd = op.onMap s.brk m fd

/-- Storing a timeout that is stored already changes nothing. -/
theorem onMap_setTimeout {msecs : ℤ} (hm : (m fd).map (·.2.timeout) = some msecs) (p : ℕ) :
    (Op.setTimeout fd msecs).onMap p m = m := by
  obtain ⟨⟨q, r⟩, hr, rfl⟩ := Option.map_eq_some_iff.mp hm
  simp only [Op.onMap, hr, Option.map_some]
  rw [← hr, Function.update_eq_self]

/-- A call that avoids the two mistakes does the operation on the map. -/
theorem Tracks.opStep (h : Tracks s m) {op : Op} (hok : op.Ok m) :
    ∃ s', FdTable.opStep s op = some s' ∧ Tracks s' (op.onMap s.brk m) := by
  cases op with
  | new fd =>
      have hv : isFdValid fd = true := hok
      obtain ⟨s', hs, h'⟩ := h.newInnerFd hv
      refine ⟨s', by rw [FdTable.opStep, hs]; rfl, ?_⟩
      rwa [Op.onMap, if_pos hv]
  | delete fd => exact h.deleteInnerFd fd
  | get fd =>
      obtain ⟨s', hs, h'⟩ := h.getInnerFd fd
      exact ⟨s', by rw [FdTable.opStep, hs]; rfl, h'⟩
  | setTimeout fd msecs =>
      by_cases hv : isFdValid fd = true
      · have hm := hok hv
        rw [onMap_setTimeout hm]
        obtain ⟨pr, hpr, -⟩ := Option.map_eq_some_iff.mp hm
        exact ⟨s, by rw [FdTable.opStep, h.setInnerFdTimeout hv, hpr]; rfl, h⟩
      · refine ⟨s, by rw [FdTable.opStep, FdTable.setInnerFdTimeout, if_neg hv], ?_⟩
        have hnone := h.eq_none hv
        simp only [Op.onMap, hnone, Option.map_none]
        rwa [← hnone, Function.update_eq_self]

/-- A call does the operation on the map exactly if it avoids the two mistakes. -/
theorem Tracks.done_iff (h : Tracks s m) (op : Op) : Done s m op ↔ op.Ok m := by
  constructor
  · rintro ⟨s', hs, hlook⟩
    cases op with
    | new fd =>
        by_contra hv
        rw [FdTable.opStep, newInnerFd_of_not_valid s hv] at hs
        cases hs
    | delete fd => trivial
    | get fd => trivial
    | setTimeout fd msecs =>
        intro hv
        rw [FdTable.opStep, h.setInnerFdTimeout hv] at hs
        obtain ⟨⟨p, r⟩, hm, rfl⟩ := Option.map_eq_some_iff.mp hs
        -- the call has left the record as it was
        have hat := hlook fd
        simp only [h.lookup, Op.onMap, Function.update_self, hm, Option.map_some, Option.some.injEq,
          Prod.mk.injEq, true_and] at hat
        rw [hm, hat]
        rfl
  · intro hok
    obtain ⟨s', hs, h'⟩ := h.opStep hok
    exact ⟨s', hs, h'.lookup⟩

/-! ### Runs -/

theorem tracks_of_reach {x : St × Map} (hr : system.ReachVia (fun x op => op.Ok x.2) x) :
    Tracks x.1 x.2 := by
  refine hr.invariant (I := fun x => Tracks x.1 x.2) ?_ ?_
  · rintro ⟨s, m⟩ ⟨rfl, rfl⟩
    exact tracks_init
  · intro x op x' hx hok hstep
    obtain ⟨hs, hm⟩ := TS.withHistory_step hstep
    obtain ⟨s', hs', h'⟩ := hx.opStep hok
    obtain rfl : s' = x'.1 := Option.some.inj (hs'.symm.trans hs)
    rwa [hm]

/-- **A partial map.**  In every run in which `new_inner_fd` gets valid descriptors only, and
`set_inner_fd_timeout` no valid descriptor other than one with that timeout, the table is the partial map
that the calls describe, at every moment: `get_inner_fd` returns the latest record of a descriptor, and no
record is linked to another.  Every further call is then defined and does what it should to its own
descriptor, and nothing to the others, exactly if it meets the condition as well. -/
theorem fd_table {x : St × Map} (hr : system.ReachVia (fun x op => op.Ok x.2) x) :
    (∀ fd, x.1.lookup fd = x.2 fd) ∧ (∀ fd, x.2 fd ≠ none → isFdValid fd = true) ∧
    (∀ fd, ∃ s', getInnerFd x.1 fd = some (s', (x.2 fd).map Prod.fst)) ∧
    (∀ p, x.1.links.next p = p ∧ x.1.links.prev p = p) ∧
    ∀ op, Done x.1 x.2 op ↔ op.Ok x.2 := by
  have h := tracks_of_reach hr
  refine ⟨h.lookup, h.valid, fun fd => ?_, fun p => ?_, h.done_iff⟩
  · obtain ⟨s', hs, -⟩ := h.getInnerFd fd
    exact ⟨s', hs⟩
  · rw [h.links]
    exact ⟨rfl, rfl⟩

/-- Two descriptors, one of which is opened again. -/
theorem fd_table_reopened : ∃ x : St × Map, x.1.lookup 3 = some (2, freshRecord 3) ∧
    x.1.lookup 4 = none := by
  obtain ⟨x, hr, hx⟩ := TS.ReachVia.exists_of_run (M := system) (fun x op => op.Ok x.2)
    [.new 3, .new 4, .delete 3, .new 3, .setTimeout 3 60, .setTimeout (-1) 5, .delete 4, .get 200000]
    (fun x => decide (x.2 3 = some (2, freshRecord 3) ∧ x.2 4 = none)) (s := (init, fun _ => none))
    ⟨rfl, rfl⟩ (by decide +kernel) (by decide +kernel)
  have hlook := (fd_table hr).1
  have hx := of_decide_eq_true hx
  exact ⟨x, (hlook 3).trans hx.1, (hlook 4).trans hx.2⟩

/-- `set_inner_fd_timeout` leaves the timeout of a tracked descriptor at 60 and stores through `NULL` for
an untracked one; `new_inner_fd` writes outside of the table. -/
theorem timeout_not_set :
    (∃ x : St × Map, system.Reachable x ∧ (x.1.lookup 3).map (·.2.timeout) = some 60 ∧
      (x.2 3).map (·.2.timeout) = some 5) ∧
    opStep init (.setTimeout 3 5) = none ∧ opStep init (.new (-1)) = none ∧
    opStep init (.new 102400) = none := by
  refine ⟨?_, rfl, rfl, rfl⟩
  obtain ⟨x, hr, hx⟩ := TS.Reachable.exists_of_run (M := system) [.new 3, .setTimeout 3 5]
    (fun x => decide ((x.1.lookup 3).map (·.2.timeout) = some 60 ∧
      (x.2 3).map (·.2.timeout) = some 5)) (s := (init, fun _ => none)) ⟨rfl, rfl⟩ (by decide +kernel)
  exact ⟨x, hr, of_decide_eq_true hx⟩

end Libcask.FdTable
