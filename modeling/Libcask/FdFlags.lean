import Libcask.Transition

/-! # The status flags of descriptors

`fcntl`, `socket`, `accept` and `close` of `sys_hook.c`, as far as they are about `O_NONBLOCK`, with
the table of `inner_fd.c`.  An `inner_fd` caches two words: `flags`, by which the hooked calls decide
whether to wait in `event_poll`, and `user_flags`, which the hooked `F_GETFL` returns.  The kernel has
the flags themselves, in an open file description that duplicated descriptors share; a new description
gets a number that no description has (`fds_lt`).

Whether a call is hooked (`co_hooked()`) is an argument, and so are the kernel's answers: the number
of a new descriptor, any that is closed, the flags it starts with, and whether `F_SETFL` succeeds; it
then stores the flags it is given.  A null dereference, or a write behind the end of the table, has no
result.

`flag_calls_iff`: on a descriptor from the hooked `socket`, a sequence of `F_SETFL` and `F_GETFL`
does what the program asked for just as long as no call comes across one of two defects: a failing
`F_SETFL` that drops `O_NONBLOCK` has changed `user_flags` already, and one that sets it is not passed
on when a cached word equals the flags, which does not mean that the kernel's flags do. -/

namespace Libcask.FdFlags

/-! ### The kernel -/

/-- An `int` of C: status flags, or what a call returns. -/
abbrev Flags := BitVec 32

def oNonblock : Flags := 0x800

/-- The test `flags & O_NONBLOCK`. -/
def nonblock (flags : Flags) : Bool := flags &&& oNonblock != 0

theorem nonblock_eq (flags : Flags) : nonblock flags = flags.getLsbD 11 := by
  have h : oNonblock = BitVec.twoPow 32 11 := by decide
  rw [nonblock, h, BitVec.and_twoPow]
  cases flags.getLsbD 11 <;> decide

@[simp] theorem nonblock_or (flags : Flags) : nonblock (flags ||| oNonblock) = true := by
  rw [nonblock_eq, BitVec.getLsbD_or]
  simp [oNonblock]

theorem or_of_nonblock {flags : Flags} (h : nonblock flags = true) : flags ||| oNonblock = flags := by
  rw [nonblock_eq] at h
  have h' : oNonblock = BitVec.twoPow 32 11 := by decide
  apply BitVec.eq_of_getLsbD_eq
  intro i _
  rw [BitVec.getLsbD_or, h', BitVec.getLsbD_twoPow]
  by_cases hi : 11 = i
  · subst hi
    simp [h]
  · simp [hi]

/-- The open file description of a descriptor, and its status flags.  `descs` is the number of
descriptions so far. -/
structure Kernel where
  fds : ℕ → Option ℕ
  flags : ℕ → Flags
  descs : ℕ
  fds_lt : ∀ fd d, fds fd = some d → d < descs

namespace Kernel

def getfl (k : Kernel) (fd : ℕ) : Flags :=
  match k.fds fd with
  | none => -1
  | some d => k.flags d

/-- The description `d` gets the flags. -/
def store (k : Kernel) (d : ℕ) (flags : Flags) : Kernel :=
  { k with flags := Function.update k.flags d flags }

def setfl (k : Kernel) (fd : ℕ) (flags : Flags) (ok : Bool) : Kernel × Flags :=
  match k.fds fd, ok with
  | some d, true => (k.store d flags, 0)
  | _, _ => (k, -1)

/-- `socket` and `accept`: the number `n` gets a description of its own. -/
def openFd (k : Kernel) (n : ℕ) (flags : Flags) : Kernel where
  fds := Function.update k.fds n (some k.descs)
  flags := Function.update k.flags k.descs flags
  descs := k.descs + 1
  fds_lt := by
    intro fd d h
    by_cases hfd : fd = n
    · rw [hfd, Function.update_self] at h
      exact Option.some.inj h ▸ Nat.lt_succ_self _
    · rw [Function.update_of_ne hfd] at h
      exact Nat.lt_succ_of_lt (k.fds_lt fd d h)

/-- `F_DUPFD`: the number `n` gets the description of `fd`. -/
def dupFd (k : Kernel) (fd n : ℕ) : Kernel where
  fds := Function.update k.fds n (k.fds fd)
  flags := k.flags
  descs := k.descs
  fds_lt := by
    intro m d h
    by_cases hm : m = n
    · rw [hm, Function.update_self] at h
      exact k.fds_lt fd d h
    · rw [Function.update_of_ne hm] at h
      exact k.fds_lt m d h

def closeFd (k : Kernel) (fd : ℕ) : Kernel where
  fds := Function.update k.fds fd none
  flags := k.flags
  descs := k.descs
  fds_lt := by
    intro m d h
    by_cases hm : m = fd
    · rw [hm, Function.update_self] at h
      cases h
    · rw [Function.update_of_ne hm] at h
      exact k.fds_lt m d h

end Kernel

/-! ### The hooks -/

/-- The two words of an `inner_fd`. -/
structure InnerFd where
  flags : Flags
  userFlags : Flags
deriving DecidableEq, Repr

def maxFdNum : ℕ := 102400

/-- The kernel and the table of `inner_fd.c`.  `accepting` is the number of hooked `accept` calls that
wait in `event_poll`. -/
structure St where
  kernel : Kernel
  ifd : ℕ → Option InnerFd
  accepting : ℕ

namespace St

def getInnerFd (s : St) (fd : ℕ) : Option InnerFd := if fd < maxFdNum then s.ifd fd else none

def setInner (s : St) (fd : ℕ) (r : InnerFd) : St :=
  { s with ifd := Function.update s.ifd fd (some r) }

def setKernel (s : St) (k : Kernel) : St := { s with kernel := k }

def newInnerFd (s : St) (fd : ℕ) : Option (St × InnerFd) :=
  if fd < maxFdNum then some (s.setInner fd ⟨0, 0⟩, ⟨0, 0⟩) else none

def deleteInnerFd (s : St) (fd : ℕ) : St :=
  if fd < maxFdNum then { s with ifd := Function.update s.ifd fd none } else s

/-- `fcntl` with `F_GETFL`. -/
def fcntlGetfl (s : St) (hooked : Bool) (fd : ℕ) : Flags :=
  if hooked then
    match s.getInnerFd fd with
    | none => s.kernel.getfl fd
    | some r => r.userFlags
  else s.kernel.getfl fd

/-- The beginning of the hooked `F_SETFL`: the `inner_fd` that the rest of it goes on with. -/
def innerForSetfl (s : St) (fd : ℕ) (flags : Flags) : Option (St × InnerFd) :=
  match s.getInnerFd fd with
  | some r => some (s, r)
  | none => if nonblock flags then s.newInnerFd fd else none

/-- The rest of the hooked `F_SETFL`. -/
def setflInner (s : St) (fd : ℕ) (r : InnerFd) (flags : Flags) (ok : Bool) : St × Flags :=
  if nonblock flags then
    if r.userFlags = flags then (s, 0)
    else if r.flags = flags then (s.setInner fd { r with userFlags := r.flags }, 0)
    else
      let (k, ret) := s.kernel.setfl fd flags ok
      let s := s.setKernel k
      (if ret = 0 then s.setInner fd ⟨flags, flags⟩ else s, ret)
  else
    -- the unsetting is ignored
    let s := s.setInner fd { r with userFlags := flags }
    let (k, ret) := s.kernel.setfl fd (flags ||| oNonblock) ok
    (s.setKernel k, ret)

/-- `fcntl` with `F_SETFL`. -/
def fcntlSetfl (s : St) (hooked : Bool) (fd : ℕ) (flags : Flags) (ok : Bool) : Option (St × Flags) :=
  if hooked then
    match s.innerForSetfl fd flags with
    | none => none
    | some (s, r) => some (s.setflInner fd r flags ok)
  else
    let (k, ret) := s.kernel.setfl fd flags ok
    some (s.setKernel k, ret)

def inSetNonblock (s : St) (fd : ℕ) (ok : Bool) : Option (St × Flags) :=
  let userFlags := s.fcntlGetfl false fd
  match s.fcntlSetfl true fd (userFlags ||| oNonblock) ok with
  | none => none
  | some (s, ret) =>
      if ret.slt 0 then some (s, -1)
      else
        match s.getInnerFd fd with
        | none => none
        | some r => some (s.setInner fd { r with userFlags := userFlags }, 0)

/-- The underlying `socket` or `accept` gives the closed number `n`. -/
def kernelOpen (s : St) (n : ℕ) (flags : Flags) : Option St :=
  if s.kernel.fds n = none then some (s.setKernel (s.kernel.openFd n flags)) else none

def socket (s : St) (hooked : Bool) (n : ℕ) (flags : Flags) (ok : Bool) : Option St :=
  match s.kernelOpen n flags with
  | none => none
  | some s => if hooked then (s.inSetNonblock n ok).map Prod.fst else some s

/-- The hooked calls on the descriptor wait in `event_poll`. -/
def waits (s : St) (hooked : Bool) (fd : ℕ) : Bool :=
  hooked && (s.getInnerFd fd).any fun r => nonblock r.flags

/-- `accept`, when the underlying call gives the number `n` at once. -/
def accept (s : St) (hooked : Bool) (fd n : ℕ) (flags : Flags) (ok : Bool) : Option St :=
  match s.kernelOpen n flags with
  | none => none
  | some s' => if s.waits hooked fd then (s'.inSetNonblock n ok).map Prod.fst else some s'

/-- `accept`, when the underlying call would block. -/
def acceptWait (s : St) (fd : ℕ) : Option St :=
  if s.waits true fd then some { s with accepting := s.accepting + 1 } else none

/-- `event_poll` fails, or the second `accept` does. -/
def acceptFail (s : St) : Option St :=
  if 0 < s.accepting then some { s with accepting := s.accepting - 1 } else none

/-- The second `accept` gives the number `n`. -/
def acceptReturn (s : St) (n : ℕ) (flags : Flags) (ok : Bool) : Option St :=
  match s.acceptFail with
  | none => none
  | some s =>
      match s.kernelOpen n flags with
      | none => none
      | some s => (s.inSetNonblock n ok).map Prod.fst

/-- `fcntl` with `F_DUPFD`, when the kernel gives the closed number `n`. -/
def fcntlDupfd (s : St) (hooked : Bool) (fd n : ℕ) : Option St :=
  if s.kernel.fds fd = none ∨ s.kernel.fds n ≠ none then none
  else
    let s' := s.setKernel (s.kernel.dupFd fd n)
    if 0 < n ∧ s.waits hooked fd then (s'.newInnerFd n).map Prod.fst else some s'

def close (s : St) (hooked : Bool) (fd : ℕ) : St :=
  let s := if hooked ∧ (s.getInnerFd fd).isSome then s.deleteInnerFd fd else s
  s.setKernel (s.kernel.closeFd fd)

/-! #### Records after an update -/

section

variable {s : St} {fd n : ℕ} {r : InnerFd}

@[simp] theorem setKernel_kernel (k : Kernel) : (s.setKernel k).kernel = k := rfl

@[simp] theorem setKernel_self : s.setKernel s.kernel = s := rfl

@[simp] theorem getInnerFd_setKernel (k : Kernel) :
    (s.setKernel k).getInnerFd fd = s.getInnerFd fd := rfl

@[simp] theorem setInner_kernel : (s.setInner fd r).kernel = s.kernel := rfl

@[simp] theorem setInner_setKernel_self : (s.setInner fd r).setKernel s.kernel = s.setInner fd r := rfl

theorem lt_of_getInnerFd (h : s.getInnerFd fd = some r) : fd < maxFdNum :=
  (Option.ite_none_right_eq_some.mp h).1

theorem getInnerFd_setInner (h : fd < maxFdNum) : (s.setInner fd r).getInnerFd fd = some r := by
  simp [getInnerFd, setInner, h]

theorem getInnerFd_setInner_of_ne (h : n ≠ fd) :
    (s.setInner fd r).getInnerFd n = s.getInnerFd n := by
  simp [getInnerFd, setInner, h]

end

end St

namespace Kernel

variable {k : Kernel} {fd d : ℕ} {flags : Flags} {ok : Bool}

theorem getfl_of_fds (h : k.fds fd = some d) : k.getfl fd = k.flags d := by
  rw [getfl, h]

theorem getfl_store (h : k.fds fd = some d) : (k.store d flags).getfl fd = flags := by
  rw [getfl_of_fds (k := k.store d flags) h]
  exact Function.update_self ..

/-- The kernel stores the flags, or it fails. -/
theorem setfl_cases (k : Kernel) (fd : ℕ) (flags : Flags) (ok : Bool) :
    (∃ d, k.fds fd = some d ∧ ok = true ∧ k.setfl fd flags ok = (k.store d flags, 0)) ∨
    ((k.fds fd = none ∨ ok = false) ∧ k.setfl fd flags ok = (k, -1)) := by
  cases hd : k.fds fd with
  | none => exact .inr ⟨.inl rfl, by simp [setfl, hd]⟩
  | some d =>
      cases ok with
      | true => exact .inl ⟨d, rfl, rfl, by simp [setfl, hd]⟩
      | false => exact .inr ⟨.inr rfl, by simp [setfl]⟩

end Kernel

/-! ### The ways through the hooked `F_SETFL` -/

/-- The ways through `setflInner`: a cached word equals the flags, or the kernel is called, with flags
that have `O_NONBLOCK` or with flags that do not. -/
inductive SetflWay (s : St) (fd : ℕ) (r : InnerFd) (flags : Flags) (ok : Bool) : St × Flags → Prop
  | sameUser : nonblock flags = true → r.userFlags = flags → SetflWay s fd r flags ok (s, 0)
  | sameFlags : nonblock flags = true → r.userFlags ≠ flags → r.flags = flags →
      SetflWay s fd r flags ok (s.setInner fd { r with userFlags := r.flags }, 0)
  | stored {d : ℕ} : nonblock flags = true → r.userFlags ≠ flags → r.flags ≠ flags →
      s.kernel.fds fd = some d → ok = true →
      SetflWay s fd r flags ok ((s.setKernel (s.kernel.store d flags)).setInner fd ⟨flags, flags⟩, 0)
  | failed : nonblock flags = true → r.userFlags ≠ flags → r.flags ≠ flags →
      (s.kernel.fds fd = none ∨ ok = false) → SetflWay s fd r flags ok (s, -1)
  | ignored {d : ℕ} : nonblock flags = false → s.kernel.fds fd = some d → ok = true →
      SetflWay s fd r flags ok ((s.setInner fd { r with userFlags := flags }).setKernel
        (s.kernel.store d (flags ||| oNonblock)), 0)
  | ignoredFailed : nonblock flags = false → (s.kernel.fds fd = none ∨ ok = false) →
      SetflWay s fd r flags ok (s.setInner fd { r with userFlags := flags }, -1)

theorem setflInner_way (s : St) (fd : ℕ) (r : InnerFd) (flags : Flags) (ok : Bool) :
    SetflWay s fd r flags ok (s.setflInner fd r flags ok) := by
  cases hnb : nonblock flags with
  | true =>
      by_cases hu : r.userFlags = flags
      · have hx : s.setflInner fd r flags ok = (s, 0) := by simp [St.setflInner, hnb, hu]
        exact hx ▸ .sameUser hnb hu
      by_cases hf : r.flags = flags
      · have hx : s.setflInner fd r flags ok = (s.setInner fd { r with userFlags := r.flags }, 0) := by
          simp [St.setflInner, hnb, hu, hf]
        exact hx ▸ .sameFlags hnb hu hf
      obtain ⟨d, hd, hok, hk⟩ | ⟨hfail, hk⟩ := s.kernel.setfl_cases fd flags ok
      · have hx : s.setflInner fd r flags ok =
            ((s.setKernel (s.kernel.store d flags)).setInner fd ⟨flags, flags⟩, 0) := by
          simp [St.setflInner, hnb, hu, hf, hk]
        exact hx ▸ .stored hnb hu hf hd hok
      · have hx : s.setflInner fd r flags ok = (s, -1) := by simp [St.setflInner, hnb, hu, hf, hk]
        exact hx ▸ .failed hnb hu hf hfail
  | false =>
      obtain ⟨d, hd, hok, hk⟩ | ⟨hfail, hk⟩ := s.kernel.setfl_cases fd (flags ||| oNonblock) ok
      · have hx : s.setflInner fd r flags ok = ((s.setInner fd { r with userFlags := flags }).setKernel
            (s.kernel.store d (flags ||| oNonblock)), 0) := by
          simp [St.setflInner, hnb, hk]
        exact hx ▸ .ignored hnb hd hok
      · have hx : s.setflInner fd r flags ok = (s.setInner fd { r with userFlags := flags }, -1) := by
          simp [St.setflInner, hnb, hk]
        exact hx ▸ .ignoredFailed hnb hfail

/-! ### Calls of `fcntl` on one descriptor -/

/-- The hooked calls of `fcntl` with `F_SETFL` and `F_GETFL`. -/
inductive FlagCall where
  | setfl (flags : Flags) (ok : Bool)
  | getfl
deriving DecidableEq, Repr

/-- The descriptor comes from the hooked `socket`, in any state; then come calls of `fcntl`. -/
def flagCalls (fd : ℕ) : TS St FlagCall where
  init s := ∃ s₀ flags ok, St.socket s₀ true fd flags ok = some s
  step s
    | .setfl flags ok => (s.fcntlSetfl true fd flags ok).map Prod.fst
    | .getfl => some s

/-- `F_SETFL` ends in the state `s'` with `ret`.  After a success the kernel has the flags that were
asked for, with `O_NONBLOCK`, and `F_GETFL` returns them; after a failure it returns what it did
before. -/
def Answered (fd : ℕ) (s : St) (flags : Flags) (s' : St) (ret : Flags) : Prop :=
  (ret = 0 → s'.kernel.getfl fd = flags ||| oNonblock ∧ s'.fcntlGetfl true fd = flags) ∧
  (ret ≠ 0 → s'.fcntlGetfl true fd = s.fcntlGetfl true fd)

def Honoured (fd : ℕ) (s : St) : FlagCall → Prop
  | .setfl flags ok => ∀ s' ret, s.fcntlSetfl true fd flags ok = some (s', ret) →
      Answered fd s flags s' ret
  | .getfl => True

/-- A cached word equals flags with `O_NONBLOCK` only if the kernel's flags do, and setting flags
without it succeeds or leaves `user_flags` as they are. -/
def Covered (fd : ℕ) (s : St) : FlagCall → Prop
  | .setfl flags ok => ∀ r, s.getInnerFd fd = some r →
      (nonblock flags = true → r.userFlags = flags ∨ r.flags = flags → s.kernel.getfl fd = flags) ∧
      (nonblock flags = false → ok = true ∨ r.userFlags = flags)
  | .getfl => True

instance (fd : ℕ) (s : St) : DecidablePred (Covered fd s)
  | .setfl flags ok => inferInstanceAs (Decidable (∀ r ∈ s.getInnerFd fd,
      (nonblock flags = true → r.userFlags = flags ∨ r.flags = flags → s.kernel.getfl fd = flags) ∧
      (nonblock flags = false → ok = true ∨ r.userFlags = flags)))
  | .getfl => isTrue trivial

/-- The descriptor is open and has an `inner_fd`. -/
def St.Tracked (s : St) (fd : ℕ) : Prop :=
  (∃ d, s.kernel.fds fd = some d) ∧ ∃ r, s.getInnerFd fd = some r

section

variable {s : St} {fd : ℕ}

/-- The hooked `F_SETFL` goes on with the record that is there. -/
theorem fcntlSetfl_of_inner {r : InnerFd} (hr : s.getInnerFd fd = some r) (flags : Flags) (ok : Bool) :
    s.fcntlSetfl true fd flags ok = some (s.setflInner fd r flags ok) := by
  simp [St.fcntlSetfl, St.innerForSetfl, hr]

theorem fcntlGetfl_of_inner {r : InnerFd} (hr : s.getInnerFd fd = some r) :
    s.fcntlGetfl true fd = r.userFlags := by
  simp [St.fcntlGetfl, hr]

theorem St.Tracked.setInner (h : s.Tracked fd) (r : InnerFd) : (s.setInner fd r).Tracked fd := by
  obtain ⟨hd, r₀, hr₀⟩ := h
  exact ⟨hd, r, St.getInnerFd_setInner (St.lt_of_getInnerFd hr₀)⟩

/-- One hooked `F_SETFL` leaves a tracked descriptor tracked. -/
theorem SetflWay.tracked {r : InnerFd} {flags : Flags} {ok : Bool} {x : St × Flags}
    (h : SetflWay s fd r flags ok x) (hs : s.Tracked fd) : x.1.Tracked fd := by
  cases h with
  | sameUser | failed => exact hs
  | sameFlags | ignored | ignoredFailed => exact hs.setInner _
  | stored _ _ _ hd _ => exact St.Tracked.setInner (s := s.setKernel _) hs _

/-- What one hooked `F_SETFL` on a tracked descriptor does. -/
theorem SetflWay.answered_iff {r : InnerFd} {d : ℕ} {flags : Flags} {ok : Bool} {x : St × Flags}
    (h : SetflWay s fd r flags ok x) (hd : s.kernel.fds fd = some d)
    (hr : s.getInnerFd fd = some r) : Answered fd s flags x.1 x.2 ↔
      (nonblock flags = true → r.userFlags = flags ∨ r.flags = flags → s.kernel.getfl fd = flags) ∧
      (nonblock flags = false → ok = true ∨ r.userFlags = flags) := by
  have hlt := St.lt_of_getInnerFd hr
  have hset : ∀ r', (s.setInner fd r').getInnerFd fd = some r' := fun r' => St.getInnerFd_setInner hlt
  cases h with
  | sameUser hnb hu =>
      simp [Answered, fcntlGetfl_of_inner hr, or_of_nonblock hnb, hnb, hu]
  | sameFlags hnb hu hf =>
      rw [Answered, fcntlGetfl_of_inner (hset _)]
      simp [or_of_nonblock hnb, hnb, hf]
  | @stored d' hnb hu hf hd' hok =>
      have hr' : ((s.setKernel (s.kernel.store d' flags)).setInner fd ⟨flags, flags⟩).getInnerFd fd =
        _ := St.getInnerFd_setInner hlt
      rw [Answered, fcntlGetfl_of_inner hr']
      simp [or_of_nonblock hnb, hnb, hu, hf, Kernel.getfl_store hd']
  | failed hnb hu hf _ => simp [Answered, hnb, hu, hf]
  | @ignored d' hnb hd' hok =>
      have hr' : ((s.setInner fd { r with userFlags := flags }).setKernel
        (s.kernel.store d' (flags ||| oNonblock))).getInnerFd fd = _ := hset _
      rw [Answered, fcntlGetfl_of_inner hr']
      simp [hnb, hok, Kernel.getfl_store hd']
  | ignoredFailed hnb hfail =>
      have hok : ok = false := hfail.resolve_left (by simp [hd])
      rw [Answered, fcntlGetfl_of_inner (hset _), fcntlGetfl_of_inner hr]
      simp [hnb, hok, eq_comm]

/-- The record that `F_SETFL` goes on with: the one that is there, or a new one. -/
theorem innerForSetfl_cases {s' : St} {r : InnerFd} {flags : Flags}
    (h : s.innerForSetfl fd flags = some (s', r)) :
    (s' = s ∧ s.getInnerFd fd = some r) ∨
    (s.getInnerFd fd = none ∧ nonblock flags = true ∧ fd < maxFdNum ∧ r = ⟨0, 0⟩ ∧
      s' = s.setInner fd ⟨0, 0⟩) := by
  unfold St.innerForSetfl at h
  cases hr : s.getInnerFd fd with
  | some r₀ =>
      rw [hr] at h
      obtain ⟨rfl, rfl⟩ := Prod.mk.inj (Option.some.inj h)
      exact .inl ⟨rfl, rfl⟩
  | none =>
      rw [hr] at h
      obtain ⟨hnb, h⟩ := Option.ite_none_right_eq_some.mp h
      obtain ⟨hlt, h⟩ := Option.ite_none_right_eq_some.mp h
      obtain ⟨rfl, rfl⟩ := Prod.mk.inj (Option.some.inj h)
      exact .inr ⟨rfl, hnb, hlt, rfl, rfl⟩

theorem fcntlSetfl_cases {s' : St} {flags ret : Flags} {ok : Bool}
    (h : s.fcntlSetfl true fd flags ok = some (s', ret)) :
    ∃ s₁ r, s.innerForSetfl fd flags = some (s₁, r) ∧ SetflWay s₁ fd r flags ok (s', ret) := by
  cases hi : s.innerForSetfl fd flags with
  | none => simp [St.fcntlSetfl, hi] at h
  | some x =>
      simp only [St.fcntlSetfl, hi, if_true, Option.some.injEq] at h
      exact ⟨x.1, x.2, rfl, h ▸ setflInner_way x.1 fd x.2 flags ok⟩

/-- `in_set_nonblock` is an `F_SETFL`; after a success it sets `user_flags`. -/
theorem inSetNonblock_cases {s' : St} {ret : Flags} {ok : Bool}
    (h : s.inSetNonblock fd ok = some (s', ret)) : ∃ s₁ ret₁,
      s.fcntlSetfl true fd (s.kernel.getfl fd ||| oNonblock) ok = some (s₁, ret₁) ∧
      (s' = s₁ ∨ ∃ r, s₁.getInnerFd fd = some r ∧
        s' = s₁.setInner fd { r with userFlags := s.kernel.getfl fd }) := by
  have hgetfl : s.fcntlGetfl false fd = s.kernel.getfl fd := rfl
  simp only [St.inSetNonblock, hgetfl] at h
  split at h
  · cases h
  · rename_i s₁ ret₁ hset
    refine ⟨s₁, ret₁, hset, ?_⟩
    split at h
    · obtain ⟨rfl, -⟩ := Prod.mk.inj (Option.some.inj h)
      exact .inl rfl
    · split at h
      · cases h
      · rename_i r hr
        obtain ⟨rfl, -⟩ := Prod.mk.inj (Option.some.inj h)
        exact .inr ⟨r, hr, rfl⟩

theorem kernelOpen_cases {s' : St} {flags : Flags} (h : s.kernelOpen fd flags = some s') :
    s.kernel.fds fd = none ∧ s' = s.setKernel (s.kernel.openFd fd flags) := by
  obtain ⟨hfree, h⟩ := Option.ite_none_right_eq_some.mp h
  exact ⟨hfree, (Option.some.inj h).symm⟩

/-- The hooked `socket` leaves a tracked descriptor, whether the kernel sets the flags or not. -/
theorem tracked_of_socket {s₀ : St} {flags : Flags} {ok : Bool}
    (h : s₀.socket true fd flags ok = some s) : s.Tracked fd := by
  unfold St.socket at h
  split at h
  · cases h
  · rename_i s₁ hopen
    obtain ⟨-, rfl⟩ := kernelOpen_cases hopen
    rw [if_pos rfl] at h
    obtain ⟨⟨s', ret⟩, hnonblock, rfl⟩ := Option.map_eq_some_iff.mp h
    have hd : (s₀.setKernel (s₀.kernel.openFd fd flags)).kernel.fds fd = some s₀.kernel.descs :=
      Function.update_self ..
    obtain ⟨s₂, ret₂, hset, hs'⟩ := inSetNonblock_cases hnonblock
    obtain ⟨s₃, r, hinner, hway⟩ := fcntlSetfl_cases hset
    have htracked : s₂.Tracked fd := by
      apply hway.tracked
      obtain ⟨rfl, hr⟩ | ⟨-, -, hlt, rfl, rfl⟩ := innerForSetfl_cases hinner
      · exact ⟨⟨_, hd⟩, r, hr⟩
      · exact ⟨⟨_, hd⟩, _, St.getInnerFd_setInner hlt⟩
    obtain rfl | ⟨r', -, rfl⟩ := hs'
    · exact htracked
    · exact htracked.setInner _

/-- A call of `fcntl` on a tracked descriptor returns, and leaves it tracked. -/
theorem flagCalls_total (h : s.Tracked fd) (a : FlagCall) :
    ∃ s', (flagCalls fd).step s a = some s' ∧ s'.Tracked fd := by
  cases a with
  | getfl => exact ⟨s, rfl, h⟩
  | setfl flags ok =>
      obtain ⟨⟨d, hd⟩, r, hr⟩ := h
      have hset := fcntlSetfl_of_inner hr flags ok
      exact ⟨_, Option.map_eq_some_iff.mpr ⟨_, hset, rfl⟩,
        (setflInner_way s fd r flags ok).tracked ⟨⟨d, hd⟩, r, hr⟩⟩

theorem honoured_iff (h : s.Tracked fd) (a : FlagCall) : Honoured fd s a ↔ Covered fd s a := by
  cases a with
  | getfl => exact Iff.rfl
  | setfl flags ok =>
      obtain ⟨⟨d, hd⟩, r, hr⟩ := h
      have hiff := (setflInner_way s fd r flags ok).answered_iff hd hr
      constructor
      · intro h r' hr'
        obtain rfl : r = r' := Option.some.inj (hr.symm.trans hr')
        exact hiff.mp (h _ _ (fcntlSetfl_of_inner hr flags ok))
      · intro h s' ret hset
        have hx := Option.some.inj ((fcntlSetfl_of_inner hr flags ok).symm.trans hset)
        have hanswered := hiff.mpr (h r hr)
        rwa [hx] at hanswered

/-- On a descriptor from the hooked `socket` every sequence of calls goes through, and it does what
the program asks for if and only if none of its calls meets one of the two defects. -/
theorem flag_calls_iff {fd : ℕ} {s : St} (hs : (flagCalls fd).init s) (as : List FlagCall) :
    (∃ s', (flagCalls fd).run s as = some s') ∧
    ((flagCalls fd).RunMeets (Honoured fd) s as ↔ (flagCalls fd).RunMeets (Covered fd) s as) := by
  obtain ⟨s₀, flags, ok, hsocket⟩ := hs
  have htracked := tracked_of_socket hsocket
  refine ⟨TS.exists_run_of_total (fun _ a h => flagCalls_total h a) as htracked, ?_⟩
  refine TS.runMeets_congr (I := fun s => s.Tracked fd) (fun s a s' h hstep => ?_)
    (fun _ a h => honoured_iff h a) htracked
  obtain ⟨s₁, hs₁, h₁⟩ := flagCalls_total h a
  obtain rfl : s₁ = s' := Option.some.inj (hs₁.symm.trans hstep)
  exact h₁

/-- Nothing is open and nothing is tracked. -/
def St.empty : St := ⟨⟨fun _ => none, fun _ => 0, 0, fun _ _ h => by cases h⟩, fun _ => none, 0⟩

/-- The descriptor 3 comes from `socket`, with `O_RDWR`. -/
def newSocket : St := ((St.empty.socket true 3 0x002 true).getD St.empty)

theorem init_newSocket : (flagCalls 3).init newSocket := ⟨St.empty, 0x002, true, rfl⟩

/-- The program adds `O_APPEND`, then `O_NONBLOCK`, and asks for the flags. -/
theorem flag_calls_append : ∃ s', (flagCalls 3).run newSocket
    [.setfl 0x402 true, .setfl 0xc02 true, .getfl] = some s' ∧ (flagCalls 3).RunMeets (Honoured 3)
      newSocket [.setfl 0x402 true, .setfl 0xc02 true, .getfl] := by
  obtain ⟨⟨s', hs'⟩, hiff⟩ := flag_calls_iff init_newSocket [.setfl 0x402 true, .setfl 0xc02 true, .getfl]
  exact ⟨s', hs', hiff.mpr (by decide +kernel)⟩

/-- The program adds `O_APPEND`, then sets the flags of the new socket with `O_NONBLOCK`: they equal
the cached `flags`, so that the call returns 0 without the system call, and `O_APPEND` stays. -/
theorem cached_flags_stale : ¬∀ (fd : ℕ) (s : St) (as : List FlagCall), (flagCalls fd).init s →
    (flagCalls fd).RunMeets (Honoured fd) s as := by
  intro hall
  obtain ⟨-, hnext⟩ := hall 3 newSocket [.setfl 0x402 true, .setfl 0x802 true] init_newSocket
  obtain ⟨hlast, -⟩ := hnext _ rfl
  obtain ⟨hkernel, -⟩ := (hlast _ 0 rfl).1 rfl
  exact absurd hkernel (by decide +kernel)

end

end Libcask.FdFlags
