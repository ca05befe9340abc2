import Libcask.FdFlags

/-! # What the table and the kernel say about `O_NONBLOCK`

A hooked call waits in `event_poll` if `O_NONBLOCK` is in `flags` of the `inner_fd`, and trusts that
the kernel's flags say the same.  The system here is any sequence of `socket`, `accept`, `F_SETFL`,
`F_DUPFD` and `close`, each of them hooked or not, by any tasks; between the two parts of an `accept`
that waits, other calls come in.

The table is written on hooked paths only, and not on all of those: an unhooked `close` leaves the
record behind for the next descriptor with this number, and `F_DUPFD` makes a record without
`O_NONBLOCK` for a copy of a descriptor that has it.  `tracked_agree`: in a run whose calls stay clear
of this (`Careful`) table and kernel agree. -/

namespace Libcask.FdFlags

/-! ### The system -/

/-- The calls, with whether they are hooked, and the kernel's answers. -/
inductive Act where
  | socket (hooked : Bool) (n : ℕ) (flags : Flags) (ok : Bool)
  | accept (hooked : Bool) (fd n : ℕ) (flags : Flags) (ok : Bool)
  | acceptWait (fd : ℕ)
  | acceptFail
  | acceptReturn (n : ℕ) (flags : Flags) (ok : Bool)
  | setfl (hooked : Bool) (fd : ℕ) (flags : Flags) (ok : Bool)
  | dupfd (hooked : Bool) (fd n : ℕ)
  | close (hooked : Bool) (fd : ℕ)
deriving DecidableEq, Repr

def step (s : St) : Act → Option St
  | .socket hooked n flags ok => s.socket hooked n flags ok
  | .accept hooked fd n flags ok => s.accept hooked fd n flags ok
  | .acceptWait fd => s.acceptWait fd
  | .acceptFail => s.acceptFail
  | .acceptReturn n flags ok => s.acceptReturn n flags ok
  | .setfl hooked fd flags ok => (s.fcntlSetfl hooked fd flags ok).map Prod.fst
  | .dupfd hooked fd n => s.fcntlDupfd hooked fd n
  | .close hooked fd => some (s.close hooked fd)

/-- Any descriptors may be open, with any flags; none is tracked. -/
def system : TS St Act where
  init s := (∀ fd, s.ifd fd = none) ∧ s.accepting = 0
  step := step

/-- Table and kernel agree about a descriptor, if it is open and has a record. -/
def AgreeAt (s : St) (fd : ℕ) : Prop :=
  ∀ d r, s.kernel.fds fd = some d → s.getInnerFd fd = some r →
    nonblock r.flags = nonblock (s.kernel.flags d)

def Agree (s : St) : Prop := ∀ fd, AgreeAt s fd

/-- No other tracked descriptor has the same description. -/
def Alone (s : St) (fd : ℕ) : Prop :=
  ∀ n < maxFdNum, n ≠ fd → s.kernel.fds n = s.kernel.fds fd → s.ifd n = none

/-- The number of a new descriptor has no record, and its `F_SETFL` does not fail when the kernel has
already set `O_NONBLOCK`. -/
def FreshRecord (s : St) (n : ℕ) (hooked : Bool) (flags : Flags) (ok : Bool) : Prop :=
  s.getInnerFd n = none ∧ (hooked = true → ok = true ∨ nonblock flags = false)

/-- A hooked `F_SETFL`: a failing call is not the one that makes the record of a descriptor with
`O_NONBLOCK`; and one that brings `O_NONBLOCK` to the kernel was asked to, for a description that no
other tracked descriptor has. -/
def HookedSetfl (s : St) (fd : ℕ) (flags : Flags) (ok : Bool) : Prop :=
  ∀ d ∈ s.kernel.fds fd,
    (nonblock (s.kernel.flags d) = true → ok = true ∨ s.getInnerFd fd ≠ none) ∧
    (nonblock (s.kernel.flags d) = false → ok = false ∨ nonblock flags = true ∧ Alone s fd)

/-- An `F_SETFL` without hooks: it does not change `O_NONBLOCK` of a description that a tracked
descriptor has. -/
def PlainSetfl (s : St) (fd : ℕ) (flags : Flags) (ok : Bool) : Prop :=
  ∀ d ∈ s.kernel.fds fd, ok = false ∨ nonblock flags = nonblock (s.kernel.flags d) ∨
    s.getInnerFd fd = none ∧ Alone s fd

/-- The calls after which table and kernel still agree. -/
def Careful (s : St) : Act → Prop
  | .socket hooked n flags ok => FreshRecord s n hooked flags ok
  | .accept hooked fd n flags ok => FreshRecord s n (s.waits hooked fd) flags ok
  | .acceptReturn n flags ok => FreshRecord s n true flags ok
  | .setfl true fd flags ok => HookedSetfl s fd flags ok
  | .setfl false fd flags ok => PlainSetfl s fd flags ok
  | .dupfd hooked fd n => s.getInnerFd n = none ∧ ¬(0 < n ∧ s.waits hooked fd)
  | .acceptWait _ | .acceptFail | .close .. => True

instance (s : St) : DecidablePred (Alone s) := fun fd =>
  inferInstanceAs (Decidable (∀ n < maxFdNum, n ≠ fd → s.kernel.fds n = s.kernel.fds fd → s.ifd n = none))

instance (s : St) (n : ℕ) (hooked : Bool) (flags : Flags) (ok : Bool) :
    Decidable (FreshRecord s n hooked flags ok) :=
  inferInstanceAs (Decidable (_ ∧ _))

instance (s : St) : DecidablePred (Careful s)
  | .socket .. | .accept .. | .acceptReturn .. => inferInstanceAs (Decidable (FreshRecord ..))
  | .setfl true fd flags ok => inferInstanceAs (Decidable (∀ d ∈ s.kernel.fds fd,
      (nonblock (s.kernel.flags d) = true → ok = true ∨ s.getInnerFd fd ≠ none) ∧
      (nonblock (s.kernel.flags d) = false → ok = false ∨ nonblock flags = true ∧ Alone s fd)))
  | .setfl false fd flags ok => inferInstanceAs (Decidable (∀ d ∈ s.kernel.fds fd,
      ok = false ∨ nonblock flags = nonblock (s.kernel.flags d) ∨ s.getInnerFd fd = none ∧ Alone s fd))
  | .dupfd hooked fd n =>
      inferInstanceAs (Decidable (s.getInnerFd n = none ∧ ¬(0 < n ∧ s.waits hooked fd)))
  | .acceptWait _ | .acceptFail | .close .. => isTrue trivial

/-! ### One call -/

variable {s s' : St}

/-- A new descriptor without a record. -/
theorem Agree.kernelOpen {n : ℕ} {flags : Flags} (h : Agree s) (hn : s.getInnerFd n = none) :
    Agree (s.setKernel (s.kernel.openFd n flags)) := by
  intro fd d r hd hr
  have hne : fd ≠ n := by
    rintro rfl
    rw [St.getInnerFd_setKernel, hn] at hr
    cases hr
  have hd' : s.kernel.fds fd = some d := (Function.update_of_ne hne _ s.kernel.fds).symm.trans hd
  have hflags : (s.kernel.openFd n flags).flags d = s.kernel.flags d :=
    Function.update_of_ne (s.kernel.fds_lt fd d hd').ne _ _
  exact (h fd d r hd' hr).trans (congrArg nonblock hflags.symm)

/-- Only `user_flags` of a record change. -/
theorem Agree.setInner {fd : ℕ} {r r' : InnerFd} (h : Agree s) (hr : s.getInnerFd fd = some r)
    (hflags : r'.flags = r.flags) : Agree (s.setInner fd r') := by
  intro n d r₁ hd hr₁
  by_cases hn : n = fd
  · subst hn
    rw [St.getInnerFd_setInner (St.lt_of_getInnerFd hr)] at hr₁
    obtain rfl := Option.some.inj hr₁
    rw [hflags]
    exact h n d r hd hr
  · rw [St.getInnerFd_setInner_of_ne hn] at hr₁
    exact h n d r₁ hd hr₁

/-- The kernel's flags of `fd` get `O_NONBLOCK`: this is nothing new, or no other tracked descriptor
sees it. -/
theorem AgreeAt.store {t : St} {fd n d : ℕ} {flags : Flags} (h : AgreeAt s n) (hn : n ≠ fd)
    (hd : s.kernel.fds fd = some d) (hcond : nonblock (s.kernel.flags d) = false → Alone s fd)
    (hflags : nonblock flags = true) (hkernel : t.kernel = s.kernel.store d flags)
    (hinner : t.getInnerFd n = s.getInnerFd n) : AgreeAt t n := by
  intro d' r hd' hr
  rw [hkernel] at hd' ⊢
  rw [hinner] at hr
  have hagree := h d' r hd' hr
  by_cases hdd : d' = d
  · subst hdd
    have hnew : (s.kernel.store d' flags).flags d' = flags := Function.update_self ..
    rw [hnew, hflags, hagree]
    by_contra hnot
    have halone := hcond (Bool.not_eq_true _ ▸ hnot) n (St.lt_of_getInnerFd hr) hn (hd'.trans hd.symm)
    rw [St.getInnerFd, if_pos (St.lt_of_getInnerFd hr), halone] at hr
    cases hr
  · have hsame : (s.kernel.store d flags).flags d' = s.kernel.flags d' := Function.update_of_ne hdd _ _
    rw [hsame]
    exact hagree

/-- The kernel's flags of `fd` get `O_NONBLOCK`, and its record has it too. -/
theorem agree_store {t : St} {fd d : ℕ} {flags : Flags} {r : InnerFd}
    (hothers : ∀ n, n ≠ fd → AgreeAt s n) (hd : s.kernel.fds fd = some d)
    (hcond : nonblock (s.kernel.flags d) = false → Alone s fd) (hflags : nonblock flags = true)
    (hkernel : t.kernel = s.kernel.store d flags) (hself : t.getInnerFd fd = some r)
    (hr : nonblock r.flags = true) (hinner : ∀ n, n ≠ fd → t.getInnerFd n = s.getInnerFd n) :
    Agree t := by
  intro n
  by_cases hn : n = fd
  · subst hn
    intro d' r' hd' hr'
    rw [hkernel] at hd' ⊢
    obtain rfl : d = d' := Option.some.inj (hd.symm.trans hd')
    obtain rfl := Option.some.inj (hself.symm.trans hr')
    have hnew : (s.kernel.store d flags).flags d = flags := Function.update_self ..
    rw [hnew, hflags, hr]
  · exact (hothers n hn).store hn hd hcond hflags hkernel (hinner n hn)

/-- One hooked `F_SETFL`, once it has the record, which may be new. -/
theorem SetflWay.agree {fd : ℕ} {r : InnerFd} {flags : Flags} {ok : Bool} {x : St × Flags}
    (h : SetflWay s fd r flags ok x) (hr : s.getInnerFd fd = some r)
    (hothers : ∀ n, n ≠ fd → AgreeAt s n)
    (hself : AgreeAt s fd ∨ ok = true ∧ r = ⟨0, 0⟩ ∧ nonblock flags = true)
    (hcond : ∀ d ∈ s.kernel.fds fd, nonblock (s.kernel.flags d) = false →
      ok = false ∨ nonblock flags = true ∧ Alone s fd) : Agree x.1 := by
  have hlt := St.lt_of_getInnerFd hr
  have hagree (h : AgreeAt s fd) : Agree s := fun n =>
    if hn : n = fd then hn ▸ h else hothers n hn
  have hzero (h : nonblock flags = true) : flags ≠ 0 := by
    rintro rfl
    cases h
  cases h with
  | sameUser hnb hu =>
      apply hagree
      rcases hself with hself | ⟨-, rfl, -⟩
      · exact hself
      · exact absurd hu.symm (hzero hnb)
  | sameFlags hnb _ hf =>
      refine (hagree ?_).setInner hr rfl
      rcases hself with hself | ⟨-, rfl, -⟩
      · exact hself
      · exact absurd hf.symm (hzero hnb)
  | @stored d hnb _ _ hd hok =>
      refine agree_store hothers hd (fun hfalse => ?_) hnb rfl (St.getInnerFd_setInner hlt) hnb
        fun n hn => St.getInnerFd_setInner_of_ne hn
      rcases hcond d hd hfalse with hfail | ⟨-, halone⟩
      · exact absurd hok (by simp [hfail])
      · exact halone
  | failed _ _ _ hfail =>
      apply hagree
      rcases hself with hself | ⟨hok, -, -⟩
      · exact hself
      · intro d' r' hd' _
        rcases hfail with hnone | hfail
        · rw [hnone] at hd'
          cases hd'
        · exact absurd hok (by simp [hfail])
  | @ignored d hnb hd hok =>
      have hself : AgreeAt s fd := hself.resolve_right fun h => by simp [hnb] at h
      have hkernel : nonblock (s.kernel.flags d) = true := by
        by_contra hnot
        rcases hcond d hd (Bool.not_eq_true _ ▸ hnot) with hfail | ⟨hnb', -⟩
        · exact absurd hok (by simp [hfail])
        · exact absurd hnb' (by simp [hnb])
      exact agree_store hothers hd (fun hfalse => by simp [hkernel] at hfalse) (nonblock_or flags) rfl
        (St.getInnerFd_setInner hlt) ((hself d r hd hr).trans hkernel)
        fun n hn => St.getInnerFd_setInner_of_ne hn
  | ignoredFailed hnb _ =>
      have hself : AgreeAt s fd := hself.resolve_right fun h => by simp [hnb] at h
      exact (hagree hself).setInner hr rfl

theorem Agree.hookedSetfl {fd : ℕ} {flags ret : Flags} {ok : Bool} (h : Agree s)
    (hcond : HookedSetfl s fd flags ok) (hset : s.fcntlSetfl true fd flags ok = some (s', ret)) :
    Agree s' := by
  obtain ⟨s₁, r, hinner, hway⟩ := fcntlSetfl_cases hset
  obtain ⟨rfl, hr⟩ | ⟨hnone, hnb, hlt, rfl, rfl⟩ := innerForSetfl_cases hinner
  · exact hway.agree hr (fun n _ => h n) (.inl (h fd)) fun d hd => (hcond d hd).2
  · -- the new record has no `O_NONBLOCK`; if the kernel's flags do, the call must succeed
    refine hway.agree (St.getInnerFd_setInner hlt) (fun n hn => ?_) ?_ fun d hd hfalse => ?_
    · intro d r hd hr
      rw [St.getInnerFd_setInner_of_ne hn] at hr
      exact h n d r hd hr
    · by_cases hok : ok = true
      · exact .inr ⟨hok, rfl, hnb⟩
      · refine .inl fun d r hd hr => ?_
        rw [St.getInnerFd_setInner hlt] at hr
        obtain rfl := Option.some.inj hr
        cases hkernel : nonblock (s.kernel.flags d) with
        | true => exact absurd ((hcond d hd).1 hkernel) (by simp [hok, hnone])
        | false => exact hkernel.symm ▸ rfl
    · refine ((hcond d hd).2 hfalse).imp_right fun ⟨hnb, halone⟩ => ⟨hnb, fun n hlt' hn hshare => ?_⟩
      exact (Function.update_of_ne hn _ _).trans (halone n hlt' hn hshare)

theorem Agree.plainSetfl {fd : ℕ} {flags ret : Flags} {ok : Bool} (h : Agree s)
    (hcond : PlainSetfl s fd flags ok) (hset : s.fcntlSetfl false fd flags ok = some (s', ret)) :
    Agree s' := by
  have hs' : s.setKernel (s.kernel.setfl fd flags ok).1 = s' :=
    congrArg Prod.fst (Option.some.inj hset)
  obtain ⟨d, hd, hok, hk⟩ | ⟨-, hk⟩ := s.kernel.setfl_cases fd flags ok
  · rw [hk] at hs'
    subst hs'
    intro n d' r hd' hr
    by_cases hdd : d' = d
    · subst hdd
      have hnew : (s.kernel.store d' flags).flags d' = flags := Function.update_self ..
      rw [St.setKernel_kernel, hnew]
      rcases hcond d' hd with hfail | hsame | ⟨hnone, halone⟩
      · exact absurd hok (by simp [hfail])
      · exact (h n d' r hd' hr).trans hsame.symm
      · -- no tracked descriptor has the description
        by_cases hn : n = fd
        · rw [St.getInnerFd_setKernel, hn, hnone] at hr
          cases hr
        · have hlt := St.lt_of_getInnerFd hr
          have hnone' := halone n hlt hn (hd'.trans hd.symm)
          rw [St.getInnerFd_setKernel, St.getInnerFd, if_pos hlt, hnone'] at hr
          cases hr
    · have hsame : (s.kernel.store d flags).flags d' = s.kernel.flags d' :=
        Function.update_of_ne hdd _ _
      rw [St.setKernel_kernel, hsame]
      exact h n d' r hd' hr
  · rw [hk] at hs'
    exact hs' ▸ h

/-- `in_set_nonblock` on a descriptor that has just been opened. -/
theorem Agree.inSetNonblock {n : ℕ} {flags ret : Flags} {ok : Bool} (h : Agree s)
    (hn : s.getInnerFd n = none) (hcond : ok = true ∨ nonblock flags = false)
    (hset : (s.setKernel (s.kernel.openFd n flags)).inSetNonblock n ok = some (s', ret)) :
    Agree s' := by
  have hd : (s.kernel.openFd n flags).fds n = some s.kernel.descs := Function.update_self ..
  have hflags : (s.kernel.openFd n flags).flags s.kernel.descs = flags := Function.update_self ..
  obtain ⟨s₁, ret₁, hsetfl, hs'⟩ := inSetNonblock_cases hset
  have hagree : Agree s₁ := by
    refine (h.kernelOpen hn).hookedSetfl (fun d hd' => ?_) hsetfl
    obtain rfl : s.kernel.descs = d := Option.some.inj (hd.symm.trans hd')
    rw [St.setKernel_kernel, hflags]
    refine ⟨fun hnb => .inl (hcond.resolve_right (by simp [hnb])), fun _ => .inr ⟨nonblock_or _, ?_⟩⟩
    -- no other descriptor has the new description
    intro m _ hm hshare
    have hm' : s.kernel.fds m = some s.kernel.descs :=
      (Function.update_of_ne hm _ s.kernel.fds).symm.trans (hshare.trans hd)
    exact absurd (s.kernel.fds_lt m _ hm') (lt_irrefl _)
  obtain rfl | ⟨r, hr, rfl⟩ := hs'
  · exact hagree
  · exact hagree.setInner hr rfl

/-- A new descriptor, with `in_set_nonblock` or without. -/
theorem Agree.fresh {n : ℕ} {hooked : Bool} {flags : Flags} {ok : Bool} {s₁ : St} (h : Agree s)
    (hcond : FreshRecord s n hooked flags ok) (hopen : s.kernelOpen n flags = some s₁)
    (hset : (if hooked then (s₁.inSetNonblock n ok).map Prod.fst else some s₁) = some s') :
    Agree s' := by
  obtain ⟨-, rfl⟩ := kernelOpen_cases hopen
  obtain ⟨hn, hok⟩ := hcond
  cases hooked with
  | false =>
      obtain rfl := Option.some.inj hset
      exact h.kernelOpen hn
  | true =>
      obtain ⟨x, hx, rfl⟩ := Option.map_eq_some_iff.mp hset
      exact h.inSetNonblock hn (hok rfl) hx

theorem Agree.dupfd {hooked : Bool} {fd n : ℕ} (h : Agree s) (hn : s.getInnerFd n = none)
    (hcond : ¬(0 < n ∧ s.waits hooked fd)) (hdup : s.fcntlDupfd hooked fd n = some s') : Agree s' := by
  unfold St.fcntlDupfd at hdup
  obtain ⟨-, hdup⟩ := Option.ite_none_left_eq_some.mp hdup
  rw [if_neg hcond] at hdup
  obtain rfl := Option.some.inj hdup
  intro m d r hd hr
  have hne : m ≠ n := by
    rintro rfl
    rw [St.getInnerFd_setKernel, hn] at hr
    cases hr
  exact h m d r ((Function.update_of_ne hne _ s.kernel.fds).symm.trans hd) hr

/-- A deleted record says nothing. -/
theorem Agree.deleteInnerFd (h : Agree s) (fd : ℕ) : Agree (s.deleteInnerFd fd) := by
  unfold St.deleteInnerFd
  split
  · intro n d r hd hr
    by_cases hn : n = fd
    · simp [St.getInnerFd, hn] at hr
    · have hsame : s.getInnerFd n = some r := by simpa [St.getInnerFd, hn] using hr
      exact h n d r hd hsame
  · exact h

/-- A closed descriptor may keep its record. -/
theorem Agree.closeFd (h : Agree s) (fd : ℕ) : Agree (s.setKernel (s.kernel.closeFd fd)) := by
  intro n d r hd hr
  have hne : n ≠ fd := by
    rintro rfl
    have hclosed : (s.kernel.closeFd n).fds n = none := Function.update_self ..
    exact absurd (hclosed.symm.trans hd) (by simp)
  exact h n d r ((Function.update_of_ne hne _ s.kernel.fds).symm.trans hd) hr

theorem Agree.close (h : Agree s) (hooked : Bool) (fd : ℕ) : Agree (s.close hooked fd) := by
  unfold St.close
  split
  · exact (h.deleteInnerFd fd).closeFd fd
  · exact h.closeFd fd

/-! ### Whole runs -/

theorem agree_step {a : Act} (h : Agree s) (hc : Careful s a) (hs : step s a = some s') : Agree s' := by
  cases a with
  | socket hooked n flags ok =>
      simp only [step, St.socket] at hs
      split at hs
      · cases hs
      · exact h.fresh hc ‹_› hs
  | accept hooked fd n flags ok =>
      simp only [step, St.accept] at hs
      split at hs
      · cases hs
      · exact h.fresh hc ‹_› hs
  | acceptWait fd =>
      obtain ⟨-, hs⟩ := Option.ite_none_right_eq_some.mp hs
      obtain rfl := Option.some.inj hs
      exact h
  | acceptFail =>
      obtain ⟨-, hs⟩ := Option.ite_none_right_eq_some.mp hs
      obtain rfl := Option.some.inj hs
      exact h
  | acceptReturn n flags ok =>
      simp only [step, St.acceptReturn, St.acceptFail] at hs
      split at hs
      · cases hs
      · rename_i s₁ hfail
        obtain ⟨-, hfail⟩ := Option.ite_none_right_eq_some.mp hfail
        obtain rfl := Option.some.inj hfail
        have hc : FreshRecord { s with accepting := s.accepting - 1 } n true flags ok := hc
        split at hs
        · cases hs
        · exact Agree.fresh (s := { s with accepting := s.accepting - 1 }) h hc ‹_› hs
  | setfl hooked fd flags ok =>
      obtain ⟨x, hx, rfl⟩ := Option.map_eq_some_iff.mp hs
      cases hooked with
      | true => exact h.hookedSetfl hc hx
      | false => exact h.plainSetfl hc hx
  | dupfd hooked fd n => exact h.dupfd hc.1 hc.2 hs
  | close hooked fd =>
      obtain rfl := Option.some.inj hs
      exact h.close hooked fd

/-- In every state that careful calls lead to, each open descriptor with an `inner_fd` has
`O_NONBLOCK` in `flags` if and only if the kernel has it in its flags. -/
theorem tracked_agree {s : St} (hs : system.ReachVia Careful s) {fd d : ℕ} {r : InnerFd}
    (hd : s.kernel.fds fd = some d) (hr : s.getInnerFd fd = some r) :
    nonblock r.flags = true ↔ nonblock (s.kernel.getfl fd) = true := by
  have hagree : Agree s := by
    refine hs.invariant (fun s h0 fd d r _ hr => ?_) fun _ _ _ h hc hstep => agree_step h hc hstep
    have hnone : s.getInnerFd fd = none := by simp [St.getInnerFd, h0.1 fd]
    exact absurd (hnone.symm.trans hr) (by simp)
  rw [Kernel.getfl_of_fds hd, hagree fd d r hd hr]

/-- A hooked server: it accepts a connection after a wait, closes it, and the next one gets the same
number. -/
theorem tracked_agree_server : ∃ s r, system.ReachVia Careful s ∧ s.getInnerFd 4 = some r ∧
    (nonblock r.flags = true ↔ nonblock (s.kernel.getfl 4) = true) := by
  have hrun := TS.ReachVia.exists_of_run (M := system) (s := St.empty) Careful
    [.socket true 3 0x002 true, .setfl true 3 0x402 true, .acceptWait 3, .acceptReturn 4 0x002 true,
      .close true 4, .accept true 3 4 0x002 true]
    (fun s => decide (s.kernel.fds 4 = some 2 ∧ (s.getInnerFd 4).isSome))
    ⟨fun _ => rfl, rfl⟩ (by decide +kernel) (by decide +kernel)
  obtain ⟨s, hs, hP⟩ := hrun
  obtain ⟨hd, hsome⟩ := of_decide_eq_true hP
  obtain ⟨r, hr⟩ := Option.isSome_iff_exists.mp hsome
  exact ⟨s, r, hs, hr, tracked_agree hs hd hr⟩

/-- The socket 3 is closed without hooks; the next socket gets the number and finds the old record:
`F_SETFL` takes it that the flags are set, and the socket stays blocking. -/
theorem stale_record : ¬∀ (s : St) (fd d : ℕ) (r : InnerFd), system.Reachable s →
    s.kernel.fds fd = some d → s.getInnerFd fd = some r →
    (nonblock r.flags = true ↔ nonblock (s.kernel.getfl fd) = true) := by
  intro hall
  have hrun := TS.Reachable.exists_of_run (M := system) (s := St.empty)
    [.socket true 3 0x002 true, .close false 3, .socket true 3 0x002 true]
    (fun s => decide (s.kernel.fds 3 = some 1 ∧ s.getInnerFd 3 = some ⟨0x802, 0x002⟩ ∧
      s.kernel.getfl 3 = 0x002)) ⟨fun _ => rfl, rfl⟩ (by decide +kernel)
  obtain ⟨s, hs, hP⟩ := hrun
  obtain ⟨hd, hr, hflags⟩ := of_decide_eq_true hP
  have hiff := hall s 3 1 _ hs hd hr
  rw [hflags] at hiff
  exact absurd hiff (by decide)

end Libcask.FdFlags
