import Libcask.Logged

/-! # Host lookups

`co_gethostbyname` of `sys_helper.c`: a loop around `gethostbyname_r` with a counter of the attempts, and
a `switch` on `h_errno` that drives the counter.  The word `h_errno` is in the local storage of the
coroutine, where it stays from one call to the next.

What the underlying lookups give is known in advance (`Answer`), and the log has the lookups that are
made.  `Faithful` is what the loop is for: another attempt after `TRY_AGAIN`, three of them at most, and a
`hostent` exactly if the last one succeeded.  The case `TRY_AGAIN` has no `break`, so that there is one
attempt only (`coGethostbyname_eq`), and the result of a lookup that returned 0 counts under every
`h_errno` but three.  `faithful_iff` says what is left. -/

namespace Libcask.HostLookup

open Logged

/-! ### Definitions -/

/-- The values of `h_errno`: `NETDB_SUCCESS`, `NETDB_INTERNAL`, `HOST_NOT_FOUND`, `TRY_AGAIN`,
`NO_RECOVERY`, `NO_DATA`, and those without a name. -/
inductive HErrno where
  | success | internal | hostNotFound | tryAgain | noRecovery | noData
  | other (code : ℤ)
deriving DecidableEq, Repr

/-- What an underlying lookup does: the value it returns, what it writes to `h_errno`, if it does, and
whether it sets `result`. -/
structure Answer where
  ret : ℤ
  herrno : Option HErrno
  result : Bool
deriving DecidableEq, Repr

/-- What the caller has after a lookup. -/
structure Attempt where
  ret : ℤ
  herrno : HErrno
  result : Bool
deriving DecidableEq, Repr

/-- `gethostbyname_r`, hooked or not; `herrno` is the word before the call. -/
def gethostbynameR (herrno : HErrno) (a : Answer) : Attempt where
  ret := a.ret
  herrno := a.herrno.getD herrno
  result := a.result

/-- The label `default` of the `switch`. -/
def switchDefault (ret : ℤ) : ℤ × ℤ := (ret, 0)

/-- The `switch`, on the variables `ret` and `retry`. -/
def switchHErrno (ret retry : ℤ) : HErrno → ℤ × ℤ
  | .hostNotFound => (-1, 0)
  | .noData => (-1, 0)
  | .noRecovery => (-1, 0)
  -- there is no `break`, and the value of `retry` is lost
  | .tryAgain => switchDefault (if retry - 1 = 0 then -1 else ret)
  | _ => switchDefault ret

/-- The loop `while(retry)`.  There is no value if the answers do not suffice. -/
def lookupLoop : List Answer → ℤ → ℤ → HErrno → Logged Attempt (Option (ℤ × HErrno))
  | [], ret, retry, herrno => pure (if retry ≠ 0 then none else some (ret, herrno))
  | a :: answers, ret, retry, herrno =>
      if retry ≠ 0 then
        let r := gethostbynameR herrno a
        let next := switchHErrno r.ret retry r.herrno
        tell r >>= fun _ => lookupLoop answers next.1 next.2 r.herrno
      else pure (some (ret, herrno))

/-- What `co_gethostbyname` returns, a `hostent` or `NULL`, and the word it leaves in the storage. -/
structure Lookup where
  found : Bool
  stored : HErrno
deriving DecidableEq, Repr

/-- `co_gethostbyname`; `stored` is the word in the storage of the coroutine, if there is one. -/
def coGethostbyname (stored : Option HErrno) (answers : List Answer) :
    Logged Attempt (Option Lookup) := do
  let out ← lookupLoop answers 0 3 (stored.getD .success)
  pure (out.map fun (ret, herrno) => { found := decide (ret = 0), stored := herrno })

/-! ### What the loop is for -/

/-- The attempts of a lookup that is repeated after `TRY_AGAIN`, at most `n` in total. -/
def attempts : ℕ → HErrno → List Answer → List Attempt
  | 0, _, _ => []
  | _ + 1, _, [] => []
  | n + 1, herrno, a :: answers =>
      let r := gethostbynameR herrno a
      if r.herrno = .tryAgain then r :: attempts n r.herrno answers else [r]

/-- The attempt returned 0, and `h_errno` reports no error. -/
def Attempt.Succeeded (r : Attempt) : Prop := r.ret = 0 ∧ r.herrno = .success

instance (r : Attempt) : Decidable r.Succeeded := inferInstanceAs (Decidable (_ ∧ _))

/-- `co_gethostbyname` returns, makes the attempts it is to make, and returns a `hostent` exactly if the
last of them succeeded. -/
def Faithful (stored : Option HErrno) (answers : List Answer) : Prop :=
  ∃ out, (coGethostbyname stored answers).val = some out ∧
    (coGethostbyname stored answers).log = attempts 3 (stored.getD .success) answers ∧
    (out.found = true ↔ ∃ r, (coGethostbyname stored answers).log.getLast? = some r ∧ r.Succeeded)

/-! ### What it does -/

/-- Every way through the `switch` ends the loop. -/
theorem switchHErrno_retry (ret retry : ℤ) (herrno : HErrno) :
    (switchHErrno ret retry herrno).2 = 0 := by
  cases herrno <;> rfl

theorem lookupLoop_done (answers : List Answer) (ret : ℤ) (herrno : HErrno) :
    lookupLoop answers ret 0 herrno = pure (some (ret, herrno)) := by
  cases answers <;> rfl

/-- The loop makes one attempt, whatever the lookups give. -/
theorem lookupLoop_cons (a : Answer) (answers : List Answer) (ret : ℤ) {retry : ℤ} (h : retry ≠ 0)
    (herrno : HErrno) :
    lookupLoop (a :: answers) ret retry herrno =
      ⟨some ((switchHErrno a.ret retry (gethostbynameR herrno a).herrno).1,
        (gethostbynameR herrno a).herrno), [gethostbynameR herrno a]⟩ := by
  simp only [lookupLoop, if_pos h, switchHErrno_retry, lookupLoop_done]
  rfl

theorem coGethostbyname_eq (stored : Option HErrno) (a : Answer) (answers : List Answer) :
    coGethostbyname stored (a :: answers) =
      let r := gethostbynameR (stored.getD .success) a
      ⟨some { found := decide ((switchHErrno r.ret 3 r.herrno).1 = 0), stored := r.herrno }, [r]⟩ := by
  unfold coGethostbyname
  rw [lookupLoop_cons a answers 0 (by decide)]
  rfl

/-- What the first attempt makes of `ret` is 0 exactly if the attempt succeeded, unless it returned 0 with
an error that the `switch` does not treat as one. -/
theorem switchHErrno_iff_succeeded {r : Attempt} (h : r.herrno ≠ .tryAgain) :
    ((switchHErrno r.ret 3 r.herrno).1 = 0 ↔ r.Succeeded) ↔
      (r.ret = 0 → r.herrno ∈ [.success, .hostNotFound, .noData, .noRecovery]) := by
  obtain ⟨ret, herrno, result⟩ := r
  cases herrno with
  | tryAgain => exact absurd rfl h
  | success => simp [switchHErrno, switchDefault, Attempt.Succeeded]
  | hostNotFound => simp [switchHErrno, Attempt.Succeeded]
  | noRecovery => simp [switchHErrno, Attempt.Succeeded]
  | noData => simp [switchHErrno, Attempt.Succeeded]
  | internal => simp [switchHErrno, switchDefault, Attempt.Succeeded]
  | other code => simp [switchHErrno, switchDefault, Attempt.Succeeded]

theorem attempts_ne_nil (n : ℕ) (herrno : HErrno) (a : Answer) (answers : List Answer) :
    attempts (n + 1) herrno (a :: answers) ≠ [] := by
  simp only [attempts]
  split_ifs <;> exact List.cons_ne_nil _ _

/-- One attempt is right exactly if it does not end with `TRY_AGAIN`. -/
theorem attempts_eq_singleton_iff (n : ℕ) (herrno : HErrno) (a b : Answer) (answers : List Answer) :
    [gethostbynameR herrno a] = attempts (n + 2) herrno (a :: b :: answers) ↔
      (gethostbynameR herrno a).herrno ≠ .tryAgain := by
  rw [attempts.eq_3]
  split_ifs with h
  · refine iff_of_false (fun he => ?_) (not_not.mpr h)
    exact attempts_ne_nil n _ b answers (List.cons.inj he).2.symm
  · exact iff_of_true rfl h

/-- **Lookups.**  For all answers of the underlying lookups and every word in the storage,
`co_gethostbyname` does what it is for exactly if its first lookup does not end with `TRY_AGAIN` and, where
this lookup returns 0, `h_errno` is `NETDB_SUCCESS` or one of the three errors that end the loop. -/
theorem faithful_iff (stored : Option HErrno) (a b c : Answer) (answers : List Answer) :
    let r := gethostbynameR (stored.getD .success) a
    Faithful stored (a :: b :: c :: answers) ↔
      r.herrno ≠ .tryAgain ∧
        (r.ret = 0 → r.herrno ∈ [.success, .hostNotFound, .noData, .noRecovery]) := by
  intro r
  have hone := attempts_eq_singleton_iff 1 (stored.getD .success) a b (c :: answers)
  unfold Faithful
  rw [coGethostbyname_eq]
  constructor
  · rintro ⟨out, hval, hlog, hfound⟩
    obtain rfl := Option.some.inj hval
    have hagain := hone.mp hlog
    refine ⟨hagain, (switchHErrno_iff_succeeded hagain).mp ?_⟩
    simpa using hfound
  · rintro ⟨hagain, herr⟩
    refine ⟨_, rfl, hone.mpr hagain, ?_⟩
    simpa using (switchHErrno_iff_succeeded hagain).mpr herr

/-- The name server is busy once, and would have answered then: `co_gethostbyname` gives up after the
first attempt.  A lookup that returned 0 and left the word at `TRY_AGAIN` or at `NETDB_INTERNAL` is taken
for one that succeeded. -/
theorem no_second_attempt :
    let busy : Answer := { ret := 11, herrno := some .tryAgain, result := false }
    let found : Answer := { ret := 0, herrno := some .success, result := true }
    coGethostbyname none [busy, found, found] =
        ⟨some { found := false, stored := .tryAgain }, [⟨11, .tryAgain, false⟩]⟩ ∧
      attempts 3 .success [busy, found, found] =
        [⟨11, .tryAgain, false⟩, ⟨0, .success, true⟩] ∧
      ¬ Faithful none [busy, found, found] ∧
      coGethostbyname none [{ busy with ret := 0 }, busy, busy] =
        ⟨some { found := true, stored := .tryAgain }, [⟨0, .tryAgain, false⟩]⟩ ∧
      coGethostbyname none [⟨0, some .internal, false⟩, busy, busy] =
        ⟨some { found := true, stored := .internal }, [⟨0, .internal, false⟩]⟩ := by
  refine ⟨by decide, by decide, ?_, by decide, by decide⟩
  rintro ⟨out, -, hlog, -⟩
  exact absurd hlog (by decide)

end Libcask.HostLookup
