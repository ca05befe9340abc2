import Libcask.HookedWrites

/-! # Buffers through the hooked writes

`write`, `send` and `sendto` of `sys_hook.c`, on a buffer of `n` bytes.  The three functions have the same
body around the function that they hide; `write` and the function it hides return an `int`.

* **The calls.** `sendTrace` is the loop of `HookedWrites.lean` with a record of the underlying calls:
  what was accepted before, and what the call is offered.  `sendTrace_snd` says that it is the same loop, and
  `SendCall.run_eq` that the hooks are this loop.
* **In order, once.** `delivers_once`: before every underlying call the bytes that the kernel's answers have
  accepted are the first ones of the buffer, and the call is offered the others.
* **Failures.** The count of the bytes is lost when the loop ends with an error.
  `hides_no_progress_iff` says for which answers of the kernel nothing is hidden. -/

namespace Libcask.Hook

open Sched (IError)
open SysResult

/-! ### Definitions -/

/-- The three hooks; `passed` is what becomes of a value that is passed on. -/
def hookedSend (passed : Returned → Returned) (env : WriteEnv) (n : ℕ) : Option Sent :=
  if !env.coHooked then (passOn env (List.range n)).map fun out => { out with ret := passed out.ret }
  else if env.nonblock ≠ some true then
    (passOn env (List.range n)).map fun out => { out with ret := passed out.ret }
  else
    -- `len` is an `int`, `n` a `size_t`
    sendLoop (fun len => toUInt64 len < n) (fun len => (List.range n).drop len.toNat)
      env.results env.polls 0 [] env.errno

def write : WriteEnv → ℕ → Option Sent := hookedSend asInt

def send : WriteEnv → ℕ → Option Sent := hookedSend id

def sendto : WriteEnv → ℕ → Option Sent := hookedSend id

/-- Which of the hooks is called. -/
inductive SendCall where
  | write | send | sendto
deriving DecidableEq, Repr

def SendCall.run : SendCall → WriteEnv → ℕ → Option Sent
  | .write => Hook.write
  | .send => Hook.send
  | .sendto => Hook.sendto

/-- An underlying call: the counter and the bytes that were accepted before it, and what it is offered. -/
structure Call where
  len : ℤ
  accepted : List ℕ
  offered : List ℕ
deriving DecidableEq, Repr

/-- The loop with a record of the underlying calls, up to the one that the kernel has not answered. -/
def sendTrace (more : ℤ → Bool) (offered : ℤ → List ℕ) :
    List SysResult → List (Except Errno IError) → ℤ → List ℕ → Errno → List Call × Option Sent
  | [], _, len, accepted, errno =>
      if more len then ([⟨len, accepted, offered len⟩], none) else ([], some ⟨(len, errno), accepted⟩)
  | r :: results, polls, len, accepted, errno =>
      if more len then
        let rest :=
          let ret := asInt (r.returned errno)
          if ret.1 < 0 then
            if ret.2 = .eagain ∨ ret.2 = .ewouldblock then
              match polls with
              | [] => ([], none)
              | p :: polls =>
                  match pollErrno ret.2 p with
                  | some e => ([], some ⟨(-1, e), accepted⟩)
                  | none => sendTrace more offered results polls len accepted .enoent
            else ([], some ⟨ret, accepted⟩)
          else
            sendTrace more offered results polls (toInt32 (len + ret.1))
              (accepted ++ (offered len).take ret.1.toNat) ret.2
        (⟨len, accepted, offered len⟩ :: rest.1, rest.2)
      else ([], some ⟨(len, errno), accepted⟩)

/-- The loop of the three hooks. -/
def bufTrace (n : ℕ) := sendTrace (fun len => toUInt64 len < n) fun len => (List.range n).drop len.toNat

/-- The underlying calls of a hooked write. -/
def calls (env : WriteEnv) (n : ℕ) : List Call := (bufTrace n env.results env.polls 0 [] env.errno).1

/-- The caller is hooked and the descriptor non-blocking. -/
def WriteEnv.Hooks (env : WriteEnv) : Prop := env.coHooked = true ∧ env.nonblock = some true

/-- With `left` bytes to go, every underlying call accepts at most what it is offered, and less than
`2 ^ 31` bytes; once nothing is left there are no further calls. -/
def Within : ℕ → List SysResult → Prop
  | _, [] => True
  | left, .count k :: results => left = 0 ∨ k ≤ left ∧ k < 2 ^ 31 ∧ Within (left - k) results
  | left, .error _ :: results => Within left results

/-- The number of bytes that are accepted before the first failure, of an underlying call or of
`event_poll`, if there is one. -/
def beforeFailure (total : ℕ) : List SysResult → List (Except Errno IError) → Option ℕ
  | [], _ => none
  | .count k :: results, polls => beforeFailure (total + k) results polls
  | .error e :: results, polls =>
      if (error e).wouldBlock then
        match polls with
        | [] => none
        | p :: polls => if (pollErrno e p).isSome then some total else beforeFailure total results polls
      else some total

/-- The bytes that an answer accepts. -/
def SysResult.bytes : SysResult → ℕ
  | .count k => k
  | .error _ => 0

/-- The bytes that the first `i` answers accept. -/
def accepts (i : ℕ) (results : List SysResult) : ℕ := ((results.take i).map SysResult.bytes).sum

theorem accepts_succ (i : ℕ) (r : SysResult) (results : List SysResult) :
    accepts (i + 1) (r :: results) = r.bytes + accepts i results := by
  rw [accepts, List.take_succ_cons, List.map_cons, List.sum_cons]
  rfl

/-- The record does not change the loop. -/
theorem sendTrace_snd (more : ℤ → Bool) (offered : ℤ → List ℕ) (results : List SysResult)
    (polls : List (Except Errno IError)) (len : ℤ) (accepted : List ℕ) (errno : Errno) :
    (sendTrace more offered results polls len accepted errno).2 =
      sendLoop more offered results polls len accepted errno := by
  induction results generalizing polls len accepted errno with
  | nil =>
      rw [sendTrace, sendLoop]
      split <;> rfl
  | cons r results ih =>
      rw [sendTrace, sendLoop]
      by_cases hmore : more len = true
      · rw [if_pos hmore, if_pos hmore]
        dsimp only
        split_ifs
        · cases polls with
          | nil => rfl
          | cons p polls =>
              dsimp only
              cases pollErrno (asInt (r.returned errno)).2 p with
              | some e => rfl
              | none => exact ih ..
        · rfl
        · exact ih ..
      · rw [if_neg hmore, if_neg hmore]

/-! ### One pass -/

section passes
variable {n k : ℕ} {results : List SysResult} {polls : List (Except Errno IError)} {errno : Errno}

/-- The call that is made when `k` bytes are accepted. -/
def callAt (n k : ℕ) : Call := ⟨k, List.range k, (List.range n).drop k⟩

theorem range_append_take {j : ℕ} (hle : k + j ≤ n) :
    List.range k ++ ((List.range n).drop k).take j = List.range (k + j) := by
  have htake : (List.range n).take (k + j) = List.range (k + j) := by
    rw [List.take_range, Nat.min_eq_left hle]
  have hfirst : (List.range (k + j)).take k = List.range k := by
    rw [List.take_range, Nat.min_eq_left (Nat.le_add_right k j)]
  rw [List.take_drop, htake, ← hfirst, List.take_append_drop]

/-- The loop goes on. -/
theorem more_of_lt (hk : k < 2 ^ 31) (h : k < n) : decide (toUInt64 (k : ℤ) < n) = true := by
  rw [toUInt64_natCast (by omega)]
  simpa using h

theorem bufTrace_ends {len : ℤ} {accepted : List ℕ} (h : n ≤ toUInt64 len) :
    bufTrace n results polls len accepted errno = ([], some ⟨(len, errno), accepted⟩) := by
  have hmore : ¬decide (toUInt64 len < n) = true := by simpa using h
  cases results with
  | nil => rw [bufTrace, sendTrace, if_neg hmore]
  | cons r results => rw [bufTrace, sendTrace, if_neg hmore]

theorem bufTrace_done (hk : k < 2 ^ 31) (h : n ≤ k) :
    bufTrace n results polls k (List.range k) errno = ([], some ⟨(k, errno), List.range k⟩) :=
  bufTrace_ends (by rwa [toUInt64_natCast (by omega)])

theorem bufTrace_nil (hk : k < 2 ^ 31) (h : k < n) :
    bufTrace n [] polls k (List.range k) errno = ([callAt n k], none) := by
  rw [bufTrace, sendTrace, if_pos (more_of_lt hk h), Int.toNat_natCast]
  rfl

/-- The call accepts `j` bytes. -/
theorem bufTrace_count {j : ℕ} (hk : k < 2 ^ 31) (h : k < n) (hj : j < 2 ^ 31) (hle : j ≤ n - k) :
    bufTrace n (.count j :: results) polls k (List.range k) errno =
      (callAt n k :: (bufTrace n results polls (toInt32 ((k + j : ℕ) : ℤ)) (List.range (k + j)) errno).1,
        (bufTrace n results polls (toInt32 ((k + j : ℕ) : ℤ)) (List.range (k + j)) errno).2) := by
  have hret := asInt_returned_count hj errno
  have hpos : ¬(j : ℤ) < 0 := by omega
  have haccept := range_append_take (k := k) (n := n) (j := j) (by omega)
  rw [bufTrace, sendTrace, if_pos (more_of_lt hk h), hret]
  dsimp only
  rw [if_neg hpos, Int.toNat_natCast, Int.toNat_natCast, haccept, ← Nat.cast_add]
  rfl

/-- The call fails. -/
theorem bufTrace_error {e : Errno} (hk : k < 2 ^ 31) (h : k < n) (he : (error e).wouldBlock = false) :
    bufTrace n (.error e :: results) polls k (List.range k) errno =
      ([callAt n k], some ⟨(-1, e), List.range k⟩) := by
  have hagain : ¬(e = .eagain ∨ e = .ewouldblock) := by simpa [SysResult.wouldBlock] using he
  rw [bufTrace, sendTrace, if_pos (more_of_lt hk h), asInt_returned_error]
  dsimp only
  rw [if_pos (by decide), if_neg hagain, Int.toNat_natCast]
  rfl

/-- The call would block. -/
theorem bufTrace_again {e : Errno} (hk : k < 2 ^ 31) (h : k < n) (he : (error e).wouldBlock = true) :
    bufTrace n (.error e :: results) polls k (List.range k) errno =
      match polls with
      | [] => ([callAt n k], none)
      | p :: polls =>
          match pollErrno e p with
          | some e' => ([callAt n k], some ⟨(-1, e'), List.range k⟩)
          | none => (callAt n k :: (bufTrace n results polls k (List.range k) .enoent).1,
              (bufTrace n results polls k (List.range k) .enoent).2) := by
  have hagain : e = .eagain ∨ e = .ewouldblock := by simpa [SysResult.wouldBlock] using he
  rw [bufTrace, sendTrace, if_pos (more_of_lt hk h), asInt_returned_error]
  dsimp only
  rw [if_pos (by decide), if_pos hagain, Int.toNat_natCast]
  cases polls with
  | nil => rfl
  | cons p polls =>
      dsimp only
      split <;> rfl

end passes

/-! ### In order, once -/

section delivery
variable {n k : ℕ}

/-- The `j` first bytes of the buffer are accepted, and it is the buffer exactly if the number of its bytes
is returned. -/
structure Sent.Delivered (n j : ℕ) (out : Sent) : Prop where
  le : j ≤ n
  accepted : out.accepted = List.range j
  ret : out.ret.1 = n ↔ j = n

/-- From the first `k` bytes on: each call is made when the bytes are accepted that the answers to the calls
before it accept, these bytes are accepted when the loop ends, and as long as it has not ended, they are not
all of the buffer. -/
structure Delivers (n k : ℕ) (results : List SysResult) (t : List Call × Option Sent) : Prop where
  calls : ∀ i c, t.1[i]? = some c → k + accepts i results < n ∧ c = callAt n (k + accepts i results)
  ends : ∀ out, t.2 = some out → out.Delivered n (k + accepts t.1.length results)
  unfinished : t.2 = none → k + accepts t.1.length results < n

/-- A failure leaves a proper prefix. -/
theorem Sent.delivered_of_error (h : k < n) (e : Errno) : Sent.Delivered n k ⟨(-1, e), List.range k⟩ := by
  refine ⟨h.le, rfl, iff_of_false ?_ h.ne⟩
  show ¬(-1 : ℤ) = n
  omega

section Delivers
variable {results : List SysResult}

/-- The loop ends without a further call. -/
theorem delivers_some {out : Sent} (h : out.Delivered n k) : Delivers n k results ([], some out) where
  calls _ _ hc := nomatch hc
  ends _ hout := Option.some.inj hout ▸ h
  unfinished hnone := nomatch hnone

/-- The loop waits for `event_poll`. -/
theorem delivers_none (h : k < n) : Delivers n k results ([], none) where
  calls _ _ hc := nomatch hc
  ends _ hout := nomatch hout
  unfinished _ := h

/-- A call and its answer, if there is one. -/
theorem Delivers.cons {r : SysResult} {t : List Call × Option Sent} (h : k < n)
    (ht : Delivers n (k + r.bytes) results t) :
    Delivers n k (r :: results) (callAt n k :: t.1, t.2) where
  calls i c hc := by
    cases i with
    | zero => exact ⟨h, (Option.some.inj hc).symm⟩
    | succ i =>
        rw [accepts_succ, ← Nat.add_assoc]
        exact ht.calls i c hc
  ends out hout := by
    rw [List.length_cons, accepts_succ, ← Nat.add_assoc]
    exact ht.ends out hout
  unfinished hnone := by
    rw [List.length_cons, accepts_succ, ← Nat.add_assoc]
    exact ht.unfinished hnone

theorem delivers_unanswered (h : k < n) : Delivers n k [] ([callAt n k], none) where
  calls i c hc := by
    cases i with
    | zero => exact ⟨h, (Option.some.inj hc).symm⟩
    | succ i => cases hc
  ends _ hout := nomatch hout
  unfinished _ := h

end Delivers

theorem bufTrace_delivers (hn : n < 2 ^ 31) (results : List SysResult)
    (polls : List (Except Errno IError)) (errno : Errno) (hk : k ≤ n) (hres : Within (n - k) results) :
    Delivers n k results (bufTrace n results polls k (List.range k) errno) := by
  induction results generalizing polls errno k with
  | nil =>
      by_cases hlt : k < n
      · rw [bufTrace_nil (by omega) hlt]
        exact delivers_unanswered hlt
      · rw [bufTrace_done (by omega) (by omega)]
        exact delivers_some ⟨hk, rfl, Int.natCast_inj⟩
  | cons r results ih =>
      by_cases hlt : k < n
      · cases r with
        | count j =>
            obtain ⟨hle, hj, hrest⟩ := hres.resolve_left (by omega)
            rw [Nat.sub_sub] at hrest
            rw [bufTrace_count (by omega) hlt hj hle, toInt32_natCast (by omega)]
            exact Delivers.cons (r := .count j) hlt (ih polls errno (k := k + j) (by omega) hrest)
        | error e =>
            cases hblock : (error e).wouldBlock with
            | false =>
                rw [bufTrace_error (by omega) hlt hblock]
                exact Delivers.cons (r := .error e) hlt (delivers_some (Sent.delivered_of_error hlt e))
            | true =>
                rw [bufTrace_again (by omega) hlt hblock]
                cases polls with
                | nil => exact Delivers.cons (r := .error e) hlt (delivers_none hlt)
                | cons p polls =>
                    dsimp only
                    cases pollErrno e p with
                    | some e' =>
                        exact Delivers.cons (r := .error e) hlt
                          (delivers_some (Sent.delivered_of_error hlt e'))
                    | none => exact Delivers.cons (r := .error e) hlt (ih polls .enoent hk hres)
      · rw [bufTrace_done (by omega) (by omega)]
        exact delivers_some ⟨hk, rfl, Int.natCast_inj⟩

/-- A hook that waits is the loop. -/
theorem SendCall.run_eq {env : WriteEnv} (henv : env.Hooks) (c : SendCall) (n : ℕ) :
    c.run env n = (bufTrace n env.results env.polls 0 [] env.errno).2 := by
  have hloop : ∀ passed, hookedSend passed env n =
      (bufTrace n env.results env.polls 0 [] env.errno).2 := by
    intro passed
    rw [bufTrace, sendTrace_snd, hookedSend]
    simp [henv.1, henv.2]
  cases c <;> exact hloop _

end delivery

/-- **In order, exactly once.**  Whatever a kernel that accepts no more than it is offered answers, and
however `event_poll` ends, a hooked `write`, `send` or `sendto` is the loop of `bufTrace`, whose calls are
`calls env n`, and the answers to the first `i` calls accept `accepts i env.results` bytes.  Before the `i`-th
call these are less than `n`, they are the counter and the bytes accepted, which are the first ones of the
buffer, and the call is offered the others.  When the hook returns, the bytes that the answers to its calls
accepted are the first ones of the buffer, and all of it exactly if `n` is returned; it returns as soon as they
are `n`. -/
theorem delivers_once (c : SendCall) (env : WriteEnv) (n : ℕ) (hn : n < 2 ^ 31) (henv : env.Hooks)
    (hres : Within n env.results) :
    c.run env n = (bufTrace n env.results env.polls 0 [] env.errno).2 ∧
    (∀ (i : ℕ) (call : Call), (calls env n)[i]? = some call → accepts i env.results < n ∧
      call.len = accepts i env.results ∧ call.accepted = List.range (accepts i env.results) ∧
      call.accepted ++ call.offered = List.range n) ∧
    (∀ out, c.run env n = some out → accepts (calls env n).length env.results ≤ n ∧
      out.accepted = List.range (accepts (calls env n).length env.results) ∧
      (out.ret.1 = n ↔ accepts (calls env n).length env.results = n)) ∧
    (c.run env n = none → accepts (calls env n).length env.results < n) := by
  have h : Delivers n 0 env.results (bufTrace n env.results env.polls 0 [] env.errno) :=
    bufTrace_delivers hn env.results env.polls env.errno (Nat.zero_le n) hres
  refine ⟨c.run_eq henv n, fun i call hcall => ?_, fun out hout => ?_, fun hnone => ?_⟩
  · obtain ⟨hlt, rfl⟩ := h.calls i call hcall
    rw [Nat.zero_add] at hlt ⊢
    have htake : (List.range n).take (accepts i env.results) = List.range (accepts i env.results) := by
      rw [List.take_range, Nat.min_eq_left hlt.le]
    refine ⟨hlt, rfl, rfl, ?_⟩
    show List.range (accepts i env.results) ++ (List.range n).drop _ = _
    rw [← htake, List.take_append_drop]
  · rw [c.run_eq henv] at hout
    obtain ⟨hle, haccepted, hret⟩ := h.ends out hout
    rw [Nat.zero_add] at hle haccepted hret
    exact ⟨hle, haccepted, hret⟩
  · rw [c.run_eq henv] at hnone
    have hlt := h.unfinished hnone
    rwa [Nat.zero_add] at hlt

/-- Two bytes of five, a wait, and the other three: three calls. -/
theorem delivers_once_short_write : ∃ out,
    send (writing [.count 2, .error .eagain, .count 3]) 5 = some out ∧ out.ret.1 = 5 ∧
    (calls (writing [.count 2, .error .eagain, .count 3]) 5).length = 3 ∧ out.accepted = List.range 5 := by
  have hrun : send (writing [.count 2, .error .eagain, .count 3]) 5 =
      some ⟨(5, .enoent), [0, 1, 2, 3, 4]⟩ := by decide +kernel
  have hcalls : (calls (writing [.count 2, .error .eagain, .count 3]) 5).length = 3 := by decide +kernel
  have hwithin : Within 5 [.count 2, .error .eagain, .count 3] := by
    refine .inr ⟨by decide, by decide, .inr ⟨by decide, by decide, trivial⟩⟩
  have h := (delivers_once .send (writing [.count 2, .error .eagain, .count 3]) 5 (by decide) ⟨rfl, rfl⟩
    hwithin).2.2.1 _ hrun
  rw [hcalls] at h
  exact ⟨_, hrun, rfl, hcalls, h.2.1⟩

/-! ### Failures -/

section failures
variable {n k : ℕ}

theorem beforeFailure_error {e : Errno} (h : (error e).wouldBlock = false) (results : List SysResult)
    (polls : List (Except Errno IError)) : beforeFailure k (.error e :: results) polls = some k := by
  cases polls <;> simp [beforeFailure, h]

theorem beforeFailure_again {e : Errno} (h : (error e).wouldBlock = true) (results : List SysResult)
    (polls : List (Except Errno IError)) : beforeFailure k (.error e :: results) polls =
      match polls with
      | [] => none
      | p :: polls => if (pollErrno e p).isSome then some k else beforeFailure k results polls := by
  cases polls <;> simp [beforeFailure, h]

theorem le_of_beforeFailure (results : List SysResult) (polls : List (Except Errno IError)) {t : ℕ}
    (h : beforeFailure k results polls = some t) : k ≤ t := by
  induction results generalizing polls k with
  | nil => cases h
  | cons r results ih =>
      cases r with
      | count j => exact (Nat.le_add_right k j).trans (ih polls h)
      | error e =>
          cases hblock : (error e).wouldBlock with
          | false =>
              rw [beforeFailure_error hblock] at h
              exact (Option.some.inj h).le
          | true =>
              rw [beforeFailure_again hblock] at h
              cases polls with
              | nil => cases h
              | cons p polls =>
                  dsimp only at h
                  split_ifs at h
                  · exact (Option.some.inj h).le
                  · exact ih polls h

/-- Nothing is hidden: if `-1` is returned, no byte was accepted. -/
def Sent.Shows (out : Sent) : Prop := out.ret.1 = -1 → out.accepted = []

/-- The failure comes before the first byte, or after the loop has ended. -/
def EarlyOrLate (n : ℕ) (total : Option ℕ) : Prop := ∀ t, total = some t → t = 0 ∨ n ≤ t ∨ 2 ^ 31 ≤ t

theorem shows_error_iff (hk : k < 2 ^ 31) (h : k < n) (e : Errno) :
    (∀ out, some (⟨(-1, e), List.range k⟩ : Sent) = some out → out.Shows) ↔ EarlyOrLate n (some k) := by
  constructor
  · intro hshow t ht
    obtain rfl := Option.some.inj ht
    have hnil : List.range k = [] := hshow _ rfl rfl
    exact .inl (by simpa using hnil)
  · intro hearly out hout
    obtain rfl := Option.some.inj hout
    intro _
    have hzero : k = 0 := by
      rcases hearly k rfl with h | h | h <;> omega
    rw [hzero]
    rfl

/-- A counter that has wrapped around is more than the length of any buffer, and is not `-1`. -/
theorem counter_wraps (h : 2 ^ 31 ≤ k) (hk : k < 2 ^ 32 - 1) (hn : n < 2 ^ 63) :
    n ≤ toUInt64 (toInt32 k) ∧ toInt32 k ≠ -1 := by
  have hwrap : toInt32 k = k - 2 ^ 32 := by
    unfold toInt32
    rw [Int.bmod_def]
    split_ifs <;> omega
  rw [hwrap]
  unfold toUInt64
  omega

/-- The loop hides nothing exactly if the first failure comes before the first byte or after the end. -/
theorem bufTrace_shows_iff (hn : n < 2 ^ 63) (results : List SysResult)
    (polls : List (Except Errno IError)) (errno : Errno) (hk : k ≤ n) (hk31 : k < 2 ^ 31)
    (hres : Within (n - k) results) :
    (∀ out, (bufTrace n results polls k (List.range k) errno).2 = some out → out.Shows) ↔
      EarlyOrLate n (beforeFailure k results polls) := by
  -- a loop that ends returns its counter, which is not `-1`
  have hdone : ∀ (k : ℕ) (rs : List SysResult) (ps : List (Except Errno IError)) (len : ℤ) (e : Errno)
      (accepted : List ℕ), len ≠ -1 → (n ≤ k ∨ 2 ^ 31 ≤ k) →
      ((∀ out, some (⟨(len, e), accepted⟩ : Sent) = some out → out.Shows) ↔
        EarlyOrLate n (beforeFailure k rs ps)) := by
    intro k rs ps len e accepted hlen hend
    refine iff_of_true (fun out hout hret => ?_) fun t ht => ?_
    · obtain rfl := Option.some.inj hout
      exact absurd hret hlen
    · have hle := le_of_beforeFailure rs ps ht
      omega
  induction results generalizing polls errno k with
  | nil =>
      by_cases hlt : k < n
      · rw [bufTrace_nil hk31 hlt]
        exact iff_of_true nofun nofun
      · rw [bufTrace_done hk31 (by omega)]
        exact hdone k [] polls k errno _ (by omega) (.inl (by omega))
  | cons r results ih =>
      by_cases hlt : k < n
      · cases r with
        | count j =>
            obtain ⟨hle, hj, hrest⟩ := hres.resolve_left (by omega)
            rw [Nat.sub_sub] at hrest
            rw [bufTrace_count hk31 hlt hj hle, beforeFailure]
            by_cases hwrap : k + j < 2 ^ 31
            · rw [toInt32_natCast hwrap]
              exact ih polls errno (by omega) hwrap hrest
            · -- the counter wraps around, and the comparison as `size_t` ends the loop
              obtain ⟨hend, hlen⟩ := counter_wraps (n := n) (k := k + j) (by omega) (by omega) hn
              rw [bufTrace_ends hend]
              exact hdone (k + j) results polls _ errno _ hlen (.inr (by omega))
        | error e =>
            cases hblock : (error e).wouldBlock with
            | false =>
                rw [bufTrace_error hk31 hlt hblock, beforeFailure_error hblock]
                exact shows_error_iff hk31 hlt e
            | true =>
                rw [bufTrace_again hk31 hlt hblock, beforeFailure_again hblock]
                cases polls with
                | nil => exact iff_of_true nofun nofun
                | cons p polls =>
                    dsimp only
                    cases pollErrno e p with
                    | some e' => exact shows_error_iff hk31 hlt e'
                    | none => exact ih polls .enoent hk hk31 hres
      · rw [bufTrace_done hk31 (by omega)]
        exact hdone k (r :: results) polls k errno _ (by omega) (.inl (by omega))

/-- A call that is passed on hides nothing. -/
theorem passOn_shows {env : WriteEnv} (hres : Within n env.results) {passed : Returned → Returned}
    (hpassed : passed = asInt ∨ passed = id) {out : Sent}
    (hout : (passOn env (List.range n)).map (fun out => { out with ret := passed out.ret }) = some out) :
    out.Shows := by
  unfold passOn at hout
  cases hr : env.results with
  | nil =>
      rw [hr] at hout
      cases hout
  | cons r results =>
      rw [hr] at hout hres
      obtain rfl := Option.some.inj hout
      intro hret
      cases r with
      | error e => rfl
      | count k =>
          rcases hres with rfl | ⟨-, hk, -⟩
          · exact List.take_nil
          · -- the count is not negative
            have hcount : (passed ((count k).returned env.errno)).1 = k := by
              rcases hpassed with rfl | rfl
              · rw [asInt_returned_count hk]
              · rfl
            have hneg : (k : ℤ) = -1 := hcount.symm.trans hret
            omega

/-- A hook that does not wait passes the call on. -/
theorem SendCall.run_shows {env : WriteEnv} (hres : Within n env.results) (henv : ¬env.Hooks)
    (c : SendCall) {out : Sent} (hout : c.run env n = some out) : out.Shows := by
  have hpass : ∀ passed, hookedSend passed env n =
      (passOn env (List.range n)).map fun out => { out with ret := passed out.ret } := by
    intro passed
    unfold hookedSend
    by_cases hhooked : env.coHooked = true
    · have hblock : env.nonblock ≠ some true := fun h => henv ⟨hhooked, h⟩
      rw [if_neg (by simp [hhooked]), if_pos hblock]
    · rw [if_pos (by simpa using hhooked)]
  cases c with
  | write => exact passOn_shows hres (.inl rfl) ((hpass asInt).symm.trans hout)
  | send => exact passOn_shows hres (.inr rfl) ((hpass id).symm.trans hout)
  | sendto => exact passOn_shows hres (.inr rfl) ((hpass id).symm.trans hout)

end failures

/-- **Hidden progress.**  For every buffer and whatever a kernel that accepts no more than it is offered
answers: that a hooked `write`, `send` or `sendto` that returns `-1` has had no byte accepted holds exactly
if the hook passes the call on, or the first failure comes before the first byte is accepted, or after the
loop has ended; the loop ends when all bytes are accepted, or when the counter wraps around. -/
theorem hides_no_progress_iff (c : SendCall) (env : WriteEnv) (n : ℕ) (hn : n < 2 ^ 63)
    (hres : Within n env.results) :
    (∀ out, c.run env n = some out → out.ret.1 = -1 → out.accepted = []) ↔
      (env.Hooks → ∀ t, beforeFailure 0 env.results env.polls = some t → t = 0 ∨ n ≤ t ∨ 2 ^ 31 ≤ t) := by
  by_cases henv : env.Hooks
  · rw [c.run_eq henv]
    have hiff := bufTrace_shows_iff hn env.results env.polls env.errno (Nat.zero_le n) (by decide) hres
    exact hiff.trans ⟨fun h _ => h, fun h => h henv⟩
  · exact iff_of_true (fun out hout => c.run_shows hres henv hout) fun h => absurd h henv

/-- All five bytes are accepted before the kernel would report an error. -/
theorem hides_no_progress_complete :
    beforeFailure 0 [.count 2, .count 3, .error (.other 32)] [] = some 5 ∧
    ∀ out, write (writing [.count 2, .count 3, .error (.other 32)]) 5 = some out → out.ret.1 = -1 →
      out.accepted = [] := by
  refine ⟨rfl, (hides_no_progress_iff .write (writing [.count 2, .count 3, .error (.other 32)]) 5
    (by decide) (.inr ⟨by decide, by decide, .inr ⟨by decide, by decide, .intro⟩⟩)).mpr fun _ t ht => ?_⟩
  have ht : some 5 = some t := ht
  obtain rfl := Option.some.inj ht
  exact .inr (.inl le_rfl)

/-- Two bytes of five are accepted before an error, or before a wait that times out: `-1` is returned. -/
theorem progress_hidden :
    write (writing [.count 2, .error (.other 32)]) 5 = some ⟨(-1, .other 32), [0, 1]⟩ ∧
    send { writing [.count 2, .error .eagain] with polls := [.ok { timeout := true }] } 5 =
      some ⟨(-1, .etime), [0, 1]⟩ := by
  decide +kernel

end Libcask.Hook
