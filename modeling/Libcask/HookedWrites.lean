import Libcask.HookedReads

/-! # Hooked writes

`write`, `send`, `sendto` and `sendmsg` of `sys_hook.c`.  On a non-blocking descriptor each of them calls
the function it hides until as many bytes are accepted as there are, and waits in `event_poll` whenever
that function would block.  `sendLoop` is the loop that they share.

The bytes of a call are numbered from the first byte of the buffer, or of the first buffer of a message,
to the last; what the kernel accepts is a list of these numbers.  The kernel's answers are given in
advance: the results of the underlying calls, and how each `event_poll` ends.

`sendmsg` passes the same message to every underlying call, however much of it was accepted before:
`sendmsg_once_iff` says when every byte is accepted once. -/

namespace Libcask.Hook

open Sched (IError)
open Sched.Io (pollResult)
open SysResult

/-! ### The loop -/

/-- What a hooked write returns, and the bytes that were accepted. -/
structure Sent where
  ret : Returned
  accepted : List ℕ
deriving DecidableEq, Repr

/-- The `errno` with which `event_poll` fails, if it does. -/
def pollErrno (errno : Errno) : Except Errno IError → Option Errno
  | .error e => some e
  | .ok mask =>
      match pollResult mask with
      | .ok => none
      | .failed => some errno
      | .etime => some .etime
      | .enetdown => some .enetdown

/-- The two loops: `more len` is their condition, and `offered len` are the bytes that an underlying call
is given.  The loops do not end before the kernel has given all answers they ask for. -/
def sendLoop (more : ℤ → Bool) (offered : ℤ → List ℕ) :
    List SysResult → List (Except Errno IError) → ℤ → List ℕ → Errno → Option Sent
  | [], _, len, accepted, errno => if more len then none else some ⟨(len, errno), accepted⟩
  | r :: results, polls, len, accepted, errno =>
      if more len then
        let ret := asInt (r.returned errno)
        if ret.1 < 0 then
          if ret.2 = .eagain ∨ ret.2 = .ewouldblock then
            match polls with
            | [] => none
            | p :: polls =>
                match pollErrno ret.2 p with
                | some e => some ⟨(-1, e), accepted⟩
                | none => sendLoop more offered results polls len accepted .enoent
          else some ⟨ret, accepted⟩
        else
          sendLoop more offered results polls (toInt32 (len + ret.1))
            (accepted ++ (offered len).take ret.1.toNat) ret.2
      else some ⟨(len, errno), accepted⟩

/-- Where a hooked write is called, and what the kernel answers. -/
structure WriteEnv where
  coHooked : Bool
  /-- The descriptor's `inner_fd`, as whether `O_NONBLOCK` is in its flags. -/
  nonblock : Option Bool
  results : List SysResult
  polls : List (Except Errno IError)
  errno : Errno

/-- The hidden function is called once. -/
def passOn (env : WriteEnv) (offered : List ℕ) : Option Sent :=
  env.results.head?.map fun r =>
    ⟨r.returned env.errno, match r with | .count k => offered.take k | .error _ => []⟩

/-! ### `sendmsg` -/

/-- The lengths of the buffers of a message. -/
abbrev Iov := List ℕ

/-- `get_msg_len`; the sum is an `int`. -/
def getMsgLen : Option Iov → ℤ
  | none => -1
  | some iov => iov.foldl (fun (len : ℤ) (n : ℕ) => toInt32 (len + n)) 0

def sendmsg (env : WriteEnv) (msg : Option Iov) : Option Sent :=
  let whole := List.range ((msg.getD []).sum)
  if !env.coHooked then passOn env whole
  else if env.nonblock ≠ some true then passOn env whole
  else
    let n := getMsgLen msg
    if n < 0 then passOn env whole
    else sendLoop (fun len => len < n) (fun _ => whole) env.results env.polls 0 [] env.errno

/-- The caller is hooked and the descriptor non-blocking; the underlying call accepts a part of the `n`
bytes, from the first one on, or would block; and `event_poll` succeeds. -/
structure WriteEnv.Streams (env : WriteEnv) (n : ℕ) : Prop where
  hooked : env.coHooked = true
  tracked : env.nonblock = some true
  results : ∀ r ∈ env.results, r.wouldBlock = true ∨ ∃ k, 1 ≤ k ∧ k ≤ n ∧ r = .count k
  polls : ∀ p ∈ env.polls, ∃ mask, p = .ok mask ∧ pollResult mask = .ok

theorem getMsgLen_eq (iov : Iov) (hn : iov.sum < 2 ^ 31) : getMsgLen (some iov) = iov.sum := by
  -- the partial sums are no larger than the sum
  have hsum : ∀ (l : Iov) (a : ℕ), a + l.sum < 2 ^ 31 →
      l.foldl (fun (len : ℤ) (n : ℕ) => toInt32 (len + n)) a = ((a + l.sum : ℕ) : ℤ) := by
    intro l
    induction l with
    | nil => simp
    | cons n l ih =>
        intro a ha
        rw [List.sum_cons] at ha
        rw [List.foldl_cons, ← Nat.cast_add, toInt32_natCast (by omega), ih (a + n) (by omega),
          List.sum_cons, Nat.add_assoc]
  have h := hsum iov 0 (by omega)
  rwa [Nat.zero_add] at h

/-! ### One pass of the loop -/

section passes
variable {more : ℤ → Bool} {offered : ℤ → List ℕ} {results : List SysResult}
  {polls : List (Except Errno IError)} {len : ℤ} {accepted : List ℕ} {errno : Errno} {out : Sent}

theorem sendLoop_done (h : more len = false) :
    sendLoop more offered results polls len accepted errno = some ⟨(len, errno), accepted⟩ := by
  cases results with
  | nil => simp [sendLoop, h]
  | cons r results => simp [sendLoop, h]

theorem sendLoop_count {k : ℕ} (h : more len = true) (hk : k < 2 ^ 31) :
    sendLoop more offered (.count k :: results) polls len accepted errno =
      sendLoop more offered results polls (toInt32 (len + k)) (accepted ++ (offered len).take k)
        errno := by
  have hret := asInt_returned_count hk errno
  have hpos : ¬(k : ℤ) < 0 := by omega
  rw [sendLoop, if_pos h, hret]
  dsimp only
  rw [if_neg hpos, Int.toNat_natCast]

/-- A call that would block is followed by `event_poll`. -/
theorem sendLoop_again {r : SysResult} (h : more len = true) (hr : r.wouldBlock = true)
    (hpolls : ∀ p ∈ polls, ∃ mask, p = .ok mask ∧ pollResult mask = .ok)
    (hout : sendLoop more offered (r :: results) polls len accepted errno = some out) :
    ∃ polls' errno', (∀ p ∈ polls', p ∈ polls) ∧
      sendLoop more offered results polls' len accepted errno' = some out := by
  obtain ⟨e, rfl⟩ := exists_error_of_wouldBlock hr
  have hagain : e = .eagain ∨ e = .ewouldblock := by simpa [SysResult.wouldBlock] using hr
  rw [sendLoop, if_pos h, asInt_returned_error] at hout
  dsimp only at hout
  rw [if_pos (by decide), if_pos hagain] at hout
  cases polls with
  | nil => cases hout
  | cons p polls =>
      obtain ⟨mask, rfl, hok⟩ := hpolls p List.mem_cons_self
      have herr : pollErrno e (.ok mask) = none := by rw [pollErrno, hok]
      dsimp only at hout
      rw [herr] at hout
      exact ⟨polls, .enoent, fun q hq => List.mem_cons_of_mem _ hq, hout⟩

end passes

/-! ### What is accepted -/

section accepted
variable {n : ℕ} {out : Sent}

/-- The loop of `sendmsg`. -/
def msgLoop (n : ℕ) := sendLoop (fun len => len < (n : ℤ)) fun _ => List.range n

/-- What was accepted stays accepted; if more is wanted, the message is accepted again from its first
byte on. -/
theorem accepts_again : ∀ (results : List SysResult) (polls : List (Except Errno IError)) (len : ℤ)
    (accepted : List ℕ) (errno : Errno), n < 2 ^ 31 →
    (∀ r ∈ results, r.wouldBlock = true ∨ ∃ k, 1 ≤ k ∧ k ≤ n ∧ r = .count k) →
    (∀ p ∈ polls, ∃ mask, p = .ok mask ∧ pollResult mask = .ok) →
    msgLoop n results polls len accepted errno = some out →
    accepted <+: out.accepted ∧ (len < n → (accepted ++ [0]) <+: out.accepted)
  | [], polls, len, accepted, errno, _, _, _, hout => by
      unfold msgLoop at hout
      by_cases hlt : len < n
      · simp [sendLoop, hlt] at hout
      · rw [sendLoop_done (by simpa using hlt)] at hout
        obtain rfl := Option.some.inj hout
        exact ⟨List.prefix_refl _, fun h => absurd h hlt⟩
  | r :: results, polls, len, accepted, errno, hn, hres, hpolls, hout => by
      unfold msgLoop at hout
      have hrest : ∀ r ∈ results, _ := fun r hr => hres r (List.mem_cons_of_mem _ hr)
      by_cases hlt : len < n
      · rcases hres r List.mem_cons_self with hr | ⟨k, hk1, hkn, rfl⟩
        · obtain ⟨polls', errno', hsub, hout⟩ := sendLoop_again (by simpa using hlt) hr hpolls hout
          exact accepts_again results polls' len accepted errno' hn hrest
            (fun p hp => hpolls p (hsub p hp)) hout
        · rw [sendLoop_count (by simpa using hlt) (by omega)] at hout
          have hgo := (accepts_again results polls _ _ _ hn hrest hpolls hout).1
          have hfirst : (accepted ++ [0]) <+: accepted ++ (List.range n).take k := by
            obtain ⟨k, rfl⟩ := Nat.exists_eq_add_of_le' hk1
            obtain ⟨n, rfl⟩ := Nat.exists_eq_add_of_le' (hk1.trans hkn)
            rw [List.range_succ_eq_map, List.take_succ_cons]
            exact (List.prefix_append_right_inj accepted).mpr ⟨_, rfl⟩
          refine ⟨(List.prefix_append _ _).trans hgo, fun _ => hfirst.trans hgo⟩
      · rw [sendLoop_done (by simpa using hlt)] at hout
        obtain rfl := Option.some.inj hout
        exact ⟨List.prefix_refl _, fun h => absurd h hlt⟩

/-- Up to the first call that accepts something, nothing is lost. -/
theorem msgLoop_once_iff (hn : n < 2 ^ 31) (hpos : 0 < n) : ∀ (results : List SysResult)
    (polls : List (Except Errno IError)) (errno : Errno),
    (∀ r ∈ results, r.wouldBlock = true ∨ ∃ k, 1 ≤ k ∧ k ≤ n ∧ r = .count k) →
    (∀ p ∈ polls, ∃ mask, p = .ok mask ∧ pollResult mask = .ok) →
    msgLoop n results polls 0 [] errno = some out →
    (out.accepted = List.range n ↔
      results.find? (fun r => !r.wouldBlock) = some (.count n))
  | [], polls, errno, _, _, hout => by
      unfold msgLoop at hout
      simp [sendLoop, hpos] at hout
  | r :: results, polls, errno, hres, hpolls, hout => by
      have hmore : decide ((0 : ℤ) < n) = true := by simpa using hpos
      have hrest : ∀ r ∈ results, _ := fun r hr => hres r (List.mem_cons_of_mem _ hr)
      unfold msgLoop at hout
      rcases hres r List.mem_cons_self with hr | ⟨k, hk1, hkn, rfl⟩
      · obtain ⟨polls', errno', hsub, hout⟩ := sendLoop_again hmore hr hpolls hout
        rw [List.find?_cons_of_neg (by simp [hr])]
        exact msgLoop_once_iff hn hpos results polls' errno' hrest
          (fun p hp => hpolls p (hsub p hp)) hout
      · rw [sendLoop_count hmore (by omega), List.nil_append, List.take_range, Nat.min_eq_left hkn,
          zero_add, toInt32_natCast (by omega)] at hout
        rw [List.find?_cons_of_pos (by rfl)]
        obtain ⟨-, hagain⟩ := accepts_again results polls k (List.range k) errno hn hrest hpolls hout
        constructor
        · -- a second acceptance would take the first byte again
          intro hall
          by_contra hne
          have hlt : k < n := lt_of_le_of_ne hkn fun hc => hne (by rw [hc])
          have hprefix := hagain (by exact_mod_cast hlt)
          rw [hall] at hprefix
          have hnodup := List.nodup_range.sublist hprefix.sublist
          exact (List.nodup_append.mp hnodup).2.2 0 (List.mem_range.mpr hk1) 0 (by simp) rfl
        · intro hk
          obtain rfl : k = n := by simpa using hk
          rw [sendLoop_done (by simp)] at hout
          rw [← Option.some.inj hout]

end accepted

/-- When the hooked `sendmsg` returns, every byte of the message has been accepted once, and in order,
exactly if the first call that did not block accepted all of it, or the message is empty. -/
theorem sendmsg_once_iff (env : WriteEnv) (iov : Iov) (hn : iov.sum < 2 ^ 31)
    (henv : env.Streams iov.sum) {out : Sent} (hout : sendmsg env (some iov) = some out) :
    out.accepted = List.range iov.sum ↔
      iov.sum = 0 ∨ env.results.find? (fun r => !r.wouldBlock) = some (.count iov.sum) := by
  unfold sendmsg at hout
  rw [getMsgLen_eq iov hn] at hout
  have hneg : ¬((iov.sum : ℕ) : ℤ) < 0 := by omega
  simp only [henv.hooked, henv.tracked, hneg, Option.getD_some, Bool.not_true, Bool.false_eq_true,
    ne_eq, not_true_eq_false, if_false] at hout
  by_cases hzero : iov.sum = 0
  · rw [hzero, sendLoop_done (by simp)] at hout
    rw [← Option.some.inj hout, hzero]
    exact iff_of_true rfl (.inl rfl)
  · rw [msgLoop_once_iff hn (Nat.pos_of_ne_zero hzero) env.results env.polls env.errno henv.results
      henv.polls hout]
    simp [hzero]

/-- A coroutine on a non-blocking descriptor; `event_poll` succeeds as often as needed. -/
def writing (results : List SysResult) : WriteEnv where
  coHooked := true
  nonblock := some true
  results := results
  polls := results.map fun _ => .ok { write := true }
  errno := .other 0

theorem streams_writing {results : List SysResult} {n : ℕ}
    (h : ∀ r ∈ results, r.wouldBlock = true ∨ ∃ k, 1 ≤ k ∧ k ≤ n ∧ r = .count k) :
    (writing results).Streams n := by
  refine ⟨rfl, rfl, h, fun p hp => ?_⟩
  obtain ⟨_, -, rfl⟩ := List.mem_map.mp hp
  exact ⟨_, rfl, rfl⟩

/-- Two buffers are accepted in one call, after a wait. -/
theorem sendmsg_once_after_wait : ∃ out,
    sendmsg (writing [.error .eagain, .count 5]) (some [2, 3]) = some out ∧
    out.accepted = List.range 5 := by
  refine ⟨⟨(5, .enoent), [0, 1, 2, 3, 4]⟩, by decide +kernel, ?_⟩
  refine (sendmsg_once_iff (writing [.error .eagain, .count 5]) [2, 3] (by decide)
    (streams_writing ?_) (by decide +kernel)).mpr (.inr rfl)
  intro r hr
  rcases List.mem_cons.mp hr with rfl | hr
  · exact .inl rfl
  · rcases List.mem_singleton.mp hr with rfl
    exact .inr ⟨5, by decide, by decide, rfl⟩

/-- The kernel accepts two bytes of five, then four: the first two are accepted twice, the last one
never. -/
theorem sendmsg_repeats : ∃ out, (writing [.count 2, .count 4]).Streams 5 ∧
    sendmsg (writing [.count 2, .count 4]) (some [2, 3]) = some out ∧ out.ret.1 = 6 ∧
    out.accepted = [0, 1, 0, 1, 2, 3] := by
  refine ⟨⟨(6, .other 0), [0, 1, 0, 1, 2, 3]⟩, streams_writing ?_, by decide +kernel, rfl, rfl⟩
  intro r hr
  rcases List.mem_cons.mp hr with rfl | hr
  · exact .inr ⟨2, by decide, by decide, rfl⟩
  · rcases List.mem_singleton.mp hr with rfl
    exact .inr ⟨4, by decide, by decide, rfl⟩

end Libcask.Hook
