import Libcask.CInt
import Libcask.InnerFd

/-! # Hooked reads

`read`, `recv`, `recvfrom` and `recvmsg` of `sys_hook.c`.  On a descriptor that the program made
non-blocking through the hooks, each of them calls the function it hides; where that would block, it
waits in `event_poll` and calls it once more.  The caller is to see what a blocking call would have
shown it: the first result that is not `EAGAIN`.

What the kernel answers is given in advance (`Env`): the results of the underlying calls in order, and
how `event_poll` ends.  `read_blocks_iff` says for which answers the hooks keep that promise.  They
wait once only, and an end of stream that comes with a `RDHUP` event is returned as `-1`. -/

namespace Libcask.Hook

open Sched (IError)
open Sched.Io (pollResult)

/-! ### Underlying calls -/

/-- The values of `errno` that the hooks tell apart or set. -/
inductive Errno where
  | eagain | ewouldblock | etime | enetdown | enoent
  | other (code : ℕ)
deriving DecidableEq, Repr

/-- What an underlying call gives: a number of bytes, `0` at the end of the stream, or an error. -/
inductive SysResult where
  | count (n : ℕ)
  | error (e : Errno)
deriving DecidableEq, Repr

/-- A value that a C function returns, with `errno` after it. -/
abbrev Returned := ℤ × Errno

/-- The test `ret == -1 && (errno == EAGAIN || errno == EWOULDBLOCK)`. -/
def again (r : Returned) : Bool := r.1 == -1 && (r.2 == .eagain || r.2 == .ewouldblock)

/-- The assignment of a returned value to a variable of type `int`. -/
def asInt (r : Returned) : Returned := (toInt32 r.1, r.2)

theorem asInt_asInt (r : Returned) : asInt (asInt r) = asInt r := by
  simp only [asInt, toInt32_of_isInt32 (isInt32_toInt32 r.1)]

namespace SysResult

/-- A call that succeeds leaves `errno` as it was. -/
def returned : SysResult → Errno → Returned
  | count n, errno => (n, errno)
  | error e, _ => (-1, e)

/-- The call would have blocked. -/
def wouldBlock : SysResult → Bool
  | count _ => false
  | error e => e == .eagain || e == .ewouldblock

/-- The result is not changed by an assignment to an `int`. -/
def FitsInt : SysResult → Prop
  | count n => n < 2 ^ 31
  | error _ => True

/-- The caller is shown this result: the count, or `-1` and the error in `errno`. -/
def ShownBy (out : Returned) : SysResult → Prop
  | count n => out.1 = n
  | error e => out = (-1, e)

instance (out : Returned) : ∀ r : SysResult, Decidable (r.ShownBy out)
  | count n => inferInstanceAs (Decidable (out.1 = n))
  | error e => inferInstanceAs (Decidable (out = (-1, e)))

theorem asInt_returned_error (e errno : Errno) : asInt ((error e).returned errno) = (-1, e) := by
  have hret : toInt32 (-1) = -1 := toInt32_of_isInt32 (by decide)
  simp only [asInt, returned, hret]

theorem asInt_returned_count {n : ℕ} (h : n < 2 ^ 31) (errno : Errno) :
    asInt ((count n).returned errno) = ((n : ℤ), errno) := by
  simp only [asInt, returned, toInt32_natCast h]

theorem again_asInt_error (e errno : Errno) :
    again (asInt ((error e).returned errno)) = (error e).wouldBlock := by
  rw [asInt_returned_error]
  simp [again, wouldBlock]

theorem again_asInt_count {n : ℕ} (h : n < 2 ^ 31) (errno : Errno) :
    again (asInt ((count n).returned errno)) = false := by
  rw [asInt_returned_count h]
  have hn : (n : ℤ) ≠ -1 := by omega
  simp [again, hn]

theorem exists_error_of_wouldBlock : ∀ {r : SysResult}, r.wouldBlock = true → ∃ e, r = error e
  | count _, h => by cases h
  | error e, _ => ⟨e, rfl⟩

end SysResult

open SysResult

/-- A value that fits an `int` and is shown is not a count of `2 ^ 31` or more. -/
theorem SysResult.ShownBy.fitsInt {out : Returned} (hout : IsInt32 out.1) :
    ∀ {r : SysResult}, r.ShownBy out → r.FitsInt
  | count n, h => by
      have hn : out.1 = n := h
      unfold IsInt32 at hout
      change n < 2 ^ 31
      omega
  | error _, _ => trivial

/-- One result is not shown in place of another that would not block. -/
theorem SysResult.ShownBy.wouldBlock_eq {e : Errno} :
    ∀ {r : SysResult}, r.ShownBy (-1, e) → r.wouldBlock = (error e).wouldBlock
  | count n, h => by
      have hn : (-1 : ℤ) = n := h
      omega
  | error e', h => by
      have he : e = e' := (Prod.ext_iff.mp h).2
      rw [he]

/-! ### The hooks -/

/-- The hooked functions that read. -/
inductive ReadCall where
  | read | recv | recvfrom | recvmsg
deriving DecidableEq, Repr

/-- Where a hooked read is called, and what the kernel answers. -/
structure Env where
  /-- `co_hooked`: the caller is a coroutine that has the hooks on. -/
  coHooked : Bool
  /-- The descriptor's `inner_fd`, as whether `O_NONBLOCK` is in its flags. -/
  nonblock : Option Bool
  /-- The results of the underlying calls, in the order of the calls. -/
  result : ReadCall → ℕ → SysResult
  /-- How `event_poll` comes back: with the `errno` of a failed `epoll_ctl`, or with `ifd->error`. -/
  poll : Except Errno IError
  /-- `errno` before the call. -/
  errno : Errno

/-- The caller is hooked and the descriptor non-blocking, and `event_poll` succeeds with `mask`. -/
structure Env.Polls (env : Env) (mask : IError) : Prop where
  hooked : env.coHooked = true
  tracked : env.nonblock = some true
  back : env.poll = .ok mask
  ok : pollResult mask = .ok

/-- The body that the four functions share; `call k` is the `k`-th underlying call. -/
def hookedRead (env : Env) (call : ℕ → Errno → Returned) : Returned :=
  if !env.coHooked then call 0 env.errno
  else if env.nonblock ≠ some true then call 0 env.errno
  else
    let ret := asInt (call 0 env.errno)
    if again ret then
      match env.poll with
      | .error e => (-1, e)
      | .ok mask =>
          match pollResult mask with
          | .failed => (-1, ret.2)
          | .etime => (-1, .etime)
          | .enetdown => (-1, .enetdown)
          | .ok =>
              -- `event_wait` took the descriptor out of the epoll set, so that `delete_events` finds nothing
              let ret := asInt (call 1 .enoent)
              -- an end of stream after a hang-up of the peer becomes an error
              if ret.1 = 0 ∧ mask.rdhup then (-1, ret.2) else ret
    else ret

/-- `hook_read_pfn` is declared to return an `int`. -/
def read (env : Env) : Returned :=
  hookedRead env fun k errno => asInt ((env.result .read k).returned errno)

def recv (env : Env) : Returned := hookedRead env fun k => (env.result .recv k).returned

def recvfrom (env : Env) : Returned := hookedRead env fun k => (env.result .recvfrom k).returned

def recvmsg (env : Env) : Returned := hookedRead env fun k => (env.result .recvmsg k).returned

/-- The hooked functions by their names. -/
def hooked (env : Env) : ReadCall → Returned
  | .read => read env
  | .recv => recv env
  | .recvfrom => recvfrom env
  | .recvmsg => recvmsg env

/-! ### The two paths -/

section Paths

variable {env : Env} {mask : IError} {call : ℕ → Errno → Returned}

theorem hookedRead_immediate (he : env.Polls mask)
    (h : again (asInt (call 0 env.errno)) = false) :
    hookedRead env call = asInt (call 0 env.errno) := by
  unfold hookedRead
  simp [he.hooked, he.tracked, h]

theorem hookedRead_waited (he : env.Polls mask) (h : again (asInt (call 0 env.errno)) = true) :
    hookedRead env call =
      let ret := asInt (call 1 .enoent)
      if ret.1 = 0 ∧ mask.rdhup then (-1, ret.2) else ret := by
  unfold hookedRead
  simp only [he.hooked, he.tracked, h, he.back, he.ok]
  rfl

/-- On either path the value has gone through an `int`. -/
theorem isInt32_hookedRead (he : env.Polls mask) : IsInt32 (hookedRead env call).1 := by
  cases h : again (asInt (call 0 env.errno)) with
  | false =>
      rw [hookedRead_immediate he h]
      exact isInt32_toInt32 _
  | true =>
      rw [hookedRead_waited he h]
      dsimp only
      split
      · exact (by decide : IsInt32 (-1))
      · exact isInt32_toInt32 _

end Paths

section Blocking

-- `res` are the results of the underlying calls, read as values of type `int`
variable {env : Env} {mask : IError} {call : ℕ → Errno → Returned} {res : ℕ → SysResult}
  (hcall : ∀ k errno, asInt (call k errno) = asInt ((res k).returned errno))

include hcall

theorem shown_immediate (he : env.Polls mask) (h0 : (res 0).wouldBlock = false)
    (hfits : (res 0).FitsInt) : (res 0).ShownBy (hookedRead env call) := by
  cases hr : res 0 with
  | count n =>
      rw [hr] at hfits
      rw [hookedRead_immediate he (by rw [hcall, hr, again_asInt_count hfits]), hcall, hr,
        asInt_returned_count hfits]
      rfl
  | error e =>
      rw [hookedRead_immediate he (by rw [hcall, hr, again_asInt_error, ← hr, h0]), hcall, hr,
        asInt_returned_error]
      rfl

/-- What is returned when the first call would block. -/
theorem hookedRead_of_wouldBlock (he : env.Polls mask) (h0 : (res 0).wouldBlock = true) :
    ∃ errno, hookedRead env call =
      let ret := asInt ((res 1).returned errno)
      if ret.1 = 0 ∧ mask.rdhup then (-1, ret.2) else ret := by
  obtain ⟨e, hr⟩ := exists_error_of_wouldBlock h0
  have hagain : again (asInt (call 0 env.errno)) = true := by
    rw [hcall, hr, again_asInt_error, ← hr, h0]
  exact ⟨.enoent, by rw [hookedRead_waited he hagain, hcall]⟩

/-- The second result is shown, but for an end of stream after a hang-up. -/
theorem shown_waited_iff (he : env.Polls mask) (h0 : (res 0).wouldBlock = true)
    (hfits : (res 1).FitsInt) :
    (res 1).ShownBy (hookedRead env call) ↔ ¬(res 1 = .count 0 ∧ mask.rdhup = true) := by
  obtain ⟨errno, hout⟩ := hookedRead_of_wouldBlock hcall he h0
  rw [hout]
  cases hr : res 1 with
  | count n =>
      rw [hr] at hfits
      rw [asInt_returned_count hfits]
      simp only [SysResult.count.injEq, Nat.cast_eq_zero]
      split
      · rename_i hend
        have hne : (-1 : ℤ) ≠ n := by omega
        exact iff_of_false hne (not_not_intro hend)
      · rename_i hend
        exact iff_of_true rfl hend
  | error e =>
      rw [asInt_returned_error]
      simp [ShownBy]

/-- There is no third call. -/
theorem not_shown_of_wouldBlock_twice (he : env.Polls mask) (h0 : (res 0).wouldBlock = true)
    (h1 : (res 1).wouldBlock = true) {r : SysResult} (hr : r.wouldBlock = false) :
    ¬r.ShownBy (hookedRead env call) := by
  intro hshown
  obtain ⟨errno, hout⟩ := hookedRead_of_wouldBlock hcall he h0
  obtain ⟨e, hr1⟩ := exists_error_of_wouldBlock h1
  rw [hr1, asInt_returned_error] at hout
  have hout' : hookedRead env call = (-1, e) := by
    rw [hout]
    simp
  rw [hout'] at hshown
  rw [hshown.wouldBlock_eq, ← hr1, h1] at hr
  cases hr

end Blocking

/-! ### The hooks as blocking calls -/

/-- What each hook assigns to its `ret`. -/
theorem hooked_eq_hookedRead (env : Env) (c : ReadCall) :
    ∃ call : ℕ → Errno → Returned, hooked env c = hookedRead env call ∧
      ∀ k errno, asInt (call k errno) = asInt ((env.result c k).returned errno) := by
  cases c with
  | read =>
      exact ⟨fun k errno => asInt ((env.result .read k).returned errno), rfl,
        fun _ _ => asInt_asInt _⟩
  | recv => exact ⟨fun k => (env.result .recv k).returned, rfl, fun _ _ => rfl⟩
  | recvfrom => exact ⟨fun k => (env.result .recvfrom k).returned, rfl, fun _ _ => rfl⟩
  | recvmsg => exact ⟨fun k => (env.result .recvmsg k).returned, rfl, fun _ _ => rfl⟩

/-- Let the underlying calls block `n` times before one does not, and let `event_poll` succeed with
the events in `mask`.  The hook shows that result exactly when it is the first, or the second and not
an end of stream with `RDHUP` among the events; a count must fit an `int` besides. -/
theorem read_blocks_iff (env : Env) (c : ReadCall) (mask : IError) (n : ℕ) (he : env.Polls mask)
    (hwait : ∀ i < n, (env.result c i).wouldBlock = true)
    (hres : (env.result c n).wouldBlock = false) :
    (env.result c n).ShownBy (hooked env c) ↔
      (env.result c n).FitsInt ∧
        (n = 0 ∨ n = 1 ∧ ¬(env.result c n = .count 0 ∧ mask.rdhup = true)) := by
  obtain ⟨call, hhook, hcall⟩ := hooked_eq_hookedRead env c
  rw [hhook]
  have hfits : (env.result c n).ShownBy (hookedRead env call) → (env.result c n).FitsInt :=
    ShownBy.fitsInt (isInt32_hookedRead he)
  -- the hook makes one call, or two
  rcases n with _ | _ | n
  · exact ⟨fun h => ⟨hfits h, Or.inl rfl⟩, fun h => shown_immediate hcall he hres h.1⟩
  · have h0 := hwait 0 (by omega)
    constructor
    · intro h
      exact ⟨hfits h, Or.inr ⟨rfl, (shown_waited_iff hcall he h0 (hfits h)).mp h⟩⟩
    · rintro ⟨hf, hn0 | ⟨-, hend⟩⟩
      · omega
      · exact (shown_waited_iff hcall he h0 hf).mpr hend
  · have hnot := not_shown_of_wouldBlock_twice hcall he (hwait 0 (by omega)) (hwait 1 (by omega))
      hres
    constructor
    · intro h
      exact absurd h hnot
    · rintro ⟨-, hn0 | ⟨hn1, -⟩⟩ <;> omega

/-- A coroutine on a non-blocking descriptor, with the given results and events. -/
def waiting (results : List SysResult) (mask : IError) : Env where
  coHooked := true
  nonblock := some true
  result := fun _ k => results.getD k (.count 0)
  poll := .ok mask
  errno := .other 0

theorem polls_waiting (results : List SysResult) {mask : IError} (hok : pollResult mask = .ok) :
    (waiting results mask).Polls mask :=
  ⟨rfl, rfl, rfl, hok⟩

/-- Five bytes come after a wait. -/
theorem read_blocks_after_wait :
    (SysResult.count 5).ShownBy
      (hooked (waiting [.error .eagain, .count 5] { read := true }) .recv) := by
  refine (read_blocks_iff (waiting [.error .eagain, .count 5] { read := true }) .recv
    { read := true } 1 (polls_waiting _ rfl) ?_ rfl).mpr ⟨show (5 : ℕ) < 2 ^ 31 by decide, ?_⟩
  · intro i hi
    obtain rfl : i = 0 := by omega
    rfl
  · exact Or.inr ⟨rfl, by decide⟩

/-- The end of the stream is `0` at once and `-1` after a wait that ends with `RDHUP`, and two calls
that would block are not followed by a third. -/
theorem read_end_of_stream_is_error :
    (∃ mask, (waiting [.error .eagain, .count 0] mask).Polls mask ∧
      ∀ c, (hooked (waiting [.count 0] mask) c).1 = 0 ∧
        (hooked (waiting [.error .eagain, .count 0] mask) c).1 = -1) ∧
    ∃ mask, (waiting [.error .eagain, .error .eagain, .count 5] mask).Polls mask ∧
      ∀ c, hooked (waiting [.error .eagain, .error .eagain, .count 5] mask) c = (-1, .eagain) := by
  refine ⟨⟨{ read := true, rdhup := true }, polls_waiting _ rfl, fun c => ?_⟩,
    ⟨{ read := true }, polls_waiting _ rfl, fun c => ?_⟩⟩
  · cases c <;> decide
  · cases c <;> decide

end Libcask.Hook
