import Libcask.CInt
import Libcask.CList
import Libcask.InnerFd
import Libcask.Transition

/-! # The time wheel

`time_wheel.c`: a ring of `size` lists, one of which is the current one (`loc`).  An element is anything
with a link (`E`).  A tick is a pass of the loop of `_timeout_task` (`event.c`): the wheel turns, and the
elements of the list it has come to are unlinked one by one.

A wheel has no more than `2 ^ 31` lists, since `new_time_wheel` counts them in an `int`.  The field
`updates` counts the calls of `wheel_update_element`; it bounds the passes of the loop.

The abstract side counts for every element the ticks that are left (`Op.count`).

* `drained_on_time`: a tick unlinks exactly the elements whose latest update or delete is an update with
  a timeout `t` that lies `t` ticks back. -/

namespace Libcask

/-- `time_wheel_t`. -/
structure TimeWheel (E : Type) where
  wheel : Links (Node ℕ E)
  size : ℕ
  loc : ℕ
  updates : ℕ
  fits : size ≤ 2 ^ 31
  loc_lt : loc < size

namespace TimeWheel

variable {E : Type} [DecidableEq E]

omit [DecidableEq E] in
theorem size_pos (tw : TimeWheel E) : 0 < tw.size := Nat.zero_lt_of_lt tw.loc_lt

/-- A wheel without elements. -/
def empty (size loc : ℕ) (hs : size ≤ 2 ^ 31) (hl : loc < size) : TimeWheel E :=
  ⟨⟨id, id⟩, size, loc, 0, hs, hl⟩

def minTimeWheelSize : ℕ := 60

def newTimeWheel (size : ℕ) (hs : size ≤ 2 ^ 31) : TimeWheel E :=
  empty (if size > minTimeWheelSize then size else minTimeWheelSize) 0
    (by unfold minTimeWheelSize; split_ifs <;> omega)
    (by unfold minTimeWheelSize; split_ifs <;> omega)

def wheelRotate (tw : TimeWheel E) : TimeWheel E :=
  { tw with loc := (tw.loc + 1) % tw.size, loc_lt := Nat.mod_lt _ tw.size_pos }

def wheelDeleteElement (tw : TimeWheel E) (elm : E) : TimeWheel E :=
  { tw with wheel := listDelete tw.wheel (.elem elm) }

/-- A negative timeout means never. -/
def wheelUpdateElement (tw : TimeWheel E) (elm : E) (timeout : ℤ) : TimeWheel E :=
  if timeout < 0 then tw
  else
    let tv := toInt32 (toUInt64 (tw.loc + timeout + 1) % tw.size : ℕ)
    let tw := tw.wheelDeleteElement elm
    { tw with
      wheel := listAdd tw.wheel (.head tv.toNat) (.elem elm)
      updates := tw.updates + 1 }

def wheelTimeoutList (tw : TimeWheel E) : Node ℕ E := .head tw.loc

/-- The wheel after a tick, and the elements that have timed out. -/
def tick (tw : TimeWheel E) : Option (TimeWheel E × List E) :=
  let tw := tw.wheelRotate
  (drain (tw.updates + 1) (listNext tw.wheel tw.wheelTimeoutList) tw.wheel).map fun r =>
    ({ tw with wheel := r.2 }, r.1)

inductive Op (E : Type) where
  | update (elm : E) (timeout : ℤ)
  | delete (elm : E)
  | tick
deriving DecidableEq

def opStep (tw : TimeWheel E) : Op E → Option (TimeWheel E)
  | .update e t => some (tw.wheelUpdateElement e t)
  | .delete e => some (tw.wheelDeleteElement e)
  | .tick => tw.tick.map (·.1)

def system (E : Type) [DecidableEq E] : TS (TimeWheel E) (Op E) where
  init tw := ∃ size loc hs hl, tw = empty size loc hs hl
  step := opStep

/-! ### Counting ticks -/

/-- The timeout is smaller than the wheel. -/
def Op.inRange (size : ℕ) : Op E → Prop
  | .update _ t => 0 ≤ t ∧ t < size
  | _ => True

omit [DecidableEq E] in
instance Op.inRange_decidable (size : ℕ) (op : Op E) : Decidable (op.inRange size) :=
  match op with
  | .update _ _ => inferInstanceAs (Decidable (_ ∧ _))
  | .delete _ => inferInstanceAs (Decidable True)
  | .tick => inferInstanceAs (Decidable True)

/-- The operation updates or deletes `e`. -/
def Op.about (e : E) : Op E → Prop
  | .update e' _ => e' = e
  | .delete e' => e' = e
  | .tick => False

/-- The ticks that are left of each timeout: an element with none left times out at the next one. -/
def Op.count (left : E → Option ℕ) : Op E → E → Option ℕ
  | .update e t => Function.update left e (some t.toNat)
  | .delete e => Function.update left e none
  | .tick => fun e => (left e).bind fun r => if r = 0 then none else some (r - 1)

/-- The ticks that are left after the operations. -/
def ticksLeft (ops : List (Op E)) : E → Option ℕ := ops.foldl Op.count fun _ => none

theorem tick_count_eq_some {left : E → Option ℕ} {e : E} {r : ℕ} :
    Op.tick.count left e = some r ↔ left e = some (r + 1) := by
  cases hl : left e with
  | none => simp [Op.count, hl]
  | some q =>
      simp only [Op.count, hl, Option.bind_some, Option.some.injEq]
      split_ifs
      · simp
        omega
      · simp
        omega

/-- The latest update or delete of `e` is an update with the timeout `t`, and `k` ticks follow. -/
def Latest (ops : List (Op E)) (e : E) (t : ℤ) (k : ℕ) : Prop :=
  ∃ pre post, ops = pre ++ .update e t :: post ∧ (∀ op ∈ post, ¬op.about e) ∧ post.count .tick = k

variable {e : E} {t : ℤ} {k r : ℕ} {ops : List (Op E)}

theorem latest_snoc {op : Op E} : Latest (ops ++ [op]) e t k ↔ op = .update e t ∧ k = 0 ∨
    ¬op.about e ∧ ∃ k₀, Latest ops e t k₀ ∧ k = k₀ + if op = .tick then 1 else 0 := by
  constructor
  · rintro ⟨pre, post, heq, habout, rfl⟩
    rcases List.eq_nil_or_concat' post with rfl | ⟨post, x, rfl⟩
    · left
      obtain ⟨-, hop⟩ := List.append_inj' heq rfl
      exact ⟨List.singleton_inj.mp hop, rfl⟩
    · right
      rw [← List.cons_append, ← List.append_assoc] at heq
      obtain ⟨hops, hx⟩ := List.append_inj' heq rfl
      obtain rfl : op = x := List.singleton_inj.mp hx
      refine ⟨habout op (by simp), _, ⟨pre, post, hops, fun y hy => habout y (by simp [hy]), rfl⟩, ?_⟩
      rw [List.count_append, List.count_singleton]
      simp
  · rintro (⟨rfl, rfl⟩ | ⟨hop, k₀, ⟨pre, post, rfl, habout, rfl⟩, rfl⟩)
    · exact ⟨ops, [], rfl, by simp, rfl⟩
    · refine ⟨pre, post ++ [op], by simp, fun y hy => ?_, ?_⟩
      · rcases List.mem_append.mp hy with hy | hy
        · exact habout y hy
        · rw [List.mem_singleton.mp hy]
          exact hop
      · rw [List.count_append, List.count_singleton]
        simp

/-- An element has `r` ticks left if the timeout of its latest update is `r` more than the ticks since
then. -/
theorem ticksLeft_eq_some_iff (hpos : ∀ e t, .update e t ∈ ops → 0 ≤ t) :
    ∀ r, ticksLeft ops e = some r ↔ ∃ t k, Latest ops e t k ∧ (k + r : ℤ) = t := by
  induction ops using List.reverseRecOn with
  | nil =>
      intro r
      simp [ticksLeft, Latest]
  | append_singleton ops op ih =>
      intro r
      have ih := ih fun e t h => hpos e t (List.mem_append_left _ h)
      have hstep : ticksLeft (ops ++ [op]) = op.count (ticksLeft ops) := by
        simp [ticksLeft]
      rw [hstep]
      simp only [latest_snoc]
      cases op with
      | tick =>
          rw [tick_count_eq_some, ih]
          constructor
          · rintro ⟨t, k, hl, hk⟩
            exact ⟨t, k + 1, .inr ⟨id, k, hl, by simp⟩, by push_cast at hk ⊢; omega⟩
          · rintro ⟨t, k, ⟨⟨⟩, -⟩ | ⟨-, k₀, hl, rfl⟩, hk⟩
            exact ⟨t, k₀, hl, by simp at hk; push_cast; omega⟩
      | update e' t' =>
          have ht := hpos e' t' (by simp)
          by_cases he : e' = e
          · subst he
            simp [Op.count, Op.about]
            omega
          · simp [Op.count, Op.about, he, Function.update_of_ne (Ne.symm he), ih]
      | delete e' =>
          by_cases he : e' = e
          · subst he
            simp [Op.count, Op.about]
          · simp [Op.count, Op.about, he, Function.update_of_ne (Ne.symm he), ih]

/-! ### The wheel keeps count -/

/-- The elements on the wheel are those with ticks left, each on the list that is reached in time. -/
structure Agrees (tw : TimeWheel E) (v : View ℕ E) (left : E → Option ℕ) : Prop where
  rings : Rings tw.wheel v
  slot : ∀ s e, e ∈ v s ↔ ∃ r, left e = some r ∧ s = (tw.loc + r + 1) % tw.size
  lt : ∀ e r, left e = some r → r < tw.size
  length : ∀ s, (v s).length ≤ tw.updates

variable {tw : TimeWheel E} {v : View ℕ E} {left : E → Option ℕ}

omit [DecidableEq E] in
theorem slot_eq (tw : TimeWheel E) (h0 : 0 ≤ t) (ht : t < 2 ^ 31) :
    (toInt32 (toUInt64 (tw.loc + t + 1) % tw.size : ℕ)).toNat = (tw.loc + t.toNat + 1) % tw.size := by
  have hsize := tw.fits
  have hloc := tw.loc_lt
  have hsum : toUInt64 (tw.loc + t + 1) = tw.loc + t.toNat + 1 := by
    unfold toUInt64
    omega
  have hlt := Nat.mod_lt (tw.loc + t.toNat + 1) tw.size_pos
  rw [hsum, toInt32_natCast (by omega), Int.toNat_natCast]

theorem Agrees.delete (h : Agrees tw v left) (e : E) :
    Agrees (tw.wheelDeleteElement e) (v.delete e) (Function.update left e none) where
  rings := rings_delete h.rings e
  slot s x := by
    rw [View.mem_delete h.rings.ok, h.slot]
    by_cases hx : x = e
    · subst hx
      simp
    · simp [hx, wheelDeleteElement]
  lt x r hx := by
    by_cases hxe : x = e
    · subst hxe
      simp at hx
    · rw [Function.update_of_ne hxe] at hx
      exact h.lt x r hx
  length s := (List.length_erase_le).trans (h.length s)

theorem Agrees.update (h : Agrees tw v left) (e : E) (h0 : 0 ≤ t) (ht : t < tw.size) :
    ∃ v', Agrees (tw.wheelUpdateElement e t) v' (Function.update left e (some t.toNat)) := by
  have hd := h.delete e
  have hsize := tw.fits
  refine ⟨(v.delete e).addAfter ((tw.loc + t.toNat + 1) % tw.size) e, ?_⟩
  unfold wheelUpdateElement
  rw [if_neg (by omega)]
  dsimp only
  rw [slot_eq tw h0 (by omega)]
  refine ⟨rings_addAfter hd.rings (View.free_delete h.rings.ok e), fun s x => ?_, fun x r hx => ?_,
    fun s => ?_⟩
  · rw [View.mem_addAfter, hd.slot]
    by_cases hx : x = e
    · subst hx
      simp [wheelDeleteElement]
    · simp [hx]
  · by_cases hxe : x = e
    · subst hxe
      rw [Function.update_self] at hx
      obtain rfl := Option.some.inj hx
      show t.toNat < tw.size
      omega
    · rw [Function.update_of_ne hxe] at hx
      exact h.lt x r hx
  · have hlen := hd.length s
    by_cases hs : s = (tw.loc + t.toNat + 1) % tw.size
    · subst hs
      rw [View.addAfter, Function.update_self, List.length_cons]
      exact Nat.succ_le_succ hlen
    · rw [View.addAfter, Function.update_of_ne hs]
      exact hlen.trans (Nat.le_succ _)

omit [DecidableEq E] in
/-- The list that the wheel comes to holds the elements with no ticks left. -/
theorem Agrees.due (h : Agrees tw v left) (e : E) :
    e ∈ v ((tw.loc + 1) % tw.size) ↔ left e = some 0 := by
  rw [h.slot]
  constructor
  · rintro ⟨r, hr, hs⟩
    have hlt := h.lt e r hr
    have hmod : r % tw.size = 0 := by
      have hcong : tw.loc + 1 + 0 ≡ tw.loc + 1 + r [MOD tw.size] := by
        rw [Nat.ModEq, Nat.add_zero, hs]
        congr 1
        omega
      exact (Nat.ModEq.add_left_cancel' _ hcong).symm
    rw [Nat.mod_eq_of_lt hlt] at hmod
    rw [hr, hmod]
  · intro hr
    exact ⟨0, hr, rfl⟩

/-- After a tick every element that is left has one tick less to wait, in the slot where it is. -/
theorem Agrees.slot_tick (h : Agrees tw v left) (s : ℕ) (e : E) :
    e ∈ Function.update v ((tw.loc + 1) % tw.size) [] s ↔
      ∃ r, Op.tick.count left e = some r ∧ s = ((tw.loc + 1) % tw.size + r + 1) % tw.size := by
  have hslot : ∀ r, ((tw.loc + 1) % tw.size + r + 1) % tw.size = (tw.loc + (r + 1) + 1) % tw.size := by
    intro r
    rw [Nat.add_assoc, Nat.mod_add_mod]
    congr 1
    omega
  simp only [tick_count_eq_some, hslot]
  by_cases hs : s = (tw.loc + 1) % tw.size
  · rw [hs, Function.update_self]
    refine ⟨fun hm => absurd hm List.not_mem_nil, ?_⟩
    rintro ⟨r, hr, heq⟩
    have hdue := (h.due e).mp ((h.slot _ e).mpr ⟨r + 1, hr, heq⟩)
    cases hr.symm.trans hdue
  · rw [Function.update_of_ne hs, h.slot]
    constructor
    · rintro ⟨r, hr, heq⟩
      cases r with
      | zero => exact absurd heq hs
      | succ r => exact ⟨r, hr, heq⟩
    · rintro ⟨r, hr, heq⟩
      exact ⟨r + 1, hr, heq⟩

theorem Agrees.tick (h : Agrees tw v left) : ∃ tw' v' out, tw.tick = some (tw', out) ∧
    Agrees tw' v' (Op.tick.count left) ∧ tw'.size = tw.size ∧ out.Nodup ∧
    ∀ e, e ∈ out ↔ left e = some 0 := by
  have hlen := h.length ((tw.loc + 1) % tw.size)
  obtain ⟨L, he, hR⟩ := drain_spec (h := (tw.loc + 1) % tw.size) _ (tw.updates + 1) h.rings rfl
    (Nat.lt_succ_of_le hlen)
  have hnext : listNext tw.wheel (.head ((tw.loc + 1) % tw.size)) =
      Rings.cursor ((tw.loc + 1) % tw.size) (v ((tw.loc + 1) % tw.size)) := h.rings.next_head_cursor _
  refine ⟨{ tw.wheelRotate with wheel := L }, _, _, ?_, ⟨hR, h.slot_tick, fun e r hr => ?_, fun s => ?_⟩,
    rfl, h.rings.ok.nodup _, h.due⟩
  · unfold TimeWheel.tick
    dsimp only [wheelRotate, wheelTimeoutList]
    rw [hnext, he]
    rfl
  · show r < tw.size
    have hlt := h.lt e (r + 1) (tick_count_eq_some.mp hr)
    omega
  · show (Function.update v ((tw.loc + 1) % tw.size) [] s).length ≤ tw.updates
    by_cases hs : s = (tw.loc + 1) % tw.size
    · rw [hs, Function.update_self]
      exact Nat.zero_le _
    · rw [Function.update_of_ne hs]
      exact h.length s

/-! ### Runs -/

theorem wheelUpdateElement_size (tw : TimeWheel E) (e : E) (t : ℤ) :
    (tw.wheelUpdateElement e t).size = tw.size := by
  unfold wheelUpdateElement
  split_ifs <;> rfl

theorem agrees_step (h : Agrees tw v left) {op : Op E} (hop : op.inRange tw.size) :
    ∃ tw' v', opStep tw op = some tw' ∧ Agrees tw' v' (op.count left) ∧ tw'.size = tw.size := by
  cases op with
  | update e t =>
      obtain ⟨v', h'⟩ := h.update e hop.1 hop.2
      exact ⟨_, v', rfl, h', wheelUpdateElement_size tw e t⟩
  | delete e => exact ⟨_, _, rfl, h.delete e, rfl⟩
  | tick =>
      obtain ⟨tw', v', out, he, h', hsize, -⟩ := h.tick
      exact ⟨tw', v', by rw [opStep, he]; rfl, h', hsize⟩

theorem agrees_run : ∀ (ops : List (Op E)) {tw : TimeWheel E} {v : View ℕ E} {left : E → Option ℕ},
    Agrees tw v left → (∀ op ∈ ops, op.inRange tw.size) →
    ∃ tw' v', (system E).run tw ops = some tw' ∧ Agrees tw' v' (ops.foldl Op.count left)
  | [], tw, v, left, h, _ => ⟨tw, v, rfl, h⟩
  | op :: ops, tw, v, left, h, hops => by
      obtain ⟨tw₁, v₁, he, h₁, hsize⟩ := agrees_step h (hops op List.mem_cons_self)
      obtain ⟨tw', v', he', h'⟩ := agrees_run ops h₁ fun x hx =>
        hsize ▸ hops x (List.mem_cons_of_mem op hx)
      exact ⟨tw', v', Option.bind_eq_some_iff.mpr ⟨tw₁, he, he'⟩, h'⟩

omit [DecidableEq E] in
theorem agrees_empty (size loc : ℕ) (hs : size ≤ 2 ^ 31) (hl : loc < size) :
    Agrees (empty size loc hs hl : TimeWheel E) (fun _ => []) fun _ => none :=
  ⟨Rings.init, by simp, by simp, by simp⟩

/-- After any operations with timeouts below the size of the wheel, a tick unlinks an element, once, if and
only if the latest update or delete of the element is an update, and the tick is the one after as many ticks
as its timeout. -/
theorem drained_on_time (size loc : ℕ) (hs : size ≤ 2 ^ 31) (hl : loc < size) (ops : List (Op E))
    (hops : ∀ op ∈ ops, op.inRange size) :
    ∃ tw tw' out, (system E).run (empty size loc hs hl) ops = some tw ∧ tw.tick = some (tw', out) ∧
      out.Nodup ∧ ∀ e, e ∈ out ↔ ∃ pre post t, ops = pre ++ .update e t :: post ∧
        (∀ op ∈ post, ¬op.about e) ∧ (post.count .tick : ℤ) = t := by
  obtain ⟨tw, v, hrun, h⟩ := agrees_run ops (agrees_empty size loc hs hl) hops
  obtain ⟨tw', -, out, htick, -, -, hnodup, hout⟩ := h.tick
  refine ⟨tw, tw', out, hrun, htick, hnodup, fun e => ?_⟩
  rw [hout]
  refine (ticksLeft_eq_some_iff (fun e t hm => (hops _ hm).1) 0).trans ?_
  constructor
  · rintro ⟨t, k, ⟨pre, post, heq, habout, rfl⟩, hk⟩
    exact ⟨pre, post, t, heq, habout, by simpa using hk⟩
  · rintro ⟨pre, post, t, heq, habout, hk⟩
    exact ⟨t, _, ⟨pre, post, heq, habout, rfl⟩, by simpa using hk⟩

/-- In a wheel of three lists, an element is due at the third tick after its update, on the list that was
current then. -/
theorem drained_on_time_wrapped : ∃ tw tw' out,
    (system ℕ).run (empty 3 1 (by decide) (by decide))
      [.update 0 2, .update 1 0, .tick, .delete 1, .tick] = some tw ∧
    tw.tick = some (tw', out) ∧ out.Nodup ∧ 0 ∈ out := by
  obtain ⟨tw, tw', out, hrun, htick, hnodup, hout⟩ := drained_on_time (E := ℕ) 3 1 (by decide)
    (by decide) [.update 0 2, .update 1 0, .tick, .delete 1, .tick] (by decide)
  refine ⟨tw, tw', out, hrun, htick, hnodup, (hout 0).mpr ⟨[], _, 2, rfl, ?_, by decide⟩⟩
  simp [Op.about]

end TimeWheel

/-! ### The wheel of the scheduler -/

namespace Sched.Io

/-- The wheel of a thread, with the inner descriptors as its elements. -/
def toWheel (io : Io) (hl : io.loc < wheelSize) (updates : ℕ) : TimeWheel Fd :=
  ⟨io.wheel, wheelSize, io.loc, updates, by decide, hl⟩

variable (io : Io) (hl : io.loc < wheelSize) (n : ℕ) (fd : Fd)

theorem toWheel_wheelRotate : (io.toWheel hl n).wheelRotate =
    io.wheelRotate.toWheel (Nat.mod_lt _ (by decide)) n := rfl

theorem toWheel_wheelDeleteElement : (io.toWheel hl n).wheelDeleteElement fd =
    (io.wheelDeleteElement fd).toWheel hl n := rfl

theorem toWheel_wheelUpdateElement {t : ℤ} (h0 : 0 ≤ t) (ht : t < 2 ^ 31)
    (hl' : (io.wheelUpdateElement fd t).loc < wheelSize) :
    (io.toWheel hl n).wheelUpdateElement fd t =
      (io.wheelUpdateElement fd t).toWheel hl' (n + 1) := by
  unfold TimeWheel.wheelUpdateElement
  dsimp only
  rw [if_neg (by omega), TimeWheel.slot_eq _ h0 ht]
  simp only [wheelUpdateElement, if_neg (show ¬t < 0 by omega)]
  rfl

end Sched.Io

end Libcask
