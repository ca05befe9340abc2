import Libcask.TimeWheel

/-! # Early timeouts

An element must not time out before its timeout has passed, whatever the timeout is.  The wheel keeps this
only for timeouts below its size: the slot is taken modulo the size, and nothing counts the rounds.  A
negative timeout should mean never, but `wheel_update_element` returns before it unlinks the element, so
that an earlier timeout stays in force.

`never_early` is about the runs without these two kinds of update; `fires_early` has one run of each. -/

namespace Libcask.TimeWheel

variable {E : Type} [DecidableEq E]

/-- The operations on a wheel, with the list of all operations so far. -/
def traced (E : Type) [DecidableEq E] : TS (TimeWheel E × List (Op E)) (Op E) :=
  (system E).withHistory [] fun ops _ op _ => ops ++ [op]

/-- The timeout is smaller than the wheel; where it is negative, the element is on no list. -/
def timely (tw : TimeWheel E) : Op E → Prop
  | .update e t => t < tw.size ∧ (t < 0 → listEmpty tw.wheel (.elem e) = true)
  | _ => True

instance (tw : TimeWheel E) (op : Op E) : Decidable (timely tw op) :=
  match op with
  | .update _ _ => inferInstanceAs (Decidable (_ ∧ (_ → _)))
  | .delete _ | .tick => isTrue trivial

/-- Every element on the wheel is there for its latest update, and has the ticks left that this update
gave it. -/
def Timed (tw : TimeWheel E) (ops : List (Op E)) : Prop :=
  ∃ v left, Agrees tw v left ∧
    ∀ e r, left e = some r → ∃ t k, Latest ops e t k ∧ 0 ≤ t ∧ (k + r : ℤ) = t

variable {tw tw' : TimeWheel E} {v : View ℕ E} {left : E → Option ℕ} {ops : List (Op E)} {e : E}

theorem timed_empty (size loc : ℕ) (hs : size ≤ 2 ^ 31) (hl : loc < size) :
    Timed (empty size loc hs hl : TimeWheel E) [] :=
  ⟨_, _, agrees_empty size loc hs hl, fun _ _ h => nomatch h⟩

/-- An element on no list has no ticks left. -/
theorem Agrees.eq_none (h : Agrees tw v left) (he : listEmpty tw.wheel (.elem e) = true) :
    left e = none := by
  cases hl : left e with
  | none => rfl
  | some r =>
      have hmem := (h.slot _ e).mpr ⟨r, hl, rfl⟩
      have hlinked : ListOps.Linked tw.wheel e := (linked_iff h.rings).mpr fun hfree => hfree _ hmem
      cases he.symm.trans hlinked

/-- The latest update of another element. -/
theorem Latest.snoc_of_ne {t : ℤ} {k : ℕ} {op : Op E} (h : Latest ops e t k) (hop : ¬op.about e)
    (htick : op ≠ .tick) : Latest (ops ++ [op]) e t k :=
  latest_snoc.mpr (.inr ⟨hop, k, h, by rw [if_neg htick, Nat.add_zero]⟩)

theorem timed_step {op : Op E} (h : Timed tw ops) (hop : timely tw op)
    (hstep : opStep tw op = some tw') : Timed tw' (ops ++ [op]) := by
  obtain ⟨v, left, hag, hlatest⟩ := h
  -- a call for another element leaves the latest update where it is
  have hkeep : ∀ x r, left x = some r → ¬op.about x → op ≠ .tick →
      ∃ t k, Latest (ops ++ [op]) x t k ∧ 0 ≤ t ∧ (k + r : ℤ) = t := by
    intro x r hx habout htick
    obtain ⟨t, k, hl, hpos, hk⟩ := hlatest x r hx
    exact ⟨t, k, hl.snoc_of_ne habout htick, hpos, hk⟩
  cases op with
  | update e t =>
      obtain rfl := Option.some.inj hstep
      by_cases h0 : 0 ≤ t
      · obtain ⟨v', hag'⟩ := hag.update e h0 hop.1
        refine ⟨v', _, hag', fun x r hx => ?_⟩
        by_cases hxe : x = e
        · subst hxe
          rw [Function.update_self] at hx
          obtain rfl := Option.some.inj hx
          exact ⟨t, 0, latest_snoc.mpr (.inl ⟨rfl, rfl⟩), h0, by omega⟩
        · rw [Function.update_of_ne hxe] at hx
          exact hkeep x r hx (Ne.symm hxe) nofun
      · -- nothing happens to the wheel, and the element is not on it
        have hneg : t < 0 := not_le.mp h0
        have hnone := hag.eq_none (hop.2 hneg)
        rw [wheelUpdateElement, if_pos hneg]
        refine ⟨v, left, hag, fun x r hx => ?_⟩
        have hxe : e ≠ x := by
          rintro rfl
          cases hnone.symm.trans hx
        exact hkeep x r hx hxe nofun
  | delete e =>
      obtain rfl := Option.some.inj hstep
      refine ⟨_, _, hag.delete e, fun x r hx => ?_⟩
      have hxe : x ≠ e := by
        rintro rfl
        rw [Function.update_self] at hx
        cases hx
      rw [Function.update_of_ne hxe] at hx
      exact hkeep x r hx (Ne.symm hxe) nofun
  | tick =>
      obtain ⟨tw₁, v', out, htick, hag', -⟩ := hag.tick
      obtain ⟨p, hp, rfl⟩ := Option.map_eq_some_iff.mp hstep
      obtain rfl := Option.some.inj (htick.symm.trans hp)
      refine ⟨v', _, hag', fun x r hx => ?_⟩
      obtain ⟨t', k, hl, hpos, hk⟩ := hlatest x (r + 1) (tick_count_eq_some.mp hx)
      refine ⟨t', k + 1, latest_snoc.mpr (.inr ⟨id, k, hl, by simp⟩), hpos, ?_⟩
      push_cast at hk ⊢
      omega

theorem timed_of_reach {x : TimeWheel E × List (Op E)}
    (hr : (traced E).ReachVia (fun x op => timely x.1 op) x) : Timed x.1 x.2 := by
  refine hr.invariant (I := fun x => Timed x.1 x.2) ?_ ?_
  · rintro ⟨tw, ops⟩ ⟨⟨size, loc, hs, hl, rfl⟩, rfl⟩
    exact timed_empty size loc hs hl
  · intro x op x' hx hop hstep
    obtain ⟨hs, hops⟩ := TS.withHistory_step hstep
    rw [hops]
    exact timed_step hx hop hs

/-- **Never early.**  In every run on any wheel in which the timeouts are below its size, and negative only
for elements on no list, the next tick is possible; an element that it unlinks has a latest update, whose
timeout is not negative, and at least as many ticks have passed since then. -/
theorem never_early {x : TimeWheel E × List (Op E)}
    (hr : (traced E).ReachVia (fun x op => timely x.1 op) x) :
    ∃ tw' out, x.1.tick = some (tw', out) ∧
      ∀ e ∈ out, ∃ pre post, ∃ t : ℤ, x.2 = pre ++ .update e t :: post ∧ (∀ t', .update e t' ∉ post) ∧
        0 ≤ t ∧ t ≤ post.count .tick := by
  obtain ⟨v, left, hag, hlatest⟩ := timed_of_reach hr
  obtain ⟨tw', -, out, htick, -, -, -, hout⟩ := hag.tick
  refine ⟨tw', out, htick, fun e he => ?_⟩
  obtain ⟨t, k, ⟨pre, post, heq, habout, rfl⟩, hpos, hk⟩ := hlatest e 0 ((hout e).mp he)
  exact ⟨pre, post, t, heq, fun t' hm => habout _ hm rfl, hpos, by omega⟩

/-- A timeout of one tick that fires in time, next to an element that never times out. -/
theorem never_early_one_tick : ∃ (x : TimeWheel ℕ × List (Op ℕ)) (pre post : List (Op ℕ)) (t : ℤ),
    x.2 = [.update 0 1, .update 1 (-1), .tick] ∧ x.1.tick.any (fun r => decide (0 ∈ r.2)) = true ∧
    x.2 = pre ++ .update 0 t :: post ∧ 0 ≤ t ∧ t ≤ post.count .tick := by
  obtain ⟨x, hr, hx⟩ := TS.ReachVia.exists_of_run (M := traced ℕ) (fun x op => timely x.1 op)
    [.update 0 1, .update 1 (-1), .tick]
    (fun x => decide (x.2 = [.update 0 1, .update 1 (-1), .tick] ∧
      x.1.tick.any (fun r => decide (0 ∈ r.2)) = true))
    (s := (newTimeWheel 60 (by decide), [])) ⟨⟨_, _, _, _, rfl⟩, rfl⟩ (by decide +kernel)
    (by decide +kernel)
  obtain ⟨hops, hdue⟩ := of_decide_eq_true hx
  obtain ⟨tw', out, htick, hearly⟩ := never_early hr
  have hmem : 0 ∈ out := by
    rw [htick] at hdue
    exact of_decide_eq_true hdue
  obtain ⟨pre, post, t, heq, -, h0, ht⟩ := hearly 0 hmem
  exact ⟨x, pre, post, t, hops, hdue, heq, h0, ht⟩

/-- In a wheel of 60 lists, a timeout of 60 ticks fires at the next tick; and a timeout of 0 ticks that is
followed by a negative one fires as well. -/
theorem fires_early :
    (∃ x : TimeWheel ℕ × List (Op ℕ), (traced ℕ).Reachable x ∧ x.2 = [.update 0 60] ∧
      x.1.tick.any (fun r => decide (0 ∈ r.2)) = true) ∧
    ∃ x : TimeWheel ℕ × List (Op ℕ), (traced ℕ).Reachable x ∧ x.2 = [.update 0 0, .update 0 (-1)] ∧
      x.1.tick.any (fun r => decide (0 ∈ r.2)) = true := by
  constructor
  · obtain ⟨x, hr, hx⟩ := TS.Reachable.exists_of_run (M := traced ℕ) [.update 0 60]
      (fun x => decide (x.2 = [.update 0 60] ∧ x.1.tick.any (fun r => decide (0 ∈ r.2)) = true))
      (s := (newTimeWheel 60 (by decide), [])) ⟨⟨_, _, _, _, rfl⟩, rfl⟩ (by decide +kernel)
    exact ⟨x, hr, of_decide_eq_true hx⟩
  · obtain ⟨x, hr, hx⟩ := TS.Reachable.exists_of_run (M := traced ℕ) [.update 0 0, .update 0 (-1)]
      (fun x => decide (x.2 = [.update 0 0, .update 0 (-1)] ∧
        x.1.tick.any (fun r => decide (0 ∈ r.2)) = true))
      (s := (newTimeWheel 60 (by decide), [])) ⟨⟨_, _, _, _, rfl⟩, rfl⟩ (by decide +kernel)
    exact ⟨x, hr, of_decide_eq_true hx⟩

end Libcask.TimeWheel
