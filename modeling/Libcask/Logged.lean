import Mathlib.Tactic

/-! # Computations with a log

A `Logged ε α` is a value of type `α` with the events of type `ε` that were recorded on the way to it, in
this order: an instrumented program records its events with `tell`, and its `val` is what the program
without the log computes.

`Every P x` says that all events of `x` meet `P`; there is one rule for each way to build a
computation (`every_pure`, `every_tell`, `every_bind`). -/

namespace Libcask

/-- A value and the events recorded on the way to it. -/
structure Logged (ε α : Type) where
  val : α
  log : List ε
deriving DecidableEq, Repr

namespace Logged

variable {ε α β : Type}

instance : Monad (Logged ε) where
  pure a := ⟨a, []⟩
  bind x f := ⟨(f x.val).val, x.log ++ (f x.val).log⟩

/-- Record an event. -/
def tell (e : ε) : Logged ε Unit := ⟨(), [e]⟩

@[simp] theorem pure_val (a : α) : (pure a : Logged ε α).val = a := rfl
@[simp] theorem pure_log (a : α) : (pure a : Logged ε α).log = [] := rfl
@[simp] theorem tell_log (e : ε) : (tell e).log = [e] := rfl

@[simp] theorem bind_val (x : Logged ε α) (f : α → Logged ε β) : (x >>= f).val = (f x.val).val := rfl

@[simp] theorem bind_log (x : Logged ε α) (f : α → Logged ε β) :
    (x >>= f).log = x.log ++ (f x.val).log := rfl

/-- All events that are recorded meet the condition. -/
def Every (P : ε → Prop) (x : Logged ε α) : Prop := ∀ e ∈ x.log, P e

variable {P : ε → Prop}

theorem every_pure (a : α) : Every P (pure a) := fun _ he => absurd he List.not_mem_nil

theorem every_tell {e : ε} (he : P e) : Every P (tell e) := by
  intro e' he'
  rwa [List.mem_singleton.mp he']

theorem every_bind {x : Logged ε α} {f : α → Logged ε β} (hx : Every P x) (hf : Every P (f x.val)) :
    Every P (x >>= f) := by
  intro e he
  rcases List.mem_append.mp he with he | he
  · exact hx e he
  · exact hf e he

end Logged

end Libcask
