import Mathlib
import RuBLE.Library.Program

/-!
# What a program leaves alone

A program leaves a part of the state alone if the part is the same after it,
whether it returns or throws.

* `Program.Leaves` — the property, of a part that a function reads off the state.
* `Leaves.bind` — it composes; `Leaves.modify` and `Leaves.act` are where
  something has to be shown.
-/

namespace Transition

namespace Program

variable {σ ε α β τ : Type}

/-- Whatever the program does, `part` is the same after it. -/
def Leaves (part : σ → τ) (x : Program σ ε α) : Prop := ∀ s, part (x.run s).2 = part s

namespace Leaves

variable {part : σ → τ} {x : Program σ ε α}

theorem pure (a : α) : Leaves part (Pure.pure a : Program σ ε α) := fun _ => rfl

theorem throw (e : ε) : Leaves part (Program.throw e : Program σ ε α) := fun _ => rfl

theorem get : Leaves part (Program.get : Program σ ε σ) := fun _ => rfl

theorem modify {f : σ → σ} (h : ∀ s, part (f s) = part s) :
    Leaves part (Program.modify f : Program σ ε Unit) := h

theorem act {f : σ → α × σ} (h : ∀ s, part (f s).2 = part s) :
    Leaves part (Program.act f : Program σ ε α) := h

theorem orThrow (e : ε) (o : Option α) : Leaves part (Program.orThrow e o : Program σ ε α) := by
  cases o with
  | none => exact throw e
  | some a => exact pure a

/-- What two programs leave alone, one after the other does. -/
theorem bind {f : α → Program σ ε β} (hx : Leaves part x) (hf : ∀ a, Leaves part (f a)) :
    Leaves part (x >>= f) := by
  intro s
  have hs := hx s
  cases hr : x.run s with
  | mk r t =>
      rw [hr] at hs
      cases r with
      | ok a => rw [run_bind_ok hr, hf a t, hs]
      | error e => rw [run_bind_error hr, hs]

theorem ite {c : Prop} [Decidable c] {y : Program σ ε α} (hx : Leaves part x) (hy : Leaves part y) :
    Leaves part (if c then x else y) := by
  split
  · exact hx
  · exact hy

theorem when {c : Prop} [Decidable c] {x : Program σ ε Unit} (hx : Leaves part x) :
    Leaves part (Program.when c x) := ite hx (pure ())

end Leaves

end Program

end Transition
