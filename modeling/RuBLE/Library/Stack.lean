import Mathlib
import RuBLE.Library.System

/-!
# Stacks

A stack as a transition system over what is put on it and taken off it, so that
a component serves last in, first out, when what it does is a run of it.

* `stackSystem` — what is put on top is what is taken off next.
* `runFrom_stack_keeps` — what is not taken off stays, and so does all below it.
* `take_of_take_below` — **the law of the stack**: what was put on top of
  something is taken off before it.
-/

namespace Transition

/-- Put something on a stack, or take it off. -/
inductive StackOp (α : Type) where
  | put (a : α)
  | take (a : α)
  deriving DecidableEq, Repr

namespace StackOp

variable {α : Type}

/-- What is put on. -/
def putItem : StackOp α → Option α
  | .put a => some a
  | .take _ => none

/-- What is taken off. -/
def takenItem : StackOp α → Option α
  | .put _ => none
  | .take a => some a

end StackOp

section Stack

variable {α : Type} [DecidableEq α]

/-- One operation, on a stack listed from top to bottom; only what is on top
can be taken. -/
def stackStep (l : List α) : StackOp α → Option (List α)
  | .put a => some (a :: l)
  | .take a => if l.head? = some a then some l.tail else none

/-- A stack that is empty at the start. -/
def stackSystem (α : Type) [DecidableEq α] : System (List α) (StackOp α) := ⟨[], stackStep⟩

theorem stackStep_take {l l' : List α} {a : α} (h : stackStep l (.take a) = some l') :
    l = a :: l' := by
  rw [stackStep] at h
  split at h
  · next hhead =>
      cases h
      exact (List.cons_head?_tail hhead).symm
  · cases h

/-- What is not taken off stays, with all below it; above it is what was there
and what is put on. -/
theorem runFrom_stack_keeps {x : α} {below l : List α} (above : List α) (ops : List (StackOp α))
    (hx : .take x ∉ ops)
    (h : (stackSystem α).runFrom (above ++ x :: below) ops = some l) :
    ∃ above', l = above' ++ x :: below ∧
      ∀ y ∈ above', y ∈ above ∨ StackOp.put y ∈ ops := by
  induction ops generalizing above with
  | nil =>
      cases h
      exact ⟨above, rfl, fun y hy => .inl hy⟩
  | cons op ops ih =>
      rw [List.mem_cons, not_or] at hx
      rw [System.runFrom_cons] at h
      obtain ⟨m, hm, hrest⟩ := Option.bind_eq_some_iff.1 h
      cases op with
      | put a =>
          cases hm
          rw [← List.cons_append] at hrest
          obtain ⟨above', rfl, hmem⟩ := ih _ hx.2 hrest
          refine ⟨above', rfl, fun y hy => ?_⟩
          rcases hmem y hy with hy | hy
          · rcases List.mem_cons.1 hy with rfl | hy
            · exact .inr List.mem_cons_self
            · exact .inl hy
          · exact .inr (List.mem_cons_of_mem _ hy)
      | take a =>
          have htop := stackStep_take hm
          cases above with
          | nil =>
              -- `x` is on top, so it is what is taken
              cases htop
              exact absurd rfl hx.1
          | cons b above =>
              cases htop
              obtain ⟨above', rfl, hmem⟩ := ih _ hx.2 hrest
              refine ⟨above', rfl, fun y hy => ?_⟩
              rcases hmem y hy with hy | hy
              · exact .inl (List.mem_cons_of_mem _ hy)
              · exact .inr (List.mem_cons_of_mem _ hy)

/-- **The law of the stack.**  What was put on top of `x` has been taken off when
`x` is, if each of them is handled only once. -/
theorem take_of_take_below {x y : α} {l l' : List α} {between after : List (StackOp α)} (hxy : x ≠ y)
    (hbetween : .take x ∉ between) (hafter : .take x ∉ after) (hx : .put x ∉ after)
    (h : (stackSystem α).runFrom l (.put x :: between ++ .put y :: after ++ [.take x]) = some l') :
    .take y ∈ after := by
  by_contra hy
  rw [System.runFrom_concat, System.runFrom_append] at h
  obtain ⟨m, hm, htake⟩ := Option.bind_eq_some_iff.1 h
  obtain ⟨k, hk, hrun⟩ := Option.bind_eq_some_iff.1 hm
  obtain ⟨above, rfl, -⟩ := runFrom_stack_keeps [] between hbetween hk
  obtain ⟨above', rfl, hmem⟩ := runFrom_stack_keeps [] after hy hrun
  have htop := stackStep_take htake
  cases above' with
  | nil => exact hxy (List.cons.inj htop).1.symm
  | cons z above' =>
      obtain rfl : z = x := (List.cons.inj htop).1
      rcases hmem z List.mem_cons_self with hz | hz
      · cases hz
      · exact hx hz

end Stack

end Transition
