import Mathlib.Data.Nat.Notation
import Mathlib.Logic.Function.Basic

set_option relaxedAutoImplicit false
set_option autoImplicit false

/-!
# Stacks in arrays

A stack is kept in an array with a number of entries in use, the oldest one first. As a list, the
newest entry comes first, so that the place of an entry is the length of the list behind it.

## Main definitions

* `ArrayStacks.Stacked` — the array holds the entries of a stack.

## Main results

* `ArrayStacks.Stacked.push` — an entry that is written behind the ones in use.
-/

namespace ArrayStacks

variable {β : Type*} {array array' : ℕ → β} {stack : List β} {b : β}

/-- The array holds the entries of a stack. -/
def Stacked (array : ℕ → β) : List β → Prop
  | [] => True
  | b :: stack => array stack.length = b ∧ Stacked array stack

/-- The empty stack is in every array. -/
@[simp] theorem stacked_nil : Stacked array [] := trivial

/-- The topmost element is behind the other ones. -/
@[simp] theorem stacked_cons :
    Stacked array (b :: stack) ↔ array stack.length = b ∧ Stacked array stack := Iff.rfl

/-- What is behind the entries in use does not matter. -/
theorem Stacked.congr (h : Stacked array stack) (heq : ∀ i < stack.length, array' i = array i) :
    Stacked array' stack := by
  induction stack with
  | nil => trivial
  | cons b stack ih =>
    refine ⟨(heq _ (Nat.lt_succ_self _)).trans h.1, ih h.2 fun i hi => ?_⟩
    exact heq i (Nat.lt_succ_of_lt hi)

/-- An entry is written behind the ones in use. -/
theorem Stacked.push (h : Stacked array stack) (b : β) :
    Stacked (Function.update array stack.length b) (b :: stack) :=
  ⟨Function.update_self .., h.congr fun _ hi => Function.update_of_ne (Nat.ne_of_lt hi) ..⟩

/-- The entries below some others are a stack. -/
theorem Stacked.of_append {front : List β} (h : Stacked array (front ++ stack)) :
    Stacked array stack := by
  induction front with
  | nil => exact h
  | cons b front ih => exact ih h.2

end ArrayStacks
