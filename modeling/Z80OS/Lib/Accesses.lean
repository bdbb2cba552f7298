import Mathlib.Data.Int.Notation
import Mathlib.Data.List.OfFn

set_option relaxedAutoImplicit false
set_option autoImplicit false

/-!
# Accesses to tables

A program that keeps its data in tables of fixed sizes is safe when every index that it uses is
inside of the table it is used for. What a part of the program does is a list of accesses, which is
put together in the same way as the part itself.

## Main definitions

* `Access` — an access to a table.
* `Accesses.InBounds` — all accesses of a list are inside.
* `Accesses.examined` — the elements that a linear search looks at.

## Main results

* `Accesses.inBounds_flatMap` — accesses that are put together from parts.
* `Accesses.mem_of_examined` — a linear search looks at nothing but the elements of its list.
-/

/-- An access to a table: the table, and the index that is used. -/
structure Access (τ : Type*) where
  table : τ
  index : ℤ
  deriving DecidableEq

/-- The index is inside of the table. -/
def Access.Inside {τ : Type*} (size : τ → ℕ) (a : Access τ) : Prop :=
  0 ≤ a.index ∧ a.index < size a.table

instance {τ : Type*} (size : τ → ℕ) (a : Access τ) : Decidable (a.Inside size) :=
  inferInstanceAs (Decidable (_ ∧ _))

namespace Accesses

variable {τ α : Type*} {size : τ → ℕ} {l l' : List (Access τ)} {a : Access τ} {p : α → Bool}
  {x : α} {xs : List α}

/-- All accesses are inside of their tables. -/
def InBounds (size : τ → ℕ) (l : List (Access τ)) : Prop := ∀ a ∈ l, a.Inside size

instance : Decidable (InBounds size l) := inferInstanceAs (Decidable (∀ a ∈ l, _))

/-- The elements that a linear search looks at, up to the first one that it looks for. -/
def examined (p : α → Bool) : List α → List α
  | [] => []
  | x :: xs => x :: if p x then [] else examined p xs

/-- No accesses are inside. -/
@[simp] theorem inBounds_nil : InBounds size [] := fun _ h => absurd h List.not_mem_nil

/-- Accesses are inside when the first one is, and the other ones are. -/
@[simp] theorem inBounds_cons : InBounds size (a :: l) ↔ a.Inside size ∧ InBounds size l :=
  List.forall_mem_cons

/-- Accesses are inside when both parts are. -/
@[simp] theorem inBounds_append : InBounds size (l ++ l') ↔ InBounds size l ∧ InBounds size l' :=
  List.forall_mem_append

/-- Accesses that are put together from parts are inside if and only if those of every part are. -/
theorem inBounds_flatMap {f : α → List (Access τ)} :
    InBounds size (xs.flatMap f) ↔ ∀ x ∈ xs, InBounds size (f x) := by
  constructor
  · intro h x hx a ha
    exact h a (List.mem_flatMap.mpr ⟨x, hx, ha⟩)
  · intro h a ha
    obtain ⟨x, hx, ha⟩ := List.mem_flatMap.mp ha
    exact h x hx a ha

/-- One access for each element of a list. -/
theorem inBounds_map {f : α → Access τ} :
    InBounds size (xs.map f) ↔ ∀ x ∈ xs, (f x).Inside size := List.forall_mem_map

/-- A linear search looks at nothing but the elements of its list. -/
theorem mem_of_examined (h : x ∈ examined p xs) : x ∈ xs := by
  induction xs with
  | nil => exact h
  | cons y ys ih =>
    rw [examined] at h
    split_ifs at h
    · rw [List.mem_singleton.mp h]
      exact List.mem_cons_self
    · rcases List.mem_cons.mp h with rfl | h
      · exact List.mem_cons_self
      · exact List.mem_cons_of_mem _ (ih h)

end Accesses
