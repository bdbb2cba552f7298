import Mathlib.Data.Nat.Notation
import Mathlib.Data.Option.Basic

set_option relaxedAutoImplicit false
set_option autoImplicit false

/-!
# Walks

A walk goes from one place to the next until it comes to a place where it stops. A loop that works
its way through a structure is such a walk, together with what it does at the places it passes. So
two loops can be compared place by place.

## Main definitions

* `Walks.walk` — the places that a walk passes and the one where it stops.

## Main results

* `Walks.run_eq_walk` — a loop is its walk, with what it does at the places collected.
-/

namespace Walks

variable {α β : Type*} {stop : α → Prop} [DecidablePred stop] {next : α → Option α}

/-- The places that a walk passes, and the place where it stops if it has passed fewer than `k`. -/
def walk (stop : α → Prop) [DecidablePred stop] (next : α → Option α) : ℕ → α → Option (List α × α)
  | 0, _ => none
  | k + 1, a =>
    if stop a then some ([], a)
    else (next a).bind fun b => (walk stop next k b).map fun w => (a :: w.1, w.2)

/-- A walk stops at an element that it is to stop at. -/
theorem walk_of_stop {k : ℕ} {a : α} (h : stop a) : walk stop next (k + 1) a = some ([], a) := by
  rw [walk, if_pos h]

/-- A walk goes on to the next element. -/
theorem walk_of_next {k : ℕ} {a b : α} (h : ¬ stop a) (hb : next a = some b) :
    walk stop next (k + 1) a = (walk stop next k b).map fun w => (a :: w.1, w.2) := by
  rw [walk, if_neg h, hb, Option.bind_some]

/-- **A loop is a walk.** What a loop gives is what it gives at the place where it stops, with what
it adds at each of the places it has passed.

**Proof sketch.** Induction on the number of turns. -/
theorem run_eq_walk (run : ℕ → α → Option β) (done : α → β) (add : α → β → β)
    (hzero : ∀ a, run 0 a = none) (hstop : ∀ k a, stop a → run (k + 1) a = some (done a))
    (hnext : ∀ k a, ¬ stop a → run (k + 1) a = (next a).bind fun b => (run k b).map (add a))
    (k : ℕ) (a : α) :
    run k a = (walk stop next k a).map fun w => w.1.foldr add (done w.2) := by
  induction k generalizing a with
  | zero => exact hzero a
  | succ k ih =>
    by_cases h : stop a
    · rw [hstop k a h, walk_of_stop h]
      rfl
    · rw [hnext k a h]
      cases hb : next a with
      | none => simp [walk, h, hb]
      | some b =>
        rw [walk_of_next h hb, Option.bind_some, ih, Option.map_map, Option.map_map]
        rfl

end Walks
