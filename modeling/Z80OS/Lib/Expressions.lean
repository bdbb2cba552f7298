import Mathlib.Algebra.BigOperators.Group.List.Basic
import Mathlib.Algebra.Ring.Hom.Defs
import Mathlib.Tactic.Ring

set_option relaxedAutoImplicit false
set_option autoImplicit false

/-!
# Sums, differences and products

An expression without parentheses is an operand and the operators and operands behind it. Ordinary
arithmetic multiplies first and then adds and subtracts from the left. An evaluator that holds back
the operators whose turn has not come yet has three stacks, one for each rank. When minus has a rank
of its own above plus, and an operator is only held back while operators of a greater rank come,
the minus signs between two plus signs are worked off from the right.

All of this is over a commutative ring.

## Main definitions

* `Expressions.ordinaryValue` — the value of an expression.
* `Expressions.stacked` — its value on three stacks.
* `Expressions.evenSubtrahends` — what the two differ by.

## Main results

* `Expressions.stacked_eq` — the value on the stacks is the ordinary value and twice the sum of the
  subtrahends at the even places.
-/

namespace Expressions

/-- The operators. -/
inductive BinOp
  | plus
  | minus
  | mult
  deriving DecidableEq

section

variable {R : Type*} [CommRing R]

/-- An operator applied to its operands. -/
def BinOp.apply : BinOp → R → R → R
  | .plus, a, b => a + b
  | .minus, a, b => a - b
  | .mult, a, b => a * b

/-- A sum. -/
@[simp] theorem BinOp.apply_plus (a b : R) : BinOp.plus.apply a b = a + b := rfl

/-- A difference. -/
@[simp] theorem BinOp.apply_minus (a b : R) : BinOp.minus.apply a b = a - b := rfl

/-- A product. -/
@[simp] theorem BinOp.apply_mult (a b : R) : BinOp.mult.apply a b = a * b := rfl

/-- The terms of an expression: the first one, and the others with the signs in front of them. A
term is the product of its factors, from the left. -/
def terms (v : R) : List (BinOp × R) → R × List (BinOp × R)
  | [] => (v, [])
  | (.mult, w) :: rest => terms (v * w) rest
  | (.plus, w) :: rest => (v, (.plus, (terms w rest).1) :: (terms w rest).2)
  | (.minus, w) :: rest => (v, (.minus, (terms w rest).1) :: (terms w rest).2)

/-- The value of an expression: its terms are added and subtracted from the left. -/
def ordinaryValue (v : R) (rest : List (BinOp × R)) : R :=
  (terms v rest).2.foldl (fun a t => t.1.apply a t.2) (terms v rest).1

/-- The sum of the terms that are subtracted at the even places, where the places of the terms that
are subtracted are counted from each term that is added. The flag says that the next place is an
even one. -/
def evenPlaces : Bool → List (BinOp × R) → R
  | _, [] => 0
  | _, (.plus, _) :: rest => evenPlaces false rest
  | false, (.minus, _) :: rest => evenPlaces true rest
  | true, (.minus, t) :: rest => t + evenPlaces false rest
  | even, (.mult, _) :: rest => evenPlaces even rest

/-- The sum of the subtrahends at the even places of an expression. -/
def evenSubtrahends (v : R) (rest : List (BinOp × R)) : R := evenPlaces false (terms v rest).2

/-! ## Homomorphisms -/

variable {S : Type*} [CommRing S] (φ : R →+* S)

/-- A homomorphism goes through one operation. -/
theorem map_apply (op : BinOp) (a b : R) : φ (op.apply a b) = op.apply (φ a) (φ b) := by
  cases op <;> simp

/-- A homomorphism goes through the split into terms. -/
theorem map_terms (v : R) (rest : List (BinOp × R)) :
    terms (φ v) (rest.map (Prod.map id φ)) =
      (φ (terms v rest).1, (terms v rest).2.map (Prod.map id φ)) := by
  induction rest generalizing v with
  | nil => rfl
  | cons p rest ih =>
    obtain ⟨op, w⟩ := p
    cases op with
    | mult =>
      have h := ih (v * w)
      rw [map_mul] at h
      exact h
    | plus => simp [terms, ih w]
    | minus => simp [terms, ih w]

/-- A homomorphism goes through a sum of terms from the left. -/
theorem map_foldl_apply (a : R) (ts : List (BinOp × R)) :
    φ (ts.foldl (fun a t => t.1.apply a t.2) a) =
      (ts.map (Prod.map id φ)).foldl (fun a t => t.1.apply a t.2) (φ a) := by
  induction ts generalizing a with
  | nil => rfl
  | cons t ts ih => simp [ih, map_apply]

/-- A homomorphism goes through the ordinary value. -/
theorem map_ordinaryValue (v : R) (rest : List (BinOp × R)) :
    φ (ordinaryValue v rest) = ordinaryValue (φ v) (rest.map (Prod.map id φ)) := by
  rw [ordinaryValue, ordinaryValue, map_terms, map_foldl_apply]

/-- A homomorphism goes through the sum of the terms at even places. -/
theorem map_evenPlaces (even : Bool) (ts : List (BinOp × R)) :
    φ (evenPlaces even ts) = evenPlaces even (ts.map (Prod.map id φ)) := by
  induction ts generalizing even with
  | nil => cases even <;> simp [evenPlaces]
  | cons t ts ih =>
    obtain ⟨op, w⟩ := t
    cases op <;> cases even <;> simp [evenPlaces, ih]

/-- A homomorphism goes through the value with subtrahends at even places. -/
theorem map_evenSubtrahends (v : R) (rest : List (BinOp × R)) :
    φ (evenSubtrahends v rest) = evenSubtrahends (φ v) (rest.map (Prod.map id φ)) := by
  rw [evenSubtrahends, evenSubtrahends, map_terms, map_evenPlaces]

/-! ## Stacks -/

/-- An operator is worked off that stands between an operand and the operands on its stack. -/
def BinOp.unwind (op : BinOp) (stack : List R) (v : R) : R :=
  stack.foldl (fun a b => op.apply b a) v

/-- Without operands on the stack the value stays. -/
@[simp] theorem BinOp.unwind_nil (op : BinOp) (v : R) : op.unwind [] v = v := rfl

/-- The operation is done with the topmost operand first. -/
@[simp] theorem BinOp.unwind_cons (op : BinOp) (a v : R) (stack : List R) :
    op.unwind (a :: stack) v = op.unwind stack (op.apply a v) := rfl

/-- The value of an expression whose current operand is `v`, with the operands that wait for a
product, for a difference and for a sum. -/
def stacked : List R → List R → List R → R → List (BinOp × R) → R
  | ms, ds, ss, v, [] => BinOp.plus.unwind ss (BinOp.minus.unwind ds (BinOp.mult.unwind ms v))
  | ms, ds, ss, v, (.mult, w) :: rest => stacked (v :: ms) ds ss w rest
  | ms, ds, ss, v, (.minus, w) :: rest => stacked [] (BinOp.mult.unwind ms v :: ds) ss w rest
  | ms, ds, ss, v, (.plus, w) :: rest =>
    stacked [] [] (BinOp.minus.unwind ds (BinOp.mult.unwind ms v) :: ss) w rest

/-- Products that are unwound from a stack are their product. -/
theorem unwind_mult (ms : List R) (v : R) : BinOp.mult.unwind ms v = ms.prod * v := by
  induction ms generalizing v with
  | nil => simp
  | cons a ms ih =>
    rw [BinOp.unwind_cons, ih, List.prod_cons, BinOp.apply_mult]
    ring

/-- Sums that are unwound from a stack are their sum. -/
theorem unwind_plus (ss : List R) (v : R) : BinOp.plus.unwind ss v = ss.sum + v := by
  induction ss generalizing v with
  | nil => simp
  | cons a ss ih =>
    rw [BinOp.unwind_cons, ih, List.sum_cons, BinOp.apply_plus]
    ring

/-- The sign with which an operand is counted in front of which `n` differences wait. -/
theorem unwind_minus_sub (ds : List R) (v t : R) :
    BinOp.minus.unwind ds (v - t) = BinOp.minus.unwind ds v - (-1) ^ ds.length * t := by
  induction ds generalizing v t with
  | nil => simp
  | cons d ds ih =>
    have h := ih (d - v) (-t)
    rw [sub_neg_eq_add] at h
    rw [BinOp.unwind_cons, BinOp.unwind_cons, BinOp.apply_minus, BinOp.apply_minus,
      show d - (v - t) = d - v + t by ring, h, List.length_cons, pow_succ]
    ring

/-- A sum from the left, with its first summand taken out. -/
theorem foldl_apply_add (a b : R) {ts : List (BinOp × R)} (h : ∀ t ∈ ts, t.1 ≠ .mult) :
    ts.foldl (fun a t => t.1.apply a t.2) (a + b) =
      a + ts.foldl (fun a t => t.1.apply a t.2) b := by
  induction ts generalizing b with
  | nil => rfl
  | cons t ts ih =>
    obtain ⟨op, w⟩ := t
    have hts : ∀ t ∈ ts, t.1 ≠ .mult := fun t ht => h t (List.mem_cons_of_mem _ ht)
    cases op with
    | mult => exact absurd rfl (h _ List.mem_cons_self)
    | plus => simp only [List.foldl_cons, BinOp.apply_plus, add_assoc, ih _ hts]
    | minus => simp only [List.foldl_cons, BinOp.apply_minus, add_sub_assoc, ih _ hts]

/-- No product is left between the terms. -/
theorem terms_ne_mult (v : R) (rest : List (BinOp × R)) :
    ∀ t ∈ (terms v rest).2, t.1 ≠ .mult := by
  induction rest generalizing v with
  | nil => simp [terms]
  | cons p rest ih =>
    obtain ⟨op, w⟩ := p
    cases op with
    | mult => exact ih (v * w)
    | plus => simpa [terms] using ih w
    | minus => simpa [terms] using ih w

/-- The value on the stacks, with the terms that are still to come.

**Proof sketch.** Induction on the rest of the expression. Each difference that waits turns the sign
of what comes behind it, so that a term is added instead of subtracted when an odd number of them
waits; a sum works all of them off. -/
theorem stacked_eq_terms (ms ds ss : List R) (v : R) (rest : List (BinOp × R)) :
    stacked ms ds ss v rest =
      (terms (ms.prod * v) rest).2.foldl (fun a t => t.1.apply a t.2)
        (ss.sum + BinOp.minus.unwind ds (terms (ms.prod * v) rest).1) +
      2 * evenPlaces (ds.length % 2 = 1) (terms (ms.prod * v) rest).2 := by
  induction rest generalizing ms ds ss v with
  | nil =>
    simp [stacked, terms, evenPlaces, unwind_plus, unwind_mult]
  | cons p rest ih =>
    obtain ⟨op, w⟩ := p
    cases op with
    | mult =>
      rw [stacked, ih, List.prod_cons, terms, show v * ms.prod * w = ms.prod * v * w by ring]
    | plus =>
      rw [stacked, ih, unwind_mult, terms]
      simp [evenPlaces, add_comm]
    | minus =>
      rw [stacked, ih, unwind_mult, terms]
      simp only [List.prod_nil, one_mul, List.length_cons, BinOp.unwind_cons, BinOp.apply_minus,
        unwind_minus_sub, List.foldl_cons]
      have hmult := terms_ne_mult w rest
      generalize (terms w rest).1 = t at hmult ⊢
      generalize (terms w rest).2 = ts at hmult ⊢
      generalize BinOp.minus.unwind ds (ms.prod * v) = u
      rcases Nat.mod_two_eq_zero_or_one ds.length with h | h
      · have hsign : (-1 : R) ^ ds.length = 1 := (Nat.even_iff.2 h).neg_one_pow
        have hnext : (ds.length + 1) % 2 = 1 := by omega
        simp [h, hsign, hnext, evenPlaces, add_sub_assoc]
      · have hsign : (-1 : R) ^ ds.length = -1 := (Nat.odd_iff.2 h).neg_one_pow
        have hnext : (ds.length + 1) % 2 = 0 := by omega
        rw [show ss.sum + (u - (-1) ^ ds.length * t) = 2 * t + (ss.sum + u - t) by rw [hsign]; ring,
          foldl_apply_add _ _ hmult]
        simp only [h, hnext, evenPlaces, decide_true, Nat.zero_ne_one, decide_false]
        ring

/-- **The minus signs between two plus signs are worked off from the right.** The value on the
stacks is the ordinary value, to which every second one of the terms that are subtracted one behind
the other is added twice. -/
theorem stacked_eq (v : R) (rest : List (BinOp × R)) :
    stacked [] [] [] v rest = ordinaryValue v rest + 2 * evenSubtrahends v rest := by
  rw [stacked_eq_terms, ordinaryValue, evenSubtrahends]
  simp

end

end Expressions
