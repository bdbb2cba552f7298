import Mathlib.Data.ZMod.Basic
import Z80OS.Basic.Session
import Z80OS.Lib.Expressions

set_option relaxedAutoImplicit false
set_option autoImplicit false

/-!
# The values of expressions

An expression of numbers and variables that are joined by `+`, `-` and `*` is evaluated without an
error, up to the token behind it. The shunting-yard algorithm takes an operator off its stack when
that has a greater precedence than the one that comes, minus has a greater precedence than plus, and
an operator of the same precedence stays where it is. The operators on the stack are therefore
products in front of differences in front of sums, and `5 - 3 - 2` is evaluated as `5 - (3 - 2)`.

The numbers of the code are followed in the ring of integers modulo 65536.

## Main definitions

* `Z80OS.Basic.ExprAt` — the tokens of an expression.
* `Z80OS.Basic.EvaluatesTo` — what an evaluation gives, when it may take as many turns as it needs.
* `Z80OS.Basic.Leaves` — the numbers that an expression in reverse Polish notation leaves on the
  stack.

## Main results

* `Z80OS.Basic.evalNumeric_expression` — the value that the code gives.
* `Z80OS.Basic.expression_value_iff` — when this is the value of ordinary arithmetic.
-/

namespace Z80OS.Basic

open Expressions

/-! ## Numbers of 16 bits -/

/-- A number of 16 bits stays when it is cut. -/
theorem int16_int16 (n : ℤ) : int16 (int16 n) = int16 n := by simp [int16]

/-- Reducing a number to 16 bits does not change it modulo 65536. -/
@[simp] theorem cast_int16 (n : ℤ) : ((int16 n : ℤ) : ZMod 65536) = n := by
  rw [ZMod.intCast_eq_intCast_iff', int16]
  exact Int.bmod_emod

/-- Numbers are the same in 16 bits when they differ by a multiple of 65536. -/
theorem int16_eq_int16_iff {a b : ℤ} : int16 a = int16 b ↔ 65536 ∣ a - b := by
  simp only [int16, Int.bmod_def]
  split <;> split <;> omega

/-- A word stands for a number of 16 bits. -/
theorem int16_toNumeric {w : ℕ} (h : w < 65536) : int16 (toNumeric w) = toNumeric w := by
  simp only [int16, toNumeric, Int.bmod_def]
  split <;> split <;> omega

/-- A number of 16 bits is known from its value modulo 65536. -/
theorem eq_int16_of_cast_eq {n m : ℤ} (hn : int16 n = n) (h : (n : ZMod 65536) = m) :
    n = int16 m := by
  rw [ZMod.intCast_eq_intCast_iff_dvd_sub] at h
  rw [← hn, int16_eq_int16_iff]
  have hdvd := h
  push_cast at hdvd
  omega

/-! ## Expressions -/

/-- The code of an operator. -/
def opCode : BinOp → UInt8
  | .plus => opPlus
  | .minus => opMinus
  | .mult => opMult

/-- An operand with its value, and the token behind it: a numeric literal, or a variable with a
number of 16 bits. -/
inductive OperandAt (s : State) (a : ℕ) : ℤ → ℕ → Prop
  | numeric (h : s.ram a = tokNumeric) :
    OperandAt s a (numericGet s.ram a) (a + numericSize)
  | scalar {ref : Ref} {next : ℕ} (h : varToken s.ram a = some next)
    (href : programGetNumericRef s a = some (some ref)) (hrange : int16 (s.load ref) = s.load ref) :
    OperandAt s a (s.load ref) next

/-- The operators and operands behind the first operand of an expression, up to a token that ends
it. -/
inductive RestAt (s : State) : ℕ → List (BinOp × ℤ) → ℕ → Prop
  | stop {a : ℕ} (h : evalIsEndOfExpression s.ram a = true) : RestAt s a [] a
  | more {a next stop : ℕ} {op : BinOp} {v : ℤ} {rest : List (BinOp × ℤ)}
    (h : s.ram a = tokOperator) (hop : s.ram (a + 1) = opCode op)
    (hv : OperandAt s (a + opSize) v next) (hrest : RestAt s next rest stop) :
    RestAt s a ((op, v) :: rest) stop

/-- An expression: its first operand, the operators and operands behind it, and the first token
behind them. -/
def ExprAt (s : State) (src : ℕ) (v : ℤ) (rest : List (BinOp × ℤ)) (stop : ℕ) : Prop :=
  ∃ a, OperandAt s src v a ∧ RestAt s a rest stop

/-- The evaluation gives a value and no error, and stops in front of a token. It draws no random
number. -/
def EvaluatesTo (s : State) (r src : ℕ) (v : ℤ) (stop : ℕ) : Prop :=
  ∃ k₀, ∀ k ≥ k₀, evalNumeric k s r src = some (.ok (v, stop), r)

/-- An expression has one value at most. -/
theorem EvaluatesTo.unique {s : State} {r src stop stop' : ℕ} {v v' : ℤ}
    (h : EvaluatesTo s r src v stop) (h' : EvaluatesTo s r src v' stop') : v = v' := by
  obtain ⟨k₀, hk₀⟩ := h
  obtain ⟨k₁, hk₁⟩ := h'
  have heq := (hk₀ (max k₀ k₁) (le_max_left _ _)).symm.trans (hk₁ (max k₀ k₁) (le_max_right _ _))
  simp only [Option.some.injEq, Prod.mk.injEq, Except.ok.injEq] at heq
  exact heq.1.1

section

variable {s : State} {a next stop : ℕ} {v : ℤ} {rest : List (BinOp × ℤ)} {op : BinOp}

/-- The value of an operand has 16 bits. -/
theorem OperandAt.int16_eq (h : OperandAt s a v next) : int16 v = v := by
  cases h with
  | numeric => exact int16_toNumeric (word16_lt _ _)
  | scalar _ _ hrange => exact hrange

/-- An operator is not the end of an expression. -/
theorem not_end_of_operator (h : s.ram a = tokOperator) (hop : s.ram (a + 1) = opCode op) :
    evalIsEndOfExpression s.ram a = false := by
  cases op <;>
    simp [evalIsEndOfExpression, opCheck, tOperatorIsComparison, h, hop, opCode] <;> decide

/-- An operand is not the end of an expression. -/
theorem OperandAt.not_end (h : OperandAt s a v next) : evalIsEndOfExpression s.ram a = false := by
  have hkind : s.ram a = tokNumeric ∨ s.ram a = tokVariable ∨ s.ram a = tokRegister := by
    cases h with
    | numeric h => exact .inl h
    | scalar h =>
      unfold varToken at h
      split_ifs at h with hv hr
      · exact .inr (.inl hv)
      · exact .inr (.inr hr)
  have hne : s.ram a ≠ tokOperator := by rcases hkind with h | h | h <;> rw [h] <;> decide
  rcases hkind with h | h | h <;> simp [evalIsEndOfExpression, opCheck, tOperatorIsComparison, hne]
    <;> rw [h] <;> decide

/-- No parenthesis is opened behind an operand. -/
theorem RestAt.not_lparen (h : RestAt s a rest stop) : opCheck s.ram a opLparen = false := by
  cases hcheck : opCheck s.ram a opLparen with
  | false => rfl
  | true =>
    simp only [opCheck, Bool.and_eq_true, decide_eq_true_eq] at hcheck
    cases h with
    | stop h =>
      simp [evalIsEndOfExpression, opCheck, tOperatorIsComparison, hcheck.1, hcheck.2] at h
      revert h
      decide
    | @more _ _ _ op _ _ _ hop =>
      rw [hcheck.2] at hop
      cases op <;> exact absurd hop (by decide)

/-! ## Reverse Polish notation -/

/-- The operators that are held back for the operands of one kind. -/
def waiting (op : BinOp) (ys : List (ZMod 65536)) : List UInt8 :=
  List.replicate ys.length (opCode op)

/-- One operator waits for each operand. -/
@[simp] theorem length_waiting (op : BinOp) (ys : List (ZMod 65536)) :
    (waiting op ys).length = ys.length := List.length_replicate

/-- The same operator waits for all of them. -/
theorem eq_of_mem_waiting {op : BinOp} {ys : List (ZMod 65536)} {o : UInt8}
    (h : o ∈ waiting op ys) : o = opCode op := List.eq_of_mem_replicate h

/-- An expression in reverse Polish notation leaves numbers on the stack that have these values
modulo 65536. -/
def Leaves (out : List RpnToken) (X : List (ZMod 65536)) : Prop :=
  ∃ N : List ℤ, N.map (Int.cast : ℤ → ZMod 65536) = X ∧ (∀ n ∈ N, int16 n = n) ∧
    ∀ expr, evalRpn (out ++ expr) [] = evalRpn expr N

variable {out : List RpnToken} {X : List (ZMod 65536)}

/-- No output leaves no numbers. -/
theorem Leaves.nil : Leaves [] [] := ⟨[], rfl, by simp, fun _ => rfl⟩

/-- An operand is pushed onto the stack. -/
theorem Leaves.numeric (h : Leaves out X) (hX : X.length < opstackMax) (hv : int16 v = v) :
    Leaves (out ++ [.numeric v]) (v :: X) := by
  obtain ⟨N, rfl, hN, hout⟩ := h
  refine ⟨v :: N, rfl, ?_, ?_⟩
  · intro n hn
    rcases List.mem_cons.1 hn with rfl | hn
    · exact hv
    · exact hN n hn
  · intro expr
    rw [List.length_map] at hX
    rw [List.append_assoc, hout]
    simp [evalRpn, hX]

/-- An operator works on the two numbers on top of the stack. -/
theorem Leaves.operator {x y : ZMod 65536} (op : BinOp) (h : Leaves out (x :: y :: X)) :
    Leaves (out ++ [.operator (opCode op)]) (op.apply y x :: X) := by
  obtain ⟨N, hmap, hN, hout⟩ := h
  obtain ⟨n, N, rfl⟩ := List.exists_cons_of_ne_nil (l := N) (by rintro rfl; simp at hmap)
  obtain ⟨m, N, rfl⟩ := List.exists_cons_of_ne_nil (l := N) (by rintro rfl; simp at hmap)
  simp only [List.map_cons, List.cons.injEq] at hmap
  obtain ⟨rfl, rfl, rfl⟩ := hmap
  have htail : ∀ k ∈ N, int16 k = k := fun k hk => hN k (by simp [hk])
  cases op with
  | plus =>
    refine ⟨int16 (n + m) :: N, by simp [add_comm], ?_, ?_⟩
    · simpa [int16_int16] using htail
    · intro expr
      rw [List.append_assoc, hout]
      simp [evalRpn, opCode]
  | mult =>
    refine ⟨int16 (n * m) :: N, by simp [mul_comm], ?_, ?_⟩
    · simpa [int16_int16] using htail
    · intro expr
      rw [List.append_assoc, hout]
      simp [evalRpn, opCode, opMult, opPlus]
  | minus =>
    refine ⟨int16 (m - n) :: N, by simp, ?_, ?_⟩
    · simpa [int16_int16] using htail
    · intro expr
      rw [List.append_assoc, hout]
      simp [evalRpn, opCode, opMult, opPlus, opMinus]

/-- Operators of one kind work off the operands that wait for them. -/
theorem Leaves.unwind {x : ZMod 65536} (op : BinOp) {ys : List (ZMod 65536)}
    (h : Leaves out (x :: (ys ++ X))) :
    Leaves (out ++ (waiting op ys).map .operator) (op.unwind ys x :: X) := by
  induction ys generalizing out x with
  | nil => simpa [waiting] using h
  | cons y ys ih =>
    have hnext := ih (h.operator op)
    rwa [List.append_assoc, List.singleton_append] at hnext

/-- What is left at the end is the result. -/
theorem Leaves.result {x : ZMod 65536} (h : Leaves out [x]) :
    ∃ n : ℤ, evalRpn out [] = some n ∧ int16 n = n ∧ (n : ZMod 65536) = x := by
  obtain ⟨N, hmap, hN, hout⟩ := h
  obtain ⟨n, N, rfl⟩ := List.exists_cons_of_ne_nil (l := N) (by rintro rfl; simp at hmap)
  simp only [List.map_cons, List.cons.injEq, List.map_eq_nil_iff] at hmap
  obtain ⟨rfl, rfl⟩ := hmap
  refine ⟨n, ?_, hN n (by simp), rfl⟩
  have h := hout []
  rwa [List.append_nil] at h

/-! ## The shunting-yard algorithm -/

/-- The operators that are held back: those of the products, the differences and the sums. -/
def held (ms ds ss : List (ZMod 65536)) : List UInt8 :=
  waiting .mult ms ++ (waiting .minus ds ++ waiting .plus ss)

/-- Each operand that is held has an operator. -/
@[simp] theorem length_held (ms ds ss : List (ZMod 65536)) :
    (held ms ds ss).length = ms.length + (ds.length + ss.length) := by simp [held]

/-- The operators that are popped are those in front of the ones that are kept. -/
theorem popped_kept {p : UInt8 → Bool} {popped kept : List UInt8} (hpopped : ∀ o ∈ popped, p o)
    (hkept : ∀ o ∈ kept, p o = false) :
    (popped ++ kept).takeWhile p = popped ∧ (popped ++ kept).dropWhile p = kept := by
  rw [List.takeWhile_append_of_pos hpopped, List.dropWhile_append_of_pos hpopped]
  cases kept with
  | nil => simp
  | cons o kept => simp [hkept o (by simp)]

/-- The size of the output of two parts. -/
theorem outputSize_append (out out' : List RpnToken) :
    outputSize (out ++ out') = outputSize out + outputSize out' := by simp [outputSize]

/-- A number has three bytes in the output. -/
@[simp] theorem outputSize_numeric (n : ℤ) : outputSize [.numeric n] = 3 := rfl

/-- The size of one token in the output. -/
theorem outputSize_singleton (t : RpnToken) : outputSize [t] = t.size := by simp [outputSize]

/-- What has been written before what fits has fitted. -/
theorem OutputFits.of_append {out : List RpnToken} (out' : List RpnToken)
    (h : OutputFits (out ++ out')) :
    OutputFits out := by
  rw [OutputFits, outputSize_append] at h
  exact Nat.le_of_add_right_le h

/-- An operator has two bytes in the output. -/
theorem outputSize_operators (ops : List UInt8) :
    outputSize (ops.map .operator) = 2 * ops.length := by
  induction ops with
  | nil => rfl
  | cons op ops ih =>
    rw [List.map_cons, ← List.singleton_append, outputSize_append, ih, List.length_cons]
    change 2 + 2 * ops.length = _
    omega

variable {k r : ℕ} {opstack : List UInt8}

/-- The end of an expression. -/
theorem evalShuntingYard_stop (h : evalIsEndOfExpression s.ram a = true)
    (hsize : outputSize (out ++ opstack.map .operator) < statementSizeMax) :
    evalShuntingYard (k + 1) s r a out opstack =
      some (.ok (out ++ opstack.map .operator, a), r) := by
  rw [evalShuntingYard, if_pos h, if_pos hsize]

/-- An operand is put out. -/
theorem evalShuntingYard_operand (h : OperandAt s a v next)
    (hl : opCheck s.ram next opLparen = false) (hfits : OutputFits (out ++ [.numeric v])) :
    evalShuntingYard (k + 2) s r a out opstack =
      evalShuntingYard (k + 1) s r next (out ++ [.numeric v]) opstack := by
  rw [evalShuntingYard, h.not_end]
  cases h with
  | numeric h => simp [h, hfits]
  | @scalar ref _ h href =>
    have hkind : s.ram a = tokVariable ∨ s.ram a = tokRegister := by
      unfold varToken at h
      split_ifs at h with hv hr
      · exact .inl hv
      · exact .inr hr
    have hne : s.ram a ≠ tokNumeric ∧ s.ram a ≠ tokFunc := by
      rcases hkind with h | h <;> rw [h] <;> decide
    have hptr : tVariableGetPtr (k + 1) s r a = some (.ok (ref, next), r) := by
      rw [tVariableGetPtr, h]
      simp [hl, href]
    simp [hne.1, hne.2, hkind, errorHandle, hptr, hfits]

/-- An operator pops those of a greater precedence and is held back. -/
theorem evalShuntingYard_operator {popped kept : List UInt8} (h : s.ram a = tokOperator)
    (hop : s.ram (a + 1) = opCode op)
    (hpopped : ∀ o ∈ popped, precedence (opCode op) < precedence o)
    (hkept : ∀ o ∈ kept, precedence o ≤ precedence (opCode op))
    (hfits : OutputFits (out ++ popped.map .operator)) (hlen : kept.length < opstackMax) :
    evalShuntingYard (k + 1) s r a out (popped ++ kept) =
      evalShuntingYard k s r (a + opSize) (out ++ popped.map .operator) (opCode op :: kept) := by
  obtain ⟨htake, hdrop⟩ :=
    popped_kept (p := fun o => decide (precedence o > precedence (opCode op)))
      (fun o ho => decide_eq_true (hpopped o ho))
      (fun o ho => decide_eq_false (Nat.not_lt.2 (hkept o ho)))
  rw [evalShuntingYard, not_end_of_operator h hop]
  have hne : tokOperator ≠ tokNumeric ∧ tokOperator ≠ tokFunc ∧ tokOperator ≠ tokVariable ∧
      tokOperator ≠ tokRegister := by decide
  simp only [hne.1, hne.2.1, hne.2.2.1, hne.2.2.2, h, hop, htake, hdrop, hfits, hlen, and_self,
    ↓reduceIte, Bool.false_eq_true, decide_false, Bool.or_self]

/-- The precedence of the operators that are held back. -/
theorem precedence_of_mem_waiting {op' : BinOp} {ys : List (ZMod 65536)} {o : UInt8}
    (h : o ∈ waiting op' ys) : precedence o = precedence (opCode op') := by
  rw [eq_of_mem_waiting h]

/-- The operators that are held back are at most as strong as the strongest of them. -/
theorem precedence_of_mem_held {ms ds ss : List (ZMod 65536)} {o : UInt8}
    (h : o ∈ held ms ds ss) :
    precedence o ≤ precedence (opCode .mult) ∧
      (ms = [] → precedence o ≤ precedence (opCode .minus)) ∧
      (ms = [] → ds = [] → precedence o ≤ precedence (opCode .plus)) := by
  simp only [held, List.mem_append] at h
  rcases h with h | h | h
  · rw [precedence_of_mem_waiting h]
    refine ⟨le_rfl, ?_, ?_⟩ <;> rintro rfl <;> exact absurd h (by simp [waiting])
  · rw [precedence_of_mem_waiting h]
    refine ⟨by decide, fun _ => le_rfl, ?_⟩
    rintro - rfl
    exact absurd h (by simp [waiting])
  · rw [precedence_of_mem_waiting h]
    exact ⟨by decide, fun _ => by decide, fun _ _ => le_rfl⟩

/-- An operator and the operand behind it. -/
theorem evalShuntingYard_pair (k r : ℕ) (out : List RpnToken) (popped kept : List UInt8)
    (h : s.ram a = tokOperator)
    (hop : s.ram (a + 1) = opCode op) (hv : OperandAt s (a + opSize) v next)
    (hrest : RestAt s next rest stop)
    (hpopped : ∀ o ∈ popped, precedence (opCode op) < precedence o)
    (hkept : ∀ o ∈ kept, precedence o ≤ precedence (opCode op))
    (hfits : outputSize out + 2 * popped.length + 3 ≤ statementSizeMax)
    (hlen : kept.length < opstackMax) :
    evalShuntingYard (k + 3) s r a out (popped ++ kept) =
      evalShuntingYard (k + 1) s r next (out ++ popped.map .operator ++ [.numeric v])
        (opCode op :: kept) := by
  have hsize : outputSize (out ++ popped.map .operator) = outputSize out + 2 * popped.length := by
    rw [outputSize_append, outputSize_operators]
  have hout : OutputFits (out ++ popped.map .operator) := by
    rw [OutputFits, hsize]
    omega
  rw [evalShuntingYard_operator h hop hpopped hkept hout hlen,
    evalShuntingYard_operand hv hrest.not_lparen]
  rwa [OutputFits, outputSize_append, hsize, outputSize_numeric]

/-- **What the algorithm puts out.** Behind an operand, with the operands that wait on the stack,
the output is completed to an expression whose value is that on the three stacks.

**Proof sketch.** Induction on the rest of the expression. A product pops nothing, a difference pops
the products that are held back, a sum pops the products and the differences; what is popped works
off the operands that wait for it. -/
theorem evalShuntingYard_rest (h : RestAt s a rest stop) (ms ds ss : List (ZMod 65536))
    {x : ZMod 65536} (hout : Leaves out (x :: (ms ++ (ds ++ ss))))
    (hlen : ms.length + (ds.length + ss.length) + rest.length < opstackMax)
    (hfits : outputSize out + 2 * (ms.length + (ds.length + ss.length)) + 5 * rest.length <
      statementSizeMax) :
    ∃ out', (∀ k, evalShuntingYard (2 * rest.length + k + 1) s r a out (held ms ds ss) =
        some (.ok (out', stop), r)) ∧
      Leaves out' [stacked ms ds ss x (rest.map (Prod.map id Int.cast))] := by
  induction h generalizing out ms ds ss x with
  | stop h =>
    refine ⟨out ++ (held ms ds ss).map .operator, fun k => evalShuntingYard_stop h ?_, ?_⟩
    · rw [outputSize_append, outputSize_operators, length_held]
      exact hfits
    · have hds := (hout.unwind .mult).unwind .minus
      rw [← List.append_nil ss] at hds
      have hss := hds.unwind .plus
      simpa [held, List.append_assoc, stacked] using hss
  | @more a next stop op v rest h hop hv hrest ih =>
    rw [List.length_cons] at hlen hfits ⊢
    have hk : ∀ k, 2 * (rest.length + 1) + k + 1 = 2 * rest.length + k + 3 := fun k => by omega
    cases op with
    | mult =>
      have hnext := hout.numeric (v := v) (by simp; omega) hv.int16_eq
      obtain ⟨out', hyard, hleaves⟩ := ih (x :: ms) ds ss hnext
        (by rw [List.length_cons]; omega)
        (by rw [outputSize_append, outputSize_numeric, List.length_cons]; omega)
      refine ⟨out', fun k => ?_, hleaves⟩
      have hstep := evalShuntingYard_pair (2 * rest.length + k) r out []
        (held ms ds ss) h hop hv hrest (by simp)
        (fun o ho => (precedence_of_mem_held ho).1) (by rw [List.length_nil]; omega)
        (by rw [length_held]; omega)
      rw [List.nil_append, List.map_nil, List.append_nil] at hstep
      rw [hk, hstep]
      exact hyard k
    | minus =>
      have hms := hout.unwind .mult
      have hnext := hms.numeric (v := v) (by simp; omega) hv.int16_eq
      obtain ⟨out', hyard, hleaves⟩ := ih [] (BinOp.mult.unwind ms x :: ds) ss
        hnext (by simp; omega)
        (by
          simp only [outputSize_append, outputSize_numeric, outputSize_operators, length_waiting,
            List.length_cons, List.length_nil]
          omega)
      refine ⟨out', fun k => ?_, hleaves⟩
      have hstep := evalShuntingYard_pair (2 * rest.length + k) r out
        (waiting .mult ms) (held [] ds ss) h hop hv hrest
        (fun o ho => by rw [precedence_of_mem_waiting ho]; decide)
        (fun o ho => (precedence_of_mem_held ho).2.1 rfl) (by rw [length_waiting]; omega)
        (by rw [length_held, List.length_nil]; omega)
      rw [hk]
      exact hstep.trans (hyard k)
    | plus =>
      have hds := (hout.unwind .mult).unwind .minus
      have hnext := hds.numeric (v := v) (by simp; omega) hv.int16_eq
      obtain ⟨out', hyard, hleaves⟩ := ih [] []
        (BinOp.minus.unwind ds (BinOp.mult.unwind ms x) :: ss) hnext (by simp; omega)
        (by
          simp only [outputSize_append, outputSize_numeric, outputSize_operators, length_waiting,
            List.length_cons, List.length_nil]
          omega)
      refine ⟨out', fun k => ?_, hleaves⟩
      have hstep := evalShuntingYard_pair (2 * rest.length + k) r out
        (waiting .mult ms ++ waiting .minus ds) (held [] [] ss) h hop hv hrest
        (fun o ho => by
          rcases List.mem_append.1 ho with ho | ho <;> rw [precedence_of_mem_waiting ho] <;>
            decide)
        (fun o ho => (precedence_of_mem_held ho).2.2 rfl rfl)
        (by rw [List.length_append, length_waiting, length_waiting]; omega)
        (by rw [length_held, List.length_nil]; omega)
      rw [List.map_append, ← List.append_assoc, List.append_assoc] at hstep
      rw [hk, held]
      exact hstep.trans (hyard k)

/-! ## The value -/

/-- At the end of an expression there are no more operands. -/
theorem RestAt.eq_nil (h : RestAt s a rest stop) (hend : evalIsEndOfExpression s.ram a = true) :
    rest = [] ∧ stop = a := by
  cases h with
  | stop => exact ⟨rfl, rfl⟩
  | more h hop =>
    rw [not_end_of_operator h hop] at hend
    exact absurd hend (by simp)

/-- The value of an expression with one operand. -/
theorem int16_single (hv : int16 v = v) :
    int16 (ordinaryValue v [] + 2 * evenSubtrahends v []) = v := by
  simpa [ordinaryValue, evenSubtrahends, terms, evenPlaces] using hv

/-- The shortcut for a single number. -/
theorem evalNumeric_numeric (h : s.ram a = tokNumeric)
    (hend : evalIsEndOfExpression s.ram (a + numericSize) = true) :
    evalNumeric (k + 1) s r a = some (.ok (numericGet s.ram a, a + numericSize), r) := by
  rw [evalNumeric]
  simp [h, hend]

/-- The shortcut for a single register. -/
theorem evalNumeric_register {i : Fin numRegisters} (h : s.ram a = tokRegister)
    (hend : evalIsEndOfExpression s.ram (a + registerSize) = true)
    (hi : register? s.ram a = some i) :
    evalNumeric (k + 1) s r a = some (.ok (s.load (.register i), a + registerSize), r) := by
  have hne : tokRegister ≠ tokNumeric := by decide
  rw [evalNumeric]
  simp [h, hend, hi, hne]

/-- The evaluation without its two shortcuts. -/
theorem evalNumeric_long {output : List RpnToken} {n : ℤ}
    (hnum : s.ram a = tokNumeric → evalIsEndOfExpression s.ram (a + numericSize) = false)
    (hreg : s.ram a = tokRegister → evalIsEndOfExpression s.ram (a + registerSize) = false)
    (hyard : evalShuntingYard k s r a [] [] = some (.ok (output, stop), r))
    (hrpn : evalRpn output [] = some n) :
    evalNumeric (k + 1) s r a = some (.ok (n, stop), r) := by
  have h₁ : (decide (s.ram a = tokNumeric) &&
      evalIsEndOfExpression s.ram (a + numericSize)) = false := by
    by_cases h : s.ram a = tokNumeric <;> simp [h, hnum]
  have h₂ : (decide (s.ram a = tokRegister) &&
      evalIsEndOfExpression s.ram (a + registerSize)) = false := by
    by_cases h : s.ram a = tokRegister <;> simp [h, hreg]
  rw [evalNumeric, h₁, h₂]
  simp [errorHandle, hyard, hrpn]

/-- **What the code gives.** An expression of at most 16 operands is evaluated without an error and
up to the token behind it. The value is the one of ordinary arithmetic, to which every second one of
the terms that are subtracted one behind the other is added twice.

**Proof sketch.** A single number and a single register are read directly. Otherwise the
shunting-yard loop runs to the end (`evalShuntingYard_rest`) with an output whose value is known in
`ZMod 65536` (`Leaves.result`); the bound on the operands keeps the output in its buffer. The value
in `ZMod 65536` determines the 16-bit number (`eq_int16_of_cast_eq`). -/
theorem evalNumeric_expression {src : ℕ} (h : ExprAt s src v rest stop)
    (hlen : rest.length < opstackMax) (k : ℕ) :
    evalNumeric (2 * rest.length + k + 3) s r src =
      some (.ok (int16 (ordinaryValue v rest + 2 * evenSubtrahends v rest), stop), r) := by
  obtain ⟨a, hv, hrest⟩ := h
  by_cases hnum : s.ram src = tokNumeric ∧ evalIsEndOfExpression s.ram (src + numericSize) = true
  · -- a single number
    cases hv with
    | scalar hvar =>
      have hne : tokNumeric ≠ tokVariable ∧ tokNumeric ≠ tokRegister := by decide
      rw [varToken, hnum.1, if_neg hne.1, if_neg hne.2] at hvar
      exact absurd hvar (by simp)
    | numeric h =>
      obtain ⟨rfl, rfl⟩ := hrest.eq_nil hnum.2
      rw [evalNumeric_numeric h hnum.2, int16_single (OperandAt.numeric h).int16_eq]
  by_cases hreg : s.ram src = tokRegister ∧ evalIsEndOfExpression s.ram (src + registerSize) = true
  · -- a single register
    cases hv with
    | numeric h => exact absurd (h.symm.trans hreg.1) (by decide)
    | @scalar ref _ hvar href hrange =>
      have hne : tokRegister ≠ tokVariable := by decide
      rw [varToken, hreg.1, if_neg hne, if_pos rfl, Option.some.injEq] at hvar
      subst hvar
      obtain ⟨rfl, rfl⟩ := hrest.eq_nil hreg.2
      rw [programGetNumericRef, if_pos hreg.1, Option.map_eq_some_iff] at href
      obtain ⟨i, hi, hrefi⟩ := href
      simp only [Option.some.injEq] at hrefi
      subst hrefi
      rw [evalNumeric_register hreg.1 hreg.2 hi, int16_single hrange]
  · -- the shunting-yard algorithm
    have hfirst := Leaves.nil.numeric (v := v) (by decide) hv.int16_eq
    rw [List.nil_append] at hfirst
    have hone : OutputFits ([] ++ [RpnToken.numeric v]) := show 3 ≤ statementSizeMax by decide
    have hsize : outputSize [RpnToken.numeric v] + 2 * (0 + (0 + 0)) + 5 * rest.length <
        statementSizeMax := by
      rw [outputSize_numeric, statementSizeMax]
      unfold opstackMax at hlen
      omega
    obtain ⟨out, hyard, hleaves⟩ := evalShuntingYard_rest (r := r) hrest
      [] [] [] hfirst (by simpa using hlen) hsize
    obtain ⟨n, hrpn, hn, hcast⟩ := hleaves.result
    have hvalue : n = int16 (ordinaryValue v rest + 2 * evenSubtrahends v rest) := by
      refine eq_int16_of_cast_eq hn ?_
      rw [hcast, stacked_eq]
      push_cast
      have hord := map_ordinaryValue (Int.castRingHom (ZMod 65536)) v rest
      have heven := map_evenSubtrahends (Int.castRingHom (ZMod 65536)) v rest
      rw [eq_intCast, eq_intCast] at hord heven
      rw [hord, heven]
      rfl
    rw [← hvalue]
    refine evalNumeric_long (fun h => ?_) (fun h => ?_) ?_ hrpn
    · exact Bool.eq_false_iff.2 fun he => hnum ⟨h, he⟩
    · exact Bool.eq_false_iff.2 fun he => hreg ⟨h, he⟩
    · rw [evalShuntingYard_operand hv hrest.not_lparen hone]
      exact hyard k

/-- The value that the interpreter finds, with the error that it makes. -/
theorem evaluatesTo_expression {src : ℕ} (h : ExprAt s src v rest stop)
    (hlen : rest.length < opstackMax) :
    EvaluatesTo s r src (int16 (ordinaryValue v rest + 2 * evenSubtrahends v rest)) stop := by
  refine ⟨2 * rest.length + 3, fun k hk => ?_⟩
  obtain ⟨k, rfl⟩ := Nat.exists_eq_add_of_le hk
  have heq := evalNumeric_expression (r := r) h hlen k
  rwa [show 2 * rest.length + 3 + k = 2 * rest.length + k + 3 by omega]

/-- **When the value is the one of ordinary arithmetic.** In an expression of at most 16 operands,
number the terms that are subtracted from each term that is added on, and take the sum of those with
an even number. The code gives the ordinary value exactly when half of 65536 divides this sum.

**Proof sketch.** The code groups to the right, and so gives the ordinary value and twice the sum
besides (`evaluatesTo_expression`). Both are the same modulo 65536 exactly when 32768 divides the
sum. -/
theorem expression_value_iff (s : State) (r src : ℕ) (v : ℤ) (rest : List (BinOp × ℤ)) (stop : ℕ)
    (h : ExprAt s src v rest stop) (hlen : rest.length < opstackMax) :
    EvaluatesTo s r src (int16 (ordinaryValue v rest)) stop ↔ 32768 ∣ evenSubtrahends v rest := by
  have hcode := evaluatesTo_expression (r := r) h hlen
  have hiff : int16 (ordinaryValue v rest + 2 * evenSubtrahends v rest) =
      int16 (ordinaryValue v rest) ↔ 32768 ∣ evenSubtrahends v rest := by
    rw [int16_eq_int16_iff]
    omega
  rw [← hiff]
  constructor
  · intro hord
    exact hcode.unique hord
  · intro heq
    rwa [heq] at hcode

end

/-! ## An expression with two differences -/

/-- Memory with the tokens of a statement at the address 0. -/
def stateWith (toks : List UInt8) : State := State.zeroed.memcpy 0 toks

/-- The tokens of `PRINT 2 * 3 - 4`. -/
def productStatement : List UInt8 :=
  [tokKeyword, keywordPrint] ++ numericToken 2 ++ [tokOperator, opMult] ++ numericToken 3 ++
    [tokOperator, opMinus] ++ numericToken 4 ++ [tokTerminator]

example : statementTokenize (ascii ['P', 'R', 'I', 'N', 'T', ' ', '2', '*', '3', '-', '4']) =
    some (.noerror, productStatement) := by decide +kernel

/-- The tokens of `PRINT 5 - 3 - 2`. -/
def differenceStatement : List UInt8 :=
  [tokKeyword, keywordPrint] ++ numericToken 5 ++ [tokOperator, opMinus] ++ numericToken 3 ++
    [tokOperator, opMinus] ++ numericToken 2 ++ [tokTerminator]

/-- Three numbers with two operators between them. -/
theorem exprAt_three {s : State} {src : ℕ} {op op' : BinOp} {u v w : ℤ}
    (hu : s.ram src = tokNumeric ∧ numericGet s.ram src = u)
    (hop : s.ram (src + 3) = tokOperator ∧ s.ram (src + 4) = opCode op)
    (hv : s.ram (src + 5) = tokNumeric ∧ numericGet s.ram (src + 5) = v)
    (hop' : s.ram (src + 8) = tokOperator ∧ s.ram (src + 9) = opCode op')
    (hw : s.ram (src + 10) = tokNumeric ∧ numericGet s.ram (src + 10) = w)
    (hend : s.ram (src + 13) = tokTerminator) :
    ExprAt s src u [(op, v), (op', w)] (src + 13) := by
  obtain ⟨hu, rfl⟩ := hu
  obtain ⟨hv, rfl⟩ := hv
  obtain ⟨hw, rfl⟩ := hw
  refine ⟨src + 3, .numeric hu, .more hop.1 hop.2 (.numeric hv)
    (.more hop'.1 hop'.2 (.numeric hw) ?_)⟩
  refine .stop ?_
  show evalIsEndOfExpression s.ram (src + 13) = true
  simp [evalIsEndOfExpression, hend]

/-- The expression `2*3-4`. -/
theorem expression_value_product :
    EvaluatesTo (stateWith productStatement) 0 2 (int16 (ordinaryValue 2 [(.mult, 3), (.minus, 4)]))
      15 :=
  (expression_value_iff (stateWith productStatement) 0 2 2 [(.mult, 3), (.minus, 4)] 15
    (exprAt_three (by decide) (by decide) (by decide) (by decide) (by decide) (by decide))
    (by decide)).2 (by decide)

/-- All expressions have their ordinary values. -/
def OrdinaryValues : Prop :=
  ∀ (s : State) (r src : ℕ) (v : ℤ) (rest : List (BinOp × ℤ)) (stop : ℕ), ExprAt s src v rest stop →
    rest.length < opstackMax → EvaluatesTo s r src (int16 (ordinaryValue v rest)) stop

/-- `5 - 3 - 2` has the value 4. -/
theorem not_ordinaryValues : ¬ OrdinaryValues := by
  intro hall
  have hexpr : ExprAt (stateWith differenceStatement) 2 5 [(.minus, 3), (.minus, 2)] 15 :=
    exprAt_three (by decide) (by decide) (by decide) (by decide) (by decide) (by decide)
  have hord := hall _ 0 2 5 _ 15 hexpr (by decide)
  have hcode := evaluatesTo_expression (r := 0) hexpr (by decide)
  exact absurd (hord.unique hcode) (by decide)

end Z80OS.Basic
