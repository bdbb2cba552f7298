import Mathlib.Algebra.GroupWithZero.Nat
import Z80OS.Basic.State

set_option relaxedAutoImplicit false
set_option autoImplicit false

/-!
# Expressions

An expression is brought into reverse Polish notation by the shunting-yard algorithm, in which
variables and calls of functions are replaced by their values, and is then evaluated on a stack.
The evaluation changes nothing but the state of the random number generator, which is passed along.

The macro `ERROR_HANDLE` of the source names its argument twice, so that a call which it handles is
made a second time when it fails. When the second call then succeeds its caller returns without
having set its results, and the functions of this file give no result.

The expression in reverse Polish notation is written to a buffer of 256 bytes, without a check of
the source. A write behind its end has no meaning, and the functions give no result from there on.

The loops and the recursion of the source have no limit. The functions follow them for `k` turns
altogether.

## Main definitions

* `Z80OS.Basic.evalNumeric` — the evaluation of an expression.
* `Z80OS.Basic.tVariableGetPtr` — the pointer to a variable or to an element of an array.
-/

namespace Z80OS.Basic

/-- What an evaluation gives: a value or an error, and the state of the random number generator. -/
abbrev Evaluated (α : Type) : Type := Option (Except Error α × ℕ)

/-- A call in `ERROR_HANDLE`, with the state of the random number generator in front of it. -/
def errorHandle {α : Type} (call : ℕ → Evaluated α) (r : ℕ) : Evaluated α :=
  match call r with
  | some (.error _, r) =>
    match call r with
    | some (.error e, r) => some (.error e, r)
    | _ => none
  | result => result

/-- A token of an expression in reverse Polish notation. -/
inductive RpnToken
  | numeric (n : ℤ)
  | operator (op : UInt8)
  deriving DecidableEq

/-- The number of bytes of a token in the buffer of the source. -/
def RpnToken.size : RpnToken → ℕ
  | .numeric _ => numericSize
  | .operator _ => opSize

/-- The number of bytes of the tokens in the output. -/
def outputSize (output : List RpnToken) : ℕ := (output.map RpnToken.size).sum

/-- What has been written to the output lies inside of the buffer. -/
abbrev OutputFits (output : List RpnToken) : Prop := outputSize output ≤ statementSizeMax

/-- The number of entries of the stacks of operators and numbers. -/
def opstackMax : ℕ := 16

/-- The precedence of an operator. -/
def precedence (op : UInt8) : ℕ :=
  if op = opMult then 4 else if op = opMinus then 2 else if op = opPlus then 1 else 0

/-- An operator that compares two numbers. -/
def tOperatorIsComparison (m : Ram) (toks : ℕ) : Bool :=
  m toks = tokOperator && [opEqual, opLt, opGt, opLteq, opGteq].contains (m (toks + 1))

/-- A token that ends an expression. -/
def evalIsEndOfExpression (m : Ram) (toks : ℕ) : Bool :=
  m toks = tokTerminator || m toks = tokSeparator || m toks = tokKeyword ||
    opCheck m toks opRparen || tOperatorIsComparison m toks

/-- Sum, product, difference and negation in 16 bits. -/
def int16 (n : ℤ) : ℤ := Int.bmod n 65536

/-- Evaluates an expression in reverse Polish notation, with the numbers on the stack. -/
def evalRpn : List RpnToken → List ℤ → Option ℤ
  | [], stack => stack.head?
  | .numeric n :: expr, stack =>
    if stack.length < opstackMax then evalRpn expr (n :: stack) else none
  | .operator op :: expr, stack =>
    if op = opPlus then
      match stack with
      | a :: b :: stack => evalRpn expr (int16 (a + b) :: stack)
      | _ => none
    else if op = opMult then
      match stack with
      | a :: b :: stack => evalRpn expr (int16 (a * b) :: stack)
      | _ => none
    else if op = opMinus then
      match stack with
      | [] => evalRpn expr []
      | [a] => evalRpn expr [int16 (-a)]
      | a :: b :: stack => evalRpn expr (int16 (b - a) :: stack)
    else evalRpn expr stack

/-- The next random number. -/
def rand16 (r : ℕ) : ℕ :=
  let r := r ^^^ (r <<< 7 % 65536)
  let r := r ^^^ (r >>> 9)
  r ^^^ (r <<< 8 % 65536)

/-- The variable token at an address, and the token behind it. -/
def varToken (m : Ram) (toks : ℕ) : Option ℕ :=
  if m toks = tokVariable then some (tVarlenSkip m toks)
  else if m toks = tokRegister then some (toks + registerSize)
  else none

/-- The pointer to an element of an array. -/
def arrayRef (s : State) (var : ℕ) (index : ℤ) : Option (Except Error Ref) :=
  match programGetArray s var with
  | none => none
  | some (.error e) => some (.error e)
  | some (.ok arr) =>
    if index < 1 then some (.error .range)
    else if index * 2 > (s.ram (arr + 1)).toNat then some (.error .range)
    else some (.ok (.memory (arr + 2 + 2 * (index - 1).toNat)))

mutual

/-- Evaluates an expression. The result has the token behind it. -/
def evalNumeric : ℕ → State → ℕ → ℕ → Evaluated (ℤ × ℕ)
  | 0, _, _, _ => none
  | k + 1, s, r, src =>
    if s.ram src = tokNumeric && evalIsEndOfExpression s.ram (src + numericSize) then
      some (.ok (numericGet s.ram src, src + numericSize), r)
    else if s.ram src = tokRegister && evalIsEndOfExpression s.ram (src + registerSize) then
      (register? s.ram src).map fun i => (.ok (s.load (.register i), src + registerSize), r)
    else
      match errorHandle (fun r => evalShuntingYard k s r src [] []) r with
      | none => none
      | some (.error e, r) => some (.error e, r)
      | some (.ok (output, stop), r) =>
        (evalRpn output []).map fun result => (.ok (result, stop), r)
termination_by structural k => k

/-- The shunting-yard algorithm. The result has the token behind the expression. Each branch writes
to the buffer of the output, in which a terminator has to follow at the end. -/
def evalShuntingYard : ℕ → State → ℕ → ℕ → List RpnToken → List UInt8 →
    Evaluated (List RpnToken × ℕ)
  | 0, _, _, _, _, _ => none
  | k + 1, s, r, src, output, opstack =>
    if evalIsEndOfExpression s.ram src then
      if outputSize (output ++ opstack.map .operator) < statementSizeMax then
        some (.ok (output ++ opstack.map .operator, src), r)
      else none
    else if s.ram src = tokNumeric then
      if OutputFits (output ++ [.numeric (numericGet s.ram src)]) then
        evalShuntingYard k s r (src + numericSize) (output ++ [.numeric (numericGet s.ram src)])
          opstack
      else none
    else if s.ram src = tokFunc then
      match errorHandle (fun r => tFuncCall k s r src) r with
      | none => none
      | some (.error e, r) => some (.error e, r)
      | some (.ok (val, stop), r) =>
        if OutputFits (output ++ [.numeric val]) then
          evalShuntingYard k s r stop (output ++ [.numeric val]) opstack
        else none
    else if s.ram src = tokVariable || s.ram src = tokRegister then
      match errorHandle (fun r => tVariableGetPtr k s r src) r with
      | none => none
      | some (.error e, r) => some (.error e, r)
      | some (.ok (ref, stop), r) =>
        if OutputFits (output ++ [.numeric (s.load ref)]) then
          evalShuntingYard k s r stop (output ++ [.numeric (s.load ref)]) opstack
        else none
    else if s.ram src = tokOperator then
      let op := s.ram (src + 1)
      let popped := opstack.takeWhile fun o => precedence o > precedence op
      let kept := opstack.dropWhile fun o => precedence o > precedence op
      if OutputFits (output ++ popped.map .operator) ∧ kept.length < opstackMax then
        evalShuntingYard k s r (src + opSize) (output ++ popped.map .operator) (op :: kept)
      else none
    else evalShuntingYard k s r src output opstack
termination_by structural k => k

/-- Calls a function. The result has the token behind the call. -/
def tFuncCall : ℕ → State → ℕ → ℕ → Evaluated (ℤ × ℕ)
  | 0, _, _, _ => none
  | k + 1, s, r, toks =>
    if s.ram toks ≠ tokFunc then some (.error .syntaxError, r)
    else if s.ram (toks + 1) ≠ funcRnd then some (.error .unknownFunc, r)
    else if opCheck s.ram (toks + 2) opLparen then
      match errorHandle (fun r => evalNumeric k s r (toks + 2)) r with
      | none => none
      | some (.error e, r) => some (.error e, r)
      | some (.ok (param, stop), r) =>
        if param = 0 then none
        else
          let r := rand16 r
          some (.ok (int16 ((r % ofNumeric param : ℕ) + 1), stop + opSize), r)
    else
      let r := rand16 r
      some (.ok (toNumeric r, toks + 2), r)
termination_by structural k => k

/-- The pointer to the value of a variable or of an element of an array. The result has the token
behind it. -/
def tVariableGetPtr : ℕ → State → ℕ → ℕ → Evaluated (Ref × ℕ)
  | 0, _, _, _ => none
  | k + 1, s, r, toks =>
    match varToken s.ram toks with
    | none => some (.error .syntaxError, r)
    | some next =>
      if opCheck s.ram next opLparen then
        match errorHandle (fun r => evalNumeric k s r (next + opSize)) r with
        | none => none
        | some (.error e, r) => some (.error e, r)
        | some (.ok (index, stop), r) =>
          (arrayRef s toks index).map fun
            | .error e => (.error e, r)
            | .ok ref => (.ok (ref, stop + opSize), r)
      else
        (programGetNumericRef s toks).map fun
          | none => (.error .undefinedVar, r)
          | some ref => (.ok (ref, next), r)
termination_by structural k => k

end

end Z80OS.Basic
