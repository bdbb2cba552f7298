import Z80OS.Basic.Values
import Z80OS.Lib.ArrayStacks

set_option relaxedAutoImplicit false
set_option autoImplicit false

/-!
# Expressions with shared pointers

The evaluation of an expression uses static variables: a pointer into the expression, a pointer to
the top of a stack of operators, and a stack of numbers. Each activation of the shunting-yard
algorithm has a stack of operators of its own, but all of them go through the same pointers. An
index or an argument is evaluated by a nested activation, which sets these pointers to its own
expression and its own stack. Before such a call the pointers are saved, and after it they are
restored.

The stacks of operators are numbered by how deep their activations are nested. Every access to a
stack and every write to the buffer for the expression in reverse Polish notation is checked here
against the size of the array.

## Main definitions

* `Z80OS.Basic.Workspace` — the static variables, the stacks of operators, and the state of the
  random number generator.
* `Z80OS.Basic.StackFault` — an access outside of its array, and what else is not defined.
* `Z80OS.Basic.Workspace.evalNumeric` — the evaluation of an expression.
-/

namespace Z80OS.Basic

/-- An access that is not inside of its array, or something else that is not defined: a result that
has not been set, a remainder of a division by 0, or an access behind the last register. -/
inductive StackFault
  | numstackEmpty | numstackFull | opstackEmpty | opstackFull | output | undefined | endless
  deriving DecidableEq, Repr

/-- What the activations of an evaluation share. -/
structure Workspace where
  /-- The state of the random number generator. -/
  r : ℕ
  workingSrc : ℕ
  /-- The number of the stack of operators that is pointed into, and how many of its entries are at
  the pointer or below it. -/
  workingOpstackPtr : ℕ × ℕ
  opstacks : ℕ → ℕ → UInt8
  numstack : ℕ → ℤ
  /-- The number of entries, which is also where the local pointer points to. -/
  numstackCount : ℕ

/-- What an evaluation gives: a value or an error, and what is shared. -/
abbrev Evaluation (α : Type) : Type := Except StackFault (Except Error α × Workspace)

/-- An evaluation that goes on when it has not failed. -/
def Evaluation.andThen {α β : Type} (c : Evaluation α) (next : α → Workspace → Evaluation β) :
    Evaluation β :=
  match c with
  | .error f => .error f
  | .ok (.error e, w) => .ok (.error e, w)
  | .ok (.ok a, w) => next a w

/-- Writes a token behind the others, into the buffer of the expression. -/
def emit (output : List RpnToken) (t : RpnToken) : Except StackFault (List RpnToken) :=
  if outputSize output + t.size ≤ statementSizeMax then .ok (output ++ [t]) else .error .output

namespace Workspace

/-- A call in `ERROR_HANDLE`. -/
def errorHandle {α : Type} (call : Workspace → Evaluation α) (w : Workspace) : Evaluation α :=
  match call w with
  | .ok (.error _, w) =>
    match call w with
    | .ok (.error e, w) => .ok (.error e, w)
    | .ok (.ok _, _) => .error .undefined
    | .error f => .error f
  | result => result

/-! ## The stack of operators -/

/-- The beginning of an activation of the shunting-yard algorithm. -/
def enter (w : Workspace) (frame src : ℕ) : Workspace :=
  { w with workingSrc := src, workingOpstackPtr := (frame, 0) }

/-- The entry that the pointer points to. -/
def topOp (w : Workspace) : Except StackFault UInt8 :=
  match w.workingOpstackPtr with
  | (_, 0) => .error .opstackEmpty
  | (frame, n + 1) => .ok (w.opstacks frame n)

/-- Moves the pointer down. -/
def dropOp (w : Workspace) : Workspace :=
  { w with workingOpstackPtr := (w.workingOpstackPtr.1, w.workingOpstackPtr.2 - 1) }

/-- Moves the pointer up and writes an entry. -/
def pushOp (w : Workspace) (op : UInt8) : Except StackFault Workspace :=
  let frame := w.workingOpstackPtr.1
  let n := w.workingOpstackPtr.2
  if n < opstackMax then
    .ok { w with
      workingOpstackPtr := (frame, n + 1)
      opstacks := Function.update w.opstacks frame (Function.update (w.opstacks frame) n op) }
  else .error .opstackFull

/-- Pops entries into the output while they pass a test. The activation counts its own entries. -/
def popOps (test : UInt8 → Bool) : ℕ → List RpnToken → Workspace →
    Except StackFault (ℕ × List RpnToken × Workspace)
  | 0, output, w => .ok (0, output, w)
  | count + 1, output, w =>
    match w.topOp with
    | .error f => .error f
    | .ok op =>
      if test op then
        match emit output (.operator op) with
        | .error f => .error f
        | .ok output => popOps test count output w.dropOp
      else .ok (count + 1, output, w)

/-! ## The stack of numbers -/

/-- Pushes a number. -/
def pushNum (w : Workspace) (n : ℤ) : Except StackFault Workspace :=
  if w.numstackCount < opstackMax then
    .ok { w with
      numstack := Function.update w.numstack w.numstackCount n
      numstackCount := w.numstackCount + 1 }
  else .error .numstackFull

/-- Reads the top number. -/
def topNum (w : Workspace) : Except StackFault ℤ :=
  if w.numstackCount = 0 then .error .numstackEmpty else .ok (w.numstack (w.numstackCount - 1))

/-- Moves the pointer of the numbers down. -/
def dropNum (w : Workspace) : Workspace := { w with numstackCount := w.numstackCount - 1 }

/-- Pops two numbers, the top one first, and pushes one. -/
def combine (f : ℤ → ℤ → ℤ) (w : Workspace) : Except StackFault Workspace := do
  let a ← w.topNum
  let b ← w.dropNum.topNum
  w.dropNum.dropNum.pushNum (int16 (f a b))

/-- Pops a number, and pushes its negative. -/
def negate (w : Workspace) : Except StackFault Workspace := do
  let a ← w.topNum
  w.dropNum.pushNum (int16 (-a))

/-- Evaluates one token of an expression in reverse Polish notation. -/
def rpnToken (w : Workspace) : RpnToken → Except StackFault Workspace
  | .numeric n => w.pushNum n
  | .operator op =>
    if op = opPlus then w.combine fun a b => a + b
    else if op = opMult then w.combine fun a b => a * b
    else if op = opMinus then
      if w.numstackCount = 1 then w.negate
      else if 2 ≤ w.numstackCount then w.combine fun a b => b - a
      else .ok w
    else .ok w

/-- The loop over an expression in reverse Polish notation. -/
def rpnLoop : List RpnToken → Workspace → Except StackFault Workspace
  | [], w => .ok w
  | t :: expr, w => do rpnLoop expr (← w.rpnToken t)

/-- Evaluates an expression in reverse Polish notation. -/
def evalRpn (expr : List RpnToken) (w : Workspace) : Except StackFault (ℤ × Workspace) := do
  let w ← rpnLoop expr { w with numstackCount := 0 }
  return (← w.topNum, w)

/-! ## The evaluation -/

mutual

/-- Evaluates an expression. The activations of the algorithm on it have the number `frame`. -/
def evalNumeric : ℕ → State → ℕ → ℕ → Workspace → Evaluation (ℤ × ℕ)
  | 0, _, _, _, _ => .error .endless
  | k + 1, s, frame, src, w =>
    if s.ram src = tokNumeric && evalIsEndOfExpression s.ram (src + numericSize) then
      .ok (.ok (numericGet s.ram src, src + numericSize), w)
    else if s.ram src = tokRegister && evalIsEndOfExpression s.ram (src + registerSize) then
      match register? s.ram src with
      | none => .error .undefined
      | some i => .ok (.ok (s.load (.register i), src + registerSize), w)
    else
      (errorHandle (fun w => evalShuntingYard k s frame 0 [] (w.enter frame src)) w).andThen
        fun p w => (evalRpn p.1 w).map fun q => (.ok (q.1, p.2), q.2)
termination_by structural k => k

/-- The loop of the shunting-yard algorithm, in an activation that counts its operators. The
expression is read through the shared pointer. -/
def evalShuntingYard : ℕ → State → ℕ → ℕ → List RpnToken → Workspace →
    Evaluation (List RpnToken × ℕ)
  | 0, _, _, _, _, _ => .error .endless
  | k + 1, s, frame, count, output, w =>
    if evalIsEndOfExpression s.ram w.workingSrc then
      (popOps (fun _ => true) count output w).bind fun q =>
        if outputSize q.2.1 < statementSizeMax then .ok (.ok (q.2.1, q.2.2.workingSrc), q.2.2)
        else .error .output
    else if s.ram w.workingSrc = tokNumeric then
      (emit output (.numeric (numericGet s.ram w.workingSrc))).bind fun output =>
        evalShuntingYard k s frame count output { w with workingSrc := w.workingSrc + numericSize }
    else if s.ram w.workingSrc = tokFunc then
      (errorHandle (tFuncCall k s (frame + 1) w.workingSrc) w).andThen fun p w' =>
        -- the pointers that have been saved, and then the end of the call
        let w' := { w' with workingOpstackPtr := w.workingOpstackPtr, workingSrc := w.workingSrc }
        (emit output (.numeric p.1)).bind fun output =>
          evalShuntingYard k s frame count output { w' with workingSrc := p.2 }
    else if s.ram w.workingSrc = tokVariable || s.ram w.workingSrc = tokRegister then
      (errorHandle (tVariableGetPtr k s (frame + 1) w.workingSrc) w).andThen fun p w' =>
        let w' := { w' with workingOpstackPtr := w.workingOpstackPtr, workingSrc := w.workingSrc }
        (emit output (.numeric (s.load p.1))).bind fun output =>
          evalShuntingYard k s frame count output { w' with workingSrc := p.2 }
    else if s.ram w.workingSrc = tokOperator then
      (popOps (fun o => precedence o > precedence (s.ram (w.workingSrc + 1))) count output w).bind
        fun q => (q.2.2.pushOp (s.ram (w.workingSrc + 1))).bind fun w =>
          evalShuntingYard k s frame (q.1 + 1) q.2.1 { w with workingSrc := w.workingSrc + opSize }
    else evalShuntingYard k s frame count output w
termination_by structural k => k

/-- Calls a function. -/
def tFuncCall : ℕ → State → ℕ → ℕ → Workspace → Evaluation (ℤ × ℕ)
  | 0, _, _, _, _ => .error .endless
  | k + 1, s, frame, toks, w =>
    if s.ram toks ≠ tokFunc then .ok (.error .syntaxError, w)
    else if s.ram (toks + 1) ≠ funcRnd then .ok (.error .unknownFunc, w)
    else if opCheck s.ram (toks + 2) opLparen then
      (errorHandle (evalNumeric k s frame (toks + 2)) w).andThen fun p w =>
        if p.1 = 0 then .error .undefined
        else
          .ok (.ok (int16 ((rand16 w.r % ofNumeric p.1 : ℕ) + 1), p.2 + opSize),
            { w with r := rand16 w.r })
    else .ok (.ok (toNumeric (rand16 w.r), toks + 2), { w with r := rand16 w.r })
termination_by structural k => k

/-- The pointer to the value of a variable or of an element of an array. -/
def tVariableGetPtr : ℕ → State → ℕ → ℕ → Workspace → Evaluation (Ref × ℕ)
  | 0, _, _, _, _ => .error .endless
  | k + 1, s, frame, toks, w =>
    match varToken s.ram toks with
    | none => .ok (.error .syntaxError, w)
    | some next =>
      if opCheck s.ram next opLparen then
        (errorHandle (evalNumeric k s frame (next + opSize)) w).andThen fun p w =>
          match arrayRef s toks p.1 with
          | none => .error .undefined
          | some (.error e) => .ok (.error e, w)
          | some (.ok ref) => .ok (.ok (ref, p.2 + opSize), w)
      else
        match programGetNumericRef s toks with
        | none => .error .undefined
        | some none => .ok (.error .undefinedVar, w)
        | some (some ref) => .ok (.ok (ref, next), w)
termination_by structural k => k

end

end Workspace

end Z80OS.Basic
