import Z80OS.Basic.Eval
import Z80OS.Basic.Listing

set_option relaxedAutoImplicit false
set_option autoImplicit false

/-!
# Statements

The statements of BASIC, one function for each keyword, and the interpretation of a statement. A
statement gives an error, or it has started the program.

The recursion of `IF` has no limit in the source. The functions follow it for `k` turns.

## Main definitions

* `Z80OS.Basic.doFor`, `Z80OS.Basic.doNext`, `Z80OS.Basic.doGosub`, `Z80OS.Basic.doReturn`,
  `Z80OS.Basic.doGoto` and so on — the keywords.
* `Z80OS.Basic.statementInterpret` — the interpretation of a statement.
-/

namespace Z80OS.Basic

/-- How a statement ends: with an error, or with the beginning of a run of the program. -/
inductive Outcome
  | done (e : Error)
  | run
  deriving DecidableEq

/-- What a statement gives. -/
abbrev Interpreted : Type := Result (Outcome × State)

/-- A statement that fails and changes nothing. -/
def fails (s : State) (e : Error) : Interpreted := .ok (.done e, s)

/-- A statement that succeeds. -/
def succeeds (s : State) : Interpreted := .ok (.done .noerror, s)

section

variable [Target]

/-- The evaluation of an expression in a statement. -/
def eval (s : State) (toks : ℕ) : Result (Except Error (ℤ × ℕ) × State) :=
  (orFault (evalNumeric ramSize s s.r toks)).map fun (result, r) => (result, s.withSeed r)

/-- Prints at most `k` strings and expressions. -/
def doPrint : ℕ → State → ℕ → Interpreted
  | 0, _, _ => .error .undefined
  | k + 1, s, toks =>
    let printed : Result (Except Error ℕ × State) :=
      if s.ram toks = tokString then
        .ok (.ok (tVarlenSkip s.ram toks), s.print (s.ram.string (toks + 2)))
      else
        (eval s toks).map fun
          | (.error e, s) => (.error e, s)
          | (.ok (result, stop), s) => (.ok stop, s.print (printNumeric result))
    match printed with
    | .error f => .error f
    | .ok (.error e, s) => fails s e
    | .ok (.ok stop, s) =>
      if s.ram stop = tokTerminator then succeeds (s.print newline)
      else if s.ram stop ≠ tokSeparator then fails s .syntaxError
      else doPrint k s (stop + sepSize)

/-- `LIST` prints the program. -/
def doList (s : State) : Interpreted := (programList s).map fun s => (.done .noerror, s)

/-- `NEW` starts a program without lines. -/
def doNew (s : State) : Interpreted := succeeds (programNew s)

/-- Starts the program. -/
def doRun (s : State) : Interpreted := .ok (.run, programRunInit s)

/-- `END` ends the program. -/
def doEnd (s : State) : Interpreted :=
  let r := programEnd s .noerror
  .ok (.done r.1, r.2)

/-- Transfers control to the line with the number at `toks`, and rewrites the statement: its keyword
becomes `jump`, and the number the address of the line. -/
def transferRewrite (s : State) (toks : ℕ) (jump : UInt8) : Interpreted :=
  match programTransferControl s (numericGet s.ram toks) with
  | .error f => .error f
  | .ok (line, s) =>
    let s := s.memcpy (toks - 1) [jump]
    succeeds (s.memcpy (toks + 1) (bytes16 line))

/-- Goes to the line with a number. The statement is rewritten so that it goes there directly. -/
def doGoto (s : State) (toks : ℕ) : Interpreted :=
  if s.ram toks ≠ tokNumeric then fails s .syntaxError
  else transferRewrite s toks keywordJumpto

/-- Goes to the line at an address. -/
def doJumpto (s : State) (toks : ℕ) : Interpreted :=
  if s.ram toks ≠ tokNumeric then fails s .syntaxError
  else succeeds (programTransferControlDirect s (s.ram.word (toks + 1)))

/-- The tokens of a `FOR`: the limits of the variable. -/
def forLimits (m : Ram) (toks : ℕ) : Option (ℤ × ℤ) :=
  match varToken m toks with
  | none => none
  | some next =>
    if ¬ opCheck m next opEqual then none
    else if m (next + opSize) ≠ tokNumeric then none
    else
      let toKw := next + opSize + numericSize
      if ¬ kwCheck m toKw keywordTo then none
      else if m (toKw + kwSize) ≠ tokNumeric then none
      else some (numericGet m (next + opSize), numericGet m (toKw + kwSize))

/-- The value of the variable of a loop. -/
def forVal (s : State) (var : ℕ) : Result ℤ :=
  (programGetNumeric s var).map fun
    | (.noerror, val) => val
    | _ => Target.currentVal s

/-- The next value of the variable of a loop: the successor when the top of the return stack is the
frame of the loop, and the start otherwise. The result has the address that the source calls
`line`. -/
def forStep (s : State) (var : ℕ) (start : ℤ) : Result (ℕ × State) :=
  match programPopReturn s with
  | (none, s) => (programSetNumeric s var start).map fun (_, s) => (Target.line s, s)
  | (some top, s) =>
    if varcmp s.ram top.vartoken var then
      match forVal s var with
      | .error f => .error f
      | .ok val => (programSetNumeric s var (int16 (val + 1))).map fun (_, s) => (top.line, s)
    else
      match programSetNumeric s var start with
      | .error f => .error f
      | .ok (_, s) => (programPushReturn s top.line top.vartoken).map fun s => (top.line, s)

/-- Begins or goes on with a loop. -/
def doFor (s : State) (toks : ℕ) : Interpreted :=
  match forLimits s.ram toks with
  | none => fails s .syntaxError
  | some (start, limit) =>
    match forStep s toks start with
    | .error f => .error f
    | .ok (line, s) =>
      match forVal s toks with
      | .error f => .error f
      | .ok val =>
        if val ≥ limit then succeeds (programTransferControlDirect s (progNext s.ram line))
        else (programPushReturn s s.programCurrentLine toks).map fun s => (.done .noerror, s)

/-- The end of the body of a loop. -/
def doNext (s : State) (toks : ℕ) : Interpreted :=
  if s.ram toks ≠ tokVariable ∧ s.ram toks ≠ tokRegister then fails s .syntaxError
  else
    match programPopReturn s with
    | (none, s) => fails s .syntaxError
    | (some top, s) =>
      if ¬ varcmp s.ram toks top.vartoken then fails s .syntaxError
      else
        (programPushReturn s s.programCurrentLine top.vartoken).map fun s =>
          (.done .noerror, programTransferControlDirect s top.line)

/-- Calls the subroutine at the line with a number. The statement is rewritten so that it goes
there directly. -/
def doGosub (s : State) (toks : ℕ) : Interpreted :=
  if s.ram toks ≠ tokNumeric then fails s .syntaxError
  else
    match programPushReturn s s.programCurrentLine null with
    | .error f => .error f
    | .ok s => transferRewrite s toks keywordJumpsub

/-- Calls the subroutine at the line at an address. -/
def doJumpsub (s : State) (toks : ℕ) : Interpreted :=
  if s.ram toks ≠ tokNumeric then fails s .syntaxError
  else
    (programPushReturn s s.programCurrentLine null).map fun s =>
      (.done .noerror, programTransferControlDirect s (s.ram.word (toks + 1)))

/-- Returns from a subroutine. -/
def doReturn (s : State) : Interpreted :=
  match programPopReturn s with
  | (none, s) => fails s .retstackEmpty
  | (some top, s) => succeeds (programTransferControlDirect s (progNext s.ram top.line))

/-- Creates an array. The parentheses are not checked. -/
def doDim (s : State) (toks : ℕ) : Interpreted :=
  match varToken s.ram toks with
  | none => fails s .syntaxError
  | some next =>
    let size := numericGet s.ram (next + opSize)
    if size < 0 ∨ 127 < size then fails s .range
    else (programCreateArray s toks (size.toNat * 2)).map fun (_, s) => (.done .noerror, s)

/-- Compares two numbers. -/
def helperIfDoComparison (op : UInt8) (left right : ℤ) : Bool :=
  if op = opEqual then left = right
  else if op = opLt then left < right
  else if op = opGt then left > right
  else if op = opLteq then left ≤ right
  else left ≥ right

/-- The evaluation of an expression of an `IF`: the value and the token behind it, or the error with
which the statement ends. The expression is evaluated again when it fails. -/
def ifEval (s : State) (toks : ℕ) : Result (Except Error (ℤ × ℕ) × State) :=
  match eval s toks with
  | .error f => .error f
  | .ok (.ok result, s) => .ok (.ok result, s)
  | .ok (.error _, s) =>
    (eval s toks).map fun
      | (.ok _, s) => (.error .noerror, s)
      | (.error e, s) => (.error e, s)

/-- The comparison of an `IF`: its sub-statement when the comparison holds, and the error with which
the statement ends otherwise. -/
def ifSub (s : State) (toks : ℕ) : Result (Except Error ℕ × State) :=
  match ifEval s toks with
  | .error f => .error f
  | .ok (.error e, s) => .ok (.error e, s)
  | .ok (.ok (left, stop), s) =>
    if ¬ tOperatorIsComparison s.ram stop then .ok (.error .syntaxError, s)
    else
      match ifEval s (stop + opSize) with
      | .error f => .error f
      | .ok (.error e, s) => .ok (.error e, s)
      | .ok (.ok (right, stop'), s) =>
        if ¬ kwCheck s.ram stop' keywordThen then .ok (.error .syntaxError, s)
        else if helperIfDoComparison (s.ram (stop + 1)) left right then
          .ok (.ok (stop' + kwSize), s)
        else .ok (.error .noerror, s)

/-- The sub-statement of an `IF` is interpreted, and once more when it fails. -/
def ifThen (interpret : State → ℕ → Interpreted) (s : State) (stmt : ℕ) : Interpreted :=
  match interpret s stmt with
  | .error f => .error f
  | .ok (.done .noerror, s) => succeeds s
  | .ok (.done _, s) => interpret s stmt
  | .ok (.run, s) =>
    match s.mode with
    | .ready => .ok (.run, s)
    | .running nested again => .ok (.run, s.withMode (.running nested (again ++ [stmt])))

/-- `IF` a comparison holds `THEN` a statement is interpreted. -/
def doIf (interpret : State → ℕ → Interpreted) (s : State) (toks : ℕ) : Interpreted :=
  match ifSub s toks with
  | .error f => .error f
  | .ok (.error e, s) => fails s e
  | .ok (.ok stmt, s) => ifThen interpret s stmt

/-- The interpretation of a keyword. -/
def tKeywordInterpret (interpret : State → ℕ → Interpreted) (s : State) (kw : UInt8) (toks : ℕ) :
    Interpreted :=
  if kw = keywordPrint then doPrint ramSize s toks
  else if kw = keywordList then doList s
  else if kw = keywordNew then doNew s
  else if kw = keywordRun then doRun s
  else if kw = keywordEnd then doEnd s
  else if kw = keywordGoto then doGoto s toks
  else if kw = keywordFor then doFor s toks
  else if kw = keywordTo then fails s .syntaxError
  else if kw = keywordNext then doNext s toks
  else if kw = keywordGosub then doGosub s toks
  else if kw = keywordReturn then doReturn s
  else if kw = keywordDim then doDim s toks
  else if kw = keywordIf then doIf interpret s toks
  else if kw = keywordThen then fails s .syntaxError
  else if kw = keywordJumpto then doJumpto s toks
  else if kw = keywordJumpsub then doJumpsub s toks
  else fails s .undefinedKw

/-- The pointer to the variable of a statement, without a definition of the variable. -/
def getPtr (s : State) (toks : ℕ) : Result (Except Error (Ref × ℕ) × State) :=
  (orFault (tVariableGetPtr ramSize s s.r toks)).map fun (result, r) => (result, s.withSeed r)

/-- The pointer to the variable that a statement assigns to. A variable that is not defined is
defined. -/
def assignPtr (s : State) (stmt : ℕ) : Result (Except Error (Ref × ℕ) × State) :=
  match getPtr s stmt with
  | .ok (.error .undefinedVar, s) =>
    match programSetNumeric s stmt 0 with
    | .error f => .error f
    | .ok (.noerror, s) => getPtr s stmt
    | .ok (e, s) => .ok (.error e, s)
  | result => result

/-- Assigns a value to a variable or to an element of an array. -/
def doAssign (s : State) (stmt : ℕ) : Interpreted :=
  match assignPtr s stmt with
  | .error f => .error f
  | .ok (.error e, s) => fails s e
  | .ok (.ok (ref, next), s) =>
    if ¬ opCheck s.ram next opEqual then fails s .syntaxError
    else
      match eval s (next + opSize) with
      | .error f => .error f
      | .ok (.error e, s) => fails s e
      | .ok (.ok (val, _), s) => succeeds (s.store ref val)

/-- Interprets a statement, with at most `k` statements inside each other. -/
def statementInterpret : ℕ → State → ℕ → Interpreted
  | 0, _, _ => .error .undefined
  | k + 1, s, stmt =>
    if s.ram stmt = tokNumeric then (programInsert s stmt).map fun (e, s) => (.done e, s)
    else if s.ram stmt = tokKeyword then
      tKeywordInterpret (statementInterpret k) s (s.ram (stmt + 1)) (stmt + kwSize)
    else if s.ram stmt = tokVariable ∨ s.ram stmt = tokRegister then doAssign s stmt
    else if s.ram stmt = tokRemark then succeeds s
    else fails s .syntaxError

end

end Z80OS.Basic
