import Mathlib.Logic.Function.Basic
import Z80OS.Basic.Tokens

set_option relaxedAutoImplicit false
set_option autoImplicit false

/-!
# The state of the interpreter

The lines of the program and the arrays lie one behind the other in a region of memory that grows
upwards from `program_start`. A line has a number, the addresses of the lines in front of and behind
it, and its statement; an allocation has a mark, a size and its bytes. A variable has a word that is
read as a number or as the address of an array, depending on how the variable is used.

Pointers are addresses, and `NULL` is the address 0. The return stack holds 8 entries and the
variable context 16 variables. What happens after a write behind the last one is not defined, like
what happens after other accesses that C gives no meaning to: the functions of this file then give
a fault.

## Main definitions

* `Z80OS.Basic.Ram` — memory.
* `Z80OS.Basic.State` — the global variables of the interpreter, and the lines that have been
  inserted since the last `NEW`.
* `Z80OS.Basic.Fault`, `Z80OS.Basic.Result` — what is not defined.
* `Z80OS.Basic.Target` — where the linker has put things, and what uninitialised variables hold.
* `Z80OS.Basic.programInsert`, `Z80OS.Basic.programSearchLineno` — lines.
* `Z80OS.Basic.programSetNumeric`, `Z80OS.Basic.programGetNumeric`,
  `Z80OS.Basic.programCreateArray`, `Z80OS.Basic.programGetArray` — variables.
* `Z80OS.Basic.programPushReturn`, `Z80OS.Basic.programPopReturn` — the return stack.
-/

namespace Z80OS.Basic

/-! ## Memory -/

/-- Memory: the byte at each address. -/
def Ram : Type := ℕ → UInt8

/-- The word at an address. -/
def Ram.word (m : Ram) (a : ℕ) : ℕ := word16 (m a) (m (a + 1))

/-- The number at an address. -/
def Ram.numeric (m : Ram) (a : ℕ) : ℤ := toNumeric (m.word a)

/-- Memory after a copy of bytes to an address. -/
def Ram.memcpy (m : Ram) (a : ℕ) (bytes : List UInt8) : Ram := fun i =>
  if a ≤ i ∧ i < a + bytes.length then bytes.getD (i - a) 0 else m i

/-- The `n` bytes from an address on. -/
def Ram.slice (m : Ram) (a n : ℕ) : List UInt8 := (List.range n).map fun i => m (a + i)

/-- How many bytes of memory there are. -/
def ramSize : ℕ := 65536

/-- The string of at most `k` characters at an address, without its terminator. -/
def Ram.stringTo (m : Ram) : ℕ → ℕ → List UInt8
  | 0, _ => []
  | k + 1, a => if m a = 0 then [] else m a :: m.stringTo k (a + 1)

/-- The string at an address. -/
def Ram.string (m : Ram) (a : ℕ) : List UInt8 := m.stringTo ramSize a

/-! ## The global variables -/

/-- A single-letter variable. -/
structure Register where
  defined : Bool
  /-- A number, or the address of an array. -/
  value : ℕ

/-- A variable of the context. -/
structure ContextVar where
  name : List UInt8
  /-- A number, or the address of an array. -/
  value : ℕ

/-- An entry of the return stack. -/
structure ReturnEntry where
  line : ℕ
  /-- The token of the variable of a loop, `NULL` for a subroutine. -/
  vartoken : ℕ
  deriving DecidableEq

/-- A line that has been inserted: where it is, its number, and its statement. -/
structure Line where
  addr : ℕ
  lineno : ℤ
  stmt : List UInt8
  deriving DecidableEq

/-- The number of registers. -/
def numRegisters : ℕ := 26

/-- The largest number of variables. -/
def maxVars : ℕ := 16

/-- The largest number of entries on the return stack. -/
def returnStackLimit : ℕ := 8

/-- The address that points nowhere. -/
def null : ℕ := 0

/-- Whether the interpreter waits for a line, or runs the program. A program that is run by one of
its own statements is nested. When the program is run by the sub-statement of an `IF` and ends with
an error, the sub-statement is interpreted again: `again` has the addresses of these
sub-statements, the innermost one first. -/
inductive Mode
  | ready
  | running (nested : Bool) (again : List ℕ)
  deriving DecidableEq

/-- The global variables of the interpreter, and a history variable that no function reads.
`PROGSTATE_RUNNING` is the mode `running`. -/
structure State where
  ram : Ram
  programEndPtr : ℕ
  mode : Mode
  programRegisters : Fin numRegisters → Register
  /-- The first `count` variables of the context. -/
  programContext : List ContextVar
  /-- The entries in use, the top one first. -/
  programReturnStack : List ReturnEntry
  programCurrentLine : ℕ
  programLastInsertedLine : ℕ
  programNextLine : ℕ
  /-- The state of the random number generator. -/
  r : ℕ
  /-- What has been printed. -/
  output : List UInt8
  /-- History: the lines inserted since the last `program_new`, as they were inserted. -/
  inserted : List Line

/-- Where the linker has put the buffer of direct statements and the region of the program, and
what the variables hold that `do_for` uses before it has set them. -/
class Target where
  statement : ℕ
  programStart : ℕ
  programMax : ℕ
  statement_pos : 0 < statement
  statement_le : statement + statementSizeMax ≤ programStart
  start_le : programStart ≤ programMax
  max_le : programMax ≤ ramSize
  line : State → ℕ
  currentVal : State → ℤ

/-- The size of the header of a line. -/
def progHdrSize : ℕ := 6

namespace State

/-- The state with other contents of memory. -/
def withRam (s : State) (m : Ram) : State := { s with ram := m }

/-- The state after a copy of bytes into memory. -/
def memcpy (s : State) (a : ℕ) (bytes : List UInt8) : State := s.withRam (s.ram.memcpy a bytes)

/-- The state with another next line. -/
def goTo (s : State) (line : ℕ) : State := { s with programNextLine := line }

/-- The state with another return stack. -/
def withStack (s : State) (stack : List ReturnEntry) : State :=
  { s with programReturnStack := stack }

/-- The state with other variables in the context. -/
def withContext (s : State) (context : List ContextVar) : State :=
  { s with programContext := context }

/-- The state with another register. -/
def setRegister (s : State) (i : Fin numRegisters) (reg : Register) : State :=
  { s with programRegisters := Function.update s.programRegisters i reg }

/-- The state in which more has been printed. -/
def print (s : State) (text : List UInt8) : State := { s with output := s.output ++ text }

/-- The state with another state of the random number generator. -/
def withSeed (s : State) (r : ℕ) : State := { s with r := r }

/-- The state in another mode. -/
def withMode (s : State) (mode : Mode) : State := { s with mode := mode }

end State

/-! ## Faults -/

/-- Why there is no result: a write behind the end of the return stack or of the context, or
something else that C does not define, or a loop that does not end. -/
inductive Fault
  | returnStack
  | context
  | undefined
  deriving DecidableEq

/-- A result, or a fault. -/
abbrev Result (α : Type) : Type := Except Fault α

/-- What is not defined is a fault. -/
def orFault {α : Type} : Option α → Result α
  | none => .error .undefined
  | some a => .ok a

/-! ## Lines -/

section Lines

variable (m : Ram) (line : ℕ)

/-- The number of a line. -/
def progLineno : ℤ := m.numeric line

/-- The address of the line in front of a line. -/
def progPrev : ℕ := m.word (line + 2)

/-- The address of the line behind a line. -/
def progNext : ℕ := m.word (line + 4)

/-- The statement of a line. -/
def progStmt : ℕ := line + progHdrSize

end Lines

/-- Skips a token with a size. -/
def tVarlenSkip (m : Ram) (toks : ℕ) : ℕ := toks + 2 + (m (toks + 1)).toNat

/-- The number of a numeric token. -/
def numericGet (m : Ram) (toks : ℕ) : ℤ := m.numeric (toks + 1)

/-- The name of a variable token. -/
def variableGet (m : Ram) (toks : ℕ) : List UInt8 := m.string (toks + 2)

/-- An operator token. -/
def opCheck (m : Ram) (toks : ℕ) (op : UInt8) : Bool := m toks = tokOperator && m (toks + 1) = op

/-- A keyword token. -/
def kwCheck (m : Ram) (toks : ℕ) (kw : UInt8) : Bool := m toks = tokKeyword && m (toks + 1) = kw

/-- The first byte behind the tokens of a statement, after at most `k` of them. A byte that is not
the kind of a token is not passed, so that the loop of the source goes on for ever. -/
def statementEnd (m : Ram) : ℕ → ℕ → Option ℕ
  | 0, _ => none
  | k + 1, stmt =>
    if m stmt = tokTerminator then some (stmt + 1)
    else if m stmt = tokNumeric then statementEnd m k (stmt + numericSize)
    else if m stmt = tokKeyword then statementEnd m k (stmt + kwSize)
    else if m stmt = tokOperator then statementEnd m k (stmt + opSize)
    else if m stmt = tokFunc then statementEnd m k (stmt + funcSize)
    else if m stmt = tokRegister then statementEnd m k (stmt + registerSize)
    else if m stmt = tokSeparator then statementEnd m k (stmt + 1)
    else if m stmt = tokString ∨ m stmt = tokVariable ∨ m stmt = tokAlloc ∨ m stmt = tokRemark then
      statementEnd m k (tVarlenSkip m stmt)
    else statementEnd m k stmt

/-- The size of a statement, in a byte. -/
def statementSize (m : Ram) (stmt : ℕ) : Option ℕ :=
  (statementEnd m ramSize stmt).map fun stop => (stop - stmt) % 256

section Program

variable [Target]

/-- Creates a new program. -/
def programNew (s : State) : State :=
  { s with
    programEndPtr := Target.programStart
    programCurrentLine := Target.programStart
    programLastInsertedLine := null
    mode := .ready
    programRegisters := fun i => { s.programRegisters i with defined := false }
    programContext := []
    programReturnStack := []
    inserted := [] }

/-- Ends the program. -/
def programEnd (s : State) (e : Error) : Error × State :=
  match s.mode with
  | .ready => (.notRunning, s)
  | .running _ _ => (e, s.withMode .ready)

/-- The header of a line that is inserted behind the last one. -/
def lineHeader (lineno : ℤ) (prev : ℕ) : List UInt8 :=
  bytes16 (ofNumeric lineno) ++ bytes16 prev ++ bytes16 null

/-- Inserts a line behind the last one, whatever its number is. -/
def programInsert (s : State) (toks : ℕ) : Result (Error × State) :=
  if s.ram toks ≠ tokNumeric then .ok (.syntaxError, s)
  else
    let lineno := numericGet s.ram toks
    let stmt := toks + numericSize
    (orFault (statementSize s.ram stmt)).map fun size =>
      let line := s.programEndPtr
      let s := if s.programLastInsertedLine ≠ null then
          s.memcpy (s.programLastInsertedLine + 4) (bytes16 line)
        else s
      let s := s.memcpy line (lineHeader lineno s.programLastInsertedLine)
      let bytes := s.ram.slice stmt size
      let s := s.memcpy (progStmt line) bytes
      (.noerror,
        { s with
          programLastInsertedLine := line
          programEndPtr := line + size + progHdrSize
          inserted := s.inserted ++ [⟨line, lineno, bytes⟩] })

/-- The search backwards, over at most `k` lines. -/
def searchBackwards (m : Ram) (lineno : ℤ) : ℕ → ℕ → Option ℕ
  | 0, _ => none
  | k + 1, line =>
    if lineno ≤ progLineno m line then
      if progPrev m line = null then some null else searchBackwards m lineno k (progPrev m line)
    else some (progNext m line)

/-- The search forwards, over at most `k` lines. -/
def searchForwards (m : Ram) (lineno : ℤ) : ℕ → ℕ → Option ℕ
  | 0, _ => none
  | k + 1, line =>
    if progLineno m line < lineno then
      if progNext m line = null then some null else searchForwards m lineno k (progNext m line)
    else some line

/-- Searches for the line with a number, or the next one behind it, from the current line on. -/
def programSearchLineno (s : State) (lineno : ℤ) : Option ℕ :=
  if lineno < progLineno s.ram s.programCurrentLine then
    searchBackwards s.ram lineno ramSize s.programCurrentLine
  else searchForwards s.ram lineno ramSize s.programCurrentLine

/-- The beginning of a run of the program. -/
def programRunInit (s : State) : State :=
  { s with
    mode := .running (s.mode ≠ .ready) []
    programNextLine := Target.programStart
    programContext := []
    programReturnStack := [] }

/-- Sets the next line to be executed. -/
def programTransferControl (s : State) (lineno : ℤ) : Result (ℕ × State) :=
  (orFault (programSearchLineno s lineno)).map fun line => (line, s.goTo line)

/-- Sets the next line to be executed. -/
def programTransferControlDirect (s : State) (line : ℕ) : State := s.goTo line

/-- The number of the next line, for the report of an error. -/
def programNextLineno (s : State) : ℤ :=
  if s.programNextLine = null then -1 else progLineno s.ram s.programNextLine

end Program

/-! ## Variables -/

/-- What a pointer to a number points to. -/
inductive Ref
  | register (i : Fin numRegisters)
  | context (i : ℕ)
  | memory (a : ℕ)
  deriving DecidableEq

/-- The number that a pointer points to. -/
def State.load (s : State) : Ref → ℤ
  | .register i => toNumeric (s.programRegisters i).value
  | .context i => toNumeric ((s.programContext[i]?.map ContextVar.value).getD 0)
  | .memory a => s.ram.numeric a

/-- Stores a number through a pointer. -/
def State.store (s : State) (ref : Ref) (n : ℤ) : State :=
  match ref with
  | .register i => s.setRegister i { s.programRegisters i with value := ofNumeric n }
  | .context i =>
    s.withContext (s.programContext.modify i fun v => { v with value := ofNumeric n })
  | .memory a => s.memcpy a (bytes16 (ofNumeric n))

/-- The register of a register token. -/
def register? (m : Ram) (toks : ℕ) : Option (Fin numRegisters) :=
  if h : (m (toks + 1)).toNat < numRegisters then some ⟨(m (toks + 1)).toNat, h⟩ else none

/-- The first variable of the context with a name. -/
def findVar (context : List ContextVar) (name : List UInt8) : Option ℕ :=
  context.findIdx? fun v => v.name = name

/-- The pointer to the value of a variable. The outer `none` is an access behind the last
register. -/
def programGetNumericRef (s : State) (toks : ℕ) : Option (Option Ref) :=
  if s.ram toks = tokRegister then (register? s.ram toks).map fun i => some (.register i)
  else some ((findVar s.programContext (variableGet s.ram toks)).map .context)

/-- Sets a variable, which is defined when it is not a register and does not exist. -/
def programSetNumeric (s : State) (toks : ℕ) (val : ℤ) : Result (Error × State) :=
  match programGetNumericRef s toks with
  | none => .error .undefined
  | some (some ref) => .ok (.noerror, s.store ref val)
  | some none =>
    if s.programContext.length = maxVars then .ok (.tooManyVars, s)
    else
      let name := variableGet s.ram toks
      if name.length > varnameSize then .ok (.varname, s)
      else .ok (.noerror, s.withContext (s.programContext ++ [⟨name, ofNumeric val⟩]))

/-- The value of a variable. -/
def programGetNumeric (s : State) (toks : ℕ) : Result (Error × ℤ) :=
  (orFault (programGetNumericRef s toks)).map fun
    | none => (.undefinedVar, 0)
    | some ref => (.noerror, s.load ref)

/-- Allocates `size` bytes behind the last line or allocation. -/
def programAlloc (s : State) (size : ℕ) : ℕ × State :=
  (s.programEndPtr,
    { s.memcpy s.programEndPtr (tokAlloc :: UInt8.ofNat size :: List.replicate size 0) with
      programEndPtr := s.programEndPtr + 2 + size })

/-- Creates a new array for a variable. A variable that is not a register is added to the context,
whether it is there or not. -/
def programCreateArray (s : State) (toks size : ℕ) : Result (Error × State) :=
  let r := programAlloc s size
  let a := r.1
  let s := r.2
  if s.ram toks = tokRegister then
    (orFault (register? s.ram toks)).map fun i => (.noerror, s.setRegister i ⟨true, a⟩)
  else
    let name := variableGet s.ram toks
    if s.programContext.length = maxVars then .error .context
    else if name.length > varnameSize then .error .undefined
    else .ok (.noerror, s.withContext (s.programContext ++ [⟨name, a⟩]))

/-- The array of a variable. -/
def programGetArray (s : State) (toks : ℕ) : Option (Except Error ℕ) :=
  if s.ram toks = tokRegister then
    (register? s.ram toks).map fun i =>
      if (s.programRegisters i).defined then .ok (s.programRegisters i).value
      else .error .undefinedArray
  else
    let name := variableGet s.ram toks
    if name.length > varnameSize then some (.error .varname)
    else
      match s.programContext.find? fun v => v.name = name with
      | none => some (.error .undefinedArray)
      | some v => some (.ok v.value)

/-! ## The return stack -/

/-- Pushes an entry onto the return stack. -/
def programPushReturn (s : State) (line vartok : ℕ) : Result State :=
  if s.programReturnStack.length < returnStackLimit then
    .ok (s.withStack (⟨line, vartok⟩ :: s.programReturnStack))
  else .error .returnStack

/-- Pops an entry off the return stack. -/
def programPopReturn (s : State) : Option ReturnEntry × State :=
  (s.programReturnStack.head?, s.withStack s.programReturnStack.tail)

/-- Compares two variable tokens. -/
def varcmp (m : Ram) (left right : ℕ) : Bool :=
  if left = null ∨ right = null then false
  else if m left ≠ m right then false
  else if m left = tokRegister then m (left + 1) = m (right + 1)
  else if m left = tokVariable then m.string (left + 1) = m.string (right + 1)
  else false

end Z80OS.Basic
