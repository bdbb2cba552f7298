import Z80OS.Basic.State

set_option relaxedAutoImplicit false
set_option autoImplicit false

/-!
# Listing a program

`LIST` prints the lines of the program from the start of its region on, one token after the other,
each kind of token with a printer of its own.

## Main definitions

* `Z80OS.Basic.decimal`, `Z80OS.Basic.printNumeric` — `printf` of a number.
* `Z80OS.Basic.tDefsList` — the printers of the tokens.
* `Z80OS.Basic.programListStmt`, `Z80OS.Basic.programList` — listing a statement and a program.
-/

namespace Z80OS.Basic

/-- The decimal digits of a number, at most `k` of them. -/
def decimalTo : ℕ → ℕ → List UInt8
  | 0, _ => []
  | k + 1, n =>
    if n < 10 then [UInt8.ofNat (0x30 + n)]
    else decimalTo k (n / 10) ++ [UInt8.ofNat (0x30 + n % 10)]

/-- The decimal digits of a number of 16 bits. -/
def decimal (n : ℕ) : List UInt8 := decimalTo 5 n

/-- A number with its sign. -/
def printNumeric (n : ℤ) : List UInt8 :=
  if n < 0 then 0x2d :: decimal n.natAbs else decimal n.natAbs

/-- The end of a line. -/
def newline : List UInt8 := [0x0d, 0x0a]

/-- The text of an operator. -/
def operatorText (op : UInt8) : List UInt8 :=
  if op = opMinus then ascii ['-']
  else if op = opPlus then ascii ['+']
  else if op = opMult then ascii ['*']
  else if op = opEqual then ascii ['=']
  else if op = opLparen then ascii ['(']
  else if op = opRparen then ascii [')']
  else if op = opLt then ascii ['<']
  else if op = opGt then ascii ['>']
  else if op = opLteq then ascii ['<', '=']
  else if op = opGteq then ascii ['>', '=']
  else ascii ['?', '!']

/-- The text of a keyword. -/
def keywordText (kw : UInt8) : List UInt8 :=
  ((keywords.find? fun k => k.2 = kw).map Prod.fst).getD []

/-- The text of a function. -/
def funcText (func : UInt8) : List UInt8 :=
  if func = funcRnd then ascii ['R', 'N', 'D'] else ascii ['F', 'U', 'N', 'C', '?']

/-- Prints the token at an address. The result has what is printed and the token behind it; a
variable is printed with its terminator, and a remark ends in front of its terminator. -/
def tDefsList (m : Ram) (toks : ℕ) : Option (List UInt8 × ℕ) :=
  let data := toks + 1
  if m toks = tokTerminator then some (newline, data)
  else if m toks = tokString then
    some (0x22 :: m.string (data + 1) ++ [0x22, 0x20], data + 1 + (m data).toNat)
  else if m toks = tokKeyword then some (keywordText (m data) ++ [0x20], data + 1)
  else if m toks = tokNumeric then some (printNumeric (m.numeric data) ++ [0x20], data + 2)
  else if m toks = tokOperator then some (operatorText (m data), data + 1)
  else if m toks = tokVariable then
    some (m.slice (data + 1) (m data).toNat, data + 1 + (m data).toNat)
  else if m toks = tokSeparator then some (ascii [',', ' '], data)
  else if m toks = tokAlloc then some ([], data + (m data).toNat + 1)
  else if m toks = tokFunc then some (funcText (m data), data + 1)
  else if m toks = tokRemark then
    some (ascii ['R', 'E', 'M'] ++ m.string (data + 1), data + (m data).toNat)
  else if m toks = tokRegister then some ([m data + 0x41], data + 1)
  else none

/-- Prints a statement of at most `k` tokens, with the end of the line. -/
def programListStmtTo (m : Ram) : ℕ → ℕ → Option (List UInt8)
  | 0, _ => none
  | k + 1, toks =>
    match tDefsList m toks with
    | none => none
    | some (text, next) =>
      if m toks = tokTerminator then some text
      else (programListStmtTo m k next).map fun rest => text ++ rest

/-- Prints a statement, with the end of the line. -/
def programListStmt (m : Ram) (toks : ℕ) : Option (List UInt8) := programListStmtTo m ramSize toks

/-- Prints at most `k` lines. -/
def programListTo (m : Ram) : ℕ → ℕ → Option (List UInt8)
  | 0, _ => none
  | k + 1, line =>
    if line = null ∨ progLineno m line = 0 then some []
    else
      match programListStmt m (progStmt line) with
      | none => none
      | some text =>
        (programListTo m k (progNext m line)).map fun rest =>
          printNumeric (progLineno m line) ++ 0x20 :: text ++ rest

/-- Prints the program. -/
def programList [Target] (s : State) : Result State :=
  (orFault (programListTo s.ram ramSize Target.programStart)).map s.print

end Z80OS.Basic
