import Mathlib.Data.Int.Notation
import Z80OS.Lib.Words

set_option relaxedAutoImplicit false
set_option autoImplicit false

/-!
# The tokens of BASIC

A statement is stored as a stream of tokens, each of them a byte for its kind and, for most kinds,
bytes of data. The tokenizer reads a text, a C string, and writes the stream.

Three loops of the tokenizer have no limit in the source: a string without a closing quote is read
past the end of the text, a word of more than eight letters is copied past the end of a buffer on
the stack, and the stream is written past the end of its buffer of 256 bytes. What happens then is
not defined, and the functions of this file give no result.

## Main definitions

* `Z80OS.Basic.Error` — the errors of the interpreter.
* `Z80OS.Basic.toNumeric`, `Z80OS.Basic.ofNumeric` — numbers of 16 bits, with a sign.
* `Z80OS.Basic.statementTokenizeString`, `Z80OS.Basic.statementTokenize` — the tokenizer.
-/

namespace Z80OS.Basic

/-! ## Kinds of tokens -/

/-- The end of a statement. -/
def tokTerminator : UInt8 := 0x00

/-- A string between quotes. -/
def tokString : UInt8 := 0x01

/-- A keyword. -/
def tokKeyword : UInt8 := 0x02

/-- A number. -/
def tokNumeric : UInt8 := 0x03

/-- An operator. -/
def tokOperator : UInt8 := 0x04

/-- A variable with a name. -/
def tokVariable : UInt8 := 0x05

/-- A separator. -/
def tokSeparator : UInt8 := 0x06

/-- Bytes that have been allocated to a variable. -/
def tokAlloc : UInt8 := 0x07

/-- A function. -/
def tokFunc : UInt8 := 0x08

/-- A remark. -/
def tokRemark : UInt8 := 0x09
/-- A variable of a single letter. -/
def tokRegister : UInt8 := 0x0a

/-- The size of a separator. -/
def sepSize : ℕ := 1

/-- The size of a number. -/
def numericSize : ℕ := 3

/-- The size of a keyword. -/
def kwSize : ℕ := 2

/-- The size of an operator. -/
def opSize : ℕ := 2

/-- The size of a function. -/
def funcSize : ℕ := 2

/-- The size of a register. -/
def registerSize : ℕ := 2

/-- The operator `-`. -/
def opMinus : UInt8 := 0x00

/-- The operator `+`. -/
def opPlus : UInt8 := 0x01

/-- The operator `=`. -/
def opEqual : UInt8 := 0x02

/-- The operator `(`. -/
def opLparen : UInt8 := 0x03

/-- The operator `)`. -/
def opRparen : UInt8 := 0x04

/-- The operator `<`. -/
def opLt : UInt8 := 0x05

/-- The operator `>`. -/
def opGt : UInt8 := 0x06

/-- The operator `<=`. -/
def opLteq : UInt8 := 0x07

/-- The operator `>=`. -/
def opGteq : UInt8 := 0x08

/-- The operator `*`. -/
def opMult : UInt8 := 0x09

/-- The function `RND`. -/
def funcRnd : UInt8 := 0x01

/-- The longest name of a variable. -/
def varnameSize : ℕ := 4

/-- The longest name of a function. -/
def funcnameSize : ℕ := 8

/-- The size of the buffer for a statement. -/
def statementSizeMax : ℕ := 256

/-- The ASCII codes of a text. -/
def ascii (text : List Char) : List UInt8 := text.map fun c => UInt8.ofNat c.toNat

/-- The keyword `PRINT`. -/
def keywordPrint : UInt8 := 1

/-- The keyword `LIST`. -/
def keywordList : UInt8 := 2

/-- The keyword `NEW`. -/
def keywordNew : UInt8 := 3

/-- The keyword `RUN`. -/
def keywordRun : UInt8 := 4

/-- The keyword `END`. -/
def keywordEnd : UInt8 := 5

/-- The keyword `GOTO`. -/
def keywordGoto : UInt8 := 6

/-- The keyword `FOR`. -/
def keywordFor : UInt8 := 7

/-- The keyword `TO`. -/
def keywordTo : UInt8 := 8

/-- The keyword `NEXT`. -/
def keywordNext : UInt8 := 9

/-- The keyword `GOSUB`. -/
def keywordGosub : UInt8 := 10

/-- The keyword `RETURN`. -/
def keywordReturn : UInt8 := 11

/-- The keyword `DIM`. -/
def keywordDim : UInt8 := 12

/-- The keyword `IF`. -/
def keywordIf : UInt8 := 13

/-- The keyword `THEN`. -/
def keywordThen : UInt8 := 14

/-- The keyword `JUMPTO`, for a `GOTO` whose line has been found. -/
def keywordJumpto : UInt8 := 15

/-- The keyword `JUMPSUB`, for a `GOSUB` whose line has been found. -/
def keywordJumpsub : UInt8 := 16

/-- The keywords and their codes. -/
def keywords : List (List UInt8 × UInt8) :=
  [(ascii ['P', 'R', 'I', 'N', 'T'], keywordPrint),
   (ascii ['L', 'I', 'S', 'T'], keywordList),
   (ascii ['N', 'E', 'W'], keywordNew),
   (ascii ['R', 'U', 'N'], keywordRun),
   (ascii ['E', 'N', 'D'], keywordEnd),
   (ascii ['G', 'O', 'T', 'O'], keywordGoto),
   (ascii ['F', 'O', 'R'], keywordFor),
   (ascii ['T', 'O'], keywordTo),
   (ascii ['N', 'E', 'X', 'T'], keywordNext),
   (ascii ['G', 'O', 'S', 'U', 'B'], keywordGosub),
   (ascii ['R', 'E', 'T', 'U', 'R', 'N'], keywordReturn),
   (ascii ['D', 'I', 'M'], keywordDim),
   (ascii ['I', 'F'], keywordIf),
   (ascii ['T', 'H', 'E', 'N'], keywordThen),
   (ascii ['J', 'U', 'M', 'P', 'T', 'O'], keywordJumpto),
   (ascii ['J', 'U', 'M', 'P', 'S', 'U', 'B'], keywordJumpsub)]

/-! ## Errors -/

/-- The errors of the interpreter. -/
inductive Error
  | noerror | syntaxError | undefinedKw | linenum | goto | notRunning | varname | undefinedVar
  | tooManyVars | retstackEmpty | range | undefinedArray | unknownFunc
  deriving DecidableEq, Repr

/-! ## Numbers -/

/-- The number that a word of 16 bits stands for. -/
def toNumeric (w : ℕ) : ℤ := if w < 32768 then w else w - 65536

/-- The word of 16 bits for a number. -/
def ofNumeric (n : ℤ) : ℕ := (n % 65536).toNat

/-! ## Characters -/

/-- An upper-case letter. -/
def isLetter (c : UInt8) : Bool := 0x41 ≤ c && c ≤ 0x5a

/-- A digit. -/
def isDigit (c : UInt8) : Bool := 0x30 ≤ c && c ≤ 0x39

/-- The letters at the start of a text. -/
def word (input : List UInt8) : List UInt8 := input.takeWhile isLetter

/-- A text with its terminator, and its size in a byte in front of it. -/
def sized (text : List UInt8) : List UInt8 := UInt8.ofNat (text.length + 1) :: text ++ [0]

/-! ## The tokenizer

A parser gives the bytes that it writes and the rest of the text, or nothing when the text does not
start with a token of its kind. -/

/-- What a parser writes, and the rest of the text. -/
abbrev Parsed : Type := Option (List UInt8 × List UInt8)

/-- Parses a remark, which goes to the end of the text. -/
def tRemParse : List UInt8 → Parsed
  | 0x52 :: 0x45 :: 0x4d :: text => some (tokRemark :: sized text, [])
  | _ => none

/-- Parses a separator. -/
def tSepParse : List UInt8 → Parsed
  | 0x2c :: input => some ([tokSeparator], input)
  | _ => none

/-- Parses a string. The outer `none` is a string that is not closed. -/
def tStringParse : List UInt8 → Option Parsed
  | 0x22 :: input =>
    let text := input.takeWhile (· ≠ 0x22)
    match input.dropWhile (· ≠ 0x22) with
    | [] => none
    | _ :: rest => some (some (tokString :: sized text, rest))
  | _ => some none

/-- Parses an operator. -/
def tOperatorParse : List UInt8 → Parsed
  | 0x2d :: input => some ([tokOperator, opMinus], input)
  | 0x2b :: input => some ([tokOperator, opPlus], input)
  | 0x2a :: input => some ([tokOperator, opMult], input)
  | 0x3d :: input => some ([tokOperator, opEqual], input)
  | 0x28 :: input => some ([tokOperator, opLparen], input)
  | 0x29 :: input => some ([tokOperator, opRparen], input)
  | 0x3c :: 0x3d :: input => some ([tokOperator, opLteq], input)
  | 0x3c :: input => some ([tokOperator, opLt], input)
  | 0x3e :: 0x3d :: input => some ([tokOperator, opGteq], input)
  | 0x3e :: input => some ([tokOperator, opGt], input)
  | _ => none

/-- The bytes of a numeric token. -/
def numericToken (n : ℤ) : List UInt8 := tokNumeric :: bytes16 (ofNumeric n)

/-- The number of a sequence of digits, in 16 bits. -/
def digitsValue (digits : List UInt8) : ℤ :=
  digits.foldl (fun val d => Int.bmod (Int.bmod (val * 10) 65536 + (d.toNat - 48)) 65536) 0

/-- Parses a number. A minus sign is an operator. -/
def tNumericParse (input : List UInt8) : Parsed :=
  match input.takeWhile isDigit with
  | [] => none
  | digits => some (numericToken (digitsValue digits), input.dropWhile isDigit)

/-- Parses a keyword. -/
def tKeywordParse (input : List UInt8) : Parsed :=
  match keywords.lookup (word input) with
  | none => none
  | some code => some ([tokKeyword, code], input.dropWhile isLetter)

/-- Parses the name of a function. -/
def tFuncParse (input : List UInt8) : Parsed :=
  if word input = ascii ['R', 'N', 'D'] then some ([tokFunc, funcRnd], input.dropWhile isLetter)
  else none

/-- Parses a variable. A single letter is a register; longer names are cut off. -/
def tVariableParse (input : List UInt8) : Parsed :=
  match word input with
  | [] => none
  | [c] => some ([tokRegister, c - 0x41], input.dropWhile isLetter)
  | name => some (tokVariable :: sized (name.take varnameSize), input.dropWhile isLetter)

/-- Parses one token. The outer `none` is what the source does not define. -/
def statementTokenizeString (input : List UInt8) : Option Parsed :=
  match tRemParse input with
  | some r => some (some r)
  | none =>
  match tSepParse input with
  | some r => some (some r)
  | none =>
  match tStringParse input with
  | none => none
  | some (some r) => some (some r)
  | some none =>
  match tOperatorParse input with
  | some r => some (some r)
  | none =>
  match tNumericParse input with
  | some r => some (some r)
  | none =>
  if (word input).length > funcnameSize then none
  else
    match tKeywordParse input with
    | some r => some (some r)
    | none =>
    match tFuncParse input with
    | some r => some (some r)
    | none => some (tVariableParse input)

/-- The loop of the tokenizer over the tokens after the first one, at most `k` of them. -/
def tokenizeLoop : ℕ → List UInt8 → List UInt8 → Option (Error × List UInt8)
  | 0, _, _ => none
  | k + 1, stmt, input =>
    match input.dropWhile (· = 0x20) with
    | [] => some (.noerror, stmt ++ [tokTerminator])
    | c :: rest =>
      match statementTokenizeString (c :: rest) with
      | none => none
      | some none => some (.syntaxError, stmt)
      | some (some (toks, input)) => tokenizeLoop k (stmt ++ toks) input

/-- Tokenizes a statement: an error, and the bytes that have been written. -/
def statementTokenize (input : List UInt8) : Option (Error × List UInt8) :=
  match statementTokenizeString input with
  | none => none
  | some none => some (.syntaxError, [])
  | some (some (toks, rest)) =>
    match tokenizeLoop (input.length + 1) toks rest with
    | none => none
    | some (e, stmt) => if stmt.length ≤ statementSizeMax then some (e, stmt) else none

/-- Where the loop of the tokenizer writes its tokens, from `dst` on, and where it writes the
terminator. -/
def tokenizeLoopStarts : ℕ → ℕ → List UInt8 → Option (List ℕ × ℕ)
  | 0, _, _ => none
  | k + 1, dst, input =>
    match input.dropWhile (· = 0x20) with
    | [] => some ([], dst)
    | c :: rest =>
      match statementTokenizeString (c :: rest) with
      | some (some (toks, input)) =>
        (tokenizeLoopStarts k (dst + toks.length) input).map fun w => (dst :: w.1, w.2)
      | _ => none

/-- Where in the buffer the tokenizer writes the tokens of a statement, and where it writes the
terminator. -/
def statementTokenizeStarts (input : List UInt8) : Option (List ℕ × ℕ) :=
  match statementTokenizeString input with
  | some (some (toks, rest)) =>
    (tokenizeLoopStarts (input.length + 1) toks.length rest).map fun w => (0 :: w.1, w.2)
  | _ => none

end Z80OS.Basic
