import Mathlib.Data.List.GetD
import Mathlib.Tactic.SplitIfs
import Z80OS.Basic.Relisting

set_option relaxedAutoImplicit false
set_option autoImplicit false

/-!
# The tokenizer with its arrays

The tokenizer goes through a line with a pointer and writes with another one. Here a line is what
the first pointer can still read, with the terminator of the line at the end, and every write is
checked against the array that it goes to. The two words that are copied to the stack are written to
arrays with limits of their own.

## Main definitions

* `Z80OS.Basic.Overrun` — an access that is not inside of its array.
* `Z80OS.Basic.Cursor` — the two pointers, and the buffer that is written.
* `Z80OS.Basic.Cursor.statementTokenize` — the tokenizer.

## Main results

* `Z80OS.Basic.Cursor.statementTokenize_ends` — the tokenizer stays inside of its arrays exactly
  when its result is defined, and gives this result.
-/

namespace Z80OS.Basic

/-- A read behind the terminator of the line, a write that is not inside of `kw_str`, `funcname` or
the buffer of the statement, and a loop that does not end. -/
inductive Overrun
  | input | kwStr | funcname | statement | endless
  deriving DecidableEq, Repr

/-- The size of `kw_str`. -/
def kwStrSize : ℕ := 11

/-- The size of `funcname`. -/
def funcnameBufSize : ℕ := funcnameSize + 1

/-- The code of the terminator of a line. -/
def nul : UInt8 := 0

/-- The pointers of the tokenizer: the buffer of the statement and where it is written next, and
what can still be read of the line, from the next character to its terminator. -/
structure Cursor where
  buf : Ram
  dst : ℕ
  input : List UInt8

namespace Cursor

/-! ## Accesses -/

/-- The character at the pointer into the line. -/
def charAt : List UInt8 → Except Overrun UInt8
  | [] => .error .input
  | c :: _ => .ok c

/-- Writes a byte into the buffer of the statement. -/
def put (buf : Ram) (i : ℕ) (b : UInt8) : Except Overrun Ram :=
  if i < statementSizeMax then .ok (buf.memcpy i [b]) else .error .statement

/-- Writes bytes one behind the other. -/
def emit (c : Cursor) : List UInt8 → Except Overrun Cursor
  | [] => .ok c
  | b :: bytes => do
    let buf ← put c.buf c.dst b
    emit { c with buf, dst := c.dst + 1 } bytes

/-! ## The parsers

A parser gives the pointers behind the token that it has read, or nothing when there is no token of
its kind. -/

/-- The characters of a remark, which are written with their number at `size`. -/
def remLoop (size : ℕ) (buf : Ram) (dst : ℕ) : List UInt8 → Except Overrun Cursor
  | [] => .error .input
  | c :: input =>
    if c = nul then .ok ⟨buf, dst, c :: input⟩
    else do
      let buf ← put buf dst c
      let buf ← put buf size (buf size + 1)
      remLoop size buf (dst + 1) input

/-- Reads a remark. -/
def tRemParse (c : Cursor) : Except Overrun (Option Cursor) := do
  if (← charAt c.input) ≠ 0x52 then return none
  else if (← charAt (c.input.drop 1)) ≠ 0x45 then return none
  else if (← charAt (c.input.drop 2)) ≠ 0x4d then return none
  else
    let buf ← put c.buf c.dst tokRemark
    let size := c.dst + 1
    let buf ← put buf size 0
    let c ← remLoop size buf (c.dst + 2) (c.input.drop 3)
    let buf ← put c.buf c.dst 0
    let buf ← put buf size (buf size + 1)
    return some { c with buf, dst := c.dst + 1 }

/-- Reads a separator. -/
def tSepParse (c : Cursor) : Except Overrun (Option Cursor) := do
  if (← charAt c.input) ≠ 0x2c then return none
  else some <$> emit { c with input := c.input.drop 1 } [tokSeparator]

/-- The characters of a string up to its closing quote. The size is a byte. -/
def stringLoop (strSize : UInt8) (buf : Ram) (dst : ℕ) :
    List UInt8 → Except Overrun (Cursor × UInt8)
  | [] => .error .input
  | c :: input =>
    if c = 0x22 then .ok (⟨buf, dst, c :: input⟩, strSize)
    else do
      let buf ← put buf dst c
      stringLoop (strSize + 1) buf (dst + 1) input

/-- Reads a string between quotes. -/
def tStringParse (c : Cursor) : Except Overrun (Option Cursor) := do
  if (← charAt c.input) ≠ 0x22 then return none
  else
    let buf ← put c.buf c.dst tokString
    let size := c.dst + 1
    let str ← stringLoop 0 buf (c.dst + 2) (c.input.drop 1)
    let buf ← put str.1.buf str.1.dst 0
    let buf ← put buf size (str.2 + 1)
    return some ⟨buf, str.1.dst + 1, str.1.input.drop 1⟩

/-- The operator for a character that is always one by itself. -/
def simpleOperator (c : UInt8) : Option UInt8 :=
  if c = 0x2d then some opMinus
  else if c = 0x2b then some opPlus
  else if c = 0x2a then some opMult
  else if c = 0x3d then some opEqual
  else if c = 0x28 then some opLparen
  else if c = 0x29 then some opRparen
  else none

/-- Reads an operator. -/
def tOperatorParse (c : Cursor) : Except Overrun (Option Cursor) := do
  let char ← charAt c.input
  let input := c.input.drop 1
  match simpleOperator char with
  | some op => some <$> emit { c with input } [tokOperator, op]
  | none =>
    if char = 0x3c then
      if (← charAt input) = 0x3d then
        some <$> emit { c with input := input.drop 1 } [tokOperator, opLteq]
      else some <$> emit { c with input } [tokOperator, opLt]
    else if char = 0x3e then
      if (← charAt input) = 0x3d then
        some <$> emit { c with input := input.drop 1 } [tokOperator, opGteq]
      else some <$> emit { c with input } [tokOperator, opGt]
    else return none

/-- The digits of a number, behind digits with the value `val`. -/
def digitLoop (val : ℤ) : List UInt8 → Except Overrun (ℤ × List UInt8)
  | [] => .error .input
  | c :: input =>
    if isDigit c then
      digitLoop (Int.bmod (Int.bmod (val * 10) 65536 + (c.toNat - 48)) 65536) input
    else .ok (val, c :: input)

/-- Reads a number. -/
def tNumericParse (c : Cursor) : Except Overrun (Option Cursor) := do
  let char ← charAt c.input
  if char ≠ 0x2d ∧ ¬ isDigit char then return none
  else if ¬ isDigit char then return none
  else
    let c ← emit { c with input := c.input.drop 1 } [tokNumeric]
    let num ← digitLoop (char.toNat - 48) c.input
    some <$> emit { c with input := num.2 } (bytes16 (ofNumeric num.1))

/-- Copies the letters of a word to `kw_str`, behind the letters that are there. -/
def kwLoop (kwStr : List UInt8) : List UInt8 → Except Overrun (List UInt8 × List UInt8)
  | [] => .error .input
  | c :: input =>
    if isLetter c then
      if kwStr.length < kwStrSize then kwLoop (kwStr ++ [c]) input else .error .kwStr
    else if kwStr.length < kwStrSize then .ok (kwStr, c :: input)
    else .error .kwStr

/-- Reads a keyword. -/
def tKeywordParse (c : Cursor) : Except Overrun (Option Cursor) := do
  let kw ← kwLoop [] c.input
  match keywords.lookup kw.1 with
  | some code => some <$> emit { c with input := kw.2 } [tokKeyword, code]
  | none => return none

/-- The pointer behind the letters of a word. -/
def wordEnd : List UInt8 → Except Overrun (List UInt8)
  | [] => .error .input
  | c :: input =>
    if c ≠ 0x20 ∧ c ≠ nul ∧ isLetter c then wordEnd input else .ok (c :: input)

/-- Reads a function. -/
def tFuncParse (c : Cursor) : Except Overrun (Option Cursor) := do
  let p ← wordEnd c.input
  let size := c.input.length - p.length
  -- the letters are copied, and the terminator is written behind them
  if size < funcnameBufSize then
    if c.input.take size = ascii ['R', 'N', 'D'] then
      some <$> emit { c with input := p } [tokFunc, funcRnd]
    else return none
  else .error .funcname

/-- The letters of a name. Those behind the fourth are left out. -/
def nameLoop (size : ℕ) (buf : Ram) (dst : ℕ) : List UInt8 → Except Overrun (Cursor × ℕ)
  | [] => .error .input
  | c :: input =>
    if isLetter c then
      if size < varnameSize then do
        let buf ← put buf dst c
        nameLoop (size + 1) buf (dst + 1) input
      else nameLoop size buf dst input
    else .ok (⟨buf, dst, c :: input⟩, size)

/-- The text begins with one letter behind which there is no other one. -/
def singleLetter (input : List UInt8) : Except Overrun Bool := do
  if isLetter (← charAt input) then return ! isLetter (← charAt (input.drop 1)) else return false

/-- Reads a variable. -/
def tVariableParse (c : Cursor) : Except Overrun (Option Cursor) := do
  let char ← charAt c.input
  if (← singleLetter c.input) then
    some <$> emit { c with input := c.input.drop 1 } [tokRegister, char - 0x41]
  else
    let name ← nameLoop 0 c.buf (c.dst + 2) c.input
    if name.2 = 0 then return none
    else
      let buf ← put name.1.buf name.1.dst 0
      let buf ← put buf c.dst tokVariable
      let buf ← put buf (c.dst + 1) (UInt8.ofNat (name.2 + 1))
      return some ⟨buf, name.1.dst + 1, name.1.input⟩

/-- The first of the parsers that finds a token of its kind. -/
def firstOf : List (Cursor → Except Overrun (Option Cursor)) → Cursor →
    Except Overrun (Option Cursor)
  | [], _ => .ok none
  | parse :: others, c => do
    match ← parse c with
    | some c => return some c
    | none => firstOf others c

/-- Parses one token, if there is one. -/
def statementTokenizeString : Cursor → Except Overrun (Option Cursor) :=
  firstOf [tRemParse, tSepParse, tStringParse, tOperatorParse, tNumericParse, tKeywordParse,
    tFuncParse, tVariableParse]

/-- The pointer behind blanks. -/
def skipBlanks : List UInt8 → Except Overrun (List UInt8)
  | [] => .error .input
  | c :: input => if c = 0x20 then skipBlanks input else .ok (c :: input)

/-- The loop of the tokenizer over the tokens after the first one, at most `k` of them. -/
def tokenizeLoop : ℕ → Cursor → Except Overrun (Error × Cursor)
  | 0, _ => .error .endless
  | k + 1, c => do
    let input ← skipBlanks c.input
    if (← charAt input) = nul then
      let buf ← put c.buf c.dst tokTerminator
      return (.noerror, { c with buf, input })
    else
      match ← statementTokenizeString { c with input } with
      | none => return (.syntaxError, { c with input })
      | some c => tokenizeLoop k c

/-- Tokenizes a statement in a line, into a buffer. -/
def statementTokenize (buf : Ram) (line : List UInt8) : Except Overrun (Error × Cursor) := do
  match ← statementTokenizeString ⟨buf, 0, line ++ [nul]⟩ with
  | none => return (.syntaxError, ⟨buf, 0, line ++ [nul]⟩)
  | some c => tokenizeLoop (line.length + 1) c

/-! ## Results -/

/-- The result is an access that is not inside of its array. -/
def Overruns {α : Type} (r : Except Overrun α) : Prop := ∃ o, r = .error o ∧ o ≠ .endless

section Results

variable {α β : Type} {buf : Ram} {dst : ℕ}

/-- What follows a result goes on with it. -/
theorem ok_bind (a : α) (f : α → Except Overrun β) : (Except.ok a >>= f) = f a := rfl

/-- Nothing follows an access outside of an array. -/
theorem Overruns.bind {r : Except Overrun α} (h : Overruns r) (f : α → Except Overrun β) :
    Overruns (r >>= f) := by
  obtain ⟨o, rfl, ho⟩ := h
  exact ⟨o, rfl, ho⟩

/-- Nothing is done with the result of an access outside of an array. -/
theorem Overruns.map {r : Except Overrun α} (h : Overruns r) (f : α → β) : Overruns (f <$> r) := by
  obtain ⟨o, rfl, ho⟩ := h
  exact ⟨o, rfl, ho⟩

/-- A byte is put into the buffer where there is room. -/
theorem put_of_lt (h : dst < statementSizeMax) (b : UInt8) :
    put buf dst b = .ok (buf.memcpy dst [b]) := if_pos h

/-- A byte is not put behind the end of the buffer. -/
theorem put_overruns (h : statementSizeMax ≤ dst) (b : UInt8) : Overruns (put buf dst b) :=
  ⟨.statement, if_neg (by omega), by decide⟩

/-- What is behind a write that fits overruns, or the write does. -/
theorem put_bind_overruns {b : UInt8} {f : Ram → Except Overrun β}
    (h : dst < statementSizeMax → Overruns (f (buf.memcpy dst [b]))) :
    Overruns (put buf dst b >>= f) := by
  by_cases hdst : dst < statementSizeMax
  · rw [put_of_lt hdst, ok_bind]
    exact h hdst
  · exact (put_overruns (not_lt.1 hdst) b).bind _

/-- What follows from the pure parser for the one with pointers: when nothing is parsed then nothing
is written; when a token is parsed then it is written, if it fits; and what is not defined for the
one is outside of the arrays for the other. -/
inductive Follows (buf : Ram) (dst : ℕ) : Option Parsed → Except Overrun (Option Cursor) → Prop
  | refused : Follows buf dst (some none) (.ok none)
  | parsed {toks rest : List UInt8} (h : dst + toks.length ≤ statementSizeMax) :
    Follows buf dst (some (some (toks, rest)))
      (.ok (some ⟨buf.memcpy dst toks, dst + toks.length, rest ++ [nul]⟩))
  | overrun {toks rest : List UInt8} {r : Except Overrun (Option Cursor)}
    (h : statementSizeMax < dst + toks.length) (hr : Overruns r) :
    Follows buf dst (some (some (toks, rest))) r
  | undefined {r : Except Overrun (Option Cursor)} (hr : Overruns r) : Follows buf dst none r

/-! ## Copies -/

/-- Two copies one after the other are one. -/
theorem memcpy_append (buf : Ram) (a : ℕ) (l l' : List UInt8) :
    (buf.memcpy a l).memcpy (a + l.length) l' = buf.memcpy a (l ++ l') := by
  funext i
  simp only [Ram.memcpy, List.length_append]
  by_cases hl' : a + l.length ≤ i ∧ i < a + l.length + l'.length
  · rw [if_pos hl', if_pos (by omega), List.getD_append_right _ _ _ _ (by omega)]
    congr 1
    omega
  · rw [if_neg hl']
    by_cases hl : a ≤ i ∧ i < a + l.length
    · rw [if_pos hl, if_pos (by omega), List.getD_append _ _ _ _ (by omega)]
    · rw [if_neg hl, if_neg (by omega)]

/-- Two copies in the other order are one, too. -/
theorem memcpy_before (buf : Ram) (a : ℕ) (l l' : List UInt8) :
    (buf.memcpy (a + l.length) l').memcpy a l = buf.memcpy a (l ++ l') := by
  rw [← memcpy_append]
  funext i
  simp only [Ram.memcpy]
  split_ifs <;> first | rfl | omega

/-- The first byte of a copy is overwritten. -/
theorem memcpy_head (buf : Ram) (a : ℕ) (b b' : UInt8) (l : List UInt8) :
    (buf.memcpy a (b :: l)).memcpy a [b'] = buf.memcpy a (b' :: l) := by
  funext i
  simp only [Ram.memcpy, List.length_cons, List.length_nil]
  by_cases hi : i = a
  · subst hi
    simp
  · rw [if_neg (show ¬ (a ≤ i ∧ i < a + (0 + 1)) by omega)]
    obtain hlt | ⟨j, rfl⟩ : i < a ∨ ∃ j, i = a + (j + 1) := by
      by_cases hlt : i < a
      · exact .inl hlt
      · exact .inr ⟨i - a - 1, by omega⟩
    · rw [if_neg (by omega), if_neg (by omega)]
    · rw [Nat.add_sub_cancel_left, List.getD_cons_succ, List.getD_cons_succ]

/-- A copy of no bytes changes nothing. -/
theorem memcpy_nil (buf : Ram) (a : ℕ) : buf.memcpy a [] = buf := by
  funext i
  simp only [Ram.memcpy, List.length_nil]
  rw [if_neg (by omega)]

/-- Bytes are put into the buffer where there is room for them. -/
theorem emit_eq {bytes input : List UInt8} (h : dst + bytes.length ≤ statementSizeMax) :
    emit ⟨buf, dst, input⟩ bytes = .ok ⟨buf.memcpy dst bytes, dst + bytes.length, input⟩ := by
  induction bytes generalizing buf dst with
  | nil => rw [emit, memcpy_nil]; rfl
  | cons b bytes ih =>
    simp only [List.length_cons] at h
    have hdst : dst < statementSizeMax := by omega
    rw [emit, put_of_lt hdst, ok_bind,
      ih (show dst + 1 + bytes.length ≤ statementSizeMax by omega)]
    have hcopy := memcpy_append buf dst [b] bytes
    rw [List.length_singleton, List.singleton_append] at hcopy
    rw [hcopy, List.length_cons, Nat.add_assoc, Nat.add_comm 1]

/-- Bytes without room are put behind the end of the buffer. -/
theorem emit_overruns {bytes input : List UInt8} (h : statementSizeMax < dst + bytes.length)
    (hne : bytes ≠ []) : Overruns (emit ⟨buf, dst, input⟩ bytes) := by
  induction bytes generalizing buf dst with
  | nil => exact absurd rfl hne
  | cons b bytes ih =>
    simp only [List.length_cons] at h
    rw [emit]
    refine put_bind_overruns fun hdst => ?_
    simp only at hdst
    refine ih (show statementSizeMax < dst + 1 + bytes.length by omega) ?_
    rintro rfl
    simp only [List.length_nil] at h
    omega

/-- A token is read when its bytes are put into the buffer. -/
theorem follows_emit {bytes rest : List UInt8} (hne : bytes ≠ []) :
    Follows buf dst (some (some (bytes, rest)))
      (some <$> emit ⟨buf, dst, rest ++ [nul]⟩ bytes) := by
  by_cases h : dst + bytes.length ≤ statementSizeMax
  · rw [emit_eq h]
    exact .parsed h
  · exact .overrun (by omega) ((emit_overruns (by omega) hne).map _)

/-! ## The parsers -/

section Parsers

variable {text : List UInt8}

/-- A parser that finds its token is the first of the list that does. -/
theorem Follows.found {parse : Cursor → Except Overrun (Option Cursor)}
    {others : List (Cursor → Except Overrun (Option Cursor))} {c : Cursor}
    {p : List UInt8 × List UInt8} (h : Follows buf dst (some (some p)) (parse c)) :
    Follows buf dst (some (some p)) (firstOf (parse :: others) c) := by
  rw [firstOf]
  generalize parse c = r at h
  cases h with
  | parsed hfits => exact .parsed hfits
  | overrun hlong hr => exact .overrun hlong (hr.bind _)

/-- A parser that does not find its token leaves the text to the others. -/
theorem Follows.skip {parse : Cursor → Except Overrun (Option Cursor)}
    {others : List (Cursor → Except Overrun (Option Cursor))} {c : Cursor}
    (h : Follows buf dst (some none) (parse c)) :
    firstOf (parse :: others) c = firstOf others c := by
  rw [firstOf]
  generalize parse c = r at h
  cases h with
  | refused => rfl

/-- A lexeme that goes on behind the end of the text is not read by other functions. -/
theorem Follows.undefined_found {parse : Cursor → Except Overrun (Option Cursor)}
    {others : List (Cursor → Except Overrun (Option Cursor))} {c : Cursor}
    (h : Follows buf dst none (parse c)) : Follows buf dst none (firstOf (parse :: others) c) := by
  rw [firstOf]
  generalize parse c = r at h
  cases h with
  | undefined hr => exact .undefined (hr.bind _)

/-- The character at the start of a text, or the zero behind it. -/
theorem charAt_append (text : List UInt8) :
    charAt (text ++ [nul]) = .ok (text.head?.getD nul) := by
  cases text <;> rfl

/-- A separator is read as the list says. -/
theorem tSepParse_follows (buf : Ram) (dst : ℕ) (h0 : 0 ∉ text) :
    Follows buf dst (some (Basic.tSepParse text)) (tSepParse ⟨buf, dst, text ++ [nul]⟩) := by
  cases text with
  | nil => exact .refused
  | cons b text =>
    by_cases hb : b = 0x2c
    · subst hb
      exact follows_emit (by simp)
    · have hnone : Basic.tSepParse (b :: text) = none := by simp [Basic.tSepParse, hb]
      rw [hnone, tSepParse, charAt_append]
      simp only [ok_bind, List.head?_cons, Option.getD_some, ne_eq, hb, not_false_eq_true, if_true]
      exact .refused

/-- The copy of a string up to its closing quote. -/
theorem stringLoop_eq {chars rest : List UInt8} (hq : 0x22 ∉ chars) (n : UInt8)
    (h : dst + chars.length ≤ statementSizeMax ∨ chars = []) :
    stringLoop n buf dst (chars ++ 0x22 :: rest) =
      .ok (⟨buf.memcpy dst chars, dst + chars.length, 0x22 :: rest⟩,
        n + UInt8.ofNat chars.length) := by
  induction chars generalizing buf dst n with
  | nil => simp [stringLoop, memcpy_nil]
  | cons b chars ih =>
    have hlen : dst + (chars.length + 1) ≤ statementSizeMax := by simpa using h
    have hb : b ≠ 0x22 := by
      rintro rfl
      exact hq List.mem_cons_self
    have hcopy := memcpy_append buf dst [b] chars
    rw [List.length_singleton, List.singleton_append] at hcopy
    rw [List.cons_append, stringLoop, if_neg hb, put_of_lt (by omega), ok_bind,
      ih (fun hm => hq (List.mem_cons_of_mem _ hm)) _ (.inl (by omega)), hcopy, List.length_cons,
      Nat.add_assoc, Nat.add_comm 1, UInt8.ofNat_add, UInt8.add_assoc, UInt8.add_comm 1]
    rfl

/-- The loop over a string overruns the buffer when the string does not fit. -/
theorem stringLoop_overruns {chars rest : List UInt8} (hq : 0x22 ∉ chars) (n : UInt8)
    (h : statementSizeMax < dst + chars.length) (hne : chars ≠ []) :
    Overruns (stringLoop n buf dst (chars ++ rest)) := by
  induction chars generalizing buf dst n with
  | nil => exact absurd rfl hne
  | cons b chars ih =>
    have hb : b ≠ 0x22 := by
      rintro rfl
      exact hq List.mem_cons_self
    rw [List.length_cons] at h
    rw [List.cons_append, stringLoop, if_neg hb]
    refine put_bind_overruns fun hdst => ?_
    refine ih (fun hm => hq (List.mem_cons_of_mem _ hm)) _ (by omega) ?_
    rintro rfl
    simp only [List.length_nil] at h
    omega

/-- A string that is not closed is read to the terminator of the line and on. -/
theorem stringLoop_unclosed {chars : List UInt8} (hq : 0x22 ∉ chars) (n : UInt8) :
    Overruns (stringLoop n buf dst chars) := by
  induction chars generalizing buf dst n with
  | nil => exact ⟨.input, rfl, by decide⟩
  | cons b chars ih =>
    have hb : b ≠ 0x22 := by
      rintro rfl
      exact hq List.mem_cons_self
    rw [stringLoop, if_neg hb]
    exact put_bind_overruns fun _ => ih (fun hm => hq (List.mem_cons_of_mem _ hm)) _

/-- A string without a quote behind it has no end. -/
theorem tStringParse_unclosed {chars : List UInt8} (hq : 0x22 ∉ chars) :
    Basic.tStringParse (0x22 :: chars) = none := by
  have hdrop : chars.dropWhile (· ≠ 0x22) = [] := by
    rw [List.dropWhile_eq_nil_iff]
    intro b hb
    rw [decide_eq_true_eq]
    rintro rfl
    exact hq hb
  simp only [Basic.tStringParse]
  rw [hdrop]

/-- The bytes of a text with its size, which is written last. -/
theorem memcpy_sized (buf : Ram) (dst : ℕ) (kind : UInt8) (chars : List UInt8) :
    ((((buf.memcpy dst [kind]).memcpy (dst + 2) chars).memcpy (dst + 2 + chars.length) [0]).memcpy
      (dst + 1) [UInt8.ofNat (chars.length + 1)]) = buf.memcpy dst (kind :: sized chars) := by
  rw [memcpy_append]
  have hsize := memcpy_before (buf.memcpy dst [kind]) (dst + 1) [UInt8.ofNat (chars.length + 1)]
    (chars ++ [0])
  have hkind := memcpy_append buf dst [kind]
    (UInt8.ofNat (chars.length + 1) :: (chars ++ [0]))
  rw [List.length_singleton] at hsize hkind
  exact hsize.trans hkind

/-- The string parser.

**Proof sketch.** A string that is closed is copied as a whole when it fits. When it does not, a
write of its loop or the one of the terminator fails. -/
theorem tStringParse_follows (buf : Ram) (dst : ℕ) (text : List UInt8) :
    Follows buf dst (Basic.tStringParse text) (tStringParse ⟨buf, dst, text ++ [nul]⟩) := by
  by_cases hhead : text.head? = some 0x22
  · obtain ⟨text, rfl⟩ : ∃ l, text = 0x22 :: l := by
      cases text with
      | nil => exact absurd hhead (by simp)
      | cons b l => exact ⟨l, by rw [Option.some.inj hhead]⟩
    have hrun : tStringParse ⟨buf, dst, 0x22 :: text ++ [nul]⟩ = (do
        let buf ← put buf dst tokString
        let str ← stringLoop 0 buf (dst + 2) (text ++ [nul])
        let buf ← put str.1.buf str.1.dst 0
        let buf ← put buf (dst + 1) (str.2 + 1)
        return some ⟨buf, str.1.dst + 1, str.1.input.drop 1⟩) := rfl
    rw [hrun]
    by_cases hq : 0x22 ∈ text
    · obtain ⟨chars, rest, rfl, hnot⟩ := List.eq_append_cons_of_mem hq
      rw [show Basic.tStringParse (0x22 :: (chars ++ 0x22 :: rest)) =
        some (some (tokString :: sized chars, rest)) from tStringParse_eq hnot]
      have hlen : (tokString :: sized chars).length = chars.length + 3 := by simp [sized]
      by_cases hfits : dst + (chars.length + 3) ≤ statementSizeMax
      · rw [put_of_lt (by omega), ok_bind, List.append_assoc, List.cons_append,
          stringLoop_eq hnot _ (.inl (by omega)), ok_bind]
        simp only
        rw [put_of_lt (by omega), ok_bind, put_of_lt (by omega), ok_bind, UInt8.zero_add]
        have hsize : UInt8.ofNat chars.length + 1 = UInt8.ofNat (chars.length + 1) := by
          rw [UInt8.ofNat_add]
          rfl
        rw [hsize, memcpy_sized]
        have hdst : dst + 2 + chars.length + 1 = dst + (tokString :: sized chars).length := by
          omega
        rw [hdst]
        exact .parsed (by omega)
      · refine .overrun (by omega) (put_bind_overruns fun hdst => ?_)
        rw [List.append_assoc, List.cons_append]
        by_cases hloop : dst + 2 + chars.length ≤ statementSizeMax ∨ chars = []
        · rw [stringLoop_eq hnot _ hloop, ok_bind]
          exact (put_overruns (by simp only; omega) 0).bind _
        · rw [not_or, not_le] at hloop
          exact (stringLoop_overruns hnot _ hloop.1 hloop.2).bind _
    · rw [tStringParse_unclosed hq]
      have hq' : 0x22 ∉ text ++ [nul] := by simp [hq, nul]
      exact .undefined (put_bind_overruns fun _ => (stringLoop_unclosed hq' _).bind _)
  · have hnone : Basic.tStringParse text = some none := by
      cases text with
      | nil => rfl
      | cons b l =>
        have hb : b ≠ 0x22 := by simpa using hhead
        simp [Basic.tStringParse, hb]
    have hc : text.head?.getD nul ≠ 0x22 := by
      cases text with
      | nil => decide
      | cons b l => simpa using hhead
    rw [hnone, tStringParse, charAt_append, ok_bind, if_pos hc]
    exact .refused

/-! ### Remarks -/

/-- The copy of a remark, behind what has been copied of it.

**Proof sketch.** By induction on the text that is left. A character is written behind the others
and the length in front of them goes up by one, so that the bytes are those of the longer remark. -/
theorem remLoop_eq {a : ℕ} (ha : a < statementSizeMax) {chars : List UInt8} (h0 : 0 ∉ chars)
    (before : List UInt8)
    (h : a + 1 + before.length + chars.length ≤ statementSizeMax ∨ chars = []) :
    remLoop a (buf.memcpy a (UInt8.ofNat before.length :: before)) (a + 1 + before.length)
        (chars ++ [nul]) =
      .ok ⟨buf.memcpy a (UInt8.ofNat (before ++ chars).length :: (before ++ chars)),
        a + 1 + (before ++ chars).length, [nul]⟩ := by
  induction chars generalizing before with
  | nil => simp [remLoop]
  | cons b chars ih =>
    have hlen : a + 1 + before.length + (chars.length + 1) ≤ statementSizeMax := by simpa using h
    have hb : b ≠ nul := by
      rintro rfl
      exact h0 List.mem_cons_self
    have hcopy := memcpy_append buf a (UInt8.ofNat before.length :: before) [b]
    rw [List.length_cons, show a + (before.length + 1) = a + 1 + before.length by omega,
      List.cons_append] at hcopy
    have hsize : buf.memcpy a (UInt8.ofNat before.length :: (before ++ [b])) a + 1 =
        UInt8.ofNat (before ++ [b]).length := by
      have hat : buf.memcpy a (UInt8.ofNat before.length :: (before ++ [b])) a =
          UInt8.ofNat before.length :=
        (Ram.holds_memcpy buf a (UInt8.ofNat before.length :: (before ++ [b]))).1
      rw [hat, List.length_append, List.length_singleton, UInt8.ofNat_add]
      rfl
    have hih := ih (fun hm => h0 (List.mem_cons_of_mem _ hm)) (before ++ [b])
      (.inl (by simp only [List.length_append, List.length_singleton]; omega))
    rw [List.append_assoc, List.singleton_append] at hih
    rw [List.cons_append, remLoop, if_neg hb, put_of_lt (by omega), ok_bind, hcopy, put_of_lt ha,
      ok_bind, hsize, memcpy_head]
    rw [← hih, List.length_append, List.length_singleton, Nat.add_assoc _ before.length]

/-- The loop over a remark overruns the buffer when the remark does not fit. -/
theorem remLoop_overruns {a : ℕ} {chars rest : List UInt8} (h0 : 0 ∉ chars)
    (h : statementSizeMax < dst + chars.length) (hne : chars ≠ []) :
    Overruns (remLoop a buf dst (chars ++ rest)) := by
  induction chars generalizing buf dst with
  | nil => exact absurd rfl hne
  | cons b chars ih =>
    have hb : b ≠ nul := by
      rintro rfl
      exact h0 List.mem_cons_self
    rw [List.length_cons] at h
    rw [List.cons_append, remLoop, if_neg hb]
    refine put_bind_overruns fun hdst => put_bind_overruns fun _ => ?_
    refine ih (fun hm => h0 (List.mem_cons_of_mem _ hm)) (by omega) ?_
    rintro rfl
    simp only [List.length_nil] at h
    omega

/-- The parser of remarks, whose loop ends at the terminator of the line.

**Proof sketch.** A remark is the mark, the size and the characters up to the end of the line. The
loop counts the size up in memory and stops at the terminator (`remLoop_eq`), or passes the end of
the buffer where the remark does not fit (`remLoop_overruns`). -/
theorem tRemParse_follows (buf : Ram) (dst : ℕ) (h0 : 0 ∉ text) :
    Follows buf dst (some (Basic.tRemParse text)) (tRemParse ⟨buf, dst, text ++ [nul]⟩) := by
  by_cases hrem : ∃ chars, text = 0x52 :: 0x45 :: 0x4d :: chars
  · obtain ⟨chars, rfl⟩ := hrem
    have hchars : 0 ∉ chars := fun hm => h0 (by simp [hm])
    have hrun : tRemParse ⟨buf, dst, 0x52 :: 0x45 :: 0x4d :: chars ++ [nul]⟩ = (do
        let buf ← put buf dst tokRemark
        let buf ← put buf (dst + 1) 0
        let c ← remLoop (dst + 1) buf (dst + 2) (chars ++ [nul])
        let buf ← put c.buf c.dst 0
        let buf ← put buf (dst + 1) (buf (dst + 1) + 1)
        return some { c with buf, dst := c.dst + 1 }) := rfl
    rw [hrun, show Basic.tRemParse (0x52 :: 0x45 :: 0x4d :: chars) =
      some (tokRemark :: sized chars, []) from rfl]
    have hlen : (tokRemark :: sized chars).length = chars.length + 3 := by simp [sized]
    by_cases hdst : dst + 1 < statementSizeMax
    · rw [put_of_lt (by omega), ok_bind, put_of_lt hdst, ok_bind]
      by_cases hloop : dst + 1 + 1 + 0 + chars.length ≤ statementSizeMax ∨ chars = []
      · have hend := @remLoop_eq (buf.memcpy dst [tokRemark]) _ hdst _ hchars [] hloop
        rw [show UInt8.ofNat ([] : List UInt8).length = 0 from rfl, List.length_nil,
          List.nil_append] at hend
        rw [show dst + 2 = dst + 1 + 1 + 0 from rfl, hend, ok_bind]
        simp only
        by_cases hfits : dst + (chars.length + 3) ≤ statementSizeMax
        · rw [put_of_lt (by omega), ok_bind, put_of_lt hdst, ok_bind]
          have hcopy := memcpy_append (buf.memcpy dst [tokRemark]) (dst + 1)
            (UInt8.ofNat chars.length :: chars) [0]
          rw [List.length_cons, show dst + 1 + (chars.length + 1) = dst + 1 + 1 + chars.length by
            omega, List.cons_append] at hcopy
          have hat : (buf.memcpy dst [tokRemark]).memcpy (dst + 1)
              (UInt8.ofNat chars.length :: (chars ++ [0])) (dst + 1) = UInt8.ofNat chars.length :=
            (Ram.holds_memcpy _ (dst + 1) (UInt8.ofNat chars.length :: (chars ++ [0]))).1
          have hsize : UInt8.ofNat chars.length + 1 = UInt8.ofNat (chars.length + 1) := by
            rw [UInt8.ofNat_add]
            rfl
          have hkind := memcpy_append buf dst [tokRemark]
            (UInt8.ofNat (chars.length + 1) :: (chars ++ [0]))
          rw [List.length_singleton] at hkind
          rw [hcopy, hat, memcpy_head, hsize, hkind]
          have hdst' :
              dst + 1 + 1 + chars.length + 1 = dst + (tokRemark :: sized chars).length := by
            omega
          rw [hdst']
          exact .parsed (by omega)
        · exact .overrun (by omega) ((put_overruns (by omega) 0).bind _)
      · rw [not_or, not_le] at hloop
        exact .overrun (by omega) ((remLoop_overruns hchars (by omega) hloop.2).bind _)
    · exact .overrun (by omega)
        (put_bind_overruns fun _ => (put_overruns (not_lt.1 hdst) _).bind _)
  · have hnone : Basic.tRemParse text = none := by
      unfold Basic.tRemParse
      split
      · exact absurd ⟨_, rfl⟩ hrem
      · rfl
    suffices h : tRemParse ⟨buf, dst, text ++ [nul]⟩ = .ok none by
      rw [hnone, h]
      exact .refused
    rw [tRemParse]
    rcases text with - | ⟨b, text⟩
    · rfl
    · by_cases hb : b = 0x52
      · subst hb
        rcases text with - | ⟨b, text⟩
        · rfl
        · by_cases hb : b = 0x45
          · subst hb
            rcases text with - | ⟨b, text⟩
            · rfl
            · have hb : b ≠ 0x4d := by
                rintro rfl
                exact hrem ⟨_, rfl⟩
              simp [charAt, ok_bind, hb, pure, Except.pure]
          · simp [charAt, ok_bind, hb, pure, Except.pure]
      · simp [charAt, ok_bind, hb, pure, Except.pure]

/-! ### Operators and numbers -/

/-- An operator is read as the list says.

**Proof sketch.** By cases on the first character, and for `<` and `>` on the second one, which may
be the terminator of the line. -/
theorem tOperatorParse_follows (buf : Ram) (dst : ℕ) (text : List UInt8) :
    Follows buf dst (some (Basic.tOperatorParse text))
      (tOperatorParse ⟨buf, dst, text ++ [nul]⟩) := by
  rcases text with - | ⟨b, text⟩
  · exact .refused
  by_cases hsimple : b = 0x2d ∨ b = 0x2b ∨ b = 0x2a ∨ b = 0x3d ∨ b = 0x28 ∨ b = 0x29
  · rcases hsimple with rfl | rfl | rfl | rfl | rfl | rfl <;> exact follows_emit (by simp)
  rw [not_or, not_or, not_or, not_or, not_or] at hsimple
  obtain ⟨h1, h2, h3, h4, h5, h6⟩ := hsimple
  by_cases hlt : b = 0x3c
  · subst hlt
    rcases text with - | ⟨d, text⟩
    · exact @follows_emit _ _ _ [] (by simp)
    by_cases hd : d = 0x3d
    · subst hd
      exact follows_emit (by simp)
    · have hpure : Basic.tOperatorParse (0x3c :: d :: text) =
          some ([tokOperator, opLt], d :: text) := by simp [Basic.tOperatorParse, hd]
      have hrun : tOperatorParse ⟨buf, dst, 0x3c :: d :: text ++ [nul]⟩ =
          some <$> emit ⟨buf, dst, d :: text ++ [nul]⟩ [tokOperator, opLt] := if_neg hd
      rw [hpure, hrun]
      exact follows_emit (by simp)
  by_cases hgt : b = 0x3e
  · subst hgt
    rcases text with - | ⟨d, text⟩
    · exact @follows_emit _ _ _ [] (by simp)
    by_cases hd : d = 0x3d
    · subst hd
      exact follows_emit (by simp)
    · have hpure : Basic.tOperatorParse (0x3e :: d :: text) =
          some ([tokOperator, opGt], d :: text) := by simp [Basic.tOperatorParse, hd]
      have hrun : tOperatorParse ⟨buf, dst, 0x3e :: d :: text ++ [nul]⟩ =
          some <$> emit ⟨buf, dst, d :: text ++ [nul]⟩ [tokOperator, opGt] := if_neg hd
      rw [hpure, hrun]
      exact follows_emit (by simp)
  · have hpure : Basic.tOperatorParse (b :: text) = none := by
      simp [Basic.tOperatorParse, h1, h2, h3, h4, h5, h6, hlt, hgt]
    have hrun : tOperatorParse ⟨buf, dst, b :: text ++ [nul]⟩ = .ok none := by
      simp [tOperatorParse, charAt, ok_bind, simpleOperator, h1, h2, h3, h4, h5, h6, hlt, hgt,
        pure, Except.pure]
    rw [hpure, hrun]
    exact .refused

/-- The digits of a number are added up to what the digits in front of them have given. -/
theorem digitLoop_eq (text : List UInt8) (val : ℤ) :
    digitLoop val (text ++ [nul]) =
      .ok ((text.takeWhile isDigit).foldl
        (fun val d => Int.bmod (Int.bmod (val * 10) 65536 + (d.toNat - 48)) 65536) val,
        text.dropWhile isDigit ++ [nul]) := by
  induction text generalizing val with
  | nil => rfl
  | cons b text ih =>
    rw [List.cons_append, digitLoop]
    by_cases hb : isDigit b = true
    · rw [if_pos hb, ih, List.takeWhile_cons_of_pos hb, List.foldl_cons,
        List.dropWhile_cons_of_pos hb]
    · rw [if_neg hb, List.takeWhile_cons_of_neg hb, List.dropWhile_cons_of_neg hb]
      rfl

/-- A number is read as the list says.

**Proof sketch.** The digits are read until there is none (`digitLoop_eq`), and the mark and the
word are written, which is where the buffer can be passed. -/
theorem tNumericParse_follows (buf : Ram) (dst : ℕ) (text : List UInt8) :
    Follows buf dst (some (Basic.tNumericParse text))
      (tNumericParse ⟨buf, dst, text ++ [nul]⟩) := by
  rcases text with - | ⟨b, text⟩
  · exact .refused
  by_cases hb : isDigit b = true
  · have hpure : Basic.tNumericParse (b :: text) =
        some (numericToken (digitsValue (b :: text.takeWhile isDigit)),
          text.dropWhile isDigit) := by
      simp [Basic.tNumericParse, hb]
    have hval : (b :: text.takeWhile isDigit).foldl
        (fun val d => Int.bmod (Int.bmod (val * 10) 65536 + (d.toNat - 48)) 65536) 0 =
          (text.takeWhile isDigit).foldl
            (fun val d => Int.bmod (Int.bmod (val * 10) 65536 + (d.toNat - 48)) 65536)
            (b.toNat - 48) := by
      have hdigit := hb
      simp only [isDigit, Bool.and_eq_true, decide_eq_true_eq, UInt8.le_iff_toNat_le,
        UInt8.reduceToNat] at hdigit
      rw [List.foldl_cons, show Int.bmod (0 * 10) 65536 = 0 by decide, zero_add, Int.bmod_def]
      congr 1
      omega
    rw [hpure, tNumericParse]
    simp only [charAt, List.cons_append, ok_bind, hb, not_true_eq_false, and_false, if_false,
      List.drop_succ_cons, List.drop_zero]
    have hlen : (numericToken (digitsValue (b :: text.takeWhile isDigit))).length = 3 := rfl
    by_cases hkind : dst + [tokNumeric].length ≤ statementSizeMax
    · rw [emit_eq hkind, ok_bind]
      simp only
      rw [digitLoop_eq, ok_bind, ← hval]
      simp only
      by_cases hfits : dst + 3 ≤ statementSizeMax
      · rw [emit_eq (by rw [List.length_singleton]; exact hfits), memcpy_append]
        exact .parsed (by omega)
      · exact .overrun (by omega) ((emit_overruns (by
          rw [List.length_singleton]
          show statementSizeMax < dst + 1 + 2
          omega) (by simp [bytes16])).map _)
    · exact .overrun (by rw [List.length_singleton] at hkind; omega)
        ((emit_overruns (not_le.1 hkind) (by simp)).bind _)
  · have hpure : Basic.tNumericParse (b :: text) = none := by
      simp [Basic.tNumericParse, hb]
    rw [hpure, tNumericParse]
    simp only [charAt, List.cons_append, ok_bind, hb, Bool.false_eq_true, not_false_eq_true,
      and_true, if_true, ite_self]
    exact .refused

/-! ### Words -/

/-- The copy of a word to `kw_str`, behind letters that are there. -/
theorem kwLoop_eq (text before : List UInt8) (h : before.length + (word text).length < kwStrSize) :
    kwLoop before (text ++ [nul]) =
      .ok (before ++ word text, text.dropWhile isLetter ++ [nul]) := by
  induction text generalizing before with
  | nil =>
    rw [List.nil_append, kwLoop, if_neg (by decide), if_pos (by simpa [word] using h)]
    simp [word]
  | cons b text ih =>
    rw [List.cons_append, kwLoop]
    by_cases hb : isLetter b = true
    · have hw : word (b :: text) = b :: word text := word_cons hb
      rw [hw, List.length_cons] at h
      rw [if_pos hb, if_pos (by omega), ih (before ++ [b]) (by
        rw [List.length_append, List.length_singleton]
        omega), hw, List.dropWhile_cons_of_pos hb, List.append_assoc, List.singleton_append]
    · have hw : word (b :: text) = [] := List.takeWhile_cons_of_neg hb
      rw [if_neg hb, if_pos (by rw [hw] at h; simpa using h), hw, List.dropWhile_cons_of_neg hb,
        List.append_nil, List.cons_append]

/-- The loop over a word overruns its array when the word is too long for it. -/
theorem kwLoop_overruns (text before : List UInt8)
    (h : kwStrSize ≤ before.length + (word text).length) :
    Overruns (kwLoop before (text ++ [nul])) := by
  induction text generalizing before with
  | nil =>
    rw [List.nil_append, kwLoop, if_neg (by decide), if_neg (by simpa [word] using h)]
    exact ⟨.kwStr, rfl, by decide⟩
  | cons b text ih =>
    rw [List.cons_append, kwLoop]
    by_cases hlen : before.length < kwStrSize
    · by_cases hb : isLetter b = true
      · rw [if_pos hb, if_pos hlen]
        apply ih
        rw [word_cons hb, List.length_cons] at h
        rw [List.length_append, List.length_singleton]
        omega
      · have hw : word (b :: text) = [] := List.takeWhile_cons_of_neg hb
        rw [hw, List.length_nil] at h
        omega
    · rw [if_neg hlen, if_neg hlen, ite_self]
      exact ⟨.kwStr, rfl, by decide⟩

/-- A keyword is read as the list says, when the word fits into its array. -/
theorem tKeywordParse_follows (buf : Ram) (dst : ℕ) (h : (word text).length ≤ funcnameSize) :
    Follows buf dst (some (Basic.tKeywordParse text))
      (tKeywordParse ⟨buf, dst, text ++ [nul]⟩) := by
  rw [Basic.tKeywordParse, tKeywordParse, kwLoop_eq text [] (by
    rw [List.length_nil]
    unfold kwStrSize
    unfold funcnameSize at h
    omega), ok_bind, List.nil_append]
  simp only
  cases keywords.lookup (word text) with
  | none => exact .refused
  | some code => exact follows_emit (by simp)

/-- The end of a word is behind its letters. -/
theorem wordEnd_eq (text : List UInt8) :
    wordEnd (text ++ [nul]) = .ok (text.dropWhile isLetter ++ [nul]) := by
  induction text with
  | nil => rfl
  | cons b text ih =>
    rw [List.cons_append, wordEnd]
    by_cases hb : isLetter b = true
    · rw [if_pos ⟨(ne_of_isLetter hb).1, (ne_of_isLetter hb).2.1, hb⟩, ih,
        List.dropWhile_cons_of_pos hb]
    · rw [if_neg (fun h => hb h.2.2), List.dropWhile_cons_of_neg hb, List.cons_append]

/-- How many letters the word has that is copied to `funcname`. -/
theorem length_sub_wordEnd (text : List UInt8) :
    (text ++ [nul]).length - (text.dropWhile isLetter ++ [nul]).length = (word text).length := by
  have h := congrArg List.length (word_append text)
  rw [List.length_append] at h
  simp only [List.length_append, List.length_singleton]
  omega

/-- A function is read as the list says, when the word fits into its array. -/
theorem tFuncParse_follows (buf : Ram) (dst : ℕ) (h : (word text).length ≤ funcnameSize) :
    Follows buf dst (some (Basic.tFuncParse text)) (tFuncParse ⟨buf, dst, text ++ [nul]⟩) := by
  have htake : (text ++ [nul]).take (word text).length = word text := by
    have hsplit : text ++ [nul] = word text ++ (text.dropWhile isLetter ++ [nul]) := by
      rw [← List.append_assoc, word_append]
    rw [hsplit, List.take_left]
  have hsize : (word text).length < funcnameBufSize := Nat.lt_succ_of_le h
  rw [Basic.tFuncParse, tFuncParse]
  simp only
  rw [wordEnd_eq, ok_bind, length_sub_wordEnd, htake, if_pos hsize]
  by_cases hrnd : word text = ascii ['R', 'N', 'D']
  · rw [if_pos hrnd, if_pos hrnd]
    exact follows_emit (by simp)
  · rw [if_neg hrnd, if_neg hrnd]
    exact .refused

/-- A word that is too long overruns the array of a function. -/
theorem tFuncParse_overruns (h : funcnameSize < (word text).length) :
    Overruns (tFuncParse ⟨buf, dst, text ++ [nul]⟩) := by
  rw [tFuncParse]
  simp only
  rw [wordEnd_eq, ok_bind, length_sub_wordEnd, if_neg (by unfold funcnameBufSize; omega)]
  exact ⟨.funcname, rfl, by decide⟩

/-- The copy of a name, behind letters that are there.

**Proof sketch.** By induction on the text. A letter within the first four is copied, a later one is
passed over, and any other character ends the loop. -/
theorem nameLoop_eq (text : List UInt8) {size : ℕ} (hsize : size ≤ varnameSize)
    (h : dst + ((word text).take (varnameSize - size)).length ≤ statementSizeMax ∨
      (word text).take (varnameSize - size) = []) :
    nameLoop size buf dst (text ++ [nul]) =
      .ok (⟨buf.memcpy dst ((word text).take (varnameSize - size)),
          dst + ((word text).take (varnameSize - size)).length, text.dropWhile isLetter ++ [nul]⟩,
        size + ((word text).take (varnameSize - size)).length) := by
  induction text generalizing buf dst size with
  | nil =>
    rw [List.nil_append, nameLoop, if_neg (by decide)]
    simp [word, memcpy_nil]
  | cons b text ih =>
    rw [List.cons_append, nameLoop]
    by_cases hb : isLetter b = true
    · rw [if_pos hb, List.dropWhile_cons_of_pos hb]
      rw [word_cons hb] at h ⊢
      by_cases hlt : size < varnameSize
      · have htake : (b :: word text).take (varnameSize - size) =
            b :: (word text).take (varnameSize - (size + 1)) := by
          rw [show varnameSize - size = varnameSize - (size + 1) + 1 by omega, List.take_succ_cons]
        rw [htake] at h ⊢
        have hlen : dst + (((word text).take (varnameSize - (size + 1))).length + 1) ≤
            statementSizeMax := by simpa using h
        have hcopy := memcpy_append buf dst [b] ((word text).take (varnameSize - (size + 1)))
        rw [List.length_singleton, List.singleton_append] at hcopy
        rw [if_pos hlt, put_of_lt (by omega), ok_bind, ih (by omega) (.inl (by omega)), hcopy,
          List.length_cons, Nat.add_assoc, Nat.add_assoc, Nat.add_comm 1]
      · have hzero : varnameSize - size = 0 := by omega
        have hih := @ih buf dst size hsize (.inr (by rw [hzero, List.take_zero]))
        rw [hzero, List.take_zero] at hih ⊢
        rw [if_neg hlt, hih]
    · have hw : word (b :: text) = [] := List.takeWhile_cons_of_neg hb
      rw [if_neg hb, hw, List.take_nil, List.dropWhile_cons_of_neg hb, memcpy_nil, List.cons_append]
      rfl

/-- The loop over a name overruns the buffer when the name does not fit. -/
theorem nameLoop_overruns (text : List UInt8) {size : ℕ} (hsize : size ≤ varnameSize)
    (h : statementSizeMax < dst + ((word text).take (varnameSize - size)).length)
    (hne : (word text).take (varnameSize - size) ≠ []) :
    Overruns (nameLoop size buf dst (text ++ [nul])) := by
  induction text generalizing buf dst size with
  | nil => exact absurd (by simp [word]) hne
  | cons b text ih =>
    rw [List.cons_append, nameLoop]
    by_cases hb : isLetter b = true
    · rw [word_cons hb] at h hne
      have hlt : size < varnameSize := by
        by_contra hge
        rw [show varnameSize - size = 0 by omega, List.take_zero] at hne
        exact hne rfl
      have htake : (b :: word text).take (varnameSize - size) =
          b :: (word text).take (varnameSize - (size + 1)) := by
        rw [show varnameSize - size = varnameSize - (size + 1) + 1 by omega, List.take_succ_cons]
      rw [htake, List.length_cons] at h
      rw [if_pos hb, if_pos hlt]
      refine put_bind_overruns fun hdst => ?_
      refine ih (by omega) (by omega) ?_
      intro hnil
      rw [hnil, List.length_nil] at h
      omega
    · have hw : word (b :: text) = [] := List.takeWhile_cons_of_neg hb
      exact absurd (by rw [hw, List.take_nil]) hne

/-- The test for a name of one letter. -/
theorem singleLetter_eq (text : List UInt8) :
    singleLetter (text ++ [nul]) = .ok (decide ((word text).length = 1)) := by
  rcases text with - | ⟨b, text⟩
  · rfl
  rw [singleLetter, List.cons_append, charAt, ok_bind]
  by_cases hb : isLetter b = true
  · rw [if_pos hb, List.drop_succ_cons, List.drop_zero, charAt_append, ok_bind, word_cons hb]
    rcases text with - | ⟨d, text⟩
    · rfl
    · by_cases hd : isLetter d = true
      · simp [hd, word_cons hd, pure, Except.pure]
      · have hw : word (d :: text) = [] := List.takeWhile_cons_of_neg hd
        simp [hd, hw, pure, Except.pure]
  · have hw : word (b :: text) = [] := List.takeWhile_cons_of_neg hb
    rw [if_neg hb, hw]
    rfl

/-- The parser of variables.

**Proof sketch.** A register is written at once. Of a longer name the letters are written first and
the kind and the size last; when the token does not fit, a letter or the terminator is not inside of
the buffer, or there is no letter at all and nothing is written. -/
theorem tVariableParse_follows (buf : Ram) (dst : ℕ) (text : List UInt8) :
    Follows buf dst (some (Basic.tVariableParse text))
      (tVariableParse ⟨buf, dst, text ++ [nul]⟩) := by
  rw [tVariableParse]
  simp only
  rw [charAt_append, ok_bind, singleLetter_eq, ok_bind]
  by_cases hone : (word text).length = 1
  · obtain ⟨b, hb⟩ := List.length_eq_one_iff.1 hone
    have hpure : Basic.tVariableParse text =
        some ([tokRegister, b - 0x41], text.dropWhile isLetter) := by
      simp only [Basic.tVariableParse, hb]
    obtain ⟨text', rfl⟩ : ∃ l, text = b :: l := by
      have happ := word_append text
      rw [hb, List.singleton_append] at happ
      exact ⟨_, happ.symm⟩
    have hletter : isLetter b = true :=
      isLetter_of_mem_word (show b ∈ word (b :: text') by simp [hb])
    have hdrop : (b :: text').dropWhile isLetter = text' := by
      have happ := word_append (b :: text')
      rw [hb, List.singleton_append] at happ
      exact (List.cons.inj happ).2
    rw [hpure, hdrop, if_pos (by simp [hone])]
    simp only [List.head?_cons, Option.getD_some, List.cons_append, List.drop_succ_cons,
      List.drop_zero]
    exact follows_emit (by simp)
  · rw [if_neg (by simp [hone])]
    by_cases hnil : word text = []
    · have hpure : Basic.tVariableParse text = none := by simp only [Basic.tVariableParse, hnil]
      rw [hpure, nameLoop_eq text (Nat.zero_le _) (.inr (by rw [hnil, List.take_nil])), ok_bind,
        hnil]
      simp only [List.take_nil, List.length_nil, Nat.add_zero, if_true]
      exact .refused
    · have hpure : Basic.tVariableParse text =
          some (tokVariable :: sized ((word text).take varnameSize), text.dropWhile isLetter) := by
        unfold Basic.tVariableParse
        split
        · next h => exact absurd h hnil
        · next c h => exact absurd (by rw [h]; rfl) hone
        · rfl
      have hname : (word text).take varnameSize ≠ [] := by
        rw [ne_eq, List.take_eq_nil_iff, not_or]
        exact ⟨by decide, hnil⟩
      have hpos : 0 < ((word text).take varnameSize).length := List.length_pos_iff.2 hname
      have heq := @nameLoop_eq buf (dst + 2) text 0 (Nat.zero_le varnameSize)
      have hover := @nameLoop_overruns buf (dst + 2) text 0 (Nat.zero_le varnameSize)
      rw [Nat.sub_zero] at heq hover
      rw [hpure]
      generalize (word text).take varnameSize = name at *
      have hlen : (tokVariable :: sized name).length = name.length + 3 := by simp [sized]
      by_cases hloop : dst + 2 + name.length ≤ statementSizeMax
      · rw [heq (.inl hloop), ok_bind]
        simp only
        rw [if_neg (by omega)]
        by_cases hfits : dst + (name.length + 3) ≤ statementSizeMax
        · rw [put_of_lt (by omega), ok_bind, put_of_lt (by omega), ok_bind, put_of_lt (by omega),
            ok_bind, memcpy_append]
          have hhead := memcpy_append
            (buf.memcpy (dst + 2) (name ++ [0])) dst [tokVariable] [UInt8.ofNat (name.length + 1)]
          have hall := memcpy_before buf dst [tokVariable, UInt8.ofNat (name.length + 1)]
            (name ++ [0])
          rw [List.length_singleton, List.singleton_append] at hhead
          rw [Nat.zero_add, hhead, show dst + 2 = dst + [tokVariable,
            UInt8.ofNat (name.length + 1)].length from rfl, hall]
          have hdst : dst + [tokVariable, UInt8.ofNat (name.length + 1)].length + name.length + 1 =
              dst + (tokVariable :: sized name).length := by
            rw [hlen, List.length_cons, List.length_singleton]
            omega
          rw [hdst]
          exact .parsed (by omega)
        · exact .overrun (by omega) ((put_overruns (by omega) 0).bind _)
      · exact .overrun (by omega) ((hover (by omega) hname).bind _)

/-! ## Parsing a token -/

/-- A word that is too long for `funcname` is no keyword. -/
theorem tKeywordParse_long (buf : Ram) (dst : ℕ) (h : funcnameSize < (word text).length) :
    tKeywordParse ⟨buf, dst, text ++ [nul]⟩ = .ok none ∨
      Overruns (tKeywordParse ⟨buf, dst, text ++ [nul]⟩) := by
  rw [tKeywordParse]
  by_cases hlen : (word text).length < kwStrSize
  · have hlook : keywords.lookup (word text) = none := by
      rw [List.lookup_eq_none_iff]
      intro p hp
      have hshort : ∀ q ∈ keywords, q.1.length ≤ funcnameSize := by decide
      rw [bne_iff_ne]
      intro he
      have := hshort p hp
      rw [← he] at this
      omega
    rw [kwLoop_eq text [] (by rw [List.length_nil]; omega), ok_bind, List.nil_append]
    simp only [hlook]
    exact .inl rfl
  · exact .inr ((kwLoop_overruns text [] (by rw [List.length_nil]; omega)).bind _)

/-- **The parser of a token.** It writes what the pure parser gives.

**Proof sketch.** The parsers are tried in the same order. Where the pure one gives up because of a
long word, the copy of the word leaves `kw_str` or `funcname`. -/
theorem statementTokenizeString_follows (buf : Ram) (dst : ℕ) (h0 : 0 ∉ text) :
    Follows buf dst (Basic.statementTokenizeString text)
      (statementTokenizeString ⟨buf, dst, text ++ [nul]⟩) := by
  unfold Basic.statementTokenizeString statementTokenizeString
  have hrem := tRemParse_follows buf dst h0
  cases hr : Basic.tRemParse text with
  | some p => exact (hr ▸ hrem).found
  | none =>
  rw [hr] at hrem
  rw [hrem.skip]
  have hsep := tSepParse_follows buf dst h0
  cases hr : Basic.tSepParse text with
  | some p => exact (hr ▸ hsep).found
  | none =>
  rw [hr] at hsep
  rw [hsep.skip]
  have hstring := tStringParse_follows buf dst text
  cases hr : Basic.tStringParse text with
  | none => exact (hr ▸ hstring).undefined_found
  | some p =>
  cases p with
  | some p => exact (hr ▸ hstring).found
  | none =>
  rw [hr] at hstring
  rw [hstring.skip]
  have hop := tOperatorParse_follows buf dst text
  cases hr : Basic.tOperatorParse text with
  | some p => exact (hr ▸ hop).found
  | none =>
  rw [hr] at hop
  rw [hop.skip]
  have hnum := tNumericParse_follows buf dst text
  cases hr : Basic.tNumericParse text with
  | some p => exact (hr ▸ hnum).found
  | none =>
  rw [hr] at hnum
  rw [hnum.skip]
  by_cases hlong : (word text).length > funcnameSize
  · simp only [if_pos hlong]
    refine .undefined ?_
    rw [firstOf]
    rcases tKeywordParse_long buf dst hlong with hkw | hkw
    · rw [hkw, ok_bind]
      exact (tFuncParse_overruns hlong).bind _
    · exact hkw.bind _
  · have hkw := tKeywordParse_follows buf dst (not_lt.1 hlong)
    simp only [if_neg hlong]
    cases hr : Basic.tKeywordParse text with
    | some p => exact (hr ▸ hkw).found
    | none =>
    rw [hr] at hkw
    rw [hkw.skip]
    have hfunc := tFuncParse_follows buf dst (not_lt.1 hlong)
    cases hr : Basic.tFuncParse text with
    | some p => exact (hr ▸ hfunc).found
    | none =>
    rw [hr] at hfunc
    rw [hfunc.skip]
    have hvar := tVariableParse_follows buf dst text
    cases hr : Basic.tVariableParse text with
    | some p => exact (hr ▸ hvar).found
    | none =>
    rw [hr] at hvar
    rw [hvar.skip]
    exact .refused

end Parsers

/-! ## Tokenizing a line -/

section Lines

variable {text : List UInt8}

/-- What follows from the result of the pure tokenizer for the one with pointers: it ends with the
same error and has written the same bytes, if they fit and the result is defined. -/
inductive Ends (buf : Ram) :
    Option (Error × List UInt8) → Except Overrun (Error × Cursor) → Prop
  | ok {e : Error} {out : List UInt8} {c : Cursor} (h : out.length ≤ statementSizeMax)
    (hbuf : c.buf = buf.memcpy 0 out) : Ends buf (some (e, out)) (.ok (e, c))
  | overrun {p : Option (Error × List UInt8)} {r : Except Overrun (Error × Cursor)}
    (h : ∀ e out, p = some (e, out) → statementSizeMax < out.length) (hr : Overruns r) :
    Ends buf p r

/-- Blanks are skipped. -/
theorem skipBlanks_eq (text : List UInt8) :
    skipBlanks (text ++ [nul]) = .ok (text.dropWhile (· = 0x20) ++ [nul]) := by
  induction text with
  | nil => rfl
  | cons b text ih =>
    rw [List.cons_append, skipBlanks]
    by_cases hb : b = 0x20
    · rw [if_pos hb, ih, List.dropWhile_cons_of_pos (by simpa using hb)]
    · rw [if_neg hb, List.dropWhile_cons_of_neg (by simpa using hb), List.cons_append]

/-- The tokenizer goes on behind what it has written. -/
theorem prefix_of_tokenizeLoop {k : ℕ} {stmt out : List UInt8} {e : Error}
    (h : Basic.tokenizeLoop k stmt text = some (e, out)) : stmt <+: out := by
  induction k generalizing stmt text with
  | zero => exact absurd h (by simp [Basic.tokenizeLoop])
  | succ k ih =>
    rw [Basic.tokenizeLoop] at h
    split at h
    · simp only [Option.some.injEq, Prod.mk.injEq] at h
      exact ⟨_, h.2⟩
    · split at h
      · exact absurd h (by simp)
      · simp only [Option.some.injEq, Prod.mk.injEq] at h
        exact h.2 ▸ List.prefix_refl _
      · exact (List.prefix_append _ _).trans (ih h)

/-- The loop of the tokenizer.

**Proof sketch.** Induction on the turns that are left, of which there are more than characters.
What has been written stays in front of what is written, so that a token that does not fit makes the
result too long. -/
theorem tokenizeLoop_ends {k : ℕ} (h0 : 0 ∉ text) (hk : text.length < k) (stmt : List UInt8)
    (hstmt : stmt.length ≤ statementSizeMax) :
    Ends buf (Basic.tokenizeLoop k stmt text)
      (tokenizeLoop k ⟨buf.memcpy 0 stmt, stmt.length, text ++ [nul]⟩) := by
  induction k generalizing text stmt with
  | zero => omega
  | succ k ih =>
    rw [Basic.tokenizeLoop, tokenizeLoop]
    simp only
    rw [skipBlanks_eq, ok_bind]
    have hsuf : text.dropWhile (· = 0x20) <:+ text := List.dropWhile_suffix _
    cases hd : text.dropWhile (· = 0x20) with
    | nil =>
      rw [List.nil_append, charAt, ok_bind, if_pos rfl]
      by_cases hlen : stmt.length < statementSizeMax
      · rw [put_of_lt hlen, ok_bind]
        have hcopy := memcpy_append buf 0 stmt [tokTerminator]
        rw [Nat.zero_add] at hcopy
        exact .ok (by rw [List.length_append, List.length_singleton]; omega) hcopy
      · refine .overrun (fun e out hout => ?_) ((put_overruns (not_lt.1 hlen) _).bind _)
        simp only [Option.some.injEq, Prod.mk.injEq] at hout
        rw [← hout.2, List.length_append, List.length_singleton]
        omega
    | cons b rest =>
      rw [hd] at hsuf
      have h0' : 0 ∉ b :: rest := fun hm => h0 (hsuf.subset hm)
      have hb : b ≠ nul := by
        rintro rfl
        exact h0' List.mem_cons_self
      rw [List.cons_append, charAt, ok_bind, if_neg hb, ← List.cons_append]
      dsimp only
      have hfollows := statementTokenizeString_follows (buf.memcpy 0 stmt) stmt.length h0'
      cases hread : Basic.statementTokenizeString (b :: rest) with
      | none =>
        rw [hread] at hfollows
        simp only
        generalize statementTokenizeString ⟨buf.memcpy 0 stmt, stmt.length, b :: rest ++ [nul]⟩ = r
          at hfollows
        cases hfollows with
        | undefined hr => exact .overrun (by simp) (hr.bind _)
      | some p =>
        cases p with
        | none =>
          rw [hread] at hfollows
          simp only
          generalize statementTokenizeString ⟨buf.memcpy 0 stmt, stmt.length, b :: rest ++ [nul]⟩ =
            r at hfollows
          cases hfollows with
          | refused => exact .ok hstmt rfl
        | some p =>
          obtain ⟨toks, rest'⟩ := p
          rw [hread] at hfollows
          simp only
          generalize statementTokenizeString ⟨buf.memcpy 0 stmt, stmt.length, b :: rest ++ [nul]⟩ =
            r at hfollows
          cases hfollows with
          | parsed hfits =>
            obtain ⟨t, hr⟩ := statementTokenizeString_reads h0' hread
            have hlt := hr.shorter
            have hle := hsuf.length_le
            have hcopy := memcpy_append buf 0 stmt toks
            rw [Nat.zero_add] at hcopy
            rw [ok_bind, hcopy]
            simp only
            rw [← List.length_append] at hfits ⊢
            exact ih (fun hm => h0' (hr.suffix.subset hm)) (by omega) _ hfits
          | overrun hlong hr =>
            refine .overrun (fun e out hout => ?_) (hr.bind _)
            have hpre := (prefix_of_tokenizeLoop hout).length_le
            rw [List.length_append] at hpre
            omega

/-- **The tokenizer with its arrays.** It stays inside of them exactly when the result of the pure
tokenizer is defined, and then ends with the same error and has written the same bytes.

**Proof sketch.** The first token is read as by the pure tokenizer
(`statementTokenizeString_follows`), and so are the others (`tokenizeLoop_ends`). Each part overruns
its array exactly if the result of the pure one is undefined or too long. -/
theorem statementTokenize_ends (h0 : 0 ∉ text) (buf : Ram) :
    (∃ e out c, Basic.statementTokenize text = some (e, out) ∧
      statementTokenize buf text = .ok (e, c) ∧ c.buf = buf.memcpy 0 out) ∨
    Basic.statementTokenize text = none ∧ Overruns (statementTokenize buf text) := by
  have hfollows := statementTokenizeString_follows buf 0 h0
  rw [Basic.statementTokenize, statementTokenize]
  generalize hread : Basic.statementTokenizeString text = p at hfollows
  generalize statementTokenizeString ⟨buf, 0, text ++ [nul]⟩ = r at hfollows
  cases hfollows with
  | refused => exact .inl ⟨.syntaxError, [], _, rfl, rfl, (memcpy_nil buf 0).symm⟩
  | undefined hr => exact .inr ⟨rfl, hr.bind _⟩
  | @parsed toks rest hfits =>
    obtain ⟨t, hr⟩ := statementTokenizeString_reads h0 hread
    have hlt := hr.shorter
    rw [Nat.zero_add] at hfits
    have hends := @tokenizeLoop_ends buf _ _ (fun hm => h0 (hr.suffix.subset hm))
      (show rest.length < text.length + 1 by omega) toks hfits
    simp only [ok_bind, Nat.zero_add]
    generalize Basic.tokenizeLoop (text.length + 1) toks rest = q at hends ⊢
    generalize tokenizeLoop (text.length + 1) ⟨buf.memcpy 0 toks, toks.length, rest ++ [nul]⟩ = r
      at hends ⊢
    cases hends with
    | ok hlen hbuf => exact .inl ⟨_, _, _, by simp only [if_pos hlen], rfl, hbuf⟩
    | overrun hlong hr =>
      refine .inr ⟨?_, hr⟩
      rcases q with - | ⟨e, out⟩
      · rfl
      · simp only [if_neg (not_le.2 (hlong e out rfl))]
  | @overrun toks rest r hlong hr =>
    refine .inr ⟨?_, hr.bind _⟩
    simp only
    cases hloop : Basic.tokenizeLoop (text.length + 1) toks rest with
    | none => rfl
    | some q =>
      obtain ⟨e, out⟩ := q
      have hpre := (prefix_of_tokenizeLoop hloop).length_le
      simp only [if_neg (show ¬ out.length ≤ statementSizeMax by omega)]

end Lines

end Results

end Cursor

end Z80OS.Basic
