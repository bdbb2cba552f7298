import Mathlib.Tactic.IntervalCases
import Z80OS.Basic.Stream

set_option relaxedAutoImplicit false
set_option autoImplicit false

/-!
# Reading a listing

The characters that `LIST` prints for a statement are a text, which can be typed again. Most tokens
are read back as they were; the exceptions are the numbers that are printed with a sign, the names
of variables, which are printed with their terminator, and the tokens whose text runs into the text
of the next one.

## Main definitions

* `Z80OS.Basic.relist` — a statement is listed, and what is printed is tokenized.
* `Z80OS.Basic.Token.Faithful`, `Z80OS.Basic.Listable` — the tokens, in front of others, and the
  streams that are read back as they were.

## Main results

* `Z80OS.Basic.relist_eq_iff` — the streams that are read back as they were are the listable ones.
-/

namespace Z80OS.Basic

/-- The text that a C function reads in a sequence of characters. -/
def cString (chars : List UInt8) : List UInt8 := chars.takeWhile (· ≠ 0)

/-- The statement at an address is listed, and what is printed is tokenized, without the end of the
line. -/
def relist (m : Ram) (a : ℕ) : Option (Error × List UInt8) :=
  (programListStmt m a).bind fun printed =>
    statementTokenize (cString (printed.take (printed.length - newline.length)))

/-- The text of the token begins with a letter. -/
def Token.isWord : Token → Bool
  | keyword _ | var _ | func _ | remark _ | register _ => true
  | _ => false

/-- A token in front of others is read back as it was:

* a number, when it is printed without a sign;
* a variable with a long name, when it is the last token and its name has not been cut off to a
  keyword;
* a variable of one letter and a function, when no letter is printed behind them;
* a comparison with `<` or `>`, when no `=` is printed behind it. -/
def Token.Faithful (rest : List Token) : Token → Prop
  | numeric w => 0 ≤ toNumeric w
  | var name => rest = [] ∧ keywords.lookup name = none
  | func _ => rest.head?.all fun t => ! t.isWord
  | register _ => rest.head?.all fun t => ! t.isWord
  | operator op => op = opLt ∨ op = opGt → rest.head? ≠ some (operator opEqual)
  | _ => True

/-- Every token of the sequence is read back as it was. -/
def Listable : List Token → Prop
  | [] => True
  | t :: rest => t.Faithful rest ∧ Listable rest

instance (rest : List Token) (t : Token) : Decidable (t.Faithful rest) := by
  cases t <;> unfold Token.Faithful <;> infer_instance

/-! ## Characters -/

section Characters

variable {l r : List UInt8} {c : UInt8}

/-- A text without zeros is read up to what follows it. -/
theorem cString_append (h : 0 ∉ l) : cString (l ++ r) = l ++ cString r := by
  apply List.takeWhile_append_of_pos
  intro b hb
  simp only [decide_eq_true_eq]
  rintro rfl
  exact h hb

/-- A text is read up to the zero behind it. -/
theorem cString_of_zero (h : 0 ∉ l) : cString (l ++ 0 :: r) = l := by
  rw [cString_append h]
  simp [cString]

/-- No zero is read. -/
theorem zero_notMem_cString (chars : List UInt8) : 0 ∉ cString chars := by
  intro h
  have := List.mem_takeWhile_imp h
  simp at this

/-- The characters of a kind at the start of a text, in front of one of another kind. -/
theorem span_append {p : UInt8 → Bool} (h : ∀ b ∈ l, p b = true)
    (hr : r.head?.all fun b => ! p b) : (l ++ r).takeWhile p = l ∧ (l ++ r).dropWhile p = r := by
  rw [List.takeWhile_append_of_pos h, List.dropWhile_append_of_pos h]
  cases r with
  | nil => simp
  | cons b r =>
    simp only [List.head?_cons, Option.all_some, Bool.not_eq_true'] at hr
    simp [hr]

/-- Letters are read as a word, in front of something that is not a letter. -/
theorem word_append_of_letters (h : ∀ b ∈ l, isLetter b = true)
    (hr : r.head?.all fun b => ! isLetter b) : word (l ++ r) = l :=
  (span_append h hr).1

/-- Behind such a word is what follows it. -/
theorem dropWhile_append_of_letters (h : ∀ b ∈ l, isLetter b = true)
    (hr : r.head?.all fun b => ! isLetter b) : (l ++ r).dropWhile isLetter = r :=
  (span_append h hr).2

/-- A sequence of digits, in front of something that is not a digit, is read as a number. -/
theorem tNumericParse_digits (hne : l ≠ []) (h : ∀ d ∈ l, isDigit d = true)
    (hr : r.head?.all fun b => ! isDigit b) :
    tNumericParse (l ++ r) = some (numericToken (digitsValue l), r) := by
  obtain ⟨htake, hdrop⟩ := span_append h hr
  unfold tNumericParse
  rw [htake, hdrop]
  split
  · exact absurd rfl hne
  · rfl

/-- A text that begins with a letter is a remark or begins with a word.

**Proof sketch.** The parsers of separators, strings, operators and numbers refuse what begins with
a letter. -/
theorem statementTokenizeString_letter (hc : isLetter c = true) :
    statementTokenizeString (c :: r) =
      match tRemParse (c :: r) with
      | some p => some (some p)
      | none =>
        if (word (c :: r)).length > funcnameSize then none
        else
          match tKeywordParse (c :: r) with
          | some p => some (some p)
          | none =>
            match tFuncParse (c :: r) with
            | some p => some (some p)
            | none => some (tVariableParse (c :: r)) := by
  have hb : ∀ b : UInt8, isLetter b = false → c ≠ b := by
    rintro b hb rfl
    rw [hc] at hb
    exact absurd hb (by simp)
  have hsep : tSepParse (c :: r) = none := by
    simp [tSepParse, hb 0x2c (by decide)]
  have hstring : tStringParse (c :: r) = some none := by
    simp [tStringParse, hb 0x22 (by decide)]
  have hop : tOperatorParse (c :: r) = none := by
    unfold tOperatorParse
    split
    all_goals first
      | rfl
      | (next he => exact absurd (List.cons.inj he).1 (hb _ (by decide)))
  have hnum : tNumericParse (c :: r) = none := by
    have hd : isDigit c = false := by
      simp only [isLetter, isDigit, Bool.and_eq_true, decide_eq_true_eq, Bool.and_eq_false_iff,
        decide_eq_false_iff_not, UInt8.le_iff_toNat_le, UInt8.reduceToNat] at hc ⊢
      omega
    simp [tNumericParse, hd]
  cases hrem : tRemParse (c :: r) with
  | some p => simp only [statementTokenizeString, hrem]
  | none =>
    cases hkeyword : tKeywordParse (c :: r) with
    | some p => simp only [statementTokenizeString, hrem, hsep, hstring, hop, hnum, hkeyword]
    | none =>
      cases hfunc : tFuncParse (c :: r) with
      | some p =>
        simp only [statementTokenizeString, hrem, hsep, hstring, hop, hnum, hkeyword, hfunc]
      | none =>
        simp only [statementTokenizeString, hrem, hsep, hstring, hop, hnum, hkeyword, hfunc]

end Characters

/-! ## Numbers -/

section Numbers

/-- The digits of a number are digits. -/
theorem isDigit_of_mem_decimalTo {k n : ℕ} {d : UInt8} (h : d ∈ decimalTo k n) :
    isDigit d = true := by
  have key : ∀ i < 10, isDigit (UInt8.ofNat (0x30 + i)) = true := by decide
  induction k generalizing n with
  | zero => exact absurd h (by simp [decimalTo])
  | succ k ih =>
    rw [decimalTo] at h
    split at h
    · next hn =>
      rw [List.mem_singleton.1 h]
      exact key n hn
    · cases List.mem_append.1 h with
      | inl hl => exact ih hl
      | inr hr =>
        rw [List.mem_singleton.1 hr]
        exact key _ (by omega)

/-- The characters of a number without a sign are digits. -/
theorem isDigit_of_mem_decimal {n : ℕ} {d : UInt8} (h : d ∈ decimal n) : isDigit d = true :=
  isDigit_of_mem_decimalTo h

/-- A number has a digit. -/
theorem decimal_ne_nil (n : ℕ) : decimal n ≠ [] := by
  rw [decimal, decimalTo]
  split <;> simp

/-- The digits of a number are read as the number. -/
theorem digitsValue_decimalTo {k n : ℕ} (hk : n < 10 ^ k) (hn : n < 32768) :
    digitsValue (decimalTo k n) = n := by
  have digit : ∀ i < 10, ((UInt8.ofNat (0x30 + i)).toNat : ℤ) - 48 = i := by decide
  have bmod : ∀ i : ℕ, i < 32768 → Int.bmod (i : ℤ) 65536 = i := by
    intro i hi
    rw [Int.bmod_def]
    omega
  induction k generalizing n with
  | zero =>
    have : n = 0 := by simpa using hk
    simp [decimalTo, digitsValue, this]
  | succ k ih =>
    rw [decimalTo]
    split
    · next h10 =>
      simp only [digitsValue, List.foldl_cons, List.foldl_nil]
      rw [digit n h10, show Int.bmod (0 * 10) 65536 = 0 by decide, zero_add, bmod n hn]
    · have hd : n / 10 < 10 ^ k := by
        rw [pow_succ] at hk
        omega
      have hval := ih hd (by omega)
      have hmul : ((n / 10 : ℕ) : ℤ) * 10 = ((n / 10 * 10 : ℕ) : ℤ) := by omega
      have hadd : ((n / 10 * 10 : ℕ) : ℤ) + ((n % 10 : ℕ) : ℤ) = (n : ℤ) := by omega
      rw [digitsValue] at hval ⊢
      rw [List.foldl_append, hval, List.foldl_cons, List.foldl_nil, digit _ (by omega), hmul,
        bmod _ (by omega), hadd, bmod n hn]

/-- A number without a sign is read as it was. -/
theorem tNumericParse_decimal {w : ℕ} {r : List UInt8} (hw : w < 32768)
    (hr : r.head?.all fun b => ! isDigit b) :
    tNumericParse (decimal w ++ r) = some ((Token.numeric w).bytes, r) := by
  have hall : ∀ d ∈ decimal w, isDigit d = true := fun d hd => isDigit_of_mem_decimal hd
  have hval : digitsValue (decimal w) = w := digitsValue_decimalTo (by omega) hw
  rw [tNumericParse_digits (decimal_ne_nil w) hall hr, hval]
  simp only [numericToken, ofNumeric, Token.bytes]
  congr 4
  omega

end Numbers

/-! ## The first character of a token -/

section First

variable {t : Token}

/-- The text of a keyword is a word that is read as the keyword. -/
theorem keywordText_spec : ∀ kw ∈ keywords.map Prod.snd,
    (∀ b ∈ keywordText kw, isLetter b = true) ∧ keywordText kw ≠ [] ∧
      (keywordText kw).length ≤ funcnameSize ∧ ¬ ascii ['R', 'E', 'M'] <+: keywordText kw ∧
      keywords.lookup (keywordText kw) = some kw := by
  decide +kernel

/-- The name of a register is a letter. -/
theorem isLetter_add {i : UInt8} (h : i.toNat < numRegisters) : isLetter (i + 0x41) = true := by
  have key : ∀ n < 26, isLetter (UInt8.ofNat n + 0x41) = true := by decide
  have := key i.toNat h
  rwa [UInt8.ofNat_toNat] at this

/-- The operators. -/
theorem operator_cases {op : UInt8} (h : op ≤ opMult) :
    op = opMinus ∨ op = opPlus ∨ op = opEqual ∨ op = opLparen ∨ op = opRparen ∨ op = opLt ∨
      op = opGt ∨ op = opLteq ∨ op = opGteq ∨ op = opMult := by
  have h9 : op.toNat ≤ 9 := h
  have hop : op = UInt8.ofNat op.toNat := (UInt8.ofNat_toNat).symm
  generalize op.toNat = n at h9 hop
  subst hop
  interval_cases n <;> decide

/-- A letter is not a blank, not the end of a text, and not an equals sign. -/
theorem ne_of_isLetter {c : UInt8} (h : isLetter c = true) : c ≠ 0x20 ∧ c ≠ 0 ∧ c ≠ 0x3d := by
  refine ⟨?_, ?_, ?_⟩ <;>
    · rintro rfl
      exact absurd h (by decide)

/-- A digit is neither of these, nor a letter. -/
theorem ne_of_isDigit {c : UInt8} (h : isDigit c = true) :
    isLetter c = false ∧ c ≠ 0x20 ∧ c ≠ 0 ∧ c ≠ 0x3d := by
  refine ⟨?_, ?_, ?_, ?_⟩
  · simp only [isLetter, isDigit, Bool.and_eq_true, decide_eq_true_eq, Bool.and_eq_false_iff,
      decide_eq_false_iff_not, UInt8.le_iff_toNat_le, UInt8.reduceToNat] at h ⊢
    omega
  all_goals
    rintro rfl
    exact absurd h (by decide)

/-- The text of an operator does not start with a letter or a blank, and with an equals sign for `=`
only. -/
theorem operatorText_spec : ∀ op, op ≤ opMult → operatorText op ≠ [] ∧
    (operatorText op).head?.map isLetter = some false ∧ (operatorText op).head? ≠ some 0x20 ∧
      (operatorText op).head? ≠ some 0 ∧ ((operatorText op).head? = some 0x3d ↔ op = opEqual) := by
  intro op h
  rcases operator_cases h with rfl | rfl | rfl | rfl | rfl | rfl | rfl | rfl | rfl | rfl <;> decide

/-- A number is printed with something in front that is not a letter, a blank or an equals sign. -/
theorem exists_printNumeric_eq_cons (n : ℤ) :
    ∃ c cs, printNumeric n = c :: cs ∧ isLetter c = false ∧ c ≠ 0x20 ∧ c ≠ 0 ∧ c ≠ 0x3d := by
  by_cases hneg : n < 0
  · exact ⟨0x2d, decimal n.natAbs, by rw [printNumeric, if_pos hneg], by decide, by decide,
      by decide, by decide⟩
  · obtain ⟨d, ds, hd⟩ := List.exists_cons_of_ne_nil (decimal_ne_nil n.natAbs)
    have hmem : d ∈ decimal n.natAbs := by
      rw [hd]
      exact List.mem_cons_self
    exact ⟨d, ds, by rw [printNumeric, if_neg hneg, hd],
      ne_of_isDigit (isDigit_of_mem_decimal hmem)⟩

/-- Every token is printed with a first character that is a letter or not, and never a blank.

**Proof sketch.** By cases on the token. Keywords, names, functions, remarks and registers begin
with a letter; a string, a number, an operator and a separator do not, and only the operator `=`
begins with that character. -/
theorem exists_text_eq_cons (h : t.Valid) :
    ∃ c cs, t.text = c :: cs ∧ isLetter c = t.isWord ∧ c ≠ 0x20 ∧ c ≠ 0 ∧
      (c = 0x3d ↔ t = .operator opEqual) := by
  -- a token that begins with a letter
  have word : ∀ c cs, t.text = c :: cs → isLetter c = true → t.isWord = true →
      ∃ c cs, t.text = c :: cs ∧ isLetter c = t.isWord ∧ c ≠ 0x20 ∧ c ≠ 0 ∧
        (c = 0x3d ↔ t = .operator opEqual) := by
    intro c cs hc hletter hword
    obtain ⟨h20, h0, hne⟩ := ne_of_isLetter hletter
    refine ⟨c, cs, hc, hletter.trans hword.symm, h20, h0, fun he => absurd he hne, ?_⟩
    rintro rfl
    exact absurd hword (by simp [Token.isWord])
  cases t with
  | string text => exact ⟨0x22, text ++ [0x22, 0x20], rfl, rfl, by decide, by decide, by simp⟩
  | keyword kw =>
    obtain ⟨hl, hne, -⟩ := keywordText_spec kw h
    obtain ⟨c, cs, hc⟩ := List.exists_cons_of_ne_nil hne
    exact word c (cs ++ [0x20]) (by simp [Token.text, hc]) (hl c (by simp [hc])) rfl
  | numeric w =>
    obtain ⟨c, cs, hc, hl, h20, h0, hne⟩ := exists_printNumeric_eq_cons (toNumeric w)
    exact ⟨c, cs ++ [0x20], by simp [Token.text, hc], hl, h20, h0, by simp [hne]⟩
  | operator op =>
    obtain ⟨hne, hl, h20, h0, heq⟩ := operatorText_spec op h
    obtain ⟨c, cs, hc⟩ := List.exists_cons_of_ne_nil hne
    rw [hc] at hl h20 h0 heq
    simp only [List.head?_cons, ne_eq, Option.some.injEq, Option.map_some] at hl h20 h0 heq
    exact ⟨c, cs, hc, hl, h20, h0, by simp [heq]⟩
  | var name =>
    obtain ⟨c, cs, hc⟩ := List.exists_cons_of_ne_nil
      (show name ≠ [] by
        rintro rfl
        exact absurd h.two_le (by simp))
    exact word c (cs ++ [0]) (by simp [Token.text, hc]) (h.letters c (by simp [hc])) rfl
  | separator => exact ⟨0x2c, [0x20], rfl, rfl, by decide, by decide, by simp⟩
  | func f =>
    obtain rfl : f = funcRnd := h
    exact word 0x52 [0x4e, 0x44] rfl (by decide) rfl
  | remark text => exact word 0x52 (0x45 :: 0x4d :: text) rfl (by decide) rfl
  | register i => exact word (i + 0x41) [] rfl (isLetter_add h) rfl

/-- The first character of what is read of a listing. -/
theorem head?_cString_listing {ts : List Token} (h : Stream ts) {p : UInt8 → Bool}
    {q : Token → Bool} (hpq : ∀ t c cs, t.Valid → t.text = c :: cs → p c = q t) :
    (cString (listing ts)).head?.all (fun c => p c) = ts.head?.all fun t => q t := by
  cases ts with
  | nil => rfl
  | cons t ts =>
    obtain ⟨c, cs, hc, -, -, h0, -⟩ := exists_text_eq_cons h.1
    simp [hc, cString, h0, hpq t c cs h.1 hc]

end First

/-! ## Reading a token of a listing -/

section Reading

variable {t : Token} {ts : List Token} {r : List UInt8}

/-- A word that does not start like a remark is not read as one. -/
theorem tRemParse_eq_none {l : List UInt8} (h : ¬ ascii ['R', 'E', 'M'] <+: word l) :
    tRemParse l = none := by
  unfold tRemParse
  split
  · next text => exact absurd ⟨word text, rfl⟩ h
  · rfl

/-- A word that is not a remark, in front of something that is not a letter. -/
theorem statementTokenizeString_word {name : List UInt8} (hl : ∀ b ∈ name, isLetter b = true)
    (hne : name ≠ []) (hlen : name.length ≤ funcnameSize) (hrem : ¬ ascii ['R', 'E', 'M'] <+: name)
    (hr : r.head?.all fun b => ! isLetter b) :
    statementTokenizeString (name ++ r) =
      match keywords.lookup name with
      | some code => some (some ([tokKeyword, code], r))
      | none =>
        if name = ascii ['R', 'N', 'D'] then some (some ([tokFunc, funcRnd], r))
        else some (tVariableParse (name ++ r)) := by
  obtain ⟨c, cs, rfl⟩ := List.exists_cons_of_ne_nil hne
  have hw : word (c :: cs ++ r) = c :: cs := word_append_of_letters hl hr
  have hd : (c :: cs ++ r).dropWhile isLetter = r := dropWhile_append_of_letters hl hr
  rw [List.cons_append] at hw hd ⊢
  rw [statementTokenizeString_letter (hl c List.mem_cons_self),
    tRemParse_eq_none (by rw [hw]; exact hrem), hw, if_neg (by omega), tKeywordParse, tFuncParse,
    hw, hd]
  cases keywords.lookup (c :: cs) with
  | some code => rfl
  | none =>
    by_cases hrnd : c :: cs = ascii ['R', 'N', 'D']
    · simp only [if_pos hrnd]
    · simp only [if_neg hrnd]

/-- A letter is not a remark. -/
theorem not_rem_prefix_singleton (c : UInt8) : ¬ ascii ['R', 'E', 'M'] <+: [c] := by
  intro h
  have := h.length_le
  simp [ascii] at this

/-- A text that begins with a digit is read as a number. -/
theorem statementTokenizeString_of_digit {d : UInt8} {l : List UInt8}
    {p : List UInt8 × List UInt8} (hd : isDigit d = true)
    (hparse : tNumericParse (d :: l) = some p) :
    statementTokenizeString (d :: l) = some (some p) := by
  have hb : ∀ b : UInt8, isDigit b = false → d ≠ b := by
    rintro b hb rfl
    rw [hd] at hb
    exact absurd hb (by simp)
  have hrem : tRemParse (d :: l) = none := by
    simp [tRemParse, hb 0x52 (by decide)]
  have hsep : tSepParse (d :: l) = none := by
    simp [tSepParse, hb 0x2c (by decide)]
  have hstring : tStringParse (d :: l) = some none := by
    simp [tStringParse, hb 0x22 (by decide)]
  have hop : tOperatorParse (d :: l) = none := by
    unfold tOperatorParse
    split
    all_goals first
      | rfl
      | (next he => exact absurd (List.cons.inj he).1 (hb _ (by decide)))
  simp only [statementTokenizeString, hrem, hsep, hstring, hop, hparse]

/-- A number in front of a blank is read as it was. -/
theorem statementTokenizeString_decimal {w : ℕ} (hw : w < 32768) :
    statementTokenizeString (decimal w ++ 0x20 :: r) =
      some (some ((Token.numeric w).bytes, 0x20 :: r)) := by
  have hparse := tNumericParse_decimal (r := 0x20 :: r) hw rfl
  obtain ⟨d, ds, hd⟩ := List.exists_cons_of_ne_nil (decimal_ne_nil w)
  have hdigit : isDigit d = true := isDigit_of_mem_decimal (n := w) (by rw [hd]; simp)
  rw [hd, List.cons_append] at hparse ⊢
  exact statementTokenizeString_of_digit hdigit hparse

/-- A sign for a comparison is read as it is, in front of something that is not an equals sign. -/
theorem tOperatorParse_comparison (hr : r.head? ≠ some 0x3d) :
    tOperatorParse (0x3c :: r) = some ([tokOperator, opLt], r) ∧
      tOperatorParse (0x3e :: r) = some ([tokOperator, opGt], r) := by
  cases r with
  | nil => exact ⟨rfl, rfl⟩
  | cons b r =>
    have hb : b ≠ 0x3d := by simpa using hr
    constructor <;> simp [tOperatorParse, hb]

/-- An operator is read as it was, unless it is made longer. -/
theorem statementTokenizeString_operator {op : UInt8} (h : op ≤ opMult)
    (hr : op = opLt ∨ op = opGt → r.head? ≠ some 0x3d) :
    statementTokenizeString (operatorText op ++ r) =
      some (some ((Token.operator op).bytes, r)) := by
  -- the texts of operators begin with no other kind of token
  have key : ∀ l bytes, tOperatorParse l = some bytes → tRemParse l = none → tSepParse l = none →
      tStringParse l = some none → statementTokenizeString l = some (some bytes) := by
    intro l bytes hop hrem hsep hstring
    simp only [statementTokenizeString, hrem, hsep, hstring, hop]
  rcases operator_cases h with rfl | rfl | rfl | rfl | rfl | rfl | rfl | rfl | rfl | rfl
  case inr.inr.inr.inr.inr.inl =>
    exact key _ _ (tOperatorParse_comparison (hr (.inl rfl))).1 rfl rfl rfl
  case inr.inr.inr.inr.inr.inr.inl =>
    exact key _ _ (tOperatorParse_comparison (hr (.inr rfl))).2 rfl rfl rfl
  all_goals exact key _ _ rfl rfl rfl rfl

/-- A remark is read up to the end of the line. -/
theorem ascii_rem_append (text : List UInt8) :
    statementTokenizeString (ascii ['R', 'E', 'M'] ++ text) =
      some (some ((Token.remark text).bytes, [])) := rfl

/-- A string is read up to its closing quote. -/
theorem tStringParse_eq {text : List UInt8} (h : 0x22 ∉ text) :
    tStringParse (0x22 :: (text ++ 0x22 :: r)) = some (some ((Token.string text).bytes, r)) := by
  have hp : ∀ b ∈ text, decide (b ≠ 0x22) = true := by
    intro b hb
    rw [decide_eq_true_eq]
    rintro rfl
    exact h hb
  have htake : (text ++ 0x22 :: r).takeWhile (· ≠ 0x22) = text := by
    rw [List.takeWhile_append_of_pos hp]
    simp
  have hdrop : (text ++ 0x22 :: r).dropWhile (· ≠ 0x22) = 0x22 :: r := by
    rw [List.dropWhile_append_of_pos hp]
    simp
  simp only [tStringParse]
  rw [htake, hdrop]
  rfl

/-- The letters of a register behind which no letter follows. -/
theorem tVariableParse_register {c : UInt8} (hc : isLetter c = true)
    (hr : r.head?.all fun b => ! isLetter b) :
    tVariableParse ([c] ++ r) = some ([tokRegister, c - 0x41], r) := by
  have hl : ∀ b ∈ [c], isLetter b = true := by simp [hc]
  simp only [tVariableParse, word_append_of_letters hl hr, dropWhile_append_of_letters hl hr]

/-- A name at the end of a line is read as a variable. -/
theorem tVariableParse_name {name : List UInt8} (h : Token.IsName name) :
    tVariableParse (name ++ []) = some ((Token.var name).bytes, []) := by
  have hw := word_append_of_letters (r := []) h.letters rfl
  have hd := dropWhile_append_of_letters (r := []) h.letters rfl
  unfold tVariableParse
  rw [hw, hd]
  split
  · exact absurd h.two_le (by simp)
  · exact absurd h.two_le (by simp)
  · rw [List.take_of_length_le h.le_four]
    rfl

/-- No keyword has one letter. -/
theorem lookup_keywords_singleton (c : UInt8) : keywords.lookup [c] = none := by
  rw [List.lookup_eq_none_iff]
  intro p hp
  have : ∀ q ∈ keywords, 2 ≤ q.1.length := by decide
  have := this p hp
  rw [bne_iff_ne]
  intro he
  rw [← he] at this
  exact absurd this (by simp)

/-- The name of a variable that ends a text. -/
theorem statementTokenizeString_name {name : List UInt8} (h : Token.IsName name) :
    statementTokenizeString name =
      match keywords.lookup name with
      | some code => some (some ([tokKeyword, code], []))
      | none => some (some ((Token.var name).bytes, [])) := by
  have hne : name ≠ [] := by
    rintro rfl
    exact absurd h.two_le (by simp)
  have hword := statementTokenizeString_word (r := []) h.letters hne
    (h.le_four.trans (by decide)) h.not_rem rfl
  rw [tVariableParse_name h, if_neg h.not_func, List.append_nil] at hword
  exact hword

/-- A number is printed without zeros. -/
theorem zero_notMem_printNumeric (n : ℤ) : 0 ∉ printNumeric n := by
  have hd : 0 ∉ decimal n.natAbs := by
    intro h0
    exact absurd (isDigit_of_mem_decimal h0) (by decide)
  unfold printNumeric
  split
  · simp [hd]
  · exact hd

/-- Listing a stream whose first token is not a variable. -/
theorem cString_listing_cons (h : t.Valid) (hvar : ∀ name, t ≠ .var name) :
    cString (listing (t :: ts)) = t.text ++ cString (listing ts) := by
  rw [listing_cons]
  apply cString_append
  have letters : ∀ l : List UInt8, (∀ b ∈ l, isLetter b = true) → 0 ∉ l := by
    intro l hl h0
    exact absurd (hl 0 h0) (by decide)
  cases t with
  | string text => simp [Token.text, h.2.1]
  | keyword kw => simp [Token.text, letters _ (keywordText_spec kw h).1]
  | numeric w => simp [Token.text, zero_notMem_printNumeric]
  | operator op =>
    rcases operator_cases h with rfl | rfl | rfl | rfl | rfl | rfl | rfl | rfl | rfl | rfl <;>
      decide
  | var name => exact absurd rfl (hvar name)
  | separator => decide
  | func f =>
    obtain rfl : f = funcRnd := h
    decide
  | remark text => simp [Token.text, ascii, h.2]
  | register i => simpa [Token.text] using (ne_of_isLetter (isLetter_add h)).2.1.symm

/-- A variable is listed as its name, which ends the line. -/
theorem cString_listing_var {name : List UInt8} (h : Token.IsName name) :
    cString (listing (.var name :: ts)) = name := by
  rw [listing_cons, Token.text, List.append_assoc]
  apply cString_of_zero
  intro h0
  exact absurd (h.letters 0 h0) (by decide)

/-- A faithful token is read as it was, and behind it the rest of the listing, up to blanks.

**Proof sketch.** By cases on the token. Its text is read by the parser for its kind, since the ones
in front of it refuse it. A word ends where the listing goes on with a blank or a character that is
no letter, which is what faithful says. -/
theorem statementTokenizeString_faithful (hs : Stream (t :: ts)) (hf : t.Faithful ts) :
    ∃ r, statementTokenizeString (cString (listing (t :: ts))) = some (some (t.bytes, r)) ∧
      r.dropWhile (· = 0x20) = (cString (listing ts)).dropWhile (· = 0x20) := by
  have hv := hs.1
  have hword : (ts.head?.all fun t => ! t.isWord) = true →
      ((cString (listing ts)).head?.all fun b => ! isLetter b) = true := by
    intro h
    rw [head?_cString_listing hs.2.2 (q := fun t => ! t.isWord), h]
    intro t c cs hv hc
    obtain ⟨c', cs', hc', hl, -⟩ := exists_text_eq_cons hv
    rw [hc] at hc'
    rw [(List.cons.inj hc').1, hl]
  cases t with
  | string text =>
    refine ⟨0x20 :: cString (listing ts), ?_, by simp⟩
    rw [cString_listing_cons hv (by simp)]
    simp only [Token.text, List.append_assoc, List.cons_append, List.nil_append,
      statementTokenizeString, tStringParse_eq hv.2.2]
    rfl
  | keyword kw =>
    obtain ⟨hl, hne, hlen, hrem, hlook⟩ := keywordText_spec kw hv
    refine ⟨0x20 :: cString (listing ts), ?_, by simp⟩
    rw [cString_listing_cons hv (by simp), Token.text, List.append_assoc,
      statementTokenizeString_word hl hne hlen hrem rfl, hlook]
    rfl
  | numeric w =>
    have hw : w < 65536 := hv
    have hnonneg : 0 ≤ toNumeric w := hf
    unfold toNumeric at hnonneg
    have hlt : w < 32768 := by
      by_contra hge
      rw [if_neg hge] at hnonneg
      omega
    have hnum : toNumeric w = w := by rw [toNumeric, if_pos hlt]
    refine ⟨0x20 :: cString (listing ts), ?_, by simp⟩
    rw [cString_listing_cons hv (by simp), Token.text, hnum, printNumeric, if_neg (by omega),
      Int.natAbs_natCast, List.append_assoc]
    exact statementTokenizeString_decimal hlt
  | operator op =>
    refine ⟨cString (listing ts), ?_, rfl⟩
    rw [cString_listing_cons hv (by simp)]
    apply statementTokenizeString_operator hv
    intro ho he
    have hne := hf ho
    cases ts with
    | nil => exact absurd he (by simp [cString])
    | cons u us =>
      obtain ⟨c, cs, hc, -, -, h0, heq⟩ := exists_text_eq_cons hs.2.2.1
      rw [listing_cons, hc] at he
      simp only [cString, List.cons_append, List.takeWhile_cons, h0, ne_eq, not_false_eq_true,
        decide_true, if_true, List.head?_cons, Option.some.injEq] at he
      exact hne (by rw [List.head?_cons, heq.1 he])
  | var name =>
    obtain ⟨rfl, hlook⟩ : ts = [] ∧ keywords.lookup name = none := hf
    refine ⟨[], ?_, rfl⟩
    rw [cString_listing_var hv, statementTokenizeString_name hv, hlook]
  | separator =>
    refine ⟨0x20 :: cString (listing ts), ?_, by simp⟩
    rw [cString_listing_cons hv (by simp)]
    rfl
  | func f =>
    have hf' : f = funcRnd := hv
    subst hf'
    refine ⟨cString (listing ts), ?_, rfl⟩
    rw [cString_listing_cons hv (by simp)]
    have hl : ∀ b ∈ ascii ['R', 'N', 'D'], isLetter b = true := by decide +kernel
    exact statementTokenizeString_word hl (by decide) (by decide) (by decide) (hword hf)
  | remark text =>
    obtain rfl := hs.2.1 rfl
    refine ⟨[], ?_, rfl⟩
    rw [cString_listing_cons hv (by simp)]
    simp only [listing_nil, cString, List.takeWhile_nil, List.append_nil]
    exact ascii_rem_append text
  | register i =>
    refine ⟨cString (listing ts), ?_, rfl⟩
    have hl := isLetter_add hv
    rw [cString_listing_cons hv (by simp), Token.text,
      statementTokenizeString_word (by simp [hl]) (by simp) (by simp [funcnameSize])
        (not_rem_prefix_singleton _) (hword hf), lookup_keywords_singleton,
      if_neg (by intro he; simpa [ascii] using congrArg List.length he),
      tVariableParse_register hl (hword hf), UInt8.add_sub_cancel]
    rfl

/-- A text that begins with a letter is read as a register only if it has just this letter, and as
a function only if its word is the name of the function.

**Proof sketch.** The parsers come one after the other (`statementTokenizeString_letter`), and the
first byte of what one of them gives is its own. -/
theorem statementTokenizeString_letter_head {c : UInt8} {toks rest : List UInt8}
    (hc : isLetter c = true)
    (h : statementTokenizeString (c :: r) = some (some (toks, rest))) :
    (toks.head? = some tokRegister → (word (c :: r)).length = 1) ∧
      (toks.head? = some tokFunc → word (c :: r) = ascii ['R', 'N', 'D']) := by
  rw [statementTokenizeString_letter hc] at h
  split at h
  · next p hp =>
    simp only [Option.some.injEq] at h
    subst h
    unfold tRemParse at hp
    split at hp
    · simp only [Option.some.injEq, Prod.mk.injEq] at hp
      rw [← hp.1]
      constructor <;> intro he <;> exact absurd he (by simp [tokRemark, tokRegister, tokFunc])
    · exact absurd hp (by simp)
  split at h
  · exact absurd h (by simp)
  split at h
  · next p hp =>
    simp only [Option.some.injEq] at h
    subst h
    unfold tKeywordParse at hp
    split at hp
    · exact absurd hp (by simp)
    · simp only [Option.some.injEq, Prod.mk.injEq] at hp
      rw [← hp.1]
      constructor <;> intro he <;> exact absurd he (by simp [tokKeyword, tokRegister, tokFunc])
  split at h
  · next p hp =>
    simp only [Option.some.injEq] at h
    subst h
    unfold tFuncParse at hp
    split at hp
    · next hw =>
      simp only [Option.some.injEq, Prod.mk.injEq] at hp
      rw [← hp.1]
      exact ⟨fun he => absurd he (by simp [tokFunc, tokRegister]), fun _ => hw⟩
    · exact absurd hp (by simp)
  · simp only [Option.some.injEq] at h
    unfold tVariableParse at h
    split at h
    · exact absurd h (by simp)
    · next d hw =>
      simp only [Option.some.injEq, Prod.mk.injEq] at h
      rw [← h.1, hw]
      exact ⟨fun _ => rfl, fun he => absurd he (by simp [tokFunc, tokRegister])⟩
    · simp only [Option.some.injEq, Prod.mk.injEq] at h
      rw [← h.1]
      constructor <;> intro he <;> exact absurd he (by simp [tokVariable, tokRegister, tokFunc])

/-- The first of two tokens that are printed as words, in front of the other one. -/
theorem exists_listing_word {us : List Token} (hs : Stream us)
    (h : ¬ (us.head?.all fun t => ! t.isWord) = true) :
    ∃ c cs, cString (listing us) = c :: cs ∧ isLetter c = true := by
  cases us with
  | nil => exact absurd rfl h
  | cons u us =>
    obtain ⟨c, cs, hc, hl, -, h0, -⟩ := exists_text_eq_cons hs.1
    have hword : u.isWord = true := by simpa using h
    refine ⟨c, cString (cs ++ listing us), ?_, hl.trans hword⟩
    rw [listing_cons, hc]
    simp [cString, h0]

/-- A minus sign is read as an operator. -/
theorem statementTokenizeString_minus (r : List UInt8) :
    statementTokenizeString (0x2d :: r) = some (some ([tokOperator, opMinus], r)) := rfl

/-- A word begins with its first letter. -/
theorem word_cons {b : UInt8} (h : isLetter b = true) : word (b :: r) = b :: word r := by
  simp [word, h]

/-- What has another first byte is not what the bytes of a token begin with. -/
theorem append_ne_of_kind {toks : List UInt8} (hkind : toks.head? ≠ some t.kind) (hnil : toks ≠ [])
    (l l' : List UInt8) : toks ++ l ≠ t.bytes ++ l' := by
  intro he
  obtain ⟨data, hdata⟩ := t.bytes_eq_kind_cons
  obtain ⟨b, bs, rfl⟩ := List.exists_cons_of_ne_nil hnil
  rw [hdata] at he
  simp only [List.cons_append, List.cons.injEq] at he
  exact hkind (by simp [he.1])

/-- In front of `=`, the operators `<` and `>` are read with it. -/
theorem statementTokenizeString_angle {op : UInt8} {us : List Token} {toks rest : List UInt8}
    (ho : op = opLt ∨ op = opGt) (hv : (Token.operator op).Valid)
    (h : statementTokenizeString (cString (listing (.operator op :: .operator opEqual :: us))) =
      some (some (toks, rest))) (l l' : List UInt8) :
    toks ++ l ≠ (Token.operator op).bytes ++ l' := by
  have hequal : (Token.operator opEqual).Valid := show opEqual ≤ opMult by decide
  rw [cString_listing_cons hv (by simp), cString_listing_cons hequal (by simp)] at h
  rcases ho with rfl | rfl
  · have hop : statementTokenizeString ((Token.operator opLt).text ++
        ((Token.operator opEqual).text ++ cString (listing us))) =
          some (some ([tokOperator, opLteq], cString (listing us))) := rfl
    rw [hop, Option.some.injEq, Option.some.injEq, Prod.mk.injEq] at h
    rw [← h.1]
    simp [Token.bytes, opLteq, opLt]
  · have hop : statementTokenizeString ((Token.operator opGt).text ++
        ((Token.operator opEqual).text ++ cString (listing us))) =
          some (some ([tokOperator, opGteq], cString (listing us))) := rfl
    rw [hop, Option.some.injEq, Option.some.injEq, Prod.mk.injEq] at h
    rw [← h.1]
    simp [Token.bytes, opGteq, opGt]

/-- A token that is not faithful is read as something else, or nothing is read behind it.

**Proof sketch.** By cases on the token. A negative number is read as the operator of its sign, an
operator in front of `=` as the one of two characters (`statementTokenizeString_angle`), a name that
is a keyword as this, and a register or `RND` in front of a letter as another word. A name takes the
rest of the line with it, so that there is nothing behind it. -/
theorem statementTokenizeString_not_faithful {toks rest : List UInt8} (hs : Stream (t :: ts))
    (hf : ¬ t.Faithful ts)
    (h : statementTokenizeString (cString (listing (t :: ts))) = some (some (toks, rest))) :
    (∀ l l', toks ++ l ≠ t.bytes ++ l') ∨ toks = t.bytes ∧ rest = [] ∧ ts ≠ [] := by
  have hv := hs.1
  have hnil : toks ≠ [] := by
    obtain ⟨u, hu⟩ := statementTokenizeString_reads (zero_notMem_cString _) h
    rw [hu.bytes]
    exact List.ne_nil_of_length_pos u.length_bytes_pos
  cases t with
  | string _ => exact absurd trivial hf
  | keyword _ => exact absurd trivial hf
  | separator => exact absurd trivial hf
  | remark _ => exact absurd trivial hf
  | numeric w =>
    left
    have hneg : toNumeric w < 0 := by simpa [Token.Faithful] using hf
    rw [cString_listing_cons hv (by simp), Token.text, printNumeric, if_pos hneg,
      List.cons_append, List.cons_append, statementTokenizeString_minus, Option.some.injEq,
      Option.some.injEq, Prod.mk.injEq] at h
    refine append_ne_of_kind ?_ hnil
    rw [← h.1]
    simp [Token.kind, tokOperator, tokNumeric]
  | operator op =>
    left
    obtain ⟨ho, he⟩ : (op = opLt ∨ op = opGt) ∧ ts.head? = some (.operator opEqual) := by
      simpa [Token.Faithful] using hf
    obtain ⟨us, rfl⟩ : ∃ us, ts = .operator opEqual :: us := by
      cases ts with
      | nil => exact absurd he (by simp)
      | cons u us => exact ⟨us, by rw [Option.some.inj he]⟩
    exact statementTokenizeString_angle ho hv h
  | var name =>
    rw [cString_listing_var hv, statementTokenizeString_name hv] at h
    cases hlook : keywords.lookup name with
    | some code =>
      left
      simp only [hlook, Option.some.injEq, Prod.mk.injEq] at h
      refine append_ne_of_kind ?_ hnil
      rw [← h.1]
      simp [Token.kind, tokKeyword, tokVariable]
    | none =>
      right
      simp only [hlook, Option.some.injEq, Prod.mk.injEq] at h
      exact ⟨h.1.symm, h.2.symm, fun hts => hf ⟨hts, hlook⟩⟩
  | func f =>
    left
    obtain rfl : f = funcRnd := hv
    obtain ⟨c, cs, hc, hl⟩ := exists_listing_word hs.2.2 hf
    rw [cString_listing_cons hs.1 (by simp), hc,
      show (Token.func funcRnd).text ++ c :: cs = 0x52 :: 0x4e :: 0x44 :: c :: cs from rfl] at h
    have hhead := (statementTokenizeString_letter_head (show isLetter 0x52 = true by decide) h).2
    refine append_ne_of_kind ?_ hnil
    intro he
    have hlen := congrArg List.length (hhead he)
    rw [word_cons (by decide), word_cons (by decide), word_cons (by decide), word_cons hl] at hlen
    simp [ascii] at hlen
  | register i =>
    left
    obtain ⟨c, cs, hc, hl⟩ := exists_listing_word hs.2.2 hf
    have hi := isLetter_add hv
    rw [cString_listing_cons hv (by simp), hc,
      show (Token.register i).text ++ c :: cs = (i + 0x41) :: c :: cs from rfl] at h
    have hhead := (statementTokenizeString_letter_head hi h).1
    refine append_ne_of_kind ?_ hnil
    intro he
    have hlen := hhead he
    rw [word_cons hi, word_cons hl] at hlen
    simp at hlen

/-! ## Reading a listing -/

/-- The loop of the tokenizer skips blanks first. -/
theorem tokenizeLoop_congr {k : ℕ} {stmt l l' : List UInt8}
    (h : l.dropWhile (· = 0x20) = l'.dropWhile (· = 0x20)) :
    tokenizeLoop k stmt l = tokenizeLoop k stmt l' := by
  cases k with
  | zero => rfl
  | succ k => simp only [tokenizeLoop, h]

/-- A turn of the tokenizer at the beginning of a listing. -/
theorem tokenizeLoop_listing {k : ℕ} {stmt : List UInt8} (hs : Stream (t :: ts)) :
    tokenizeLoop (k + 1) stmt (cString (listing (t :: ts))) =
      match statementTokenizeString (cString (listing (t :: ts))) with
      | none => none
      | some none => some (.syntaxError, stmt)
      | some (some (toks, r)) => tokenizeLoop k (stmt ++ toks) r := by
  obtain ⟨c, cs, hc, -, h20, h0, -⟩ := exists_text_eq_cons hs.1
  have hl : cString (listing (t :: ts)) = c :: cString (cs ++ listing ts) := by
    rw [listing_cons, hc]
    simp [cString, h0]
  have hd : (c :: cString (cs ++ listing ts)).dropWhile (· = 0x20) =
      c :: cString (cs ++ listing ts) := by
    simp [h20]
  rw [hl]
  rcases hr : statementTokenizeString (c :: cString (cs ++ listing ts)) with _ | _ | p
  · simp only [tokenizeLoop, hd, hr]
  · simp only [tokenizeLoop, hd, hr]
  · simp only [tokenizeLoop, hd, hr]

/-- A statement with a token is not stored as a terminator. -/
theorem stored_ne_terminator (h : ts ≠ []) : stored ts ≠ [tokTerminator] := by
  cases ts with
  | nil => exact absurd rfl h
  | cons t ts =>
    obtain ⟨data, hdata⟩ := t.bytes_eq_kind_cons
    rw [stored_cons, hdata, List.cons_append]
    intro he
    exact t.kind_ne_terminator (List.cons.inj he).1

/-- The tokenizer reads a listing back exactly when its stream is listable.

**Proof sketch.** Induction on the stream. A faithful token is read as it was, and the tokenizer
goes on with the listing of the rest. What is read for another token has other bytes, whatever
follows them, or nothing follows where the stream has more tokens. -/
theorem tokenizeLoop_listing_iff (hs : Stream ts) {k : ℕ} (hk : ts.length < k)
    (stmt : List UInt8) :
    tokenizeLoop k stmt (cString (listing ts)) = some (.noerror, stmt ++ stored ts) ↔
      Listable ts := by
  induction ts generalizing k stmt with
  | nil =>
    obtain ⟨k, rfl⟩ : ∃ k', k = k' + 1 := ⟨k - 1, by simp at hk; omega⟩
    simp [tokenizeLoop, cString, Listable]
  | cons t ts ih =>
    obtain ⟨k, rfl⟩ : ∃ k', k = k' + 1 := ⟨k - 1, by simp at hk; omega⟩
    rw [tokenizeLoop_listing hs]
    by_cases hf : t.Faithful ts
    · obtain ⟨r, hr, hblank⟩ := statementTokenizeString_faithful hs hf
      rw [hr]
      simp only
      rw [tokenizeLoop_congr hblank, stored_cons, ← List.append_assoc,
        ih hs.2.2 (by simpa using hk)]
      exact ⟨fun h => ⟨hf, h⟩, fun h => h.2⟩
    · refine ⟨fun h => ?_, fun h => absurd h.1 hf⟩
      cases hr : statementTokenizeString (cString (listing (t :: ts))) with
      | none =>
        rw [hr] at h
        exact absurd h (by simp)
      | some p =>
        cases p with
        | none =>
          rw [hr] at h
          exact absurd h (by simp)
        | some p =>
          obtain ⟨toks, rest⟩ := p
          rw [hr] at h
          obtain ⟨u, hu⟩ := statementTokenizeString_reads (zero_notMem_cString _) hr
          have h0 : 0 ∉ rest := fun hm => zero_notMem_cString _ (hu.suffix.subset hm)
          obtain ⟨us, hout, -, hnil, -⟩ := tokenizeLoop_spec h0 h
          rw [List.append_assoc] at hout
          have heq : stored (t :: ts) = toks ++ stored us := List.append_cancel_left hout
          rw [stored_cons] at heq
          cases statementTokenizeString_not_faithful hs hf hr with
          | inl hne => exact absurd heq.symm (hne _ _)
          | inr hend =>
            obtain ⟨rfl, hrest, hts⟩ := hend
            rw [hnil hrest] at heq
            exact absurd (List.append_cancel_left heq) (stored_ne_terminator hts)

/-- A stream that can be listed has as many characters as tokens at least. -/
theorem length_le_of_listable (hs : Stream ts) (h : Listable ts) :
    ts.length ≤ (cString (listing ts)).length := by
  induction ts with
  | nil => simp
  | cons t ts ih =>
    have hih := ih hs.2.2 h.2
    by_cases hvar : ∃ name, t = .var name
    · obtain ⟨name, rfl⟩ := hvar
      obtain ⟨rfl, -⟩ : ts = [] ∧ keywords.lookup name = none := h.1
      have hlen : 2 ≤ name.length := hs.1.two_le
      rw [cString_listing_var hs.1, List.length_singleton]
      omega
    · obtain ⟨c, cs, hc, -⟩ := exists_text_eq_cons hs.1
      rw [cString_listing_cons hs.1 (fun name he => hvar ⟨name, he⟩), hc]
      simp only [List.length_cons, List.length_append]
      omega

/-- Tokenizing a text that begins with no blank is the loop of the tokenizer. -/
theorem statementTokenize_eq {c : UInt8} {cs : List UInt8} (h : c ≠ 0x20) :
    statementTokenize (c :: cs) =
      match tokenizeLoop ((c :: cs).length + 2) [] (c :: cs) with
      | none => none
      | some (e, stmt) => if stmt.length ≤ statementSizeMax then some (e, stmt) else none := by
  have hd : (c :: cs).dropWhile (· = 0x20) = c :: cs := by simp [h]
  rw [statementTokenize, tokenizeLoop]
  simp only [hd, List.nil_append]
  cases statementTokenizeString (c :: cs) with
  | none => rfl
  | some p =>
    cases p with
    | none => rfl
    | some p => rfl

/-- The loop of the tokenizer has the same result with more turns. -/
theorem tokenizeLoop_mono {k k' : ℕ} {stmt l : List UInt8} {p : Error × List UInt8}
    (h : tokenizeLoop k stmt l = some p) (hk : k ≤ k') : tokenizeLoop k' stmt l = some p := by
  induction k generalizing k' stmt l with
  | zero => exact absurd h (by simp [tokenizeLoop])
  | succ k ih =>
    obtain ⟨k', rfl⟩ : ∃ j, k' = j + 1 := ⟨k' - 1, by omega⟩
    rw [tokenizeLoop] at h ⊢
    split at h
    · exact h
    · split at h
      · exact absurd h (by simp)
      · exact h
      · exact ih h (by omega)

/-- A stream is read back from its listing exactly when it is listable.

**Proof sketch.** The listing is not empty and does not begin with a blank, so that the tokenizer is
its loop (`statementTokenize_eq`). With a sufficient bound the loop reads the stream back exactly if
it is listable (`tokenizeLoop_listing_iff`). -/
theorem statementTokenize_listing_iff (hs : Stream ts) (hne : ts ≠ [])
    (hlen : (stored ts).length ≤ statementSizeMax) :
    statementTokenize (cString (listing ts)) = some (.noerror, stored ts) ↔ Listable ts := by
  have hfirst : ∃ c cs, cString (listing ts) = c :: cs ∧ c ≠ 0x20 := by
    obtain ⟨t, us, rfl⟩ := List.exists_cons_of_ne_nil hne
    obtain ⟨c, cs, hc, -, h20, h0, -⟩ := exists_text_eq_cons hs.1
    refine ⟨c, cString (cs ++ listing us), ?_, h20⟩
    rw [listing_cons, hc]
    simp [cString, h0]
  obtain ⟨c, cs, hc, h20⟩ := hfirst
  constructor
  · intro h
    rw [hc, statementTokenize_eq h20] at h
    cases hloop : tokenizeLoop ((c :: cs).length + 2) [] (c :: cs) with
    | none =>
      rw [hloop] at h
      exact absurd h (by simp)
    | some p =>
      obtain ⟨e, stmt⟩ := p
      rw [hloop] at h
      simp only [Option.ite_none_right_eq_some, Option.some.injEq, Prod.mk.injEq] at h
      obtain ⟨-, rfl, rfl⟩ := h
      have hmore := tokenizeLoop_mono hloop
        (show (c :: cs).length + 2 ≤ (c :: cs).length + 2 + ts.length by omega)
      rw [← hc] at hmore
      exact (tokenizeLoop_listing_iff hs (by omega) []).1 hmore
  · intro h
    have hk : ts.length < (c :: cs).length + 2 := by
      have := length_le_of_listable hs h
      rw [hc] at this
      omega
    have hloop := (tokenizeLoop_listing_iff hs hk []).2 h
    rw [hc] at hloop ⊢
    rw [statementTokenize_eq h20, hloop, List.nil_append]
    simp only [if_pos hlen]

end Reading

/-- A stored statement is read back from its listing exactly when its stream is listable. -/
theorem relist_eq_iff {m : Ram} {a : ℕ} {ts : List Token} (hs : Stream ts) (hne : ts ≠ [])
    (hlen : (stored ts).length ≤ statementSizeMax) (hm : m.Holds a (stored ts)) :
    relist m a = some (.noerror, stored ts) ↔ Listable ts := by
  have hts : ts.length < ramSize := by
    have := length_le_length_encode ts
    simp only [stored, List.length_append, statementSizeMax] at hlen
    unfold ramSize
    omega
  rw [relist, programListStmt_eq hs hm hts, Option.bind_some, List.length_append,
    Nat.add_sub_cancel, List.take_left]
  exact statementTokenize_listing_iff hs hne hlen

end Z80OS.Basic
