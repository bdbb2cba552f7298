import Z80OS.Basic.Relisting

set_option relaxedAutoImplicit false
set_option autoImplicit false

/-!
# Lexemes

What a user can write in a line, and the tokens that stand for it. A line is written as a sequence
of lexemes, with blanks between them where they would run into each other.

## Main definitions

* `Z80OS.Basic.Lexeme` — a lexeme, with its text and the bytes of its token.
* `Z80OS.Basic.Lexeme.Valid` — which sequences of characters are a lexeme of a kind.
* `Z80OS.Basic.Lexeme.EndsBefore` — the lexeme does not run into what follows.
* `Z80OS.Basic.Spaced` — a line of lexemes with blanks between them.

## Main results

* `Z80OS.Basic.statementTokenizeString_lexeme` — a lexeme is read as its token.
* `Z80OS.Basic.statementTokenize_spaced` — a line is read as the tokens of its lexemes.
-/

namespace Z80OS.Basic

/-- A lexeme. -/
inductive Lexeme
  | operator (op : UInt8)
  | comma
  | number (digits : List UInt8)
  | string (chars : List UInt8)
  | keyword (kw : UInt8)
  | rnd
  | identifier (name : List UInt8)
  deriving DecidableEq

/-- The number that is written with decimal digits. -/
def decimalValue (digits : List UInt8) : ℕ := digits.foldl (fun v d => 10 * v + (d.toNat - 48)) 0

namespace Lexeme

/-- How a lexeme is written. -/
def text : Lexeme → List UInt8
  | operator op => operatorText op
  | comma => [0x2c]
  | number digits => digits
  | string chars => 0x22 :: chars ++ [0x22]
  | keyword kw => keywordText kw
  | rnd => ascii ['R', 'N', 'D']
  | identifier name => name

/-- The bytes of the token of a lexeme. A number is taken modulo 65536, an identifier of one letter
is a register, and a longer one a variable that is named by its first four letters. -/
def bytes : Lexeme → List UInt8
  | operator op => [tokOperator, op]
  | comma => [tokSeparator]
  | number digits => tokNumeric :: bytes16 (decimalValue digits % 65536)
  | string chars => tokString :: UInt8.ofNat (chars.length + 1) :: chars ++ [0]
  | keyword kw => [tokKeyword, kw]
  | rnd => [tokFunc, funcRnd]
  | identifier [c] => [tokRegister, c - 0x41]
  | identifier name =>
    tokVariable :: UInt8.ofNat ((name.take 4).length + 1) :: name.take 4 ++ [0]

/-- An identifier: one to eight capital letters that are no keyword and not `RND`, and do not begin
a remark. -/
structure IsIdentifier (name : List UInt8) : Prop where
  letters : ∀ c ∈ name, isLetter c = true
  ne_nil : name ≠ []
  length_le : name.length ≤ 8
  not_keyword : ∀ p ∈ keywords, p.1 ≠ name
  not_rnd : name ≠ ascii ['R', 'N', 'D']
  not_rem : ¬ ascii ['R', 'E', 'M'] <+: name

/-- The characters are a lexeme of the kind. -/
def Valid : Lexeme → Prop
  | operator op => op ≤ opMult
  | comma => True
  | number digits => digits ≠ [] ∧ ∀ d ∈ digits, isDigit d = true
  | string chars => 0x22 ∉ chars
  | keyword kw => kw ∈ keywords.map Prod.snd
  | rnd => True
  | identifier name => IsIdentifier name

/-- The lexeme does not run into the text behind it: no digit follows a number, no letter a word,
and no `=` one of the operators `<` and `>`. -/
def EndsBefore (rest : List UInt8) : Lexeme → Prop
  | operator op => op = opLt ∨ op = opGt → rest.head? ≠ some 0x3d
  | comma => True
  | number _ => rest.head?.all fun c => ! isDigit c
  | string _ => True
  | keyword _ => rest.head?.all fun c => ! isLetter c
  | rnd => rest.head?.all fun c => ! isLetter c
  | identifier _ => rest.head?.all fun c => ! isLetter c

end Lexeme

/-! ## Numbers -/

/-- The digits are added up modulo 65536. -/
theorem ofNumeric_digitsValue {digits : List UInt8} (h : ∀ d ∈ digits, isDigit d = true) :
    ofNumeric (digitsValue digits) = decimalValue digits % 65536 := by
  -- the two sums agree modulo 65536 from any start on
  have key : ∀ (v : ℤ) (w : ℕ), v % 65536 = w % 65536 → (∀ d ∈ digits, isDigit d = true) →
      (digits.foldl (fun val d => Int.bmod (Int.bmod (val * 10) 65536 + (d.toNat - 48)) 65536) v) %
        65536 = ((digits.foldl (fun v d => 10 * v + (d.toNat - 48)) w : ℕ) : ℤ) % 65536 := by
    clear h
    intro v w hvw h
    induction digits generalizing v w with
    | nil => exact hvw
    | cons d digits ih =>
      have hd := h d List.mem_cons_self
      simp only [isDigit, Bool.and_eq_true, decide_eq_true_eq, UInt8.le_iff_toNat_le,
        UInt8.reduceToNat] at hd
      rw [List.foldl_cons, List.foldl_cons]
      refine ih _ _ ?_ fun c hc => h c (List.mem_cons_of_mem _ hc)
      have hbmod : ∀ n : ℤ, Int.bmod n 65536 % 65536 = n % 65536 := fun n => Int.bmod_emod
      rw [hbmod, Int.add_emod, hbmod, ← Int.add_emod]
      omega
  have hmod := key 0 0 rfl h
  unfold ofNumeric digitsValue decimalValue
  rw [hmod]
  omega

/-! ## Reading a lexeme -/

section Reading

variable {r : List UInt8}

/-- A sequence of digits, in front of something that is not a digit. -/
theorem statementTokenizeString_digits {digits : List UInt8} (hne : digits ≠ [])
    (hd : ∀ d ∈ digits, isDigit d = true) (hr : r.head?.all fun c => ! isDigit c) :
    statementTokenizeString (digits ++ r) =
      some (some (numericToken (digitsValue digits), r)) := by
  have hparse := tNumericParse_digits hne hd hr
  obtain ⟨d, ds, rfl⟩ := List.exists_cons_of_ne_nil hne
  exact statementTokenizeString_of_digit (hd d List.mem_cons_self) hparse

/-- A name of a variable, in front of something that is not a letter. -/
theorem tVariableParse_identifier {name : List UInt8} (h : Lexeme.IsIdentifier name)
    (hr : r.head?.all fun b => ! isLetter b) :
    tVariableParse (name ++ r) = some ((Lexeme.identifier name).bytes, r) := by
  unfold tVariableParse
  rw [word_append_of_letters h.letters hr, dropWhile_append_of_letters h.letters hr]
  rcases name with - | ⟨c, - | ⟨d, name⟩⟩
  · exact absurd rfl h.ne_nil
  · rfl
  · rfl

/-- A lexeme is read as its token, when it does not run into what follows.

**Proof sketch.** By the kind of the lexeme. The parsers are tried in a fixed order, and the first
character of a lexeme decides which of them can read it, except for words: these are keywords,
functions and variables, in this order. -/
theorem statementTokenizeString_lexeme {l : Lexeme} (hv : l.Valid) (hend : l.EndsBefore r) :
    statementTokenizeString (l.text ++ r) = some (some (l.bytes, r)) := by
  cases l with
  | operator op => exact statementTokenizeString_operator hv hend
  | comma => rfl
  | number digits =>
    rw [Lexeme.text, statementTokenizeString_digits hv.1 hv.2 hend, Lexeme.bytes,
      ← ofNumeric_digitsValue hv.2]
    rfl
  | string chars =>
    simp only [Lexeme.text, List.cons_append, List.append_assoc, List.nil_append,
      statementTokenizeString, tStringParse_eq hv]
    rfl
  | keyword kw =>
    obtain ⟨hl, hne, hlen, hrem, hlook⟩ := keywordText_spec kw hv
    rw [Lexeme.text, statementTokenizeString_word hl hne hlen hrem hend, hlook]
    rfl
  | rnd =>
    have hl : ∀ b ∈ ascii ['R', 'N', 'D'], isLetter b = true := by decide +kernel
    exact statementTokenizeString_word hl (by decide) (by decide) (by decide) hend
  | identifier name =>
    have h : Lexeme.IsIdentifier name := hv
    have hlook : keywords.lookup name = none := by
      rw [List.lookup_eq_none_iff]
      intro p hp
      rw [bne_iff_ne]
      exact (h.not_keyword p hp).symm
    rw [Lexeme.text, statementTokenizeString_word h.letters h.ne_nil h.length_le h.not_rem hend,
      hlook, if_neg h.not_rnd, tVariableParse_identifier h hend]

/-- The first character of a lexeme is not a blank. -/
theorem Lexeme.exists_text_eq_cons {l : Lexeme} (hv : l.Valid) :
    ∃ c cs, l.text = c :: cs ∧ c ≠ 0x20 := by
  cases l with
  | operator op =>
    obtain ⟨hne, -, h20, -⟩ := operatorText_spec op hv
    obtain ⟨c, cs, hc⟩ := List.exists_cons_of_ne_nil hne
    refine ⟨c, cs, hc, ?_⟩
    rintro rfl
    exact h20 (by rw [hc]; rfl)
  | comma => exact ⟨0x2c, [], rfl, by decide⟩
  | number digits =>
    obtain ⟨d, ds, rfl⟩ := List.exists_cons_of_ne_nil hv.1
    exact ⟨d, ds, rfl, (ne_of_isDigit (hv.2 d List.mem_cons_self)).2.1⟩
  | string chars => exact ⟨0x22, chars ++ [0x22], rfl, by decide⟩
  | keyword kw =>
    obtain ⟨hl, hne, -⟩ := keywordText_spec kw hv
    obtain ⟨c, cs, hc⟩ := List.exists_cons_of_ne_nil hne
    exact ⟨c, cs, hc, (ne_of_isLetter (hl c (by simp [hc]))).1⟩
  | rnd => exact ⟨0x52, [0x4e, 0x44], rfl, by decide⟩
  | identifier name =>
    have h : Lexeme.IsIdentifier name := hv
    obtain ⟨c, cs, rfl⟩ := List.exists_cons_of_ne_nil h.ne_nil
    exact ⟨c, cs, rfl, (ne_of_isLetter (h.letters c List.mem_cons_self)).1⟩

/-- No lexeme runs into blanks. -/
theorem Lexeme.endsBefore_blanks (l : Lexeme) (n : ℕ) : l.EndsBefore (List.replicate n 0x20) := by
  cases n with
  | zero => cases l <;> simp [Lexeme.EndsBefore]
  | succ n =>
    rw [List.replicate_succ]
    cases l <;> simp [Lexeme.EndsBefore, isDigit, isLetter]

/-- Every lexeme ends in front of a blank. -/
theorem Lexeme.endsBefore_blank (l : Lexeme) (rest : List UInt8) :
    l.EndsBefore (0x20 :: rest) := by
  cases l <;> simp [Lexeme.EndsBefore, isDigit, isLetter]

end Reading

/-! ## A line of lexemes -/

/-- A line of lexemes with blanks between neighbours, and none in front. -/
inductive Spaced : List Lexeme → List UInt8 → Prop
  | last (l : Lexeme) (n : ℕ) : Spaced [l] (l.text ++ List.replicate n 0x20)
  | cons (l : Lexeme) (n : ℕ) {ls : List Lexeme} {text : List UInt8} (h : Spaced ls text) :
    Spaced (l :: ls) (l.text ++ (List.replicate (n + 1) 0x20 ++ text))

section Line

variable {ls : List Lexeme} {text : List UInt8}

/-- Blanks are skipped with those that follow them. -/
theorem dropWhile_blanks (n : ℕ) (l : List UInt8) :
    (List.replicate n 0x20 ++ l).dropWhile (· = 0x20) = l.dropWhile (· = 0x20) :=
  List.dropWhile_append_of_pos fun b hb => by simp [List.eq_of_mem_replicate hb]

/-- A turn of the tokenizer at a lexeme. -/
theorem tokenizeLoop_lexeme {l : Lexeme} (hv : l.Valid) {r : List UInt8} (hend : l.EndsBefore r)
    (k : ℕ) (stmt : List UInt8) :
    tokenizeLoop (k + 1) stmt (l.text ++ r) = tokenizeLoop k (stmt ++ l.bytes) r := by
  have hread := statementTokenizeString_lexeme hv hend
  obtain ⟨c, cs, hc, h20⟩ := Lexeme.exists_text_eq_cons hv
  have hd : (c :: (cs ++ r)).dropWhile (· = 0x20) = c :: (cs ++ r) := by simp [h20]
  rw [hc, List.cons_append] at hread ⊢
  rw [tokenizeLoop]
  simp only [hd, hread]

/-- The loop of the tokenizer over a line of lexemes.

**Proof sketch.** Induction on the line: a lexeme is read as its token, and the blanks behind it
are skipped. -/
theorem tokenizeLoop_spaced (h : Spaced ls text) (hv : ∀ l ∈ ls, l.Valid) {k : ℕ}
    (hk : ls.length < k) (stmt : List UInt8) :
    tokenizeLoop k stmt text =
      some (.noerror, stmt ++ (ls.flatMap Lexeme.bytes ++ [tokTerminator])) := by
  induction h generalizing k stmt with
  | last l n =>
    obtain ⟨k, rfl⟩ : ∃ j, k = j + 1 + 1 := ⟨k - 2, by simp at hk; omega⟩
    have hblanks : (List.replicate n 0x20 : List UInt8).dropWhile (· = 0x20) = [] := by
      rw [← List.append_nil (List.replicate n 0x20), dropWhile_blanks]
      rfl
    rw [tokenizeLoop_lexeme (hv l List.mem_cons_self) (l.endsBefore_blanks n), tokenizeLoop,
      hblanks]
    simp
  | @cons l n ls text h ih =>
    obtain ⟨k, rfl⟩ : ∃ j, k = j + 1 := ⟨k - 1, by simp at hk; omega⟩
    have hend : l.EndsBefore (List.replicate (n + 1) 0x20 ++ text) := l.endsBefore_blank _
    rw [tokenizeLoop_lexeme (hv l List.mem_cons_self) hend,
      tokenizeLoop_congr (dropWhile_blanks (n + 1) _),
      ih (fun l hl => hv l (List.mem_cons_of_mem _ hl)) (by simpa using hk)]
    simp

/-- A text has as many characters as lexemes at least. -/
theorem length_le_of_spaced (h : Spaced ls text) (hv : ∀ l ∈ ls, l.Valid) :
    ls.length ≤ text.length := by
  induction h with
  | last l n =>
    obtain ⟨c, cs, hc, -⟩ := Lexeme.exists_text_eq_cons (hv l List.mem_cons_self)
    simp only [hc, List.length_cons, List.length_append, List.length_nil]
    omega
  | cons l n h ih =>
    have := ih fun l hl => hv l (List.mem_cons_of_mem _ hl)
    simp only [List.length_cons, List.length_append, List.length_replicate]
    omega

/-- **Meaning of the tokenizer.** A line of lexemes with blanks between neighbours is read as the
tokens of its lexemes and a terminator, when these fit the buffer.

**Proof sketch.** The line does not start with a blank, and the loop of the tokenizer reads the
lexemes one after the other (`tokenizeLoop_spaced`). It has a turn for each of them, as no lexeme is
empty. -/
theorem statementTokenize_spaced (h : Spaced ls text) (hv : ∀ l ∈ ls, l.Valid)
    (hfit : (ls.flatMap Lexeme.bytes).length + 1 ≤ statementSizeMax) :
    statementTokenize text =
      some (.noerror, ls.flatMap Lexeme.bytes ++ [tokTerminator]) := by
  have hfirst : ∃ c cs, text = c :: cs ∧ c ≠ 0x20 := by
    cases h with
    | last l n =>
      obtain ⟨c, cs, hc, h20⟩ := Lexeme.exists_text_eq_cons (hv l List.mem_cons_self)
      exact ⟨c, cs ++ List.replicate n 0x20, by rw [hc]; rfl, h20⟩
    | cons l n h =>
      obtain ⟨c, cs, hc, h20⟩ := Lexeme.exists_text_eq_cons (hv l List.mem_cons_self)
      exact ⟨c, cs ++ _, by rw [hc]; rfl, h20⟩
  have hlen := length_le_of_spaced h hv
  obtain ⟨c, cs, rfl, h20⟩ := hfirst
  rw [statementTokenize_eq h20, tokenizeLoop_spaced h hv (by omega), List.nil_append]
  simp only [List.length_append, List.length_singleton, if_pos hfit]

end Line

/-- `FOR  COUNTER = 65541 , "A B" <= `, with two blanks behind the keyword. -/
theorem statementTokenize_spaced_for :
    statementTokenize (ascii
        ['F', 'O', 'R', ' ', ' ', 'C', 'O', 'U', 'N', 'T', 'E', 'R', ' ', '=', ' ', '6', '5', '5',
          '4', '1', ' ', ',', ' '] ++ 0x22 :: ascii ['A', ' ', 'B'] ++ 0x22 ::
        ascii [' ', '<', '=', ' ']) =
      some (.noerror,
        [tokKeyword, keywordFor, tokVariable, 5, 0x43, 0x4f, 0x55, 0x4e, 0, tokOperator, opEqual,
          tokNumeric, 5, 0, tokSeparator, tokString, 4, 0x41, 0x20, 0x42, 0, tokOperator, opLteq,
          tokTerminator]) := by
  have hvalid : (Lexeme.identifier (ascii ['C', 'O', 'U', 'N', 'T', 'E', 'R'])).Valid :=
    ⟨List.all_eq_true.1 (by decide), by decide, by decide, by decide, by decide, by decide⟩
  have hnumber : (Lexeme.number (ascii ['6', '5', '5', '4', '1'])).Valid :=
    ⟨by decide, List.all_eq_true.1 (by decide)⟩
  exact statementTokenize_spaced
    (.cons (.keyword keywordFor) 1 <| .cons (.identifier (ascii
        ['C', 'O', 'U', 'N', 'T', 'E', 'R'])) 0 <| .cons (.operator opEqual) 0 <|
      .cons (.number (ascii ['6', '5', '5', '4', '1'])) 0 <| .cons .comma 0 <|
      .cons (.string (ascii ['A', ' ', 'B'])) 0 <| .last (.operator opLteq) 1)
    (by
      simp only [List.forall_mem_cons, List.not_mem_nil, false_imp_iff, implies_true, and_true]
      exact ⟨show keywordFor ∈ keywords.map Prod.snd by decide, hvalid,
        show opEqual ≤ opMult by decide, hnumber, trivial,
        show 0x22 ∉ ascii ['A', ' ', 'B'] by decide, show opLteq ≤ opMult by decide⟩)
    (by decide)

end Z80OS.Basic
