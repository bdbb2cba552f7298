import Mathlib.Data.List.DropRight
import Z80OS.Basic.Cursors
import Z80OS.Basic.Lexemes

set_option relaxedAutoImplicit false
set_option autoImplicit false

/-!
# The limits of the tokenizer

The tokenizer checks none of its limits. It stays inside of its arrays exactly for the lines that
never take it to the limits: every string that it comes to is closed, no word that it comes to has
more than eight letters, and the tokens fit the buffer. What it comes to are the places between the
lexemes that the line can be cut into, from the front on.

## Main definitions

* `Z80OS.Basic.Cuts` — a line is cut into lexemes from the front on.
* `Z80OS.Basic.Bounded` — the lines that do not take the tokenizer to its limits.
* `Z80OS.Basic.Fits` — the lines that can be tokenized within the limits.
* `Z80OS.Basic.StaysInBounds` — the tokenizer ends, stays inside of its arrays, and refuses a line
  that does not fit.

## Main results

* `Z80OS.Basic.exists_lexeme_of_read` — what is read is a lexeme or a remark.
* `Z80OS.Basic.staysInBounds_iff` — the tokenizer keeps its limits for the bounded lines only.
-/

namespace Z80OS.Basic

/-! ## Cutting a line -/

/-- The line is cut into lexemes from the front on: these are the bytes of their tokens, and the
rest of the line is not cut. Blanks behind a lexeme are left out, and a remark takes the whole
rest. -/
inductive Cuts (line : List UInt8) : List UInt8 → List UInt8 → Prop
  | start : Cuts line [] line
  | lexeme {bytes r : List UInt8} (l : Lexeme) (h : Cuts line bytes (l.text ++ r)) (hv : l.Valid)
    (hend : l.EndsBefore r) : Cuts line (bytes ++ l.bytes) (r.dropWhile (· = 0x20))
  | remark {bytes : List UInt8} (text : List UInt8)
    (h : Cuts line bytes (ascii ['R', 'E', 'M'] ++ text)) :
    Cuts line (bytes ++ (tokRemark :: sized text)) []

/-- The text begins with a quote, and there is no other one. -/
def OpenString (rest : List UInt8) : Prop := ∃ chars, rest = 0x22 :: chars ∧ 0x22 ∉ chars

/-- The text begins with a word of more than eight letters, and is not a remark. -/
def LongWord (rest : List UInt8) : Prop :=
  funcnameSize < (word rest).length ∧ ¬ ascii ['R', 'E', 'M'] <+: rest

/-- As far as the line can be cut into lexemes, its strings are closed, its words have at most eight
letters, and the tokens and their terminator fit the buffer. -/
structure Bounded (line : List UInt8) : Prop where
  closed : ∀ bytes rest, Cuts line bytes rest → ¬ OpenString rest
  short : ∀ bytes rest, Cuts line bytes rest → ¬ LongWord rest
  fits : ∀ bytes rest, Cuts line bytes rest → bytes.length ≤ statementSizeMax
  ends : ∀ bytes, Cuts line bytes [] → bytes.length < statementSizeMax

/-- The line is not empty and can be cut into lexemes as a whole, and their tokens and a terminator
fit the buffer. -/
def Fits (line : List UInt8) : Prop :=
  line ≠ [] ∧ ∃ bytes, Cuts line bytes [] ∧ bytes.length + 1 ≤ statementSizeMax

/-- The tokenizer ends, stays inside of its arrays, and refuses a line that does not fit. -/
def StaysInBounds (buf : Ram) (line : List UInt8) : Prop :=
  ∃ e c, Cursor.statementTokenize buf line = .ok (e, c) ∧ (¬ Fits line → e = .syntaxError)

/-! ## What is read -/

section

variable {text toks r : List UInt8}

/-- What is read of a text is a lexeme that ends there, or a remark. -/
inductive Lexed (text toks r : List UInt8) : Prop
  | lexeme (l : Lexeme) (hv : l.Valid) (hend : l.EndsBefore r) (htext : text = l.text ++ r)
    (htoks : toks = l.bytes)
  | remark (chars : List UInt8) (htext : text = ascii ['R', 'E', 'M'] ++ chars)
    (htoks : toks = tokRemark :: sized chars) (hr : r = [])

/-- A lexeme behind a cut of the line makes another cut. -/
theorem Lexed.cuts {line bytes : List UInt8} (h : Lexed text toks r) (hc : Cuts line bytes text) :
    Cuts line (bytes ++ toks) (r.dropWhile (· = 0x20)) := by
  cases h with
  | lexeme l hv hend htext htoks =>
    subst htext htoks
    exact .lexeme l hc hv hend
  | remark chars htext htoks hr =>
    subst htext htoks hr
    exact .remark chars hc

/-- Behind what is dropped is nothing to drop. -/
theorem all_head?_dropWhile (p : UInt8 → Bool) (l : List UInt8) :
    (l.dropWhile p).head?.all fun c => ! p c := by
  induction l with
  | nil => rfl
  | cons b l ih =>
    by_cases hb : p b = true
    · rw [List.dropWhile_cons_of_pos hb]
      exact ih
    · rw [List.dropWhile_cons_of_neg hb]
      simpa using hb

/-- An operator that is read is a lexeme. -/
theorem tOperatorParse_lexed (h : tOperatorParse text = some (toks, r)) : Lexed text toks r := by
  -- only `<` and `>` could be made longer by what follows
  have key : ∀ op, op ≤ opMult → text = operatorText op ++ r → toks = [tokOperator, op] →
      (op = opLt ∨ op = opGt → r.head? ≠ some 0x3d) → Lexed text toks r :=
    fun op hop ht htoks hend => .lexeme (.operator op) hop hend ht htoks
  have other : ∀ op, op ≠ opLt → op ≠ opGt → op = opLt ∨ op = opGt → r.head? ≠ some 0x3d :=
    fun op h1 h2 hop => absurd hop (not_or.2 ⟨h1, h2⟩)
  have head : ∀ input : List UInt8, (∀ l, input = 0x3d :: l → False) →
      input.head? ≠ some 0x3d := by
    rintro (- | ⟨b, l⟩) hno he
    · exact absurd he (by simp)
    · exact hno l (by rw [Option.some.inj he])
  unfold tOperatorParse at h
  split at h
  case h_11 => exact absurd h (by simp)
  all_goals
    simp only [Option.some.injEq, Prod.mk.injEq] at h
    obtain ⟨rfl, rfl⟩ := h
  · exact key opMinus (by decide) rfl rfl (other _ (by decide) (by decide))
  · exact key opPlus (by decide) rfl rfl (other _ (by decide) (by decide))
  · exact key opMult (by decide) rfl rfl (other _ (by decide) (by decide))
  · exact key opEqual (by decide) rfl rfl (other _ (by decide) (by decide))
  · exact key opLparen (by decide) rfl rfl (other _ (by decide) (by decide))
  · exact key opRparen (by decide) rfl rfl (other _ (by decide) (by decide))
  · exact key opLteq (by decide) rfl rfl (other _ (by decide) (by decide))
  · next hno => exact key opLt (by decide) rfl rfl fun _ => head _ hno
  · exact key opGteq (by decide) rfl rfl (other _ (by decide) (by decide))
  · next hno => exact key opGt (by decide) rfl rfl fun _ => head _ hno

/-- A number that is read is a lexeme. -/
theorem tNumericParse_lexed (h : tNumericParse text = some (toks, r)) : Lexed text toks r := by
  unfold tNumericParse at h
  split at h
  · exact absurd h (by simp)
  · next hne =>
    simp only [Option.some.injEq, Prod.mk.injEq] at h
    obtain ⟨rfl, rfl⟩ := h
    have hdigits : ∀ d ∈ text.takeWhile isDigit, isDigit d = true :=
      fun d hd => List.mem_takeWhile_imp hd
    refine .lexeme (.number (text.takeWhile isDigit)) ⟨hne, hdigits⟩
      (all_head?_dropWhile isDigit text) List.takeWhile_append_dropWhile.symm ?_
    rw [Lexeme.bytes, ← ofNumeric_digitsValue hdigits]
    rfl

/-- A keyword that is read is a lexeme. -/
theorem tKeywordParse_lexed (h : tKeywordParse text = some (toks, r)) : Lexed text toks r := by
  unfold tKeywordParse at h
  cases hlook : keywords.lookup (word text) with
  | none => simp [hlook] at h
  | some code =>
    simp only [hlook, Option.some.injEq, Prod.mk.injEq] at h
    obtain ⟨rfl, rfl⟩ := h
    have hmem : (word text, code) ∈ keywords := by
      obtain ⟨l₁, l₂, heq, -⟩ := List.lookup_eq_some_iff.1 hlook
      rw [heq]
      simp
    have htext : keywordText code = word text := by
      have hall : ∀ p ∈ keywords, keywordText p.2 = p.1 := by decide +kernel
      exact hall _ hmem
    refine .lexeme (.keyword code) (List.mem_map.2 ⟨_, hmem, rfl⟩)
      (all_head?_dropWhile isLetter text) ?_ rfl
    rw [Lexeme.text, htext, word_append]

/-- A name that is read is a lexeme, when it is short enough.

**Proof sketch.** What is read is the word of letters. It is no keyword, function or remark, since
those parsers were tried before and refused it, so that it is an identifier, which is read in the
same way (`tVariableParse_identifier`). -/
theorem tVariableParse_lexed (hrem : tRemParse text = none) (hkw : tKeywordParse text = none)
    (hfunc : tFuncParse text = none) (hlen : (word text).length ≤ funcnameSize)
    (h : tVariableParse text = some (toks, r)) : Lexed text toks r := by
  have hne : word text ≠ [] := by
    intro hnil
    simp [tVariableParse, hnil] at h
  have hrest : r = text.dropWhile isLetter := by
    unfold tVariableParse at h
    split at h
    · exact absurd h (by simp)
    · exact (Prod.mk.inj (Option.some.inj h)).2.symm
    · exact (Prod.mk.inj (Option.some.inj h)).2.symm
  have hname : Lexeme.IsIdentifier (word text) :=
    { letters := fun c hc => isLetter_of_mem_word hc
      ne_nil := hne
      length_le := hlen
      not_keyword := by
        intro p hp he
        unfold tKeywordParse at hkw
        cases hlook : keywords.lookup (word text) with
        | none =>
          rw [List.lookup_eq_none_iff] at hlook
          exact absurd he.symm (bne_iff_ne.1 (hlook p hp))
        | some code => simp [hlook] at hkw
      not_rnd := by
        intro he
        simp [tFuncParse, he] at hfunc
      not_rem := by
        rintro ⟨l, hl⟩
        have happ := word_append text
        rw [← hl] at happ
        rw [← happ] at hrem
        exact absurd hrem (by simp [tRemParse, ascii]) }
  have hend : (text.dropWhile isLetter).head?.all fun c => ! isLetter c :=
    all_head?_dropWhile isLetter text
  have hread := tVariableParse_identifier hname hend
  rw [word_append, h, Option.some.injEq, Prod.mk.injEq] at hread
  subst hrest
  exact .lexeme (.identifier (word text)) hname hend (word_append text).symm hread.1

/-- A remark that is read. -/
theorem tRemParse_lexed (h : tRemParse text = some (toks, r)) : Lexed text toks r := by
  unfold tRemParse at h
  split at h
  · next chars =>
    simp only [Option.some.injEq, Prod.mk.injEq] at h
    exact .remark chars rfl h.1.symm h.2.symm
  · exact absurd h (by simp)

/-- A separator that is read is a lexeme. -/
theorem tSepParse_lexed (h : tSepParse text = some (toks, r)) : Lexed text toks r := by
  unfold tSepParse at h
  split at h
  · simp only [Option.some.injEq, Prod.mk.injEq] at h
    obtain ⟨rfl, rfl⟩ := h
    exact .lexeme .comma trivial trivial rfl rfl
  · exact absurd h (by simp)

/-- A string that is read is a lexeme: it has an end. -/
theorem tStringParse_lexed (h : tStringParse text = some (some (toks, r))) :
    Lexed text toks r := by
  have hhead : text.head? = some 0x22 := by
    unfold tStringParse at h
    split at h
    · rfl
    · exact absurd h (by simp)
  obtain ⟨l, rfl⟩ : ∃ l, text = 0x22 :: l := by
    cases text with
    | nil => exact absurd hhead (by simp)
    | cons b l => exact ⟨l, by rw [Option.some.inj hhead]⟩
  by_cases hq : 0x22 ∈ l
  · obtain ⟨chars, rest, rfl, hnot⟩ := List.eq_append_cons_of_mem hq
    rw [tStringParse_eq hnot] at h
    simp only [Option.some.injEq, Prod.mk.injEq] at h
    obtain ⟨rfl, rfl⟩ := h
    exact .lexeme (.string chars) hnot trivial (by simp [Lexeme.text]) rfl
  · rw [Cursor.tStringParse_unclosed hq] at h
    exact absurd h (by simp)

/-- A function that is read is a lexeme. -/
theorem tFuncParse_lexed (h : tFuncParse text = some (toks, r)) : Lexed text toks r := by
  unfold tFuncParse at h
  split at h
  · next hrnd =>
    simp only [Option.some.injEq, Prod.mk.injEq] at h
    obtain ⟨rfl, rfl⟩ := h
    refine .lexeme .rnd trivial (all_head?_dropWhile isLetter text) ?_ rfl
    rw [Lexeme.text, ← hrnd, word_append]
  · exact absurd h (by simp)

/-- What the tokenizer reads at a place is a lexeme that ends there, or a remark.

**Proof sketch.** The parsers are tried one after the other, and each takes the text of a lexeme of
its own kind (`tRemParse_lexed`, `tStringParse_lexed` and so on). -/
theorem exists_lexeme_of_read (h : statementTokenizeString text = some (some (toks, r))) :
    Lexed text toks r := by
  unfold statementTokenizeString at h
  split at h
  · next p hp =>
    simp only [Option.some.injEq] at h
    exact tRemParse_lexed (h ▸ hp)
  next hrem =>
  split at h
  · next p hp =>
    simp only [Option.some.injEq] at h
    exact tSepParse_lexed (h ▸ hp)
  split at h
  · exact absurd h (by simp)
  · next p hp =>
    simp only [Option.some.injEq] at h
    exact tStringParse_lexed (h ▸ hp)
  split at h
  · next p hp =>
    simp only [Option.some.injEq] at h
    exact tOperatorParse_lexed (h ▸ hp)
  split at h
  · next p hp =>
    simp only [Option.some.injEq] at h
    exact tNumericParse_lexed (h ▸ hp)
  split at h
  · exact absurd h (by simp)
  next hlen =>
  split at h
  · next p hp =>
    simp only [Option.some.injEq] at h
    exact tKeywordParse_lexed (h ▸ hp)
  next hkw =>
  split at h
  · next p hp =>
    simp only [Option.some.injEq] at h
    exact tFuncParse_lexed (h ▸ hp)
  next hfunc =>
  simp only [Option.some.injEq] at h
  exact tVariableParse_lexed hrem hkw hfunc (not_lt.1 hlen) h

/-- A string without an end is open. -/
theorem openString_of_tStringParse (h : tStringParse text = none) : OpenString text := by
  have hhead : text.head? = some 0x22 := by
    unfold tStringParse at h
    split at h
    · rfl
    · exact absurd h (by simp)
  obtain ⟨chars, rfl⟩ : ∃ l, text = 0x22 :: l := by
    cases text with
    | nil => exact absurd hhead (by simp)
    | cons b l => exact ⟨l, by rw [Option.some.inj hhead]⟩
  refine ⟨chars, rfl, fun hq => ?_⟩
  obtain ⟨front, rest, rfl, hnot⟩ := List.eq_append_cons_of_mem hq
  rw [tStringParse_eq hnot] at h
  exact absurd h (by simp)

/-- **What is not defined** is what begins with an open string or with a long word.

**Proof sketch.** The parser of strings has no result without a closing quote, and words are copied
into an array of their own, which the others do not have. -/
theorem statementTokenizeString_eq_none_iff :
    statementTokenizeString text = none ↔ OpenString text ∨ LongWord text := by
  constructor
  · intro h
    unfold statementTokenizeString at h
    split at h
    · exact absurd h (by simp)
    next hrem =>
    split at h
    · exact absurd h (by simp)
    split at h
    · next hstring =>
      exact .inl (openString_of_tStringParse hstring)
    · exact absurd h (by simp)
    split at h
    · exact absurd h (by simp)
    split at h
    · exact absurd h (by simp)
    split at h
    · next hlen =>
      refine .inr ⟨hlen, ?_⟩
      rintro ⟨l, rfl⟩
      exact absurd hrem (by simp [tRemParse, ascii])
    · split at h
      · exact absurd h (by simp)
      · split at h <;> exact absurd h (by simp)
  · rintro (⟨chars, rfl, hq⟩ | ⟨hlen, hrem⟩)
    · have hrem : tRemParse (0x22 :: chars) = none := rfl
      have hsep : tSepParse (0x22 :: chars) = none := rfl
      simp only [statementTokenizeString, hrem, hsep, Cursor.tStringParse_unclosed hq]
    · obtain ⟨c, cs, rfl⟩ : ∃ c cs, text = c :: cs := by
        cases text with
        | nil => exact absurd hlen (by simp [word])
        | cons c cs => exact ⟨c, cs, rfl⟩
      have hc : isLetter c = true := by
        by_contra hno
        rw [word, List.takeWhile_cons_of_neg hno] at hlen
        exact absurd hlen (Nat.not_lt_zero _)
      have hno : tRemParse (c :: cs) = none := by
        unfold tRemParse
        split
        · next l he =>
          rw [he] at hrem
          exact absurd ⟨l, rfl⟩ hrem
        · rfl
      rw [statementTokenizeString_letter hc, hno]
      simp only [if_pos hlen]

end

/-! ## The run of the tokenizer -/

section

variable {line : List UInt8}

/-- The tokenizer comes to the places between the lexemes that the line can be cut into.

**Proof sketch.** By induction on the cuts. A lexeme or a remark at a place is read in one turn of
the loop (`statementTokenizeString_lexeme`), which then stands behind the blanks that follow. -/
theorem tokenizeLoop_of_cuts {bytes rest : List UInt8} (h : Cuts line bytes rest) {K : ℕ}
    (hK : line.length < K) : ∃ k, rest.length < k ∧
      tokenizeLoop K [] line = tokenizeLoop k bytes rest := by
  -- a step of the loop over what is read at a place
  have step : ∀ (bytes : List UInt8) {text toks r : List UInt8} {k : ℕ}, text.length < k →
      statementTokenizeString text = some (some (toks, r)) → text.head? ≠ some 0x20 →
      r.length < text.length →
      ∃ k', (r.dropWhile (· = 0x20)).length < k' ∧
        tokenizeLoop k bytes text = tokenizeLoop k' (bytes ++ toks) (r.dropWhile (· = 0x20)) := by
    intro bytes text toks r k hk hread hblank hlt
    obtain ⟨k, rfl⟩ : ∃ j, k = j + 1 := ⟨k - 1, by omega⟩
    obtain ⟨c, cs, rfl⟩ : ∃ c cs, text = c :: cs := by
      cases text with
      | nil => exact absurd hlt (Nat.not_lt_zero _)
      | cons c cs => exact ⟨c, cs, rfl⟩
    have hle : (r.dropWhile (· = 0x20)).length ≤ r.length := (List.dropWhile_suffix _).length_le
    refine ⟨k, by omega, ?_⟩
    have hd : (c :: cs).dropWhile (· = 0x20) = c :: cs := by
      have hc : c ≠ 0x20 := by simpa using hblank
      simp [hc]
    rw [tokenizeLoop]
    simp only [hd, hread]
    exact tokenizeLoop_congr (List.dropWhile_idempotent _ r).symm
  induction h with
  | start => exact ⟨K, hK, rfl⟩
  | @lexeme bytes r l h hv hend ih =>
    obtain ⟨k, hk, heq⟩ := ih
    obtain ⟨c, cs, hc, h20⟩ := Lexeme.exists_text_eq_cons hv
    obtain ⟨k', hk', heq'⟩ := step bytes hk (statementTokenizeString_lexeme hv hend)
      (by rw [hc]; simpa using h20) (by rw [hc, List.length_append, List.length_cons]; omega)
    exact ⟨k', hk', heq.trans heq'⟩
  | @remark bytes text h ih =>
    obtain ⟨k, hk, heq⟩ := ih
    obtain ⟨k', hk', heq'⟩ := step bytes hk (ascii_rem_append text) (by simp [ascii])
      (by simp [ascii])
    exact ⟨k', hk', heq.trans heq'⟩

/-- What the loop of the tokenizer accepts has been cut as a whole, and what it does not accept is
refused. -/
theorem cuts_of_tokenizeLoop {k : ℕ} {stmt text out : List UInt8} {e : Error}
    (hc : Cuts line stmt (text.dropWhile (· = 0x20)))
    (h : tokenizeLoop k stmt text = some (e, out)) :
    e = .syntaxError ∨ ∃ bytes, Cuts line bytes [] ∧ out = bytes ++ [tokTerminator] := by
  induction k generalizing stmt text with
  | zero => exact absurd h (by simp [tokenizeLoop])
  | succ k ih =>
    rw [tokenizeLoop] at h
    cases hd : text.dropWhile (· = 0x20) with
    | nil =>
      simp only [hd, Option.some.injEq, Prod.mk.injEq] at h
      exact .inr ⟨stmt, hd ▸ hc, h.2.symm⟩
    | cons c rest =>
      rw [hd] at hc
      simp only [hd] at h
      cases hread : statementTokenizeString (c :: rest) with
      | none => simp [hread] at h
      | some p =>
        cases p with
        | none =>
          simp only [hread, Option.some.injEq, Prod.mk.injEq] at h
          exact .inl h.1.symm
        | some p =>
          obtain ⟨toks, r⟩ := p
          simp only [hread] at h
          exact ih ((exists_lexeme_of_read hread).cuts hc) h

/-- The loop of the tokenizer is defined for a bounded line, and what it writes fits.

**Proof sketch.** Induction on the turns that are left, of which there are more than characters. At
each turn the line has been cut up to here, so that neither an open string nor a long word
follows. -/
theorem Bounded.tokenizeLoop (hb : Bounded line) {k : ℕ} {stmt text : List UInt8}
    (h0 : 0 ∉ text) (hk : text.length < k) (hc : Cuts line stmt (text.dropWhile (· = 0x20))) :
    ∃ e out, Basic.tokenizeLoop k stmt text = some (e, out) ∧ out.length ≤ statementSizeMax := by
  induction k generalizing stmt text with
  | zero => omega
  | succ k ih =>
    rw [Basic.tokenizeLoop]
    have hsuf : text.dropWhile (· = 0x20) <:+ text := List.dropWhile_suffix _
    cases hd : text.dropWhile (· = 0x20) with
    | nil =>
      rw [hd] at hc
      have hlen := hb.ends _ hc
      exact ⟨_, _, rfl, by rw [List.length_append, List.length_singleton]; omega⟩
    | cons c rest =>
      rw [hd] at hc hsuf
      have h0' : 0 ∉ c :: rest := fun hm => h0 (hsuf.subset hm)
      dsimp only
      cases hread : statementTokenizeString (c :: rest) with
      | none =>
        rcases statementTokenizeString_eq_none_iff.1 hread with hopen | hlong
        · exact absurd hopen (hb.closed _ _ hc)
        · exact absurd hlong (hb.short _ _ hc)
      | some p =>
        cases p with
        | none => exact ⟨_, _, rfl, hb.fits _ _ hc⟩
        | some p =>
          obtain ⟨toks, r⟩ := p
          obtain ⟨t, hr⟩ := statementTokenizeString_reads h0' hread
          have hlt := hr.shorter
          have hle := hsuf.length_le
          exact ih (fun hm => h0' (hr.suffix.subset hm)) (by omega)
            ((exists_lexeme_of_read hread).cuts hc)

/-- A line that begins with a blank or is empty is not cut at all. -/
theorem Cuts.eq_start {bytes rest : List UInt8} (h : Cuts line bytes rest)
    (hline : line = [] ∨ line.head? = some 0x20) : bytes = [] ∧ rest = line := by
  induction h with
  | start => exact ⟨rfl, rfl⟩
  | lexeme l h hv hend ih =>
    obtain ⟨c, cs, hc, h20⟩ := Lexeme.exists_text_eq_cons hv
    obtain ⟨-, hrest⟩ := ih
    rw [← hrest, hc] at hline
    rcases hline with hline | hline
    · exact absurd hline (by simp)
    · exact absurd (Option.some.inj hline) h20
  | remark text h ih =>
    obtain ⟨-, hrest⟩ := ih
    rw [← hrest] at hline
    rcases hline with hline | hline
    · exact absurd hline (by simp [ascii])
    · exact absurd hline (by simp [ascii])

/-- Nothing is cut from a line that begins with a blank, and it is refused. -/
theorem bounded_of_blank (hline : line = [] ∨ line.head? = some 0x20) :
    statementTokenizeString line = some none ∧ Bounded line := by
  have hread : statementTokenizeString line = some none := by
    rcases hline with rfl | hline
    · rfl
    · obtain ⟨l, rfl⟩ : ∃ l, line = 0x20 :: l := by
        cases line with
        | nil => exact absurd hline (by simp)
        | cons b l => exact ⟨l, by rw [Option.some.inj hline]⟩
      rfl
  have hdefined := mt statementTokenizeString_eq_none_iff.2 (by rw [hread]; simp)
  rw [not_or] at hdefined
  refine ⟨hread, ?_, ?_, ?_, ?_⟩
  · intro bytes rest hc
    obtain ⟨-, rfl⟩ := hc.eq_start hline
    exact hdefined.1
  · intro bytes rest hc
    obtain ⟨-, rfl⟩ := hc.eq_start hline
    exact hdefined.2
  · intro bytes rest hc
    rw [(hc.eq_start hline).1]
    exact Nat.zero_le _
  · intro bytes hc
    rw [(hc.eq_start hline).1]
    decide

/-- In front of a string without an end or a word that is too long the loop has no result. -/
theorem tokenizeLoop_undefined {bytes rest : List UInt8} (h : OpenString rest ∨ LongWord rest)
    (k : ℕ) : tokenizeLoop (k + 1) bytes rest = none := by
  have hnone := statementTokenizeString_eq_none_iff.2 h
  have hhead : rest.dropWhile (· = 0x20) = rest ∧ rest ≠ [] := by
    rcases h with ⟨chars, rfl, -⟩ | ⟨hlong, -⟩
    · exact ⟨rfl, by simp⟩
    · cases rest with
      | nil => exact absurd hlong (by simp [word])
      | cons b rest =>
        refine ⟨?_, by simp⟩
        by_cases hb : isLetter b = true
        · simp [(ne_of_isLetter hb).1]
        · rw [word, List.takeWhile_cons_of_neg hb] at hlong
          exact absurd hlong (Nat.not_lt_zero _)
  obtain ⟨b, l, rfl⟩ := List.exists_cons_of_ne_nil hhead.2
  rw [tokenizeLoop]
  simp only [hhead.1, hnone]

/-- A line that the loop comes to the end of, in a buffer that is large enough, is bounded. -/
theorem bounded_of_tokenizeLoop {e : Error} {out : List UInt8}
    (hloop : tokenizeLoop (line.length + 2) [] line = some (e, out))
    (hlen : out.length ≤ statementSizeMax) : Bounded line := by
  -- the loop comes to every place between lexemes
  have hreach : ∀ {bytes rest}, Cuts line bytes rest → ∃ k,
      tokenizeLoop (k + 1) bytes rest = some (e, out) := by
    intro bytes rest hc
    obtain ⟨k, hk, heq⟩ := tokenizeLoop_of_cuts hc (show line.length < line.length + 2 by omega)
    obtain ⟨k, rfl⟩ : ∃ j, k = j + 1 := ⟨k - 1, by omega⟩
    exact ⟨k, heq.symm.trans hloop⟩
  have hdefined : ∀ {bytes rest}, Cuts line bytes rest → ¬ (OpenString rest ∨ LongWord rest) := by
    intro bytes rest hc hbad
    obtain ⟨k, hrun⟩ := hreach hc
    rw [tokenizeLoop_undefined hbad] at hrun
    exact absurd hrun (by simp)
  refine ⟨fun bytes rest hc => (not_or.1 (hdefined hc)).1,
    fun bytes rest hc => (not_or.1 (hdefined hc)).2, fun bytes rest hc => ?_, fun bytes hc => ?_⟩
  · obtain ⟨k, hrun⟩ := hreach hc
    exact (Cursor.prefix_of_tokenizeLoop hrun).length_le.trans hlen
  · obtain ⟨k, hrun⟩ := hreach hc
    simp only [tokenizeLoop, List.dropWhile_nil, Option.some.injEq, Prod.mk.injEq] at hrun
    rw [← hrun.2, List.length_append, List.length_singleton] at hlen
    omega

/-- The tokenizer is defined for the bounded lines only, and accepts a line that fits.

**Proof sketch.** The loop comes to every place that the line can be cut up to. So when it has a
result, what is read at each of these places is defined and the bytes fit
(`bounded_of_tokenizeLoop`). The other way around the loop goes from one place to the next until the
line ends or is refused. A line that begins with a blank is refused at once (`bounded_of_blank`). -/
theorem statementTokenize_isSome_iff (h0 : 0 ∉ line) :
    (∃ e out, statementTokenize line = some (e, out)) ↔ Bounded line := by
  by_cases hline : line = [] ∨ line.head? = some 0x20
  · obtain ⟨hread, hbounded⟩ := bounded_of_blank hline
    refine iff_of_true ⟨.syntaxError, [], ?_⟩ hbounded
    simp only [statementTokenize, hread]
  · rw [not_or] at hline
    obtain ⟨c, cs, rfl⟩ := List.exists_cons_of_ne_nil hline.1
    have h20 : c ≠ 0x20 := by simpa using hline.2
    rw [statementTokenize_eq h20]
    constructor
    · rintro ⟨e, out, h⟩
      cases hloop : tokenizeLoop ((c :: cs).length + 2) [] (c :: cs) with
      | none =>
        rw [hloop] at h
        exact absurd h (by simp)
      | some q =>
        obtain ⟨e', out'⟩ := q
        rw [hloop] at h
        simp only [Option.ite_none_right_eq_some] at h
        exact bounded_of_tokenizeLoop hloop h.1
    · intro hb
      have hd : (c :: cs).dropWhile (· = 0x20) = c :: cs := by simp [h20]
      have hstart : Cuts (c :: cs) [] ((c :: cs).dropWhile (· = 0x20)) := by
        rw [hd]
        exact .start
      obtain ⟨e, out, hloop, hlen⟩ := hb.tokenizeLoop h0
        (show (c :: cs).length < (c :: cs).length + 2 by omega) hstart
      rw [hloop]
      exact ⟨e, out, by simp only [if_pos hlen]⟩

/-- A line that has been tokenized fits into the buffer.

**Proof sketch.** What is read first is a lexeme (`exists_lexeme_of_read`), and so is what the loop
reads, unless it refuses the text (`cuts_of_tokenizeLoop`). The bytes of the lexemes are those that
have been written, and these fit. -/
theorem fits_of_statementTokenize {e : Error} {out : List UInt8}
    (h : statementTokenize line = some (e, out)) : e = .syntaxError ∨ Fits line := by
  have hlen := length_le_of_statementTokenize h
  unfold statementTokenize at h
  cases hread : statementTokenizeString line with
  | none => simp [hread] at h
  | some p =>
    cases p with
    | none =>
      simp only [hread, Option.some.injEq, Prod.mk.injEq] at h
      exact .inl h.1.symm
    | some p =>
      obtain ⟨toks, r⟩ := p
      simp only [hread] at h
      cases hloop : tokenizeLoop (line.length + 1) toks r with
      | none => simp [hloop] at h
      | some q =>
        obtain ⟨e', out'⟩ := q
        have hc := (exists_lexeme_of_read hread).cuts .start
        rw [List.nil_append] at hc
        simp only [hloop, Option.ite_none_right_eq_some, Option.some.injEq, Prod.mk.injEq] at h
        obtain ⟨-, rfl, rfl⟩ := h
        rcases cuts_of_tokenizeLoop hc hloop with he | ⟨bytes, hbytes, hout⟩
        · exact .inl he
        · refine .inr ⟨?_, bytes, hbytes, ?_⟩
          · rintro rfl
            have hempty : statementTokenizeString [] = some none := rfl
            rw [hempty] at hread
            exact absurd hread (by simp)
          · rwa [hout, List.length_append, List.length_singleton] at hlen

/-- **The limits of the tokenizer.** For every line, without its terminator, and whatever the buffer
holds: the tokenizer ends, stays inside of its arrays and the line, and refuses a line that does not
fit, if and only if the line is bounded.

**Proof sketch.** The tokenizer with pointers either ends as the one on lists does, or passes the
end of an array and the one on lists has no result (`Cursor.statementTokenize_ends`). This one has a
result exactly when the line is bounded (`statementTokenize_isSome_iff`). -/
theorem staysInBounds_iff (buf : Ram) (line : List UInt8) (h0 : 0 ∉ line) :
    StaysInBounds buf line ↔ Bounded line := by
  rw [← statementTokenize_isSome_iff h0]
  rcases Cursor.statementTokenize_ends h0 buf with ⟨e, out, c, hpure, hrun, -⟩ | ⟨hpure, hover⟩
  · refine ⟨fun _ => ⟨e, out, hpure⟩, fun _ => ⟨e, c, hrun, fun hfit => ?_⟩⟩
    exact (fits_of_statementTokenize hpure).resolve_right hfit
  · constructor
    · rintro ⟨e, c, hrun, -⟩
      obtain ⟨o, ho, -⟩ := hover
      rw [hrun] at ho
      exact absurd ho (by simp)
    · rintro ⟨e, out, h⟩
      rw [hpure] at h
      exact absurd h (by simp)

end

/-- `A = "B"` stays inside of the limits. -/
theorem staysInBounds_assignment :
    StaysInBounds (fun _ => 0) (ascii ['A', ' ', '='] ++ [0x20, 0x22, 0x42, 0x22]) := by
  refine (staysInBounds_iff _ _ (by decide)).2 ?_
  refine (statementTokenize_isSome_iff (by decide)).1 ⟨.noerror, [tokRegister, 0, tokOperator,
    opEqual, tokString, 2, 0x42, 0, tokTerminator], ?_⟩
  decide +kernel

/-- The tokenizer keeps its limits for every line that fits the buffer of the input. -/
def TokenizerStaysInBounds : Prop :=
  ∀ (buf : Ram) (line : List UInt8), 0 ∉ line → line.length ≤ 255 → StaysInBounds buf line

/-- The nine letters `ABCDEFGHI` and a terminator are copied to `funcname`, which has nine bytes. -/
theorem not_tokenizerStaysInBounds : ¬ TokenizerStaysInBounds := by
  intro hall
  have hrun : Cursor.statementTokenize (fun _ => 0)
      (ascii ['A', 'B', 'C', 'D', 'E', 'F', 'G', 'H', 'I']) = .error .funcname := rfl
  obtain ⟨e, c, hok, -⟩ := hall (fun _ => 0)
    (ascii ['A', 'B', 'C', 'D', 'E', 'F', 'G', 'H', 'I']) (by decide) (by decide)
  rw [hrun] at hok
  exact absurd hok (by simp)

end Z80OS.Basic
