import Z80OS.Basic.Editing
import Z80OS.Basic.Effects

set_option relaxedAutoImplicit false
set_option autoImplicit false

/-!
# Tame statements

A statement is interpreted where its tokens stand, in a line of the program or in the buffer for
direct statements. It is tame when it does none of the things by which the interpreter loses track
of the program: reading a jump that nobody has resolved, starting a program that has no first line,
storing outside of the arrays, and so on.

## Main definitions

* `Z80OS.Basic.TokensAt` — where the tokens of a statement stand.
* `Z80OS.Basic.LeadsToRun` — the sub-statement that is interpreted in the end is `RUN`.
* `Z80OS.Basic.Tame` — a tame statement.

## Main results

* `Z80OS.Basic.LeadsToRun.rewritten` — a statement that leads to `RUN` does so after jumps have been
  rewritten.
-/

namespace Z80OS.Basic

/-! ## Tokens at an address -/

section Tokens

variable {m : Ram} {a : ℕ} {ts : List Token}

/-- The first byte of a statement in memory is the kind of its first token. -/
theorem kind_of_holds (h : m.Holds a (stored ts)) :
    m a = (ts.head?.map Token.kind).getD tokTerminator := by
  cases ts with
  | nil =>
    simp only [stored_nil, Ram.holds_cons] at h
    exact h.1
  | cons t ts =>
    obtain ⟨data, hdata⟩ := t.bytes_eq_kind_cons
    rw [stored_cons, hdata, List.cons_append, Ram.holds_cons] at h
    exact h.1

/-- A statement that starts with a keyword in memory has it as its first token. -/
theorem keyword_of_holds {kw : UInt8} (h : m.Holds a (stored ts)) (hk : m a = tokKeyword)
    (hkw : m (a + 1) = kw) : ∃ rest, ts = .keyword kw :: rest := by
  have hkind := kind_of_holds h
  rw [hk] at hkind
  cases ts with
  | nil => exact absurd hkind (by decide)
  | cons t ts =>
    cases t with
    | keyword kw' =>
      simp only [stored_cons, Token.bytes, List.cons_append, List.nil_append, Ram.holds_cons] at h
      exact ⟨ts, by rw [← hkw, h.2.1]⟩
    | _ => exact absurd hkind (by simp [Token.kind]; decide)

/-- A statement that starts with a number in memory has it as its first token. -/
theorem numeric_of_holds (h : m.Holds a (stored ts)) (hk : m a = tokNumeric) :
    ∃ w rest, ts = .numeric w :: rest := by
  have hkind := kind_of_holds h
  rw [hk] at hkind
  cases ts with
  | nil => exact absurd hkind (by decide)
  | cons t ts =>
    cases t with
    | numeric w => exact ⟨w, ts, rfl⟩
    | _ => exact absurd hkind (by simp [Token.kind]; decide)

/-- The tokens behind a keyword. -/
theorem holds_of_keyword {kw : UInt8} (h : m.Holds a (stored (.keyword kw :: ts))) :
    m a = tokKeyword ∧ m (a + 1) = kw ∧ m.Holds (a + kwSize) (stored ts) := by
  simp only [stored_cons, Token.bytes, List.cons_append, List.nil_append, Ram.holds_cons] at h
  exact ⟨h.1, h.2.1, h.2.2⟩

end Tokens

/-! ## Where statements stand -/

/-- The tokens `ts` stand at an address, at the end of the line `l` of a program. -/
structure InLine (p before : List ProgLine) (l : ProgLine) (after : List ProgLine) (a : ℕ)
    (ts : List Token) : Prop where
  program : p = before ++ l :: after
  tokens : ∃ pre, l.stmt = pre ++ ts ∧ a = progStmt l.addr + (encode pre).length

/-- The sub-statement that is interpreted in the end is `RUN`, when sub-statements follow the first
`THEN`. -/
inductive LeadsToRun : List Token → Prop
  | run (rest : List Token) : LeadsToRun (.keyword keywordRun :: rest)
  | sub {e sub : List Token} (he : Token.keyword keywordThen ∉ e) (h : LeadsToRun sub) :
      LeadsToRun (.keyword keywordIf :: (e ++ .keyword keywordThen :: sub))

section

variable [Target]

/-- The tokens `ts` stand at an address, in a line of the program or in the buffer. -/
structure TokensAt (s : State) (p : List ProgLine) (a : ℕ) (ts : List Token) : Prop where
  stream : Stream ts
  holds : s.ram.Holds a (stored ts)
  place : (∃ before l after, InLine p before l after a ts) ∨
    Target.statement ≤ a ∧ a + (stored ts).length ≤ Target.statement + statementSizeMax

/-- The statement at an address has had its keyword from the beginning. -/
def Typed (s : State) (a : ℕ) (kw : UInt8) : Prop :=
  ∃ l ∈ s.inserted, ∃ i, a = progStmt l.addr + i ∧ l.stmt[i]? = some tokKeyword ∧
    l.stmt[i + 1]? = some kw

/-- A statement is tame.

* A sub-statement of `IF` is what follows the first `THEN`; this fails when parentheses are missing.
* A `FOR` that finds the return stack empty begins with a value below its limit, and with a variable
  that there is room for.
* A jump to an address that is executed by a program is one that the interpreter has written.
* A number is stored in a variable, or in the region of the program outside of the lines; this fails
  when a variable is used as a number and as an array.
* `RUN` is executed when there is a line at the start of the region; this fails when the program has
  no line, and when memory was allocated in front of the first one.
* There is room in the region for what is inserted and allocated. -/
structure Tame (s : State) (a : ℕ) : Prop where
  then_first : ∀ ts, Stream ts → s.ram.Holds a (stored ts) → ∀ s₁ a₁, ThenAt s a s₁ a₁ →
    ∃ e sub, ts = .keyword keywordIf :: (e ++ .keyword keywordThen :: sub) ∧
      Token.keyword keywordThen ∉ e ∧ a₁ = a + kwSize + (encode e).length + kwSize
  for_begins : s.mode ≠ .ready → KeywordAt s a keywordFor → s.programReturnStack = [] →
    ∀ start limit, forLimits s.ram (a + kwSize) = some (start, limit) → start < limit ∧
      (programGetNumericRef s (a + kwSize) = some none → s.programContext.length < maxVars)
  resolved : s.mode ≠ .ready → KeywordAt s a keywordJumpto ∨ KeywordAt s a keywordJumpsub →
    ¬ Typed s a (s.ram (a + 1))
  element : AssignAt s a → ∀ b next s₁, assignPtr s a = .ok (.ok (.memory b, next), s₁) →
    Target.programStart ≤ b ∧ b + 2 ≤ s.programEndPtr ∧
      ∀ l ∈ s.inserted, b + 2 ≤ l.addr ∨ progStmt l.addr + l.stmt.length ≤ b
  run_first : KeywordAt s a keywordRun → ∃ l, s.inserted.head? = some l ∧
    l.addr = Target.programStart
  fits : ∀ o s', statementInterpret 1 s a = .ok (o, s') → s'.programEndPtr ≤ Target.programMax

end

/-! ## Rewritten statements that lead to `RUN` -/

/-- A rewritten statement can be split where the statement can.

**Proof sketch.** By induction on the rewriting. The token is not a number, so that it is not the
second one of a rewritten jump; the tokens in front of it have the same length on both sides. -/
theorem Rewritten.split {T : ℤ → ℕ → Prop} {ts' : List Token} {t : Token} {pre post : List Token}
    (h : Rewritten T (pre ++ t :: post) ts') (ht : ∀ w, t ≠ .numeric w) :
    ∃ pre' t' post', ts' = pre' ++ t' :: post' ∧ (encode pre').length = (encode pre).length ∧
      Rewritten T (t :: post) (t' :: post') := by
  generalize hts : pre ++ t :: post = ts at h
  induction h generalizing pre with
  | nil => exact absurd hts (by simp)
  | same u h ih =>
    cases pre with
    | nil =>
      simp only [List.nil_append, List.cons.injEq] at hts
      obtain ⟨rfl, rfl⟩ := hts
      exact ⟨[], t, _, rfl, rfl, .same t h⟩
    | cons v pre =>
      simp only [List.cons_append, List.cons.injEq] at hts
      obtain ⟨rfl, hrest⟩ := hts
      obtain ⟨pre', t', post', rfl, hlen, hr⟩ := ih hrest
      exact ⟨v :: pre', t', post', rfl, by simp [hlen], hr⟩
  | jump hkw hT h ih =>
    cases pre with
    | nil =>
      simp only [List.nil_append, List.cons.injEq] at hts
      obtain ⟨rfl, rfl⟩ := hts
      exact ⟨[], _, _, rfl, rfl, .jump hkw hT h⟩
    | cons v pre =>
      cases pre with
      | nil =>
        simp only [List.cons_append, List.nil_append, List.cons.injEq] at hts
        exact absurd hts.2.1 (ht _)
      | cons w pre =>
        simp only [List.cons_append, List.cons.injEq] at hts
        obtain ⟨rfl, rfl, hrest⟩ := hts
        obtain ⟨pre', t', post', rfl, hlen, hr⟩ := ih hrest
        exact ⟨_ :: _ :: pre', t', post', rfl, by simp [hlen, Token.bytes], hr⟩

/-- A keyword that is not rewritten stays. -/
theorem rewritten_keyword {T : ℤ → ℕ → Prop} {kw : UInt8} {ts ts' : List Token}
    (h : Rewritten T (.keyword kw :: ts) ts') (hkw : ∀ jump, ¬ IsJump kw jump) :
    ∃ ts'', ts' = .keyword kw :: ts'' ∧ Rewritten T ts ts'' := by
  cases h with
  | same _ h => exact ⟨_, rfl, h⟩
  | jump hj _ _ => exact absurd hj (hkw _)

/-- Only `GOTO` and `GOSUB` are rewritten. -/
theorem not_isJump {kw : UInt8} (h : kw ≠ keywordGoto) (h' : kw ≠ keywordGosub) (jump : UInt8) :
    ¬ IsJump kw jump := by
  rintro (⟨he, -⟩ | ⟨he, -⟩)
  · exact h he
  · exact h' he

/-- The tokens in front of the first `THEN` stay in front of it.

**Proof sketch.** By induction on the rewriting. A token that is kept is the `THEN` itself or one in
front of it. A rewritten jump is a keyword other than `THEN` and a number, both in front of it. -/
theorem Rewritten.then {T : ℤ → ℕ → Prop} {e sub ts' : List Token}
    (h : Rewritten T (e ++ .keyword keywordThen :: sub) ts')
    (he : Token.keyword keywordThen ∉ e) :
    ∃ e' sub', ts' = e' ++ .keyword keywordThen :: sub' ∧ Token.keyword keywordThen ∉ e' ∧
      Rewritten T sub sub' := by
  generalize hts : e ++ .keyword keywordThen :: sub = ts at h
  induction h generalizing e with
  | nil => exact absurd hts (by simp)
  | same u h ih =>
    cases e with
    | nil =>
      simp only [List.nil_append, List.cons.injEq] at hts
      obtain ⟨rfl, rfl⟩ := hts
      exact ⟨[], _, rfl, List.not_mem_nil, h⟩
    | cons v e =>
      simp only [List.cons_append, List.cons.injEq] at hts
      obtain ⟨rfl, hrest⟩ := hts
      obtain ⟨e', sub', rfl, he', hr⟩ := ih (fun hm => he (List.mem_cons_of_mem _ hm)) hrest
      refine ⟨v :: e', sub', rfl, ?_, hr⟩
      rw [List.mem_cons]
      rintro (rfl | hm)
      · exact he List.mem_cons_self
      · exact he' hm
  | jump hkw hT h ih =>
    cases e with
    | nil =>
      simp only [List.nil_append, List.cons.injEq, Token.keyword.injEq] at hts
      exact absurd (hts.1 ▸ hkw) (not_isJump (by decide) (by decide) _)
    | cons v e =>
      cases e with
      | nil => exact absurd hts (by simp)
      | cons u e =>
        simp only [List.cons_append, List.cons.injEq] at hts
        obtain ⟨rfl, rfl, hrest⟩ := hts
        obtain ⟨e', sub', rfl, he', hr⟩ :=
          ih (fun hm => he (List.mem_cons_of_mem _ (List.mem_cons_of_mem _ hm))) hrest
        refine ⟨_ :: _ :: e', sub', rfl, ?_, hr⟩
        simp only [List.mem_cons, Token.keyword.injEq, reduceCtorEq, false_or, not_or]
        refine ⟨fun hj => ?_, he'⟩
        rcases hkw with ⟨-, rfl⟩ | ⟨-, rfl⟩ <;> exact absurd hj (by decide)

/-- A statement that leads to `RUN` does so after jumps have been rewritten. -/
theorem LeadsToRun.rewritten {T : ℤ → ℕ → Prop} {ts ts' : List Token} (h : LeadsToRun ts)
    (hr : Rewritten T ts ts') : LeadsToRun ts' := by
  induction h generalizing ts' with
  | run rest =>
    obtain ⟨rest', rfl, -⟩ := rewritten_keyword hr (not_isJump (by decide) (by decide))
    exact .run rest'
  | sub he _ ih =>
    obtain ⟨u, rfl, hu⟩ := rewritten_keyword hr (not_isJump (by decide) (by decide))
    obtain ⟨e', sub', rfl, he', hsub⟩ := hu.then he
    exact .sub he' (ih hsub)

/-- The first token of a statement that leads to `RUN` is a keyword. -/
theorem LeadsToRun.exists_keyword {ts : List Token} (h : LeadsToRun ts) :
    ∃ kw rest, ts = .keyword kw :: rest ∧ (kw = keywordRun ∨ kw = keywordIf) := by
  cases h with
  | run rest => exact ⟨_, rest, rfl, .inl rfl⟩
  | sub _ _ => exact ⟨_, _, rfl, .inr rfl⟩

end Z80OS.Basic
