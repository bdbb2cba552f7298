import Mathlib.Tactic.SplitIfs
import Z80OS.Basic.Executions

set_option relaxedAutoImplicit false
set_option autoImplicit false

/-!
# The kinds of statements

A statement other than `IF` is interpreted by the function of its keyword, or it inserts a line, or
it assigns a value. Evaluating expressions and printing change nothing but the output and the state
of the random number generator.

## Main definitions

* `Z80OS.Basic.Reseeded` — two states differ in the random numbers only.
* `Z80OS.Basic.Still` — two states differ in the output and the random numbers only.
* `Z80OS.Basic.Dispatch` — what a statement other than `IF` is interpreted as.

## Main results

* `Z80OS.Basic.dispatch` — the interpretation of a statement other than `IF`.
-/

namespace Z80OS.Basic

/-! ## Evaluating and printing -/

/-- Two states differ in the state of the random number generator only. -/
def Reseeded (s s' : State) : Prop := s' = s.withSeed s'.r

/-- Two states differ in the output and in the state of the random number generator only. -/
def Still (s s' : State) : Prop := s' = { s with r := s'.r, output := s'.output }

/-- What the interpretation of a statement gives that only prints, or fails. -/
def Shows (s : State) : Interpreted → Prop
  | .ok (o, s') => o ≠ .run ∧ Still s s'
  | .error f => f = .undefined

namespace Still

variable {s s' s'' : State}

/-- Nothing has changed. -/
@[refl] theorem refl (s : State) : Still s s := rfl

/-- Two steps that change nothing that counts. -/
@[trans] theorem trans (h : Still s s') (h' : Still s' s'') : Still s s'' := by
  unfold Still at h h' ⊢
  rw [h', h]

/-- What is printed does not count. -/
theorem print (s : State) (text : List UInt8) : Still s (s.print text) := rfl

end Still

namespace Reseeded

variable {s s' s'' : State}

/-- Not even the seed has changed. -/
@[refl] theorem refl (s : State) : Reseeded s s := rfl

/-- Two steps that change the seed only. -/
@[trans] theorem trans (h : Reseeded s s') (h' : Reseeded s' s'') : Reseeded s s'' := by
  unfold Reseeded at h h' ⊢
  rw [h', h]
  rfl

/-- Another seed. -/
theorem withSeed (s : State) (r : ℕ) : Reseeded s (s.withSeed r) := rfl

/-- A step that changes the seed only changes nothing that counts. -/
theorem still (h : Reseeded s s') : Still s s' := by
  rw [h]
  rfl

/-- The states are equal when the random number generator is in the same state. -/
theorem eq_of_seed (h : Reseeded s s') (hr : s'.r = s.r) : s' = s := by
  rw [h, hr]
  rfl

end Reseeded

/-- A value of what follows comes from a value. -/
theorem except_map_eq_ok {α β : Type} {r : Result α} {f : α → β} {b : β} (h : r.map f = .ok b) :
    ∃ a, r = .ok a ∧ f a = b := by
  cases r with
  | error e => exact absurd h (by simp [Except.map])
  | ok a => exact ⟨a, rfl, by simpa [Except.map] using h⟩

/-- What follows has no faults of its own. -/
theorem except_map_eq_error {α β : Type} {r : Result α} {f : α → β} {fault : Fault}
    (h : r.map f = .error fault) : r = .error fault := by
  cases r with
  | error e => exact congrArg _ (Except.error.inj h)
  | ok a => exact absurd h (by simp [Except.map])

/-- A value of an option is its value. -/
theorem orFault_map_eq_ok {α β : Type} {o : Option α} {f : α → β} {b : β}
    (h : (orFault o).map f = .ok b) : ∃ a, o = some a ∧ f a = b := by
  cases o with
  | none => exact absurd h (by simp [orFault, Except.map])
  | some a => exact ⟨a, rfl, by simpa [orFault, Except.map] using h⟩

/-- An option without a value is undefined behaviour. -/
theorem orFault_map_eq_error {α β : Type} {o : Option α} {f : α → β} {fault : Fault}
    (h : (orFault o).map f = .error fault) : fault = .undefined := by
  cases o with
  | none => exact (Except.error.inj h).symm
  | some a => exact absurd h (by simp [orFault, Except.map])

section

variable {s s' : State} {a toks : ℕ} {fault : Fault}

/-- The evaluation of an expression changes the state of the random number generator only. -/
theorem eval_eq_ok {r : Except Error (ℤ × ℕ)} (h : eval s toks = .ok (r, s')) :
    ∃ r', evalNumeric ramSize s s.r toks = some (r, r') ∧ s' = s.withSeed r' := by
  obtain ⟨⟨r₁, r'⟩, he, hr⟩ := orFault_map_eq_ok h
  simp only [Prod.mk.injEq] at hr
  exact ⟨r', by rw [he, hr.1], hr.2.symm⟩

/-- An evaluation changes the seed only. -/
theorem eval_reseeded {r : Except Error (ℤ × ℕ)} (h : eval s toks = .ok (r, s')) :
    Reseeded s s' := by
  obtain ⟨r', -, rfl⟩ := eval_eq_ok h
  exact Reseeded.withSeed s r'

/-- An evaluation changes nothing that counts. -/
theorem eval_still {r : Except Error (ℤ × ℕ)} (h : eval s toks = .ok (r, s')) : Still s s' :=
  (eval_reseeded h).still

/-- An evaluation has no other fault than undefined behaviour. -/
theorem eval_fault (h : eval s toks = .error fault) : fault = .undefined := orFault_map_eq_error h

/-- The search for a variable changes the seed only. -/
theorem getPtr_eq_ok {r : Except Error (Ref × ℕ)} (h : getPtr s toks = .ok (r, s')) :
    ∃ r', tVariableGetPtr ramSize s s.r toks = some (r, r') ∧ s' = s.withSeed r' := by
  obtain ⟨⟨r₁, r'⟩, he, hr⟩ := orFault_map_eq_ok h
  simp only [Prod.mk.injEq] at hr
  exact ⟨r', by rw [he, hr.1], hr.2.symm⟩

/-- The search for a variable changes the seed only. -/
theorem getPtr_reseeded {r : Except Error (Ref × ℕ)} (h : getPtr s toks = .ok (r, s')) :
    Reseeded s s' := by
  obtain ⟨r', -, rfl⟩ := getPtr_eq_ok h
  exact Reseeded.withSeed s r'

/-- The search for a variable changes nothing that counts. -/
theorem getPtr_still {r : Except Error (Ref × ℕ)} (h : getPtr s toks = .ok (r, s')) : Still s s' :=
  (getPtr_reseeded h).still

/-- The search for a variable has no other fault than undefined behaviour. -/
theorem getPtr_fault (h : getPtr s toks = .error fault) : fault = .undefined :=
  orFault_map_eq_error h

/-- The expressions of an `IF` change the seed only. -/
theorem ifEval_reseeded {r : Except Error (ℤ × ℕ)} (h : ifEval s toks = .ok (r, s')) :
    Reseeded s s' := by
  unfold ifEval at h
  split at h
  · exact absurd h (by simp)
  · next heval =>
    simp only [Except.ok.injEq, Prod.mk.injEq] at h
    exact h.2 ▸ eval_reseeded heval
  · next s₁ heval =>
    have h₁ := eval_reseeded heval
    cases hagain : eval s₁ toks with
    | error f => simp [hagain, Except.map] at h
    | ok q =>
      obtain ⟨r₂, s₂⟩ := q
      have h₂ := h₁.trans (eval_reseeded hagain)
      cases r₂ <;>
        · simp only [hagain, Except.map, Except.ok.injEq, Prod.mk.injEq] at h
          exact h.2 ▸ h₂

/-- The expressions of an `IF` have no other fault than undefined behaviour. -/
theorem ifEval_fault (h : ifEval s toks = .error fault) : fault = .undefined := by
  unfold ifEval at h
  split at h
  · next heval => exact Except.error.inj h ▸ eval_fault heval
  · exact absurd h (by simp)
  · next s₁ heval =>
    cases hagain : eval s₁ toks with
    | error f =>
      rw [hagain] at h
      exact eval_fault (hagain.trans h)
    | ok q => simp [hagain, Except.map] at h

/-- The comparison of an `IF` changes the state of the random number generator only. -/
theorem ifSub_reseeded {r : Except Error ℕ} (h : ifSub s toks = .ok (r, s')) : Reseeded s s' := by
  unfold ifSub at h
  split at h
  · exact absurd h (by simp)
  · next heval =>
    simp only [Except.ok.injEq, Prod.mk.injEq] at h
    exact h.2 ▸ ifEval_reseeded heval
  · next s₁ heval =>
    have h₁ := ifEval_reseeded heval
    split at h
    · simp only [Except.ok.injEq, Prod.mk.injEq] at h
      exact h.2 ▸ h₁
    · split at h
      · exact absurd h (by simp)
      · next hright =>
        simp only [Except.ok.injEq, Prod.mk.injEq] at h
        exact h.2 ▸ h₁.trans (ifEval_reseeded hright)
      · next hright =>
        have h₂ := h₁.trans (ifEval_reseeded hright)
        split at h
        · simp only [Except.ok.injEq, Prod.mk.injEq] at h
          exact h.2 ▸ h₂
        · split at h <;>
            · simp only [Except.ok.injEq, Prod.mk.injEq] at h
              exact h.2 ▸ h₂

/-- The comparison of an `IF` changes nothing that counts. -/
theorem ifSub_still {r : Except Error ℕ} (h : ifSub s toks = .ok (r, s')) : Still s s' :=
  (ifSub_reseeded h).still

/-- The comparison of an `IF` has no other fault than undefined behaviour. -/
theorem ifSub_fault (h : ifSub s toks = .error fault) : fault = .undefined := by
  unfold ifSub at h
  split at h
  · next heval => exact Except.error.inj h ▸ ifEval_fault heval
  · exact absurd h (by simp)
  · split at h
    · exact absurd h (by simp)
    · split at h
      · next hright => exact Except.error.inj h ▸ ifEval_fault hright
      · exact absurd h (by simp)
      · split at h
        · exact absurd h (by simp)
        · split at h <;> exact absurd h (by simp)

/-- A failure shows its error, and changes nothing. -/
theorem fails_shows (e : Error) : Shows s (fails s e) := ⟨by simp, Still.refl s⟩

/-- A success shows no error, and changes nothing. -/
theorem succeeds_shows : Shows s (succeeds s) := ⟨by simp, Still.refl s⟩

/-- What is shown from a state in which nothing has changed that counts. -/
theorem Shows.after {s₁ : State} {r : Interpreted} (h₁ : Still s s₁) (h : Shows s₁ r) :
    Shows s r := by
  cases r with
  | error f => exact h
  | ok q => exact ⟨h.1, h₁.trans h.2⟩

/-! ### Items of a `PRINT` -/

/-- An item of a `PRINT` is a string or an expression. The result has the token behind it, or the
error of the expression. -/
def printItem (s : State) (toks : ℕ) : Result (Except Error ℕ × State) :=
  if s.ram toks = tokString then
    .ok (.ok (tVarlenSkip s.ram toks), s.print (s.ram.string (toks + 2)))
  else
    (eval s toks).map fun
      | (.error e, s) => (.error e, s)
      | (.ok (result, stop), s) => (.ok stop, s.print (printNumeric result))

/-- What a `PRINT` does behind an item. -/
def printRest (k : ℕ) : Except Error ℕ × State → Interpreted
  | (.error e, s) => fails s e
  | (.ok stop, s) =>
    if s.ram stop = tokTerminator then succeeds (s.print newline)
    else if s.ram stop ≠ tokSeparator then fails s .syntaxError
    else doPrint k s (stop + sepSize)

/-- A `PRINT` prints its first item and goes on behind it. -/
theorem doPrint_succ (k : ℕ) : doPrint (k + 1) s toks = (printItem s toks).bind (printRest k) := by
  rw [doPrint]
  split
  · next f hitem =>
    have h : printItem s toks = .error f := hitem
    rw [h]
    rfl
  · next e s₁ hitem =>
    have h : printItem s toks = .ok (.error e, s₁) := hitem
    rw [h]
    rfl
  · next stop s₁ hitem =>
    have h : printItem s toks = .ok (.ok stop, s₁) := hitem
    rw [h]
    rfl

/-- An item is printed, or nothing is. -/
theorem printItem_still {r : Except Error ℕ} {s₁ : State} (h : printItem s toks = .ok (r, s₁)) :
    Still s s₁ := by
  unfold printItem at h
  split at h
  · simp only [Except.ok.injEq, Prod.mk.injEq] at h
    exact h.2 ▸ Still.print s _
  · obtain ⟨⟨v, s₂⟩, heval, heq⟩ := except_map_eq_ok h
    have hvalue : Still s s₂ := eval_still heval
    cases v with
    | error e =>
      simp only [Prod.mk.injEq] at heq
      exact heq.2 ▸ hvalue
    | ok v =>
      simp only [Prod.mk.injEq] at heq
      exact heq.2 ▸ hvalue.trans (Still.print s₂ _)

/-- An item of `PRINT` has no other fault than undefined behaviour. -/
theorem printItem_fault (h : printItem s toks = .error fault) : fault = .undefined := by
  unfold printItem at h
  split at h
  · exact absurd h (by simp)
  · exact eval_fault (except_map_eq_error h)

/-- A `PRINT` only prints. -/
theorem doPrint_shows {k : ℕ} : Shows s (doPrint k s toks) := by
  induction k generalizing s toks with
  | zero => exact rfl
  | succ k ih =>
    rw [doPrint_succ]
    cases hitem : printItem s toks with
    | error f => exact printItem_fault hitem
    | ok q =>
      obtain ⟨e | stop, s₁⟩ := q
      · exact (fails_shows e).after (printItem_still hitem)
      · apply Shows.after (printItem_still hitem)
        simp only [Except.bind, printRest]
        split_ifs
        · exact ⟨by simp, Still.print s₁ newline⟩
        · exact fails_shows .syntaxError
        · exact ih

/-! ## Statements -/

/-- The statement at an address has a keyword. -/
def KeywordAt (s : State) (a : ℕ) (kw : UInt8) : Prop :=
  s.ram a = tokKeyword ∧ s.ram (a + 1) = kw

/-- The statement at an address assigns to a variable or to an element of an array. -/
def AssignAt (s : State) (a : ℕ) : Prop := s.ram a = tokVariable ∨ s.ram a = tokRegister

/-- A statement with a keyword assigns nothing. -/
theorem KeywordAt.not_assignAt {kw : UInt8} (h : KeywordAt s a kw) : ¬ AssignAt s a := by
  rintro (ha | ha) <;> rw [h.1] at ha <;> exact absurd ha (by decide)

end

section

variable [Target] {s : State} {a : ℕ}

/-- A `LIST` only prints. -/
theorem doList_shows : Shows s (doList s) := by
  unfold doList programList
  cases hl : programListTo s.ram ramSize Target.programStart with
  | none => exact rfl
  | some text => exact ⟨by simp, Still.print s text⟩

/-- What the statement at an address is interpreted as, when it is no `IF`. -/
inductive Dispatch (s : State) (a : ℕ) : Interpreted → Prop
  | shows {r : Interpreted} (hnot : ¬ AssignAt s a) (h : Shows s r) : Dispatch s a r
  | insert (hk : s.ram a = tokNumeric) :
      Dispatch s a ((programInsert s a).map fun r => (.done r.1, r.2))
  | assign (ha : AssignAt s a) : Dispatch s a (doAssign s a)
  | new (hk : KeywordAt s a keywordNew) : Dispatch s a (doNew s)
  | run (hk : KeywordAt s a keywordRun) : Dispatch s a (doRun s)
  | stop (hk : KeywordAt s a keywordEnd) : Dispatch s a (doEnd s)
  | goto (hk : KeywordAt s a keywordGoto) : Dispatch s a (doGoto s (a + kwSize))
  | jumpto (hk : KeywordAt s a keywordJumpto) : Dispatch s a (doJumpto s (a + kwSize))
  | for (hk : KeywordAt s a keywordFor) : Dispatch s a (doFor s (a + kwSize))
  | next (hk : KeywordAt s a keywordNext) : Dispatch s a (doNext s (a + kwSize))
  | gosub (hk : KeywordAt s a keywordGosub) : Dispatch s a (doGosub s (a + kwSize))
  | jumpsub (hk : KeywordAt s a keywordJumpsub) : Dispatch s a (doJumpsub s (a + kwSize))
  | return (hk : KeywordAt s a keywordReturn) : Dispatch s a (doReturn s)
  | dim (hk : KeywordAt s a keywordDim) : Dispatch s a (doDim s (a + kwSize))

/-- Both branches of a test are interpreted as the keyword says. -/
theorem Dispatch.ite {p : Prop} [Decidable p] {r r' : Interpreted} (h : p → Dispatch s a r)
    (h' : Dispatch s a r') : Dispatch s a (if p then r else r') := by
  by_cases hp : p
  · rw [if_pos hp]
    exact h hp
  · rw [if_neg hp]
    exact h'

/-- The interpretation of a keyword is the interpretation of the statement. -/
theorem statementInterpret_keyword {k : ℕ} {kw : UInt8} (hk : KeywordAt s a kw) :
    statementInterpret (k + 1) s a =
      tKeywordInterpret (statementInterpret k) s kw (a + kwSize) := by
  rw [statementInterpret, hk.1, if_neg (by decide), if_pos rfl, hk.2]

/-- The interpretation of an assignment. -/
theorem statementInterpret_assign (ha : AssignAt s a) :
    statementInterpret 1 s a = doAssign s a := by
  have hnum : s.ram a ≠ tokNumeric := by
    rcases ha with ha | ha <;> rw [ha] <;> decide
  have hkw : s.ram a ≠ tokKeyword := by
    rcases ha with ha | ha <;> rw [ha] <;> decide
  rw [statementInterpret, if_neg hnum, if_neg hkw]
  exact if_pos ha

/-- **The interpretation of a statement other than `IF`.**

**Proof sketch.** Along the branches of the interpreter in the order of the source. The branch of
`IF` is excluded. -/
theorem dispatch (hif : ¬ IsIf s a) : Dispatch s a (statementInterpret 1 s a) := by
  rw [statementInterpret]
  by_cases hnum : s.ram a = tokNumeric
  · rw [if_pos hnum]
    exact .insert hnum
  rw [if_neg hnum]
  by_cases hkw : s.ram a = tokKeyword
  · have hat : ∀ kw, s.ram (a + 1) = kw → KeywordAt s a kw := fun kw h => ⟨hkw, h⟩
    have hnot : ¬ AssignAt s a := (hat _ rfl).not_assignAt
    rw [if_pos hkw, tKeywordInterpret]
    apply Dispatch.ite fun _ => .shows hnot doPrint_shows
    apply Dispatch.ite fun _ => .shows hnot doList_shows
    apply Dispatch.ite fun h => .new (hat _ h)
    apply Dispatch.ite fun h => .run (hat _ h)
    apply Dispatch.ite fun h => .stop (hat _ h)
    apply Dispatch.ite fun h => .goto (hat _ h)
    apply Dispatch.ite fun h => .for (hat _ h)
    apply Dispatch.ite fun _ => .shows hnot (fails_shows .syntaxError)
    apply Dispatch.ite fun h => .next (hat _ h)
    apply Dispatch.ite fun h => .gosub (hat _ h)
    apply Dispatch.ite fun h => .return (hat _ h)
    apply Dispatch.ite fun h => .dim (hat _ h)
    apply Dispatch.ite fun h => absurd (hat _ h) hif
    apply Dispatch.ite fun _ => .shows hnot (fails_shows .syntaxError)
    apply Dispatch.ite fun h => .jumpto (hat _ h)
    apply Dispatch.ite fun h => .jumpsub (hat _ h)
    exact .shows hnot (fails_shows .undefinedKw)
  rw [if_neg hkw]
  by_cases ha : s.ram a = tokVariable ∨ s.ram a = tokRegister
  · rw [if_pos ha]
    exact .assign ha
  rw [if_neg ha]
  apply Dispatch.ite fun _ => .shows ha succeeds_shows
  exact .shows ha (fails_shows .syntaxError)

end

end Z80OS.Basic
