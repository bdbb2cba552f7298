import Z80OS.Basic.Session

set_option relaxedAutoImplicit false
set_option autoImplicit false

/-!
# The statements that are executed

One line that the user types, or one line of the program, can execute several statements: an `IF`
has a sub-statement, which is interpreted again when it fails, and the statements that have started
a run are interpreted again when the run ends with an error. This file says which statements are
executed, and in which states, and has the rule for what all of them preserve.

## Main definitions

* `Z80OS.Basic.Executes` — the interpretation of a statement comes to another one.
* `Z80OS.Basic.StepExecutes` — a statement is executed in a step of a session.

## Main results

* `Z80OS.Basic.statementInterpret_rule` — what holds after every statement that is executed holds
  after the interpretation.
-/

namespace Z80OS.Basic

section

variable [Target]

/-- The statement at an address is an `IF`. -/
def IsIf (s : State) (a : ℕ) : Prop := s.ram a = tokKeyword ∧ s.ram (a + 1) = keywordIf

instance (s : State) (a : ℕ) : Decidable (IsIf s a) := by
  unfold IsIf
  infer_instance

/-- The comparison of the `IF` at an address holds, and its sub-statement comes next. -/
def ThenAt (s : State) (a : ℕ) (s₁ : State) (a₁ : ℕ) : Prop :=
  IsIf s a ∧ ifSub s (a + kwSize) = .ok (.ok a₁, s₁)

/-- The interpretation of the statement at `a` in `s`, with at most `k` statements inside each
other, comes to the interpretation of the statement at `a'` in `s'`. -/
inductive Executes : ℕ → State → ℕ → State → ℕ → Prop
  | here {k : ℕ} {s : State} {a : ℕ} : Executes (k + 1) s a s a
  | sub {k : ℕ} {s s₁ s' : State} {a a₁ a' : ℕ} (h : ThenAt s a s₁ a₁)
      (hrest : Executes k s₁ a₁ s' a') : Executes (k + 1) s a s' a'
  | again {k : ℕ} {s s₁ s₂ s' : State} {a a₁ a' : ℕ} {e : Error} (h : ThenAt s a s₁ a₁)
      (hfail : statementInterpret k s₁ a₁ = .ok (.done e, s₂)) (he : e ≠ .noerror)
      (hrest : Executes k s₂ a₁ s' a') : Executes (k + 1) s a s' a'

/-- A statement is executed when a run that has started by sub-statements of `IF` has ended. -/
inductive ReturnExecutes : List ℕ → State → Error → State → ℕ → Prop
  | here {stmt : ℕ} {again : List ℕ} {s s' : State} {e : Error} {a : ℕ} (he : e ≠ .noerror)
      (h : Executes nestingMax s stmt s' a) : ReturnExecutes (stmt :: again) s e s' a
  | next {stmt : ℕ} {again : List ℕ} {s s₁ s' : State} {e e₁ : Error} {a : ℕ} (he : e ≠ .noerror)
      (h : interpret s stmt = .ok (.done e₁, s₁)) (hrest : ReturnExecutes again s₁ e₁ s' a) :
      ReturnExecutes (stmt :: again) s e s' a

/-- The state in which the line of the program is interpreted that comes next. -/
def State.enterLine (s : State) : State :=
  { s with programCurrentLine := s.programNextLine }.goTo (progNext s.ram s.programNextLine)

/-- One turn of the loop, by the state in which the line is interpreted. -/
theorem programTurn_eq (s : State) : programTurn s =
    if s.ram (progStmt s.programNextLine) = tokAlloc then
      .ok (some .syntaxError, { s with programCurrentLine := s.programNextLine })
    else if s.ram (progStmt s.programNextLine) = tokNumeric then
      .ok (some .syntaxError, { s with programCurrentLine := s.programNextLine })
    else
      match interpret s.enterLine (progStmt s.programNextLine) with
      | .error f => .error f
      | .ok (.run, s) => .ok (none, s)
      | .ok (.done e, s) =>
        if s.mode = .ready then .ok (some .noerror, s)
        else if e ≠ .noerror then .ok (some e, s)
        else if s.programNextLine = null then .ok (some .goto, s)
        else .ok (none, s) := rfl

/-- A statement is executed in a step of a session. -/
inductive StepExecutes : State → Input → State → ℕ → Prop
  | direct {s s' : State} {text stmt : List UInt8} {a : ℕ}
      (ht : statementTokenize text = some (.noerror, stmt))
      (h : Executes nestingMax (s.memcpy Target.statement stmt) Target.statement s' a) :
      StepExecutes s (.line text) s' a
  | stored {s s' : State} {a : ℕ} (hm : s.mode ≠ .ready)
      (halloc : s.ram (progStmt s.programNextLine) ≠ tokAlloc)
      (hnum : s.ram (progStmt s.programNextLine) ≠ tokNumeric)
      (h : Executes nestingMax s.enterLine (progStmt s.programNextLine) s' a) :
      StepExecutes s .go s' a
  | returned {s s₁ s' : State} {nested : Bool} {again : List ℕ} {e : Error} {a : ℕ}
      (hm : s.mode = .running nested again) (ht : programTurn s = .ok (some e, s₁))
      (h : ReturnExecutes again (s₁.withMode .ready) e s' a) : StepExecutes s .go s' a

/-! ## Tests

A test of the statements that are executed in a step, when none of them is an `IF`. -/

/-- The interpretation of a statement other than `IF` comes to no other statement. -/
theorem Executes.eq_of_not_if {k : ℕ} {s' s₁ : State} {a a₁ : ℕ} (h : Executes k s₁ a₁ s' a)
    (hif : ¬ IsIf s₁ a₁) : s' = s₁ ∧ a = a₁ := by
  cases h with
  | here => exact ⟨rfl, rfl⟩
  | sub hthen _ => exact absurd hthen.1 hif
  | again hthen _ _ _ => exact absurd hthen.1 hif

/-- A test for the statement that is executed in a step. -/
def executedTest (t : State → ℕ → Bool) (s : State) : Input → Bool
  | .line text =>
    match statementTokenize text with
    | some (.noerror, stmt) =>
      let s := s.memcpy Target.statement stmt
      !decide (IsIf s Target.statement) && t s Target.statement
    | _ => true
  | .go =>
    match s.mode with
    | .running _ [] => !decide (IsIf s.enterLine (progStmt s.programNextLine)) &&
        t s.enterLine (progStmt s.programNextLine)
    | _ => false

/-- A test that every executed statement passes. -/
theorem StepExecutes.of_test {t : State → ℕ → Bool} {s s' : State} {input : Input} {a : ℕ}
    (htest : executedTest t s input = true) (h : StepExecutes s input s' a) : t s' a = true := by
  cases h with
  | direct ht h =>
    simp only [executedTest, ht, Bool.and_eq_true, Bool.not_eq_true',
      decide_eq_false_iff_not] at htest
    obtain ⟨rfl, rfl⟩ := h.eq_of_not_if htest.1
    exact htest.2
  | stored hm _ _ h =>
    cases hmode : s.mode with
    | ready => exact absurd hmode hm
    | running nested again =>
      cases again with
      | cons b again => simp [executedTest, hmode] at htest
      | nil =>
        simp only [executedTest, hmode, Bool.and_eq_true, Bool.not_eq_true',
          decide_eq_false_iff_not] at htest
        obtain ⟨rfl, rfl⟩ := h.eq_of_not_if htest.1
        exact htest.2
  | returned hm _ h =>
    cases h <;> simp [executedTest, hm] at htest

/-! ## One statement -/

/-- The interpretation of an `IF`. -/
theorem statementInterpret_if {k : ℕ} {s : State} {a : ℕ} (h : IsIf s a) :
    statementInterpret (k + 1) s a = doIf (statementInterpret k) s (a + kwSize) := by
  rw [statementInterpret, h.1, if_neg (by decide), if_pos rfl, h.2]
  rfl

/-- Other statements have no statement inside. -/
theorem statementInterpret_simple {k : ℕ} {s : State} {a : ℕ} (h : ¬ IsIf s a) :
    statementInterpret (k + 1) s a = statementInterpret 1 s a := by
  rw [statementInterpret, statementInterpret]
  by_cases hk : s.ram a = tokKeyword
  · have hif : s.ram (a + 1) ≠ keywordIf := fun he => h ⟨hk, he⟩
    simp only [hk, show tokKeyword ≠ tokNumeric by decide, if_false, if_true]
    simp only [tKeywordInterpret, hif, if_false]
  · simp only [hk, if_false]

/-- Without levels a statement has no result. -/
theorem statementInterpret_zero {s : State} {a : ℕ} :
    statementInterpret 0 s a = .error .undefined := rfl

/-- What holds after every statement that is executed holds after the interpretation. The invariant
`I` holds where a statement is executed, and `R` holds of what the interpretation gives.

**Proof sketch.** By induction on the depth. A statement other than `IF` is `hsimple`. At an `IF`
the condition fails (`hstop`), or the statement behind `THEN` is interpreted: the induction
hypothesis gives `R` for it, and if it failed the hypothesis is used once more on the second
attempt, for which `hagain` restores the invariant. -/
theorem statementInterpret_rule {I : ℕ → State → ℕ → Prop} {R : Outcome → State → Prop}
    (hsimple : ∀ k s a o s', I (k + 1) s a → ¬ IsIf s a →
      statementInterpret 1 s a = .ok (o, s') → R o s')
    (hstop : ∀ k s a e s', I (k + 1) s a → IsIf s a →
      ifSub s (a + kwSize) = .ok (.error e, s') → R (.done e) s')
    (hsub : ∀ k s a s₁ a₁, I (k + 1) s a → ThenAt s a s₁ a₁ → I k s₁ a₁)
    (hagain : ∀ k s a s₁ a₁ e s₂, I (k + 1) s a → ThenAt s a s₁ a₁ →
      statementInterpret k s₁ a₁ = .ok (.done e, s₂) → e ≠ .noerror → R (.done e) s₂ → I k s₂ a₁)
    (hrun : ∀ k s a s₁ a₁ s₂ nested again, I (k + 1) s a → ThenAt s a s₁ a₁ →
      statementInterpret k s₁ a₁ = .ok (.run, s₂) → s₂.mode = .running nested again → R .run s₂ →
      R .run (s₂.withMode (.running nested (again ++ [a₁]))))
    {k : ℕ} {s s' : State} {a : ℕ} {o : Outcome} (hI : I k s a)
    (h : statementInterpret k s a = .ok (o, s')) : R o s' := by
  induction k generalizing s a s' o with
  | zero => exact absurd h (by simp [statementInterpret_zero])
  | succ k ih =>
    by_cases hif : IsIf s a
    · rw [statementInterpret_if hif, doIf] at h
      cases hsubst : ifSub s (a + kwSize) with
      | error f => simp [hsubst] at h
      | ok p =>
        obtain ⟨r, s₁⟩ := p
        cases r with
        | error e =>
          simp only [hsubst, fails, Except.ok.injEq, Prod.mk.injEq] at h
          obtain ⟨rfl, rfl⟩ := h
          exact hstop k s a e s₁ hI hif hsubst
        | ok a₁ =>
          have hthen : ThenAt s a s₁ a₁ := ⟨hif, hsubst⟩
          simp only [hsubst, ifThen] at h
          have hI₁ := hsub k s a s₁ a₁ hI hthen
          cases hint : statementInterpret k s₁ a₁ with
          | error f => simp [hint] at h
          | ok q =>
            obtain ⟨o₂, s₂⟩ := q
            have hR := ih hI₁ hint
            cases o₂ with
            | done e =>
              by_cases he : e = .noerror
              · subst he
                simp only [hint, succeeds, Except.ok.injEq, Prod.mk.injEq] at h
                obtain ⟨rfl, rfl⟩ := h
                exact hR
              · have h' : statementInterpret k s₂ a₁ = .ok (o, s') := by
                  rw [hint] at h
                  cases e <;> first | exact absurd rfl he | exact h
                exact ih (hagain k s a s₁ a₁ e s₂ hI hthen hint he hR) h'
            | run =>
              simp only [hint] at h
              cases hmode : s₂.mode with
              | ready =>
                simp only [hmode, Except.ok.injEq, Prod.mk.injEq] at h
                obtain ⟨rfl, rfl⟩ := h
                exact hR
              | running nested again =>
                simp only [hmode, Except.ok.injEq, Prod.mk.injEq] at h
                obtain ⟨rfl, rfl⟩ := h
                exact hrun k s a s₁ a₁ s₂ nested again hI hthen hint hmode hR
    · rw [statementInterpret_simple hif] at h
      exact hsimple k s a o s' hI hif h

end

end Z80OS.Basic
