import Z80OS.Basic.Courses

set_option relaxedAutoImplicit false
set_option autoImplicit false

/-!
# What statements return

The interpreter of a session goes on with a run of the program step by step. Here a statement is
taken together with the runs that it starts: a `RUN` returns what the loop over the lines of the
program returns, and the sub-statement of an `IF` is interpreted once more when it fails.

## Main definitions

* `Z80OS.Basic.Gives` — what a statement, or a run of the program, returns.

## Main results

* `Z80OS.Basic.Gives.unique` — there is one result.
* `Z80OS.Basic.gives_of_interpret` — the results of single statements are those of the interpreter.
-/

namespace Z80OS.Basic

/-- What is executed: a statement, or the program from its next line on. -/
inductive Job
  | statement (s : State) (a : ℕ)
  | program (s : State)

section

variable [Target]

/-- What a statement returns, and the state behind it. A `RUN` returns what the loop over the lines
of the program returns, and the sub-statement of an `IF` is interpreted again when it fails. -/
inductive Gives : Job → Error → State → Prop
  | simple {s s' : State} {a : ℕ} {e : Error} (hif : ¬ IsIf s a)
    (h : statementInterpret 1 s a = .ok (.done e, s')) : Gives (.statement s a) e s'
  | run {s s₁ s' : State} {a : ℕ} {e : Error} (hif : ¬ IsIf s a)
    (h : statementInterpret 1 s a = .ok (.run, s₁)) (hrun : Gives (.program s₁) e s') :
    Gives (.statement s a) e s'
  | stop {s s' : State} {a : ℕ} {e : Error} (hif : IsIf s a)
    (h : ifSub s (a + kwSize) = .ok (.error e, s')) : Gives (.statement s a) e s'
  | holds {s s₁ s' : State} {a a₁ : ℕ} (h : ThenAt s a s₁ a₁)
    (hsub : Gives (.statement s₁ a₁) .noerror s') : Gives (.statement s a) .noerror s'
  | again {s s₁ s₂ s' : State} {a a₁ : ℕ} {e e' : Error} (h : ThenAt s a s₁ a₁)
    (hsub : Gives (.statement s₁ a₁) e s₂) (he : e ≠ .noerror)
    (hagain : Gives (.statement s₂ a₁) e' s') : Gives (.statement s a) e' s'
  | refused {s : State} (h : s.ram (progStmt s.programNextLine) = tokAlloc ∨
      s.ram (progStmt s.programNextLine) = tokNumeric) :
    Gives (.program s) .syntaxError
      ({ s with programCurrentLine := s.programNextLine }.withMode .ready)
  | ended {s s' : State} {e : Error} (h : ¬ (s.ram (progStmt s.programNextLine) = tokAlloc ∨
      s.ram (progStmt s.programNextLine) = tokNumeric))
    (hline : Gives (.statement s.enterLine (progStmt s.programNextLine)) e s')
    (hmode : s'.mode = .ready) : Gives (.program s) .noerror s'
  | failed {s s' : State} {e : Error} (h : ¬ (s.ram (progStmt s.programNextLine) = tokAlloc ∨
      s.ram (progStmt s.programNextLine) = tokNumeric))
    (hline : Gives (.statement s.enterLine (progStmt s.programNextLine)) e s')
    (hmode : s'.mode ≠ .ready) (he : e ≠ .noerror) : Gives (.program s) e (s'.withMode .ready)
  | fell {s s' : State} (h : ¬ (s.ram (progStmt s.programNextLine) = tokAlloc ∨
      s.ram (progStmt s.programNextLine) = tokNumeric))
    (hline : Gives (.statement s.enterLine (progStmt s.programNextLine)) .noerror s')
    (hmode : s'.mode ≠ .ready) (hnext : s'.programNextLine = null) :
    Gives (.program s) .goto (s'.withMode .ready)
  | next {s s₁ s' : State} {e : Error} (h : ¬ (s.ram (progStmt s.programNextLine) = tokAlloc ∨
      s.ram (progStmt s.programNextLine) = tokNumeric))
    (hline : Gives (.statement s.enterLine (progStmt s.programNextLine)) .noerror s₁)
    (hmode : s₁.mode ≠ .ready) (hnext : s₁.programNextLine ≠ null)
    (hrest : Gives (.program s₁) e s') : Gives (.program s) e s'

variable {s s₁ s' : State} {a a₁ : ℕ} {e : Error}

omit [Target] in
/-- What follows `THEN` is one statement, in one state. -/
theorem ThenAt.unique {s₂ : State} {a₂ : ℕ} (h : ThenAt s a s₁ a₁) (h' : ThenAt s a s₂ a₂) :
    s₁ = s₂ ∧ a₁ = a₂ := by
  have heq := h.2.symm.trans h'.2
  simp only [Except.ok.injEq, Prod.mk.injEq] at heq
  exact ⟨heq.2, heq.1⟩

/-- **There is one result.**

**Proof sketch.** Induction on the first derivation. The rules for a statement are told apart by
what its interpretation gives, and those for a run by the state behind a line, which is the same in
the second derivation. -/
theorem Gives.unique {j : Job} {e₁ e₂ : Error} {t₁ t₂ : State} (h₁ : Gives j e₁ t₁)
    (h₂ : Gives j e₂ t₂) : e₁ = e₂ ∧ t₁ = t₂ := by
  induction h₁ generalizing e₂ t₂ with
  | simple hif h =>
    cases h₂ with
    | simple _ h' =>
      have heq := h.symm.trans h'
      simp only [Except.ok.injEq, Prod.mk.injEq, Outcome.done.injEq] at heq
      exact heq
    | run _ h' => exact absurd (h.symm.trans h') (by simp)
    | stop hif' => exact absurd hif' hif
    | holds h' => exact absurd h'.1 hif
    | again h' => exact absurd h'.1 hif
  | run hif h _ ih =>
    cases h₂ with
    | simple _ h' => exact absurd (h.symm.trans h') (by simp)
    | run _ h' hrun' =>
      have heq := h.symm.trans h'
      simp only [Except.ok.injEq, Prod.mk.injEq, true_and] at heq
      subst heq
      exact ih hrun'
    | stop hif' => exact absurd hif' hif
    | holds h' => exact absurd h'.1 hif
    | again h' => exact absurd h'.1 hif
  | stop hif h =>
    cases h₂ with
    | simple hif' => exact absurd hif hif'
    | run hif' => exact absurd hif hif'
    | stop _ h' =>
      have heq := h.symm.trans h'
      simp only [Except.ok.injEq, Prod.mk.injEq, Except.error.injEq] at heq
      exact heq
    | holds h' => exact absurd (h.symm.trans h'.2) (by simp)
    | again h' => exact absurd (h.symm.trans h'.2) (by simp)
  | holds h _ ih =>
    cases h₂ with
    | simple hif' => exact absurd h.1 hif'
    | run hif' => exact absurd h.1 hif'
    | stop _ h' => exact absurd (h'.symm.trans h.2) (by simp)
    | holds h' hsub' =>
      obtain ⟨rfl, rfl⟩ := h.unique h'
      exact ih hsub'
    | again h' hsub' he' =>
      obtain ⟨rfl, rfl⟩ := h.unique h'
      exact absurd (ih hsub').1.symm he'
  | again h _ he _ ih ih' =>
    cases h₂ with
    | simple hif' => exact absurd h.1 hif'
    | run hif' => exact absurd h.1 hif'
    | stop _ h' => exact absurd (h'.symm.trans h.2) (by simp)
    | holds h' hsub' =>
      obtain ⟨rfl, rfl⟩ := h.unique h'
      exact absurd (ih hsub').1 he
    | again h' hsub' _ hagain' =>
      obtain ⟨rfl, rfl⟩ := h.unique h'
      obtain ⟨-, rfl⟩ := ih hsub'
      exact ih' hagain'
  | refused h =>
    cases h₂ with
    | refused => exact ⟨rfl, rfl⟩
    | ended h' | failed h' | fell h' | next h' => exact absurd h h'
  | ended h _ hmode ih =>
    cases h₂ with
    | refused h' => exact absurd h' h
    | ended _ hline' => exact ⟨rfl, (ih hline').2⟩
    | failed _ hline' hmode' | fell _ hline' hmode' | next _ hline' hmode' =>
      exact absurd ((ih hline').2 ▸ hmode) hmode'
  | failed h _ hmode he ih =>
    cases h₂ with
    | refused h' => exact absurd h' h
    | ended _ hline' hmode' => exact absurd ((ih hline').2.symm ▸ hmode') hmode
    | failed _ hline' =>
      obtain ⟨rfl, rfl⟩ := ih hline'
      exact ⟨rfl, rfl⟩
    | fell _ hline' | next _ hline' => exact absurd (ih hline').1 he
  | fell h _ hmode hnext ih =>
    cases h₂ with
    | refused h' => exact absurd h' h
    | ended _ hline' hmode' => exact absurd ((ih hline').2.symm ▸ hmode') hmode
    | failed _ hline' _ he' => exact absurd (ih hline').1.symm he'
    | fell _ hline' =>
      obtain ⟨-, rfl⟩ := ih hline'
      exact ⟨rfl, rfl⟩
    | next _ hline' _ hnext' => exact absurd ((ih hline').2 ▸ hnext) hnext'
  | next h _ hmode hnext _ ih ih' =>
    cases h₂ with
    | refused h' => exact absurd h' h
    | ended _ hline' hmode' => exact absurd ((ih hline').2.symm ▸ hmode') hmode
    | failed _ hline' _ he' => exact absurd (ih hline').1.symm he'
    | fell _ hline' _ hnext' => exact absurd ((ih hline').2.symm ▸ hnext') hnext
    | next _ hline' _ _ hrest' =>
      obtain ⟨-, rfl⟩ := ih hline'
      exact ih' hrest'

/-- A statement that the interpreter has interpreted to its end gives the same result.

**Proof sketch.** By induction on the depth. A statement other than `IF` is done by one step. At an
`IF` the condition fails, or the statement behind `THEN` is interpreted: the induction hypothesis
gives its result, and that of the second attempt when the first one failed. -/
theorem gives_of_interpret {k : ℕ} (h : statementInterpret k s a = .ok (.done e, s')) :
    Gives (.statement s a) e s' := by
  induction k generalizing s a e s' with
  | zero => exact absurd h (by simp [statementInterpret_zero])
  | succ k ih =>
    by_cases hif : IsIf s a
    · rw [statementInterpret_if hif, doIf] at h
      cases hsub : ifSub s (a + kwSize) with
      | error f => simp [hsub] at h
      | ok q =>
        obtain ⟨r, s₁⟩ := q
        cases r with
        | error e₁ =>
          simp only [hsub, fails, Except.ok.injEq, Prod.mk.injEq, Outcome.done.injEq] at h
          obtain ⟨rfl, rfl⟩ := h
          exact .stop hif hsub
        | ok a₁ =>
          have hthen : ThenAt s a s₁ a₁ := ⟨hif, hsub⟩
          simp only [hsub, ifThen] at h
          cases hint : statementInterpret k s₁ a₁ with
          | error f => simp [hint] at h
          | ok q =>
            obtain ⟨o, s₂⟩ := q
            cases o with
            | done e₁ =>
              have hfirst := ih hint
              by_cases he : e₁ = .noerror
              · subst he
                simp only [hint, succeeds, Except.ok.injEq, Prod.mk.injEq,
                  Outcome.done.injEq] at h
                obtain ⟨rfl, rfl⟩ := h
                exact .holds hthen hfirst
              · have hagain : statementInterpret k s₂ a₁ = .ok (.done e, s') := by
                  rw [hint] at h
                  cases e₁ <;> first | exact absurd rfl he | exact h
                exact .again hthen hfirst he (ih hagain)
            | run =>
              rw [hint] at h
              cases hmode : s₂.mode with
              | ready => simp [hmode] at h
              | running nested again => simp [hmode] at h
    · rw [statementInterpret_simple hif] at h
      exact .simple hif h

/-- The result of a statement other than `IF` and `RUN` is the one of the interpreter. -/
theorem Gives.interpret_eq (h : Gives (.statement s a) e s') (hif : ¬ IsIf s a)
    (hrun : ¬ KeywordAt s a keywordRun) : statementInterpret 1 s a = .ok (.done e, s') := by
  cases h with
  | simple _ h => exact h
  | run _ h => exact absurd (keywordAt_run hif h) hrun
  | stop hif' => exact absurd hif' hif
  | holds h => exact absurd h.1 hif
  | again h => exact absurd h.1 hif

end

end Z80OS.Basic
