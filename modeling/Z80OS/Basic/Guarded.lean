import Z80OS.Basic.Dispatch

set_option relaxedAutoImplicit false
set_option autoImplicit false

/-!
# What guarded statements keep

Many facts about the interpreter are of one shape: as long as every statement that is executed meets
a condition, every state keeps an invariant and no table is left. This file reduces such a fact to
what a single statement other than `IF` does.

## Main definitions

* `Z80OS.Basic.Guards` — a condition on statements that guards an invariant.
* `Z80OS.Basic.Upholds` — the invariant holds after a result, and no table has been left.

## Main results

* `Z80OS.Basic.Guards.basicStep_kept` — what a step of a session keeps.
* `Z80OS.Basic.Guards.invariant` — the invariant holds where a statement is executed.
-/

namespace Z80OS.Basic

/-- The invariant holds after a result, and a fault is none of a table. -/
def Upholds {α : Type} (I : State → Prop) : Result (α × State) → Prop
  | .ok (_, s) => I s
  | .error f => f = .undefined

variable {I : State → Prop}

/-- What follows a result keeps the condition when it does so itself. -/
theorem Upholds.map {α β : Type} {r : Result (α × State)} {g : α × State → β × State}
    (h : Upholds I r) (hg : ∀ a s, I s → I (g (a, s)).2) : Upholds I (r.map g) := by
  cases r with
  | error f => exact h
  | ok q => exact hg q.1 q.2 h

/-- Both branches of a test keep the condition. -/
theorem Upholds.ite {α : Type} {p : Prop} [Decidable p] {r r' : Result (α × State)}
    (h : p → Upholds I r) (h' : ¬ p → Upholds I r') : Upholds I (if p then r else r') := by
  by_cases hp : p
  · rw [if_pos hp]
    exact h hp
  · rw [if_neg hp]
    exact h' hp

section

variable [Target] {C : State → ℕ → Prop}

/-- The condition `C` on the statements that are executed guards the invariant `I`. -/
structure Guards (C : State → ℕ → Prop) (I : State → Prop) : Prop where
  still : ∀ {s s'}, I s → Still s s' → I s'
  mode : ∀ {s} mode, I s → I (s.withMode mode)
  buffer : ∀ {s} {text stmt} {e}, I s → statementTokenize text = some (e, stmt) →
    I (s.memcpy Target.statement stmt)
  current : ∀ {s}, I s → I { s with programCurrentLine := s.programNextLine }
  enterLine : ∀ {s}, I s → I s.enterLine
  simple : ∀ {s a}, I s → C s a → ¬ IsIf s a → Upholds I (statementInterpret 1 s a)

namespace Guards

variable {s s' : State} {a a' k : ℕ}

/-- The interpretation of a statement keeps the invariant when each statement that it executes meets
the condition.

**Proof sketch.** The induction is on the depth of the statements. An `IF` comes to its
sub-statement, and once more to it when it fails; both are executed by the `IF`. -/
theorem interpret_kept (G : Guards C I) (hI : I s)
    (hC : ∀ s' a', Executes k s a s' a' → C s' a') : Upholds I (statementInterpret k s a) := by
  induction k generalizing s a with
  | zero => exact rfl
  | succ k ih =>
    by_cases hif : IsIf s a
    · rw [statementInterpret_if hif, doIf]
      cases hsub : ifSub s (a + kwSize) with
      | error f => exact ifSub_fault hsub
      | ok q =>
        obtain ⟨r, s₁⟩ := q
        have hI₁ : I s₁ := G.still hI (ifSub_still hsub)
        cases r with
        | error e => exact hI₁
        | ok a₁ =>
          have hthen : ThenAt s a s₁ a₁ := ⟨hif, hsub⟩
          have hfirst : Upholds I (statementInterpret k s₁ a₁) :=
            ih hI₁ fun s' a' h => hC s' a' (.sub hthen h)
          show Upholds I (ifThen (statementInterpret k) s₁ a₁)
          unfold ifThen
          cases hint : statementInterpret k s₁ a₁ with
          | error f =>
            rw [hint] at hfirst
            exact hfirst
          | ok q =>
            obtain ⟨o, s₂⟩ := q
            have hI₂ : I s₂ := by
              rw [hint] at hfirst
              exact hfirst
            cases o with
            | done e =>
              by_cases he : e = .noerror
              · subst he
                exact hI₂
              · have hagain : Upholds I (statementInterpret k s₂ a₁) :=
                  ih hI₂ fun s' a' h => hC s' a' (.again hthen hint he h)
                cases e <;> first | exact absurd rfl he | exact hagain
            | run =>
              cases hmode : s₂.mode with
              | ready =>
                simp only [hmode]
                exact hI₂
              | running nested again =>
                simp only [hmode]
                exact G.mode _ hI₂
    · rw [statementInterpret_simple hif]
      exact G.simple hI (hC s a .here) hif

/-- The invariant holds in each state in which a statement is executed. -/
theorem executes (G : Guards C I) (h : Executes k s a s' a') (hI : I s)
    (hC : ∀ s' a', Executes k s a s' a' → C s' a') : I s' := by
  induction h with
  | here => exact hI
  | sub hthen _ ih =>
    exact ih (G.still hI (ifSub_still hthen.2)) fun s' a' h => hC s' a' (.sub hthen h)
  | again hthen hfail he _ ih =>
    have hfirst := G.interpret_kept (G.still hI (ifSub_still hthen.2))
      fun s' a' h => hC s' a' (.sub hthen h)
    rw [hfail] at hfirst
    exact ih hfirst fun s' a' h => hC s' a' (.again hthen hfail he h)

/-- A statement keeps the condition when all that it executes does. -/
theorem interpret_eq_ok (G : Guards C I) {o : Outcome} (hI : I s)
    (hC : ∀ s' a', Executes nestingMax s a s' a' → C s' a') (h : interpret s a = .ok (o, s')) :
    I s' := by
  have hkept : Upholds I (interpret s a) := G.interpret_kept hI hC
  rw [h] at hkept
  exact hkept

/-- The report of an error keeps the condition. -/
theorem reportInt (G : Guards C I) (hI : I s) (e : Error) : I (reportInt s e) := by
  unfold Basic.reportInt
  by_cases he : e = .noerror
  · rwa [if_pos he]
  · rw [if_neg he]
    exact G.still hI (Still.print s _)

/-! ## The end of a run -/

variable {e : Error} {again : List ℕ}

/-- The wait for the next line keeps the condition. -/
theorem waits (G : Guards C I) (hI : I s) (nested : Bool) (again : List ℕ) :
    I (s.waits nested again) := by
  unfold State.waits
  cases s.mode with
  | ready => exact hI
  | running nested' again' => exact G.mode _ hI

/-- The return of the loop keeps the condition when the statement behind it does. -/
theorem programReturn_kept (G : Guards C I) {nested : Bool} (hI : I s)
    (hC : ∀ s' a', ReturnExecutes again s e s' a' → C s' a') :
    Upholds I (programReturn nested again s e) := by
  induction again generalizing s e with
  | nil =>
    rw [programReturn]
    exact Upholds.ite (fun _ => hI) fun _ => G.reportInt hI e
  | cons stmt again ih =>
    rw [programReturn]
    refine Upholds.ite (fun _ => hI) fun he => ?_
    have hkept : Upholds I (interpret s stmt) :=
      G.interpret_kept hI fun s' a' h => hC s' a' (.here he h)
    cases hint : interpret s stmt with
    | error f =>
      rw [hint] at hkept
      exact hkept
    | ok q =>
      obtain ⟨o, s₁⟩ := q
      rw [hint] at hkept
      cases o with
      | done e₁ => exact ih hkept fun s' a' h => hC s' a' (.next he hint h)
      | run => exact G.waits hkept nested again

/-- The condition holds where the statement behind a nested loop is executed. -/
theorem returnExecutes (G : Guards C I) (h : ReturnExecutes again s e s' a) (hI : I s)
    (hC : ∀ s' a', ReturnExecutes again s e s' a' → C s' a') : I s' := by
  induction h with
  | here he h => exact G.executes h hI fun s' a' h => hC s' a' (.here he h)
  | next he hint _ ih =>
    have hI₁ := G.interpret_eq_ok hI (fun s' a' h => hC s' a' (.here he h)) hint
    exact ih hI₁ fun s' a' h => hC s' a' (.next he hint h)

/-! ## Steps -/

/-- A turn of the loop keeps the condition when all that it executes does. -/
theorem programTurn_kept (G : Guards C I) (hI : I s)
    (hC : ∀ s' a', s.ram (progStmt s.programNextLine) ≠ tokAlloc →
      s.ram (progStmt s.programNextLine) ≠ tokNumeric →
      Executes nestingMax s.enterLine (progStmt s.programNextLine) s' a' → C s' a') :
    Upholds I (programTurn s) := by
  rw [programTurn_eq]
  refine Upholds.ite (fun _ => G.current hI) fun halloc => ?_
  refine Upholds.ite (fun _ => G.current hI) fun hnum => ?_
  have hkept : Upholds I (interpret s.enterLine (progStmt s.programNextLine)) :=
    G.interpret_kept (G.enterLine hI) fun s' a' h => hC s' a' halloc hnum h
  cases hint : interpret s.enterLine (progStmt s.programNextLine) with
  | error f =>
    rw [hint] at hkept
    exact hkept
  | ok q =>
    obtain ⟨o, s₁⟩ := q
    rw [hint] at hkept
    cases o with
    | run => exact hkept
    | done e =>
      refine Upholds.ite (fun _ => hkept) fun _ => ?_
      refine Upholds.ite (fun _ => hkept) fun _ => ?_
      exact Upholds.ite (fun _ => hkept) fun _ => hkept

/-- The same of a turn in a session. -/
theorem turn (G : Guards C I) {o : Option Error} (hm : s.mode ≠ .ready) (hI : I s)
    (hC : ∀ s' a', StepExecutes s .go s' a' → C s' a') (h : programTurn s = .ok (o, s')) :
    I s' := by
  have hkept := G.programTurn_kept hI fun s' a' halloc hnum h => hC s' a' (.stored hm halloc hnum h)
  rw [h] at hkept
  exact hkept

/-- The end of the loop keeps the condition when all that it executes does. -/
theorem programFinish_kept (G : Guards C I) {nested : Bool} {s₁ : State}
    (hm : s.mode = .running nested again) (ht : programTurn s = .ok (some e, s₁)) (hI : I s)
    (hC : ∀ s' a', StepExecutes s .go s' a' → C s' a') :
    Upholds I (programFinish s₁ e nested again) := by
  have hI₁ : I s₁ := G.turn (by simp [hm]) hI hC ht
  exact G.programReturn_kept (G.mode .ready hI₁) fun s' a' h => hC s' a' (.returned hm ht h)

/-- **A step of a session keeps the invariant** when each statement that it executes meets the
condition.

**Proof sketch.** A line is tokenised into the buffer and interpreted (`Guards.interpret_kept`), and
its error is reported. A turn of a run keeps the invariant (`Guards.programTurn_kept`), whether it
goes on (`Guards.turn`) or finishes the run (`Guards.programFinish_kept`). -/
theorem basicStep_kept (G : Guards C I) (hI : I s) {input : Input}
    (hC : ∀ s' a', StepExecutes s input s' a' → C s' a') : Upholds I (basicStep s input) := by
  cases input with
  | line text =>
    show Upholds I (processLine s text)
    unfold processLine
    cases ht : statementTokenize text with
    | none => exact rfl
    | some q =>
      obtain ⟨e, stmt⟩ := q
      have hbuffer : I (s.memcpy Target.statement stmt) := G.buffer hI ht
      apply Upholds.ite
      · intro _
        exact G.still hbuffer (Still.print _ _)
      · intro he
        obtain rfl : e = .noerror := not_not.1 he
        apply Upholds.map (G.interpret_kept hbuffer fun s' a' h => hC s' a' (.direct ht h))
        intro o s₁ hs₁
        cases o with
        | done e => exact G.reportInt hs₁ e
        | run => exact hs₁
  | go =>
    rw [basicStep]
    cases hmode : s.mode with
    | ready => exact hI
    | running nested again =>
      have hm : s.mode ≠ .ready := by simp [hmode]
      show Upholds I (programStep s nested again)
      unfold programStep
      have hturn := G.programTurn_kept hI
        fun s' a' halloc hnum h => hC s' a' (.stored hm halloc hnum h)
      cases ht : programTurn s with
      | error f =>
        rw [ht] at hturn
        exact hturn
      | ok q =>
        obtain ⟨o, s₁⟩ := q
        cases o with
        | none => exact G.turn hm hI hC ht
        | some e => exact G.programFinish_kept hmode ht hI hC

/-- **The invariant holds where a statement is executed**, when each statement that is executed in
the step meets the condition. -/
theorem invariant (G : Guards C I) {input : Input} (h : StepExecutes s input s' a) (hI : I s)
    (hC : ∀ s' a', StepExecutes s input s' a' → C s' a') : I s' := by
  cases h with
  | direct ht h => exact G.executes h (G.buffer hI ht) fun s' a' h => hC s' a' (.direct ht h)
  | stored hm halloc hnum h =>
    exact G.executes h (G.enterLine hI) fun s' a' h => hC s' a' (.stored hm halloc hnum h)
  | returned hm ht h =>
    have hI₁ := G.turn (by simp [hm]) hI hC ht
    exact G.returnExecutes h (G.mode .ready hI₁) fun s' a' h => hC s' a' (.returned hm ht h)

end Guards

end

end Z80OS.Basic
