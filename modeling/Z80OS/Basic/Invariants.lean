import Z80OS.Basic.Guarded

set_option relaxedAutoImplicit false
set_option autoImplicit false

/-!
# Invariants of sessions

What every statement other than `IF` keeps, and what filling the buffer, entering a line of the
program and reporting an error keep, holds in every state of a session. No condition on the
statements is needed. Where a step has no result there is no state after it.

## Main definitions

* `Z80OS.Basic.Stable` — an invariant that single statements keep.

## Main results

* `Z80OS.Basic.Stable.reached` — it holds in every state that a session reaches.
-/

namespace Z80OS.Basic

section

variable [Target]

/-- An invariant that the parts of a step keep. -/
structure Stable (I : State → Prop) : Prop where
  still : ∀ {s s'}, I s → Still s s' → I s'
  mode : ∀ {s} mode, I s → I (s.withMode mode)
  buffer : ∀ {s} {text stmt} {e}, I s → statementTokenize text = some (e, stmt) →
    I (s.memcpy Target.statement stmt)
  current : ∀ {s}, I s → I { s with programCurrentLine := s.programNextLine }
  enterLine : ∀ {s}, I s → I s.enterLine
  simple : ∀ {s s' a o}, I s → ¬ IsIf s a → statementInterpret 1 s a = .ok (o, s') → I s'

namespace Stable

variable {I : State → Prop} {s s' : State} {a : ℕ}

/-- The interpretation of a statement keeps the invariant. -/
theorem interpret (S : Stable I) {k : ℕ} {o : Outcome} (hI : I s)
    (h : statementInterpret k s a = .ok (o, s')) : I s' := by
  refine statementInterpret_rule (I := fun _ s _ => I s) (R := fun _ s => I s) ?_ ?_ ?_ ?_ ?_ hI h
  · intro _ s a o s' hI hif hint
    exact S.simple hI hif hint
  · intro _ s a e s' hI _ hsub
    exact S.still hI (ifSub_still hsub)
  · intro _ s a s₁ a₁ hI hthen
    exact S.still hI (ifSub_still hthen.2)
  · intro _ s a s₁ a₁ e s₂ _ _ _ _ hI₂
    exact hI₂
  · intro _ s a s₁ a₁ s₂ nested again _ _ _ _ hI₂
    exact S.mode _ hI₂

/-- The report of an error keeps the condition. -/
theorem reportInt (S : Stable I) (hI : I s) (e : Error) : I (reportInt s e) := by
  unfold Basic.reportInt
  split
  · exact hI
  · exact S.still hI (Still.print s _)

/-- A line that is entered keeps the condition. -/
theorem processLine (S : Stable I) {text : List UInt8} {e : Error} (hI : I s)
    (h : processLine s text = .ok (e, s')) : I s' := by
  unfold Basic.processLine at h
  cases ht : statementTokenize text with
  | none => simp [ht] at h
  | some q =>
    obtain ⟨e₁, stmt⟩ := q
    have hbuffer : I (s.memcpy Target.statement stmt) := S.buffer hI ht
    simp only [ht] at h
    by_cases he : e₁ = .noerror
    · simp only [he, ne_eq, not_true_eq_false, if_false] at h
      obtain ⟨⟨o, s₁⟩, hint, hr⟩ := except_map_eq_ok h
      have hI₁ : I s₁ := S.interpret hbuffer hint
      cases o with
      | done e₂ => exact (Prod.mk.inj hr).2 ▸ S.reportInt hI₁ e₂
      | run => exact (Prod.mk.inj hr).2 ▸ hI₁
    · simp only [ne_eq, he, not_false_eq_true, if_true, Except.ok.injEq, Prod.mk.injEq] at h
      exact h.2 ▸ S.still hbuffer (Still.print _ _)

/-- The wait for the next line keeps the condition. -/
theorem waits (S : Stable I) (hI : I s) (nested : Bool) (again : List ℕ) :
    I (s.waits nested again) := by
  unfold State.waits
  cases s.mode with
  | ready => exact hI
  | running nested' again' => exact S.mode _ hI

/-- The return of the loop keeps the condition. -/
theorem programReturn (S : Stable I) {nested : Bool} {again : List ℕ} {e e' : Error} (hI : I s)
    (h : programReturn nested again s e = .ok (e', s')) : I s' := by
  induction again generalizing s e with
  | nil =>
    unfold Basic.programReturn at h
    cases nested with
    | true =>
      simp only [if_true, Except.ok.injEq, Prod.mk.injEq] at h
      exact h.2 ▸ hI
    | false =>
      simp only [Bool.false_eq_true, if_false, Except.ok.injEq, Prod.mk.injEq] at h
      exact h.2 ▸ S.reportInt hI e
  | cons stmt again ih =>
    rw [Basic.programReturn] at h
    by_cases he : e = .noerror
    · simp only [he, if_true, Except.ok.injEq, Prod.mk.injEq] at h
      exact h.2 ▸ hI
    · rw [if_neg he] at h
      cases hint : Basic.interpret s stmt with
      | error f => simp [hint] at h
      | ok q =>
        obtain ⟨o, s₁⟩ := q
        have hI₁ : I s₁ := S.interpret hI hint
        simp only [hint] at h
        cases o with
        | done e₁ => exact ih hI₁ h
        | run =>
          simp only [Except.ok.injEq, Prod.mk.injEq] at h
          exact h.2 ▸ S.waits hI₁ nested again

/-- A turn of the loop keeps the condition. -/
theorem programTurn (S : Stable I) {r : Option Error} (hI : I s)
    (h : programTurn s = .ok (r, s')) : I s' := by
  rw [programTurn_eq] at h
  split at h
  · simp only [Except.ok.injEq, Prod.mk.injEq] at h
    exact h.2 ▸ S.current hI
  · split at h
    · simp only [Except.ok.injEq, Prod.mk.injEq] at h
      exact h.2 ▸ S.current hI
    · cases hint : Basic.interpret s.enterLine (progStmt s.programNextLine) with
      | error f => simp [hint] at h
      | ok q =>
        obtain ⟨o, s₁⟩ := q
        have hI₁ : I s₁ := S.interpret (S.enterLine hI) hint
        have hs : s₁ = s' := by
          simp only [hint] at h
          cases o with
          | run => exact (Prod.mk.inj (Except.ok.inj h)).2
          | done e =>
            simp only at h
            split at h
            · exact (Prod.mk.inj (Except.ok.inj h)).2
            · split at h
              · exact (Prod.mk.inj (Except.ok.inj h)).2
              · split at h <;> exact (Prod.mk.inj (Except.ok.inj h)).2
        exact hs ▸ hI₁

/-- **A step of a session keeps the invariant.** -/
theorem basicStep (S : Stable I) {input : Input} {e : Error} (hI : I s)
    (h : basicStep s input = .ok (e, s')) : I s' := by
  cases input with
  | line text => exact S.processLine hI h
  | go =>
    rw [Basic.basicStep] at h
    cases hmode : s.mode with
    | ready =>
      simp only [hmode, Except.ok.injEq, Prod.mk.injEq] at h
      exact h.2 ▸ hI
    | running nested again =>
      simp only [hmode, programStep] at h
      cases ht : Basic.programTurn s with
      | error f => simp [ht] at h
      | ok q =>
        obtain ⟨r, s₁⟩ := q
        have hI₁ : I s₁ := S.programTurn hI ht
        cases r with
        | none =>
          simp only [ht, Except.ok.injEq, Prod.mk.injEq] at h
          exact h.2 ▸ hI₁
        | some e₁ =>
          simp only [ht] at h
          exact S.programReturn (S.mode .ready hI₁) h

/-- **The invariant holds in every state that a session reaches.** -/
theorem reached (S : Stable I) {inputs : List Input} {es : List Error} (hI : I s)
    (h : Run.exec basicRun s inputs = some (es, s')) : I s' := by
  refine Run.invariant (I := I) ?_ hI h
  intro s input e s' hI hstep
  exact S.basicStep hI (basicRun_eq_some hstep)

end Stable

end

end Z80OS.Basic
