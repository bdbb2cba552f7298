import Z80OS.Basic.Effects
import Z80OS.Basic.Halting

set_option relaxedAutoImplicit false
set_option autoImplicit false

/-!
# Assignments that fail

An assignment first looks for its target. When that fails because a variable is not defined, the
variable at the beginning of the statement is set to 0, and with that defined, and the target is
looked for again. Only then the rest of the statement is read. Nothing undoes the definition when
the rest fails. When the undefined variable is one in the index of an element, the variable that is
set to 0 is the one of the array.

## Main definitions

* `Z80OS.Basic.SameVariables` — the variables and the arrays are the same.
* `Z80OS.Basic.FailsUnchanged` — a statement that fails changes neither.
* `Z80OS.Basic.LeavesTarget` — an assignment that fails leaves the variable behind that it has set.

## Main results

* `Z80OS.Basic.error_ne_noerror` — an evaluation that fails has an error.
* `Z80OS.Basic.assignment_sameVariables_iff` — when an assignment that fails changes nothing.
-/

namespace Z80OS.Basic

open CallTree

/-! ## Errors of an evaluation -/

section

variable {s : State}

/-- An error of what is handled comes from the evaluation, or from what follows it. -/
theorem yields_handled_error {α β : Type} {P : ∀ c : Call, c.Answer → Prop} {call : ℕ → Body α}
    {r r' : ℕ} {next : α × ℕ → ℕ → Body β} {e : Error}
    (h : (handled call r next).Yields P (.error e, r')) :
    (∃ r₁, (call r₁).Yields P (.error e, r')) ∨
      ∃ p r₁, (next p r₁).Yields P (.error e, r') := by
  rw [handled, Tree.yields_bind] at h
  obtain ⟨⟨e₁ | p, r₁⟩, -, h⟩ := h
  · dsimp only at h
    rw [Tree.yields_bind] at h
    obtain ⟨⟨e₂ | p, r₂⟩, hcall, h⟩ := h
    · simp only [Tree.yields_ret, Prod.mk.injEq, Except.error.injEq] at h
      obtain ⟨rfl, rfl⟩ := h
      exact .inl ⟨r₁, hcall⟩
    · exact h.elim
  · exact .inr ⟨p, r₁, h⟩

/-- The search for an array has two errors. -/
theorem programGetArray_error {toks : ℕ} {e : Error}
    (h : programGetArray s toks = some (.error e)) : e = .undefinedArray ∨ e = .varname := by
  unfold programGetArray at h
  split at h
  · rw [Option.map_eq_some_iff] at h
    obtain ⟨i, -, h⟩ := h
    split at h
    · exact absurd h (by simp)
    · exact .inl (Except.error.inj h).symm
  · dsimp only at h
    split at h
    · exact .inr (Except.error.inj (Option.some.inj h)).symm
    · split at h
      · exact .inl (Except.error.inj (Option.some.inj h)).symm
      · exact absurd h (by simp)

/-- The search for an element has no syntax errors. -/
theorem arrayRef_error {var : ℕ} {index : ℤ} {e : Error}
    (h : arrayRef s var index = some (.error e)) : e ≠ .noerror ∧ e ≠ .syntaxError := by
  unfold arrayRef at h
  split at h
  · exact absurd h (by simp)
  · next e₁ harr =>
    simp only [Option.some.injEq, Except.error.injEq] at h
    subst h
    rcases programGetArray_error harr with rfl | rfl <;> decide
  · split at h
    · simp only [Option.some.injEq, Except.error.injEq] at h
      subst h
      decide
    · split at h
      · simp only [Option.some.injEq, Except.error.injEq] at h
        subst h
        decide
      · exact absurd h (by simp)

/-- The token at the place of a call is one that the function is for. -/
def Call.Expected (m : Ram) : Call → Prop
  | .evalNumeric _ _ => True
  | .evalShuntingYard _ _ _ _ => True
  | .tFuncCall _ toks => m toks = tokFunc
  | .tVariableGetPtr _ toks => varToken m toks ≠ none

/-- An answer that is an error is one, and it is a syntax error at a wrong token only. -/
def Call.Errs (m : Ram) (c : Call) (a : c.Answer) : Prop :=
  ∀ e r, a = (.error e, r) → e ≠ .noerror ∧ (c.Expected m → e ≠ .syntaxError)

/-- **The errors of an evaluation.** An evaluation that fails has an error, and functions and
variables are only called where their tokens are.

**Proof sketch.** Induction on the calls (`Returns.induct`). An error comes from a test of the
function itself, or is passed on from a call. A function or a variable is called in front of its own
token only, so that the call does not fail for a token that is missing. -/
theorem errs_of_returns {c : Call} {a : c.Answer} (h : Returns (body s) c a) : c.Errs s.ram a := by
  refine h.induct (P := Call.Errs s.ram) ?_
  rintro c q hq e r' rfl
  -- the error of a call is the error of the evaluation
  have passed : ∀ {d : Call} {a : d.Answer}, d.Errs s.ram a → d.Expected s.ram →
      ∀ {r}, a = (.error e, r) → e ≠ .noerror ∧ (c.Expected s.ram → e ≠ .syntaxError) :=
    fun herrs hexpected _ ha => ⟨(herrs _ _ ha).1, fun _ => (herrs _ _ ha).2 hexpected⟩
  cases c with
  | evalNumeric r src =>
    simp only [body] at hq
    split_ifs at hq
    · simp at hq
    · simp at hq
    · rcases yields_handled_error hq with ⟨r₁, hyard⟩ | ⟨p, r₁, hnext⟩
      · exact passed (Tree.yields_ask.1 hyard) trivial rfl
      · simp at hnext
  | evalShuntingYard r src output opstack =>
    simp only [body] at hq
    split_ifs at hq with hend hlt hnum hfits hfunc hvar hop hkept
    · simp at hq
    · exact hq.elim
    · exact passed (Tree.yields_ask.1 hq) trivial rfl
    · exact hq.elim
    · rcases yields_handled_error hq with ⟨r₁, hcall⟩ | ⟨p, r₁, hnext⟩
      · exact passed (Tree.yields_ask.1 hcall) hfunc rfl
      · split_ifs at hnext
        · exact passed (Tree.yields_ask.1 hnext) trivial rfl
        · exact hnext.elim
    · have hexpected : varToken s.ram src ≠ none := by
        rw [Bool.or_eq_true, decide_eq_true_eq, decide_eq_true_eq] at hvar
        unfold varToken
        split_ifs with hvariable hregister
        · simp
        · simp
        · exact absurd hvar (not_or.2 ⟨hvariable, hregister⟩)
      rcases yields_handled_error hq with ⟨r₁, hcall⟩ | ⟨p, r₁, hnext⟩
      · exact passed (Tree.yields_ask.1 hcall) hexpected rfl
      · split_ifs at hnext
        · exact passed (Tree.yields_ask.1 hnext) trivial rfl
        · exact hnext.elim
    · exact passed (Tree.yields_ask.1 hq) trivial rfl
    · exact hq.elim
    · exact passed (Tree.yields_ask.1 hq) trivial rfl
  | tFuncCall r toks =>
    simp only [body] at hq
    split_ifs at hq with hfunc
    · simp only [Tree.yields_ret, Prod.mk.injEq, Except.error.injEq] at hq
      rw [hq.1]
      exact ⟨by decide, fun hexpected => absurd hexpected hfunc⟩
    · simp only [Tree.yields_ret, Prod.mk.injEq, Except.error.injEq] at hq
      rw [hq.1]
      exact ⟨by decide, fun _ => by decide⟩
    · rcases yields_handled_error hq with ⟨r₁, hnum⟩ | ⟨p, r₁, hnext⟩
      · exact passed (Tree.yields_ask.1 hnum) trivial rfl
      · split_ifs at hnext
        · exact hnext.elim
        · simp at hnext
    · simp at hq
  | tVariableGetPtr r toks =>
    simp only [body] at hq
    cases hvar : varToken s.ram toks with
    | none =>
      simp only [hvar, Tree.yields_ret, Prod.mk.injEq, Except.error.injEq] at hq
      rw [hq.1]
      exact ⟨by decide, fun hexpected => absurd hvar hexpected⟩
    | some next =>
      rw [hvar] at hq
      dsimp only at hq
      split_ifs at hq
      · rcases yields_handled_error hq with ⟨r₁, hnum⟩ | ⟨p, r₁, hnext⟩
        · exact passed (Tree.yields_ask.1 hnum) trivial rfl
        · rw [Tree.yields_ofOption, Option.map_eq_some_iff] at hnext
          obtain ⟨e₁ | ref, harr, hnext⟩ := hnext
          · simp only [Prod.mk.injEq, Except.error.injEq] at hnext
            obtain ⟨hnoerror, hsyntax⟩ := arrayRef_error harr
            exact hnext.1 ▸ ⟨hnoerror, fun _ => hsyntax⟩
          · simp at hnext
      · rw [Tree.yields_ofOption, Option.map_eq_some_iff] at hq
        obtain ⟨_ | ref, -, hq⟩ := hq
        · simp only [Prod.mk.injEq, Except.error.injEq] at hq
          rw [← hq.1]
          exact ⟨by decide, fun _ => by decide⟩
        · simp at hq

/-- An answer that is an error is one. -/
def Call.Erring (c : Call) (a : c.Answer) : Prop := ∀ e r, a = (.error e, r) → e ≠ .noerror

/-- **An evaluation that fails has an error.** -/
theorem erring_of_returns {c : Call} {a : c.Answer} (h : Returns (body s) c a) : c.Erring a :=
  fun e r ha => (errs_of_returns h e r ha).1

/-- An evaluation does not fail without an error. -/
theorem eval_ne_noerror {toks : ℕ} {e : Error} {s' : State}
    (h : eval s toks = .ok (.error e, s')) : e ≠ .noerror := by
  obtain ⟨r, heval, -⟩ := eval_eq_ok h
  rw [← run_body_evalNumeric] at heval
  exact erring_of_returns ⟨_, heval⟩ e r rfl

/-- The search for a variable does not fail without an error. -/
theorem getPtr_ne_noerror {toks : ℕ} {e : Error} {s' : State}
    (h : getPtr s toks = .ok (.error e, s')) : e ≠ .noerror := by
  obtain ⟨r, hptr, -⟩ := getPtr_eq_ok h
  have hrun : run (body s) ramSize (.tVariableGetPtr s.r toks) = some (.error e, r) :=
    (run_body ramSize _).trans hptr
  exact erring_of_returns ⟨_, hrun⟩ e r rfl

end

/-! ## The variables around an assignment -/

/-- The registers, the variables of the context and memory, in which the arrays are, are the
same. -/
structure SameVariables (s s' : State) : Prop where
  registers : s'.programRegisters = s.programRegisters
  context : s'.programContext = s.programContext
  ram : s'.ram = s.ram

/-- A step that changes nothing that counts leaves the variables. -/
theorem SameVariables.of_still {s s' : State} (h : Still s s') : SameVariables s s' := by
  rw [h]
  exact ⟨rfl, rfl, rfl⟩

/-- Two steps that leave the variables. -/
theorem SameVariables.trans {s s' s'' : State} (h : SameVariables s s')
    (h' : SameVariables s' s'') : SameVariables s s'' :=
  ⟨h'.registers.trans h.registers, h'.context.trans h.context, h'.ram.trans h.ram⟩

/-- Variables that are the same are so the other way round. -/
theorem SameVariables.symm {s s' : State} (h : SameVariables s s') : SameVariables s' s :=
  ⟨h.registers.symm, h.context.symm, h.ram.symm⟩

section

variable [Target] {s s' : State} {a : ℕ}

/-- With the variables as they are, the assignment fails: its target is not found, no `=` is behind
it, or the expression behind that fails. -/
inductive Rejects (s : State) (a : ℕ) : Prop
  | target {e : Error} {s₁ : State} (h : getPtr s a = .ok (.error e, s₁))
  | equal {ref : Ref} {next : ℕ} {s₁ : State} (h : getPtr s a = .ok (.ok (ref, next), s₁))
    (heq : opCheck s₁.ram next opEqual = false)
  | value {ref : Ref} {next : ℕ} {e : Error} {s₁ s₂ : State}
    (h : getPtr s a = .ok (.ok (ref, next), s₁)) (heq : opCheck s₁.ram next opEqual = true)
    (heval : eval s₁ (next + opSize) = .ok (.error e, s₂))

/-- When the statement at the address fails, the variables and the arrays are as they were. -/
def FailsUnchanged (s : State) (a : ℕ) : Prop :=
  ∀ e s', interpret s a = .ok (.done e, s') → e ≠ .noerror → SameVariables s s'

/-- The target is not found because a variable is not defined; setting the variable of the
assignment to 0 changes something; and with that the assignment fails. -/
def LeavesTarget (s : State) (a : ℕ) : Prop :=
  ∃ s₁ s₂, getPtr s a = .ok (.error .undefinedVar, s₁) ∧
    programSetNumeric s₁ a 0 = .ok (.noerror, s₂) ∧ ¬ SameVariables s s₂ ∧ Rejects s₂ a

omit [Target] in
/-- A variable that is not set is not changed. -/
theorem programSetNumeric_failed {toks : ℕ} {val : ℤ} {e : Error}
    (h : programSetNumeric s toks val = .ok (e, s')) (he : e ≠ .noerror) : s' = s := by
  unfold programSetNumeric at h
  split at h
  · exact absurd h (by simp)
  · simp only [Except.ok.injEq, Prod.mk.injEq] at h
    exact absurd h.1.symm he
  · split at h
    · simp only [Except.ok.injEq, Prod.mk.injEq] at h
      exact h.2.symm
    · dsimp only at h
      split at h
      · simp only [Except.ok.injEq, Prod.mk.injEq] at h
        exact h.2.symm
      · simp only [Except.ok.injEq, Prod.mk.injEq] at h
        exact absurd h.1.symm he

/-! ## The end of an assignment -/

omit [Target] in
/-- What an assignment fails with when its target is looked for, at last, in the state `s₁`, is what
the rest of the statement is rejected for in that state. -/
theorem doAssign_failed {s₁ : State} (hptr : assignPtr s a = getPtr s₁ a) {e : Error}
    (h : doAssign s a = .ok (.done e, s')) (he : e ≠ .noerror) :
    Rejects s₁ a ∧ Reseeded s₁ s' := by
  unfold doAssign at h
  rw [hptr] at h
  cases hget : getPtr s₁ a with
  | error f => simp [hget] at h
  | ok q =>
    obtain ⟨e₁ | ⟨ref, next⟩, s₂⟩ := q
    · simp only [hget, fails, Except.ok.injEq, Prod.mk.injEq] at h
      exact ⟨.target hget, h.2 ▸ getPtr_reseeded hget⟩
    · simp only [hget] at h
      have h₂ : Reseeded s₁ s₂ := getPtr_reseeded hget
      cases heq : opCheck s₂.ram next opEqual with
      | false =>
        simp only [heq, Bool.false_eq_true, not_false_eq_true, if_true, fails, Except.ok.injEq,
          Prod.mk.injEq] at h
        exact ⟨.equal hget heq, h.2 ▸ h₂⟩
      | true =>
        simp only [heq, not_true_eq_false, if_false] at h
        cases heval : eval s₂ (next + opSize) with
        | error f => simp [heval] at h
        | ok q =>
          obtain ⟨e₂ | ⟨val, stop⟩, s₃⟩ := q
          · simp only [heval, fails, Except.ok.injEq, Prod.mk.injEq] at h
            exact ⟨.value hget heq heval, h.2 ▸ h₂.trans (eval_reseeded heval)⟩
          · simp only [heval, succeeds, Except.ok.injEq, Prod.mk.injEq, Outcome.done.injEq] at h
            exact absurd h.1.symm he

omit [Target] in
/-- An assignment that is rejected fails. -/
theorem Rejects.failed {s₁ : State} (hptr : assignPtr s a = getPtr s₁ a) (h : Rejects s₁ a) :
    ∃ e s', doAssign s a = .ok (.done e, s') ∧ e ≠ .noerror := by
  unfold doAssign
  rw [hptr]
  cases h with
  | @target e s₂ h => exact ⟨e, s₂, by rw [h]; rfl, getPtr_ne_noerror h⟩
  | @equal ref next s₂ h heq =>
    refine ⟨.syntaxError, s₂, ?_, by decide⟩
    rw [h]
    simp only [heq, Bool.false_eq_true, not_false_eq_true, if_true]
    rfl
  | @value ref next e s₂ s₃ h heq heval =>
    refine ⟨e, s₃, ?_, eval_ne_noerror heval⟩
    rw [h]
    simp only [heq, not_true_eq_false, if_false, heval]
    rfl

omit [Target] in
/-- The target is looked for again when the variable has been set. -/
theorem assignPtr_of_set {s₁ s₂ : State} (h : getPtr s a = .ok (.error .undefinedVar, s₁))
    (hset : programSetNumeric s₁ a 0 = .ok (.noerror, s₂)) : assignPtr s a = getPtr s₂ a := by
  unfold assignPtr
  rw [h]
  simp only [hset]

omit [Target] in
/-- The target is not looked for again when the variable has not been set. -/
theorem assignPtr_of_unset {s₁ s₂ : State} {e : Error}
    (h : getPtr s a = .ok (.error .undefinedVar, s₁))
    (hset : programSetNumeric s₁ a 0 = .ok (e, s₂)) (he : e ≠ .noerror) :
    assignPtr s a = .ok (.error e, s₁) := by
  obtain rfl := programSetNumeric_failed hset he
  unfold assignPtr
  rw [h]
  simp only [hset]

omit [Target] in
/-- The target is looked for once when it is not the lack of a variable that it fails for. -/
theorem assignPtr_of_defined (h : ∀ s₁, getPtr s a ≠ .ok (.error .undefinedVar, s₁)) :
    assignPtr s a = getPtr s a := by
  unfold assignPtr
  split
  · next s₁ hget => exact absurd hget (h s₁)
  · rfl

omit [Target] in
/-- What an assignment that fails has done: nothing, or it has set its variable to 0. -/
theorem doAssign_failed_cases {e : Error} (h : doAssign s a = .ok (.done e, s'))
    (he : e ≠ .noerror) :
    Reseeded s s' ∨ ∃ s₁ s₂, getPtr s a = .ok (.error .undefinedVar, s₁) ∧
      programSetNumeric s₁ a 0 = .ok (.noerror, s₂) ∧ Rejects s₂ a ∧ Reseeded s₂ s' := by
  by_cases hundef : ∃ s₁, getPtr s a = .ok (.error .undefinedVar, s₁)
  · obtain ⟨s₁, hget⟩ := hundef
    cases hset : programSetNumeric s₁ a 0 with
    | error f => simp [doAssign, assignPtr, hget, hset] at h
    | ok q =>
      obtain ⟨e₁, s₂⟩ := q
      by_cases he₁ : e₁ = .noerror
      · subst he₁
        exact .inr ⟨s₁, s₂, hget, hset, doAssign_failed (assignPtr_of_set hget hset) h he⟩
      · simp only [doAssign, assignPtr_of_unset hget hset he₁, fails, Except.ok.injEq,
          Prod.mk.injEq] at h
        exact .inl (h.2 ▸ getPtr_reseeded hget)
  · have hptr := assignPtr_of_defined fun s₁ hget => hundef ⟨s₁, hget⟩
    exact .inl (doAssign_failed hptr h he).2

/-- The interpretation of an assignment does not depend on how deep it is inside other
statements. -/
theorem interpret_assign (ha : AssignAt s a) : interpret s a = doAssign s a := by
  have hif : ¬ IsIf s a := by
    rintro ⟨hk, -⟩
    rcases ha with ha | ha <;> rw [hk] at ha <;> exact absurd ha (by decide)
  show statementInterpret (65535 + 1) s a = _
  rw [statementInterpret_simple hif, statementInterpret_assign ha]

/-- **When an assignment that fails changes nothing.** For every state and every assignment in it:
if the interpretation ends with an error then the variables and the arrays are as they were before,
unless the target was not found because of a variable that is not defined, the variable of the
assignment could be set to 0 and was not 0 before, and the assignment fails all the same.

**Proof sketch.** Evaluating changes the random numbers only. The only change before the last check
is the one that the definition of the variable makes, and it is made exactly when the target is not
found for the lack of a variable and the context has room. -/
theorem assignment_sameVariables_iff (s : State) (a : ℕ) (ha : AssignAt s a) :
    FailsUnchanged s a ↔ ¬ LeavesTarget s a := by
  unfold FailsUnchanged
  rw [interpret_assign ha]
  constructor
  · rintro hall ⟨s₁, s₂, hget, hset, hchange, hrejects⟩
    have hptr := assignPtr_of_set hget hset
    obtain ⟨e, s', hassign, he⟩ := hrejects.failed hptr
    have hsame : SameVariables s₂ s' := .of_still (doAssign_failed hptr hassign he).2.still
    exact hchange ((hall e s' hassign he).trans hsame.symm)
  · intro hleaves e s' hassign he
    rcases doAssign_failed_cases hassign he with h | ⟨s₁, s₂, hget, hset, hrejects, h₂⟩
    · exact .of_still h.still
    · by_contra hchange
      have hsame : SameVariables s₂ s' := .of_still h₂.still
      exact hleaves ⟨s₁, s₂, hget, hset, fun h => hchange (h.trans hsame), hrejects⟩

end

/-! ## A variable that is left behind -/

/-- A state with the tokens of a statement in the buffer, in front of a new program. -/
def typed (toks : List UInt8) : State :=
  letI := Target.small
  (boot State.zeroed).memcpy Target.statement toks

/-- The tokens of `AB = CD`. -/
def nameStatement : List UInt8 :=
  tokVariable :: sized (ascii ['A', 'B']) ++ [tokOperator, opEqual] ++
    tokVariable :: sized (ascii ['C', 'D']) ++ [tokTerminator]

/-- The tokens of `A(0) = 1`. -/
def elementStatement : List UInt8 :=
  [tokRegister, 0, tokOperator, opLparen] ++ numericToken 0 ++
    [tokOperator, opRparen, tokOperator, opEqual] ++ numericToken 1 ++ [tokTerminator]

example : statementTokenize (ascii ['A', 'B', '=', 'C', 'D']) = some (.noerror, nameStatement) := by
  decide +kernel

/-- There is no array, and nothing is changed. -/
theorem assignment_sameVariables_element :
    @FailsUnchanged Target.small (typed elementStatement) (@Target.statement Target.small) := by
  let _ := Target.small
  refine (assignment_sameVariables_iff (typed elementStatement) Target.statement (.inr ?_)).2 ?_
  · decide +kernel
  · rintro ⟨s₁, s₂, hget, -⟩
    obtain ⟨r, hptr, -⟩ := getPtr_eq_ok hget
    have hne : tVariableGetPtr ramSize (typed elementStatement) (typed elementStatement).r
        Target.statement = some (.error .undefinedArray, 1) := by decide +kernel
    rw [hne] at hptr
    simp at hptr

/-- Assignments that fail change nothing. -/
def FailedAssignmentsChangeNothing [Target] : Prop :=
  ∀ (s : State) (a : ℕ), AssignAt s a → FailsUnchanged s a

/-- `AB = CD` fails for the lack of `CD`, and defines `AB`. -/
theorem not_failedAssignmentsChangeNothing :
    ¬ @FailedAssignmentsChangeNothing Target.small := by
  intro hall
  let _ := Target.small
  have hrun : ((interpret (typed nameStatement) Target.statement).toOption.map
      fun q => (q.1, q.2.programContext.length)) = some (.done .undefinedVar, 1) := by
    decide +kernel
  cases hint : interpret (typed nameStatement) Target.statement with
  | error f => simp [hint, Except.toOption] at hrun
  | ok q =>
    obtain ⟨o, s'⟩ := q
    simp only [hint, Except.toOption, Option.map_some, Option.some.injEq, Prod.mk.injEq] at hrun
    obtain ⟨rfl, hlen⟩ := hrun
    have hsame := hall (typed nameStatement) Target.statement (.inl (by decide +kernel)) _ s' hint
      (by decide)
    rw [hsame.context] at hlen
    exact absurd hlen (by decide +kernel)

end Z80OS.Basic
