import Z80OS.Basic.Assignments
import Z80OS.Basic.Capacity
import Z80OS.Basic.Outcomes

set_option relaxedAutoImplicit false
set_option autoImplicit false

/-!
# Sub-statements of `IF`

An `IF` whose comparison holds interprets its sub-statement in the macro `ERROR_HANDLE`, which names
the call twice: a sub-statement that fails is interpreted once more, in the state in which it has
failed. This file says when an `IF` does the same as its sub-statement.

## Main definitions

* `Z80OS.Basic.Calm` — statements that have no effect when they fail.
* `Z80OS.Basic.PopsTwice` — a `NEXT` that pops two entries when it is interpreted twice.
* `Z80OS.Basic.SameEffect` — what is compared: variables, memory, the return stack, the flow of
  control and the output.
* `Z80OS.Basic.Transparent` — an `IF` does the same as its sub-statement.
* `Z80OS.Basic.FailsAlike` — a statement that fails does so once more, and changes nothing more.

## Main results

* `Z80OS.Basic.Calm.unchanged` — calm statements change nothing when they fail.
* `Z80OS.Basic.next_failsAlike_iff` — when a `NEXT` that fails can as well fail twice.
* `Z80OS.Basic.if_transparent_iff` — when an `IF` does the same as its sub-statement.
-/

namespace Z80OS.Basic

section

variable [Target] {s s₁ s' : State} {a a₁ : ℕ} {e : Error}

omit [Target] in
/-- A statement with another keyword is no `IF`. -/
theorem KeywordAt.not_isIf {kw : UInt8} (hk : KeywordAt s a kw) (hne : kw ≠ keywordIf) :
    ¬ IsIf s a :=
  fun hif => hne (hk.2.symm.trans hif.2)

/-! ## What an `IF` should do -/

/-- The effects are the same: on the variables and the arrays, the return stack, the flow of control
and the output. -/
structure SameEffect (s s' : State) : Prop extends SameVariables s s' where
  programEndPtr : s'.programEndPtr = s.programEndPtr
  programReturnStack : s'.programReturnStack = s.programReturnStack
  programNextLine : s'.programNextLine = s.programNextLine
  mode : s'.mode = s.mode
  output : s'.output = s.output

omit [Target] in
/-- A state with another seed has the same effect. -/
theorem Reseeded.sameEffect (h : Reseeded s s') : SameEffect s s' := by
  rw [h]
  exact ⟨⟨rfl, rfl, rfl⟩, rfl, rfl, rfl, rfl, rfl⟩

/-- What the sub-statement at `a₁` in `s₁` gives, the `IF` gives, with the same effect. -/
def Transparent (s : State) (a : ℕ) (s₁ : State) (a₁ : ℕ) : Prop :=
  ∀ e s₂, Gives (.statement s₁ a₁) e s₂ → ∃ s₃, Gives (.statement s a) e s₃ ∧ SameEffect s₂ s₃

/-- When the statement fails it does so once more, with the same error, and without another
effect. -/
def FailsAlike (s : State) (a : ℕ) : Prop :=
  ∀ e s', Gives (.statement s a) e s' → e ≠ .noerror →
    ∃ s'', Gives (.statement s' a) e s'' ∧ SameEffect s' s''

/-- An `IF` does the same as its sub-statement when this one, if it fails, can as well fail
twice. -/
theorem transparent_iff_failsAlike (h : ThenAt s a s₁ a₁) :
    Transparent s a s₁ a₁ ↔ FailsAlike s₁ a₁ := by
  constructor
  · intro htrans e s₂ hsub he
    obtain ⟨s₃, hgives, hsame⟩ := htrans e s₂ hsub
    cases hgives with
    | simple hif => exact absurd h.1 hif
    | run hif => exact absurd h.1 hif
    | stop _ hstop => exact absurd (hstop.symm.trans h.2) (by simp)
    | holds => exact absurd rfl he
    | again h' hsub' _ hagain =>
      obtain ⟨rfl, rfl⟩ := h.unique h'
      obtain ⟨-, rfl⟩ := hsub.unique hsub'
      exact ⟨s₃, hagain, hsame⟩
  · intro halike e s₂ hsub
    by_cases he : e = .noerror
    · subst he
      exact ⟨s₂, .holds h hsub, (Reseeded.refl s₂).sameEffect⟩
    · obtain ⟨s₃, hagain, hsame⟩ := halike e s₂ hsub he
      exact ⟨s₃, .again h hsub he hagain, hsame⟩

/-! ## Statements that fail without an effect -/

/-- An interpretation that fails has changed nothing. -/
def FailsStill (s : State) (r : Interpreted) : Prop :=
  ∀ e s', r = .ok (.done e, s') → e ≠ .noerror → s' = s

namespace FailsStill

omit [Target] in
/-- Both branches of a test fail without a change. -/
theorem ite {p : Prop} [Decidable p] {r r' : Interpreted} (h : p → FailsStill s r)
    (h' : FailsStill s r') : FailsStill s (if p then r else r') := by
  by_cases hp : p
  · rw [if_pos hp]
    exact h hp
  · rw [if_neg hp]
    exact h'

omit [Target] in
/-- A failure changes nothing. -/
theorem fails (e : Error) : FailsStill s (fails s e) := by
  intro e' s' h _
  simp only [Basic.fails, Except.ok.injEq, Prod.mk.injEq] at h
  exact h.2.symm

omit [Target] in
/-- What does not fail does not fail with a change. -/
theorem of_noerror {r : Interpreted} (h : ∀ e s', r = .ok (.done e, s') → e = .noerror) :
    FailsStill s r :=
  fun e s' hr he => absurd (h e s' hr) he

omit [Target] in
/-- A success does not fail. -/
theorem succeeds : FailsStill s (succeeds s₁) := by
  apply of_noerror
  intro e s' h
  simp only [Basic.succeeds, Except.ok.injEq, Prod.mk.injEq, Outcome.done.injEq] at h
  exact h.1.symm

omit [Target] in
/-- What follows without errors does not fail. -/
theorem map {α : Type} {r : Result α} {f : α → Outcome × State}
    (h : ∀ x, (f x).1 = .done .noerror) : FailsStill s (r.map f) := by
  apply of_noerror
  intro e s' hr
  obtain ⟨x, -, hx⟩ := except_map_eq_ok hr
  have hdone := h x
  rw [hx] at hdone
  exact Outcome.done.inj hdone

omit [Target] in
/-- A jump that is rewritten does not fail. -/
theorem transferRewrite {toks : ℕ} {jump : UInt8} :
    FailsStill s (transferRewrite s₁ toks jump) := by
  apply of_noerror
  intro e s' h
  exact Outcome.done.inj (transferRewrite_eq_ok h).1

end FailsStill

omit [Target] in
/-- `END` fails without a change. -/
theorem doEnd_failsStill : FailsStill s (doEnd s) := by
  intro e s' h he
  simp only [doEnd, programEnd] at h
  split at h
  · simp only [Except.ok.injEq, Prod.mk.injEq] at h
    exact h.2.symm
  · simp only [Except.ok.injEq, Prod.mk.injEq, Outcome.done.injEq] at h
    exact absurd h.1.symm he

/-- `FOR` fails without a change. -/
theorem doFor_failsStill {toks : ℕ} : FailsStill s (doFor s toks) := by
  cases hlimits : forLimits s.ram toks with
  | none =>
    rw [doFor, hlimits]
    exact .fails _
  | some lim => exact .of_noerror fun e s' h => doFor_noerror hlimits h

omit [Target] in
/-- `RETURN` fails without a change. -/
theorem doReturn_failsStill : FailsStill s (doReturn s) := by
  unfold doReturn programPopReturn
  cases hstack : s.programReturnStack with
  | nil =>
    have hs : s.withStack [] = s := by
      rw [← hstack]
      rfl
    simp only [List.head?_nil, List.tail_nil, hs]
    exact .fails _
  | cons top rest => exact .succeeds

omit [Target] in
/-- `DIM` fails without a change. -/
theorem doDim_failsStill {toks : ℕ} : FailsStill s (doDim s toks) := by
  unfold doDim
  split
  · exact .fails _
  · exact .ite (fun _ => .fails _) (.map fun _ => rfl)

omit [Target] in
/-- `GOSUB` fails without a change. -/
theorem doGosub_failsStill {toks : ℕ} : FailsStill s (doGosub s toks) := by
  refine .ite (fun _ => .fails _) ?_
  split
  · exact .of_noerror fun e s' h => absurd h (by simp)
  · exact .transferRewrite

/-- **Most statements change nothing when they fail**: all but assignments, `PRINT`, `NEXT` and
`IF`.

**Proof sketch.** By cases on the kind of the statement in the order of the source. An insertion
does not fail, the excluded kinds do not occur, and each other kind fails without a change. -/
theorem statement_failsStill (hif : ¬ IsIf s a) (hassign : ¬ AssignAt s a)
    (hprint : ¬ KeywordAt s a keywordPrint) (hnext : ¬ KeywordAt s a keywordNext) :
    FailsStill s (statementInterpret 1 s a) := by
  rw [statementInterpret]
  apply FailsStill.ite
  · intro hnum
    apply FailsStill.of_noerror
    intro e s' h
    obtain ⟨⟨e₁, s₁⟩, hins, he⟩ := except_map_eq_ok h
    rcases programInsert_cases hnum with ⟨-, hcase⟩ | ⟨stmt, -, hcase⟩
    · rw [hcase] at hins
      exact absurd hins (by simp)
    · simp only [hcase, Except.ok.injEq, Prod.mk.injEq] at hins
      simp only [Prod.mk.injEq, Outcome.done.injEq] at he
      exact he.1.symm.trans hins.1.symm
  apply FailsStill.ite
  · intro hkw
    have hat : ∀ kw, s.ram (a + 1) = kw → KeywordAt s a kw := fun kw h => ⟨hkw, h⟩
    apply FailsStill.ite fun h => absurd (hat _ h) hprint
    apply FailsStill.ite fun _ => .map fun _ => rfl
    apply FailsStill.ite fun _ => .succeeds
    apply FailsStill.ite fun _ => .of_noerror fun e s' h => absurd h (by simp [doRun])
    apply FailsStill.ite fun _ => doEnd_failsStill
    apply FailsStill.ite fun _ => .ite (fun _ => .fails _) .transferRewrite
    apply FailsStill.ite fun _ => doFor_failsStill
    apply FailsStill.ite fun _ => .fails _
    apply FailsStill.ite fun h => absurd (hat _ h) hnext
    apply FailsStill.ite fun _ => doGosub_failsStill
    apply FailsStill.ite fun _ => doReturn_failsStill
    apply FailsStill.ite fun _ => doDim_failsStill
    apply FailsStill.ite fun h => absurd (hat _ h) hif
    apply FailsStill.ite fun _ => .fails _
    apply FailsStill.ite fun _ => .ite (fun _ => .fails _) .succeeds
    apply FailsStill.ite fun _ => .ite (fun _ => .fails _) (.map fun _ => rfl)
    exact .fails _
  refine .ite (fun ha => ?_) (.ite (fun _ => .succeeds) (.fails _))
  exact absurd ha hassign

/-- A statement that changes nothing when it fails can as well fail twice. -/
theorem FailsStill.failsAlike (h : FailsStill s (statementInterpret 1 s a)) (hif : ¬ IsIf s a)
    (hrun : ¬ KeywordAt s a keywordRun) : FailsAlike s a := by
  intro e s' hgives he
  obtain rfl := h e s' (hgives.interpret_eq hif hrun) he
  exact ⟨s', hgives, (Reseeded.refl s').sameEffect⟩

/-! ## `NEXT` -/

/-- The `NEXT` with its tokens at the address has a variable, which is not the one on top of the
return stack, and there is an entry below that one. -/
def PopsTwice (s : State) (toks : ℕ) : Prop :=
  (s.ram toks = tokVariable ∨ s.ram toks = tokRegister) ∧ ∃ top below rest,
    s.programReturnStack = top :: below :: rest ∧ varcmp s.ram toks top.vartoken = false

omit [Target] in
/-- `NEXT` without a variable is a syntax error. -/
theorem doNext_of_not_variable {toks : ℕ} (hvar : ¬ (s.ram toks = tokVariable ∨
    s.ram toks = tokRegister)) : doNext s toks = fails s .syntaxError := by
  rw [not_or] at hvar
  rw [doNext, if_pos hvar]

section

variable {toks : ℕ} {top : ReturnEntry} {rest : List ReturnEntry}

omit [Target] in
/-- A `NEXT` with nothing on the stack. -/
theorem doNext_of_empty (hstack : s.programReturnStack = []) :
    doNext s toks = fails s .syntaxError := by
  have hs : s.withStack [] = s := by
    rw [← hstack]
    rfl
  rw [doNext]
  split
  · rfl
  · simp only [programPopReturn, hstack, List.head?_nil, List.tail_nil, hs]

omit [Target] in
/-- A `NEXT` of a variable with an entry on the stack. -/
theorem doNext_of_cons (hvar : s.ram toks = tokVariable ∨ s.ram toks = tokRegister)
    (hstack : s.programReturnStack = top :: rest) : doNext s toks =
      if ¬ varcmp s.ram toks top.vartoken then fails (s.withStack rest) .syntaxError
      else
        (programPushReturn (s.withStack rest) s.programCurrentLine top.vartoken).map fun s =>
          (.done .noerror, programTransferControlDirect s top.line) := by
  have hnot : ¬ (s.ram toks ≠ tokVariable ∧ s.ram toks ≠ tokRegister) := by
    rintro ⟨hv, hr⟩
    exact hvar.elim hv hr
  rw [doNext, if_neg hnot]
  simp only [programPopReturn, hstack, List.head?_cons, List.tail_cons]
  rfl

omit [Target] in
/-- A `NEXT` of another variable than the one on top of the stack. -/
theorem doNext_of_mismatch (hvar : s.ram toks = tokVariable ∨ s.ram toks = tokRegister)
    (hstack : s.programReturnStack = top :: rest) (hcmp : varcmp s.ram toks top.vartoken = false) :
    doNext s toks = fails (s.withStack rest) .syntaxError := by
  rw [doNext_of_cons hvar hstack, if_pos (by simp [hcmp])]

omit [Target] in
/-- A `NEXT` of a variable that fails takes the top off the stack, which is for another one. -/
theorem doNext_failed (hvar : s.ram toks = tokVariable ∨ s.ram toks = tokRegister)
    (hstack : s.programReturnStack = top :: rest) (h : doNext s toks = .ok (.done e, s'))
    (he : e ≠ .noerror) :
    e = .syntaxError ∧ s' = s.withStack rest ∧ varcmp s.ram toks top.vartoken = false := by
  cases hcmp : varcmp s.ram toks top.vartoken with
  | false =>
    rw [doNext_of_mismatch hvar hstack hcmp] at h
    simp only [fails, Except.ok.injEq, Prod.mk.injEq, Outcome.done.injEq] at h
    exact ⟨h.1.symm, h.2.symm, rfl⟩
  | true =>
    rw [doNext_of_cons hvar hstack, if_neg (not_not.2 hcmp)] at h
    obtain ⟨s₁, -, heq⟩ := except_map_eq_ok h
    simp only [Prod.mk.injEq, Outcome.done.injEq] at heq
    exact absurd heq.1.symm he

end

/-- What `NEXT` gives is what its function does. -/
theorem gives_next_iff (hk : KeywordAt s a keywordNext) :
    Gives (.statement s a) e s' ↔ doNext s (a + kwSize) = .ok (.done e, s') := by
  have hint : statementInterpret 1 s a = doNext s (a + kwSize) := statementInterpret_keyword hk
  have hif : ¬ IsIf s a := hk.not_isIf (by decide)
  constructor
  · intro h
    rw [← hint]
    exact h.interpret_eq hif fun hrun => absurd (hk.2.symm.trans hrun.2) (by decide)
  · intro h
    exact .simple hif (hint.trans h)

/-- **When a `NEXT` that fails can as well fail twice.** It pops two entries instead of one when the
first one is for another variable and there is a second one.

**Proof sketch.** A failure leaves the state as it is, or has popped the entry of another variable
(`doNext_failed`). Then the second attempt finds an empty stack and fails alike, or pops the next
entry as well, and the stacks differ in length. -/
theorem next_failsAlike_iff (hk : KeywordAt s a keywordNext) :
    FailsAlike s a ↔ ¬ PopsTwice s (a + kwSize) := by
  constructor
  · rintro halike ⟨hvar, top, below, rest, hstack, hcmp⟩
    have hfirst := (gives_next_iff hk).2 (doNext_of_mismatch hvar hstack hcmp)
    obtain ⟨s₂, hagain, hsame⟩ := halike _ _ hfirst (by decide)
    have hk' : KeywordAt (s.withStack (below :: rest)) a keywordNext := hk
    have hvar' : (s.withStack (below :: rest)).ram (a + kwSize) = tokVariable ∨
      (s.withStack (below :: rest)).ram (a + kwSize) = tokRegister := hvar
    obtain ⟨-, rfl, -⟩ :=
      doNext_failed hvar' rfl ((gives_next_iff hk').1 hagain) (by decide)
    have hlen := congrArg List.length hsame.programReturnStack
    simp [State.withStack] at hlen
  · intro hpops e s' hgives he
    have hdo := (gives_next_iff hk).1 hgives
    have hunchanged : s' = s → ∃ s'', Gives (.statement s' a) e s'' ∧ SameEffect s' s'' := by
      rintro rfl
      exact ⟨s', hgives, (Reseeded.refl s').sameEffect⟩
    by_cases hvar : s.ram (a + kwSize) = tokVariable ∨ s.ram (a + kwSize) = tokRegister
    · cases hstack : s.programReturnStack with
      | nil =>
        rw [doNext_of_empty hstack] at hdo
        exact hunchanged (FailsStill.fails _ e s' hdo he)
      | cons top rest =>
        obtain ⟨rfl, rfl, hcmp⟩ := doNext_failed hvar hstack hdo he
        cases rest with
        | nil =>
          have hk' : KeywordAt (s.withStack []) a keywordNext := hk
          exact ⟨_, (gives_next_iff hk').2 (doNext_of_empty rfl), (Reseeded.refl _).sameEffect⟩
        | cons below rest => exact absurd ⟨hvar, top, below, rest, hstack, hcmp⟩ hpops
    · rw [doNext_of_not_variable hvar] at hdo
      exact hunchanged (FailsStill.fails _ e s' hdo he)

/-! ## Random numbers -/

/-- The statement leaves the random number generator as it is when it fails. -/
def KeepsSeed (s : State) (a : ℕ) : Prop :=
  ∀ e s', Gives (.statement s a) e s' → e ≠ .noerror → s'.r = s.r

/-- The statement prints nothing when it fails. -/
def FailsSilently (s : State) (a : ℕ) : Prop :=
  ∀ e s', Gives (.statement s a) e s' → e ≠ .noerror → s'.output = s.output

/-- What an assignment gives is what its function does. -/
theorem gives_assign_iff (ha : AssignAt s a) :
    Gives (.statement s a) e s' ↔ doAssign s a = .ok (.done e, s') := by
  have hif : ¬ IsIf s a := fun hif => KeywordAt.not_assignAt hif ha
  rw [← statementInterpret_assign ha]
  exact ⟨fun h => h.interpret_eq hif fun hrun => hrun.not_assignAt ha, .simple hif⟩

/-- **An assignment that fails without drawing a random number can as well fail twice.**

**Proof sketch.** The only effect that it has had is that its variable has been set to 0. Setting it
again changes nothing, and without random numbers everything else is found as it was. -/
theorem assign_failsAlike (ha : AssignAt s a)
    (hptr : ∀ r s₁, getPtr s a = .ok (r, s₁) → s₁.r = s.r) (hseed : KeepsSeed s a) :
    FailsAlike s a := by
  intro e s' hgives he
  have hr := hseed e s' hgives he
  have hdo := (gives_assign_iff ha).1 hgives
  rcases doAssign_failed_cases hdo he with h | ⟨s₁, s₂, hget, hset, -, h⟩
  · obtain rfl := h.eq_of_seed hr
    exact ⟨s', hgives, (Reseeded.refl s').sameEffect⟩
  · obtain rfl := (getPtr_reseeded hget).eq_of_seed (hptr _ _ hget)
    have hr₂ : s₂.r = s₁.r := by
      rcases programSetNumeric_cases hset with ⟨ref, href, rfl⟩ | ⟨-, rfl⟩
      · cases ref with
        | register i => rfl
        | context i => rfl
        | memory b => rfl
      · rfl
    obtain rfl := h.eq_of_seed (hr.trans hr₂.symm)
    have hfirst : assignPtr s₁ a = getPtr s' a := assignPtr_of_set hget hset
    have hagain : assignPtr s' a = getPtr s' a := by
      by_cases hundef : ∃ s₃, getPtr s' a = .ok (.error .undefinedVar, s₃)
      · obtain ⟨s₃, hget'⟩ := hundef
        have hs₃ : s₃ = s' := by
          simp only [doAssign, hfirst, hget', fails, Except.ok.injEq, Prod.mk.injEq] at hdo
          exact hdo.2
        exact assignPtr_of_set (hs₃ ▸ hget') (programSetNumeric_again hset)
      · exact assignPtr_of_defined fun s₃ hget' => hundef ⟨s₃, hget'⟩
    have ha' : AssignAt s' a := by
      unfold AssignAt
      rw [(programSetNumeric_quiet hset).ram]
      exact ha
    refine ⟨s', (gives_assign_iff ha').2 ?_, (Reseeded.refl s').sameEffect⟩
    rw [← hdo, doAssign, doAssign, hagain, hfirst]

omit [Target] in
/-- The evaluation of an expression does not depend on what has been printed. -/
theorem eval_output (out : List UInt8) (toks : ℕ) : eval { s with output := out } toks =
    (eval s toks).map fun q => (q.1, { q.2 with output := out }) := by
  have hnum : evalNumeric ramSize { s with output := out } s.r toks =
      evalNumeric ramSize s s.r toks := by
    rw [← run_body_evalNumeric, ← run_body_evalNumeric]
    rfl
  unfold eval
  rw [hnum]
  cases evalNumeric ramSize s s.r toks with
  | none => rfl
  | some q => rfl

/-- A computation that depends on the state `s` up to its output has added a text to the output,
whatever the output was. -/
def Adds {α : Type} (s : State) (f : State → Result (α × State)) (x : α) (s' : State) : Prop :=
  ∃ text, s' = { s.withSeed s'.r with output := s.output ++ text } ∧
    ∀ out, f { s with output := out } = .ok (x, { s' with output := out ++ text })

omit [Target] in
/-- An item is printed behind what has been printed.

**Proof sketch.** A string is printed as it is. An expression is evaluated in the same way whatever
the output is (`eval_output`), and its value is printed or its error is returned. -/
theorem printItem_adds {toks : ℕ} {r : Except Error ℕ} (h : printItem s toks = .ok (r, s₁)) :
    Adds s (printItem · toks) r s₁ := by
  unfold printItem at h
  split at h
  · next hstring =>
    simp only [Except.ok.injEq, Prod.mk.injEq] at h
    obtain ⟨rfl, rfl⟩ := h
    refine ⟨s.ram.string (toks + 2), rfl, fun out => ?_⟩
    dsimp only
    rw [printItem, if_pos hstring]
    rfl
  · next hstring =>
    obtain ⟨⟨v, s₂⟩, heval, heq⟩ := except_map_eq_ok h
    have hs₂ : s₂ = s.withSeed s₂.r := eval_reseeded heval
    have hout : ∀ out, eval { s with output := out } toks =
        .ok (v, { s₂ with output := out }) := by
      intro out
      rw [eval_output, heval]
      rfl
    cases v with
    | error e =>
      simp only [Prod.mk.injEq] at heq
      obtain ⟨rfl, rfl⟩ := heq
      refine ⟨[], by rw [hs₂]; simp [State.withSeed], fun out => ?_⟩
      dsimp only
      rw [printItem, if_neg hstring, hout, List.append_nil]
      rfl
    | ok v =>
      simp only [Prod.mk.injEq] at heq
      obtain ⟨rfl, rfl⟩ := heq
      refine ⟨printNumeric v.1, by rw [hs₂]; rfl, fun out => ?_⟩
      dsimp only
      rw [printItem, if_neg hstring, hout]
      rfl

omit [Target] in
/-- What is printed in two parts. -/
theorem Adds.trans {α β : Type} {f : State → Result (α × State)}
    {g : α → State → Result (β × State)}
    {x : α} {y : β} (hf : Adds s f x s₁) (hg : Adds s₁ (g x) y s') :
    Adds s (fun s => (f s).bind fun q => g q.1 q.2) y s' := by
  obtain ⟨text, hs₁, hf⟩ := hf
  obtain ⟨text', hs', hg⟩ := hg
  refine ⟨text ++ text', ?_, fun out => ?_⟩
  · rw [hs', hs₁]
    simp [State.withSeed]
  · dsimp only
    rw [hf, ← List.append_assoc]
    exact hg _

omit [Target] in
/-- A `PRINT` adds a text to the output.

**Proof sketch.** By induction on the bound of the loop. One item adds its text (`printItem_adds`),
and behind it comes an error, the end of the statement with a newline, or the next item, to which
the induction hypothesis applies (`Adds.trans`). -/
theorem doPrint_adds {k toks : ℕ} {o : Outcome} (h : doPrint k s toks = .ok (o, s')) :
    Adds s (doPrint k · toks) o s' := by
  induction k generalizing s toks with
  | zero => exact absurd h (by simp [doPrint])
  | succ k ih =>
    rw [doPrint_succ] at h
    cases hitem : printItem s toks with
    | error f => simp [hitem, Except.bind] at h
    | ok q =>
      obtain ⟨r, s₁⟩ := q
      have hrest : printRest k (r, s₁) = .ok (o, s') := by
        rw [hitem] at h
        exact h
      have hbehind : Adds s₁ (fun s => printRest k (r, s)) o s' := by
        cases r with
        | error e =>
          simp only [printRest, fails, Except.ok.injEq, Prod.mk.injEq] at hrest
          obtain ⟨rfl, rfl⟩ := hrest
          exact ⟨[], by simp [State.withSeed], fun out => by simp [printRest, fails]⟩
        | ok stop =>
          simp only [printRest] at hrest ⊢
          split_ifs at hrest with hstop hsep
          · simp only [succeeds, Except.ok.injEq, Prod.mk.injEq] at hrest
            obtain ⟨rfl, rfl⟩ := hrest
            refine ⟨newline, rfl, fun out => ?_⟩
            simp only [if_pos hstop]
            rfl
          · simp only [fails, Except.ok.injEq, Prod.mk.injEq] at hrest
            obtain ⟨rfl, rfl⟩ := hrest
            refine ⟨[], by simp [State.withSeed], fun out => ?_⟩
            simp only [if_neg hstop, if_pos hsep, fails, List.append_nil]
          · obtain ⟨text, hs', hout⟩ := ih hrest
            refine ⟨text, hs', fun out => ?_⟩
            simp only [if_neg hstop, if_neg hsep]
            exact hout out
      obtain ⟨text, hs', hout⟩ := (printItem_adds hitem).trans (g := fun r s => printRest k (r, s))
        hbehind
      refine ⟨text, hs', fun out => ?_⟩
      dsimp only
      rw [doPrint_succ]
      exact hout out

/-- What `PRINT` gives is what its function does. -/
theorem gives_print_iff (hk : KeywordAt s a keywordPrint) :
    Gives (.statement s a) e s' ↔ doPrint ramSize s (a + kwSize) = .ok (.done e, s') := by
  have hint : statementInterpret 1 s a = doPrint ramSize s (a + kwSize) :=
    statementInterpret_keyword hk
  have hif : ¬ IsIf s a := hk.not_isIf (by decide)
  rw [← hint]
  exact ⟨fun h => h.interpret_eq hif fun hrun => absurd (hk.2.symm.trans hrun.2) (by decide),
    .simple hif⟩

/-- **When a `PRINT` that draws no random number can as well fail twice**: when it prints nothing
before it fails.

**Proof sketch.** The two attempts print the same text (`doPrint_adds`), one behind the other, so
that the outputs are the same exactly if the text is empty. -/
theorem print_failsAlike_iff (hk : KeywordAt s a keywordPrint) (hseed : KeepsSeed s a) :
    FailsAlike s a ↔ FailsSilently s a := by
  have hadds : ∀ e s', Gives (.statement s a) e s' → e ≠ .noerror → ∃ text,
      s' = { s with output := s.output ++ text } ∧
        doPrint ramSize { s with output := s'.output } (a + kwSize) =
          .ok (.done e, { s' with output := s'.output ++ text }) := by
    intro e s' hgives he
    obtain ⟨text, hs', hout⟩ := doPrint_adds ((gives_print_iff hk).1 hgives)
    refine ⟨text, ?_, hout s'.output⟩
    rw [hs', hseed e s' hgives he]
    rfl
  constructor
  · intro halike e s' hgives he
    obtain ⟨s₂, hagain, hsame⟩ := halike e s' hgives he
    obtain ⟨text, hs', hsecond⟩ := hadds e s' hgives he
    have hk' : KeywordAt s' a keywordPrint := by
      rw [hs']
      exact hk
    have hstart : { s with output := s'.output } = s' := by rw [hs']
    rw [hstart] at hsecond
    obtain ⟨-, rfl⟩ := hagain.unique ((gives_print_iff hk').2 hsecond)
    have htext : text = [] := by simpa using hsame.output
    rw [hs', htext, List.append_nil]
  · intro hprint e s' hgives he
    obtain ⟨text, hs', -⟩ := hadds e s' hgives he
    have htext : s.output ++ text = s.output := by
      have houtput := hprint e s' hgives he
      rw [hs'] at houtput
      exact houtput
    obtain rfl : s' = s := by rw [hs', htext]
    exact ⟨s', hgives, (Reseeded.refl s').sameEffect⟩

/-! ## Calm statements -/

/-- A statement that has no effect when it fails, whatever it fails for: one that assigns and prints
nothing, is no `NEXT`, and starts no run; or an `IF` that draws no random number with such a
sub-statement. -/
inductive Calm : State → ℕ → Prop
  | simple {s : State} {a : ℕ} (hif : ¬ IsIf s a) (hassign : ¬ AssignAt s a)
    (hprint : ¬ KeywordAt s a keywordPrint) (hnext : ¬ KeywordAt s a keywordNext)
    (hrun : ¬ KeywordAt s a keywordRun) : Calm s a
  | nested {s : State} {a : ℕ} (hif : IsIf s a)
    (hseed : ∀ r s₁, ifSub s (a + kwSize) = .ok (r, s₁) → s₁.r = s.r)
    (hsub : ∀ a₁, ThenAt s a s a₁ → Calm s a₁) : Calm s a

/-- **Calm statements change nothing when they fail.** -/
theorem Calm.unchanged (h : Calm s a) (hgives : Gives (.statement s a) e s') (he : e ≠ .noerror) :
    s' = s := by
  induction h generalizing e s' with
  | simple hif hassign hprint hnext hrun =>
    exact statement_failsStill hif hassign hprint hnext e s' (hgives.interpret_eq hif hrun) he
  | nested hif hseed hsub ih =>
    cases hgives with
    | simple hif' => exact absurd hif hif'
    | run hif' => exact absurd hif hif'
    | stop _ hstop => exact (ifSub_reseeded hstop).eq_of_seed (hseed _ _ hstop)
    | holds => exact absurd rfl he
    | again hthen hfirst he₁ hagain =>
      obtain rfl := (ifSub_reseeded hthen.2).eq_of_seed (hseed _ _ hthen.2)
      obtain rfl := ih _ hthen hfirst he₁
      exact ih _ hthen hagain he

/-- A calm statement fails in the same way in both places. -/
theorem Calm.failsAlike (h : Calm s a) : FailsAlike s a := by
  intro e s' hgives he
  obtain rfl := h.unchanged hgives he
  exact ⟨s', hgives, (Reseeded.refl s').sameEffect⟩

/-! ## The result -/

/-- **When an `IF` does the same as its sub-statement.** For every state and every `IF` in it: when
its comparison fails or does not hold, it has no effect; and when the comparison holds it does the
same as its sub-statement exactly when this one, if it fails, fails once more in the state in which
it has failed, with the same error and without another effect. Calm statements do. A `NEXT` does
unless it pops two entries. When no random number is drawn, an assignment does, and a `PRINT` does
exactly when it prints nothing before it fails.

**Proof sketch.** A sub-statement that fails is interpreted once more. It is the state after this
second time that the `IF` leaves behind, and the error of the second time that it returns. -/
theorem if_transparent_iff (s : State) (a : ℕ) (hif : IsIf s a) :
    (∀ e s', ifSub s (a + kwSize) = .ok (.error e, s') →
      Gives (.statement s a) e s' ∧ SameEffect s s') ∧
    ∀ s₁ a₁, ThenAt s a s₁ a₁ →
      (Transparent s a s₁ a₁ ↔ FailsAlike s₁ a₁) ∧
      (Calm s₁ a₁ → FailsAlike s₁ a₁) ∧
      (KeywordAt s₁ a₁ keywordNext → (FailsAlike s₁ a₁ ↔ ¬ PopsTwice s₁ (a₁ + kwSize))) ∧
      (KeywordAt s₁ a₁ keywordPrint → KeepsSeed s₁ a₁ →
        (FailsAlike s₁ a₁ ↔ FailsSilently s₁ a₁)) ∧
      (AssignAt s₁ a₁ → (∀ r s', getPtr s₁ a₁ = .ok (r, s') → s'.r = s₁.r) → KeepsSeed s₁ a₁ →
        FailsAlike s₁ a₁) := by
  refine ⟨fun e s' h => ⟨.stop hif h, (ifSub_reseeded h).sameEffect⟩, fun s₁ a₁ hthen => ?_⟩
  exact ⟨transparent_iff_failsAlike hthen, Calm.failsAlike, next_failsAlike_iff,
    print_failsAlike_iff, assign_failsAlike⟩

end

/-! ## A `PRINT` and a `NEXT` -/

/-- The tokens of `IF 1 = 1 THEN`. -/
def ifThenTokens : List UInt8 :=
  [tokKeyword, keywordIf] ++ numericToken 1 ++ [tokOperator, opEqual] ++ numericToken 1 ++
    [tokKeyword, keywordThen]

/-- The tokens of `IF 1 = 1 THEN NEXT A`. -/
def ifNextStatement : List UInt8 :=
  ifThenTokens ++ [tokKeyword, keywordNext, tokRegister, 0, tokTerminator]

/-- The tokens of `IF 1 = 1 THEN PRINT 1, AB`. -/
def ifPrintStatement : List UInt8 :=
  ifThenTokens ++ [tokKeyword, keywordPrint] ++ numericToken 1 ++
    tokSeparator :: tokVariable :: sized (ascii ['A', 'B']) ++ [tokTerminator]

example : statementTokenize (ascii ['I', 'F', ' ', '1', ' ', '=', ' ', '1', ' ', 'T', 'H', 'E', 'N',
    ' ', 'P', 'R', 'I', 'N', 'T', ' ', '1', ',', ' ', 'A', 'B']) =
    some (.noerror, ifPrintStatement) := by
  decide +kernel

/-- What follows `THEN` is interpreted, with the seed that the comparison leaves. -/
theorem thenAt_of_eval {s : State} {a a₁ : ℕ} (hif : IsIf s a)
    (h : (ifSub s (a + kwSize)).toOption.map (fun q => (q.1.toOption, q.2.r)) =
      some (some a₁, s.r)) : ThenAt s a s a₁ := by
  refine ⟨hif, ?_⟩
  cases hsub : ifSub s (a + kwSize) with
  | error f => simp [hsub, Except.toOption] at h
  | ok q =>
    obtain ⟨e | a₂, s₁⟩ := q
    · simp [hsub, Except.toOption] at h
    · simp only [hsub, Except.toOption, Option.map_some, Option.some.injEq, Prod.mk.injEq] at h
      obtain ⟨rfl, hr⟩ := h
      rw [(ifSub_reseeded hsub).eq_of_seed hr]

/-- Nothing is on the return stack, and a second `NEXT` fails as the first one. -/
theorem if_transparent_next :
    ThenAt (typed ifNextStatement) (@Target.statement Target.small) (typed ifNextStatement)
      (@Target.statement Target.small + 12) ∧
    @Transparent Target.small (typed ifNextStatement) (@Target.statement Target.small)
      (typed ifNextStatement) (@Target.statement Target.small + 12) := by
  let _ := Target.small
  have hif : IsIf (typed ifNextStatement) Target.statement := by decide +kernel
  have hthen : ThenAt (typed ifNextStatement) Target.statement (typed ifNextStatement)
      (Target.statement + 12) :=
    thenAt_of_eval hif (by decide +kernel)
  have hnext : KeywordAt (typed ifNextStatement) (Target.statement + 12) keywordNext :=
    ⟨by decide +kernel, by decide +kernel⟩
  obtain ⟨htrans, -, hpops, -⟩ :=
    (if_transparent_iff (typed ifNextStatement) Target.statement hif).2 _ _ hthen
  refine ⟨hthen, htrans.2 ((hpops hnext).2 ?_)⟩
  rintro ⟨-, top, below, rest, hstack, -⟩
  have hempty : (typed ifNextStatement).programReturnStack = [] := rfl
  rw [hempty] at hstack
  exact absurd hstack (by simp)

/-- An `IF` does the same as its sub-statement, or nothing when its comparison does not hold. -/
def AlwaysTransparent [Target] : Prop :=
  ∀ (s : State) (a : ℕ), IsIf s a →
    (∀ s', ifSub s (a + kwSize) = .ok (.error .noerror, s') →
      Gives (.statement s a) .noerror s' ∧ SameEffect s s') ∧
    ∀ s₁ a₁, ThenAt s a s₁ a₁ → Transparent s a s₁ a₁

/-- `PRINT 1, AB` prints 1 and fails for the lack of `AB`. In an `IF` it prints 1 twice. -/
theorem not_alwaysTransparent : ¬ @AlwaysTransparent Target.small := by
  intro hall
  let _ := Target.small
  have hif : IsIf (typed ifPrintStatement) Target.statement := by decide +kernel
  have hthen : ThenAt (typed ifPrintStatement) Target.statement (typed ifPrintStatement)
      (Target.statement + 12) :=
    thenAt_of_eval hif (by decide +kernel)
  have hprint : KeywordAt (typed ifPrintStatement) (Target.statement + 12) keywordPrint :=
    ⟨by decide +kernel, by decide +kernel⟩
  have hrun :
    (doPrint ramSize (typed ifPrintStatement) (Target.statement + 12 + kwSize)).toOption.map
      (fun q => (q.1, q.2.r, q.2.output)) =
        some (.done .undefinedVar, (typed ifPrintStatement).r, ascii ['1']) := by
    decide +kernel
  have halike : FailsAlike (typed ifPrintStatement) (Target.statement + 12) :=
    (transparent_iff_failsAlike hthen).1 ((hall _ _ hif).2 _ _ hthen)
  cases hint : doPrint ramSize (typed ifPrintStatement) (Target.statement + 12 + kwSize) with
  | error f => simp [hint, Except.toOption] at hrun
  | ok q =>
    obtain ⟨o, s'⟩ := q
    simp only [hint, Except.toOption, Option.map_some, Option.some.injEq, Prod.mk.injEq] at hrun
    obtain ⟨rfl, hr, hout⟩ := hrun
    have hgives := (gives_print_iff hprint).2 hint
    have hseed : KeepsSeed (typed ifPrintStatement) (Target.statement + 12) := by
      intro e s'' h _
      rw [← (hgives.unique h).2]
      exact hr
    have hsilent := (print_failsAlike_iff hprint hseed).1 halike _ s' hgives (by decide)
    rw [hout] at hsilent
    exact absurd hsilent (by decide +kernel)

end Z80OS.Basic
