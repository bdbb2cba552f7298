import Z80OS.Basic.Alignment
import Z80OS.Basic.Transparency

set_option relaxedAutoImplicit false
set_option autoImplicit false

/-!
# Interpretations that stay inside of their statement

The evaluations of a statement begin and end at the starts of tokens when all indices and arguments
in them are complete. The other parts of a statement look at every token before they pass it; only a
`DIM` does not. So nothing behind the terminator is read unless something is missing there.

No evaluation gives a syntax error for a missing operand or parenthesis. So the interpretation does
what it should exactly when it comes to no place where something is missing.

## Main definitions

* `Z80OS.Basic.Unbroken` — in the statement itself nothing is missing that is passed without a look.

## Main results

* `Z80OS.Basic.StatementReads.le` — an unbroken statement reads nothing behind it.
* `Z80OS.Basic.staysWithin_iff` — when an interpretation stays inside of its statement.
-/

namespace Z80OS.Basic

open CallTree

section

variable {s s' : State} {a e toks : ℕ}

/-! ## What an evaluation leaves -/

/-- An evaluation with a result is a call that returns. -/
theorem returns_of_evalNumeric {k r src r' : ℕ} {v : Except Error (ℤ × ℕ)}
    (h : evalNumeric k s r src = some (v, r')) :
    Returns (body s) (.evalNumeric r src) (v, r') :=
  ⟨k, (run_body_evalNumeric k r src).trans h⟩

/-- Behind an expression is the start of a token. -/
theorem eval_aligned {v : ℤ} {stop : ℕ} (h : eval s toks = .ok (.ok (v, stop), s'))
    (hclean : Clean s (.evalNumeric s.r toks)) (htoks : Aligned s.ram e toks) :
    Aligned s.ram e stop := by
  obtain ⟨r', hval, -⟩ := eval_eq_ok h
  exact hclean.endsAligned (returns_of_evalNumeric hval) htoks v stop r' rfl

/-- The value of an expression of an `IF` is the one that it has. -/
theorem ifEval_eq_ok {v : ℤ} {stop : ℕ} (h : ifEval s toks = .ok (.ok (v, stop), s')) :
    eval s toks = .ok (.ok (v, stop), s') := by
  unfold ifEval at h
  split at h
  · exact absurd h (by simp)
  · next heval => rw [heval, h]
  · next heval =>
    obtain ⟨⟨r, s₂⟩, -, heq⟩ := except_map_eq_ok h
    cases r <;> simp at heq

/-- Behind the variable of an assignment is the start of a token. -/
theorem getPtr_aligned {ref : Ref} {next : ℕ} (h : getPtr s toks = .ok (.ok (ref, next), s'))
    (hclean : Clean s (.tVariableGetPtr s.r toks)) (htoks : Aligned s.ram e toks) :
    Aligned s.ram e next := by
  obtain ⟨r', hval, -⟩ := getPtr_eq_ok h
  have hret : Returns (body s) (.tVariableGetPtr s.r toks) (.ok (ref, next), r') :=
    ⟨ramSize, (run_body ramSize _).trans hval⟩
  exact hclean.endsAligned hret htoks ref next r' rfl

/-- A variable of an assignment that is found has been found at the first time, or after it has been
defined. -/
theorem assignPtr_eq_ok {ref : Ref} {next : ℕ} (h : assignPtr s a = .ok (.ok (ref, next), s')) :
    getPtr s a = .ok (.ok (ref, next), s') ∨
      ∃ s₁ s₂, getPtr s a = .ok (.error .undefinedVar, s₁) ∧
        programSetNumeric s₁ a 0 = .ok (.noerror, s₂) ∧
        getPtr s₂ a = .ok (.ok (ref, next), s') := by
  by_cases hundef : ∃ s₁, getPtr s a = .ok (.error .undefinedVar, s₁)
  · obtain ⟨s₁, hget⟩ := hundef
    cases hset : programSetNumeric s₁ a 0 with
    | error f => simp [assignPtr, hget, hset] at h
    | ok q =>
      obtain ⟨err, s₂⟩ := q
      by_cases herr : err = .noerror
      · subst herr
        rw [assignPtr_of_set hget hset] at h
        exact .inr ⟨s₁, s₂, hget, hset, h⟩
      · rw [assignPtr_of_unset hget hset herr] at h
        simp at h
  · rw [assignPtr_of_defined fun s₁ hget => hundef ⟨s₁, hget⟩] at h
    exact .inl h

end

/-! ## What a statement reads besides its expressions -/

namespace Aligned

variable {m : Ram} {e p : ℕ}

/-- The loop of `statement_size` ends behind the terminator. -/
theorem statementEnd_eq (h : Aligned m e p) {k stop : ℕ} (hstop : statementEnd m k p = some stop) :
    stop = e + 1 := by
  induction k generalizing p with
  | zero => exact absurd hstop (by simp [statementEnd])
  | succ k ih =>
    by_cases hend : m p = tokTerminator
    · rcases h.cases with ⟨-, rfl⟩ | ⟨t, -, -, hkind, -⟩
      · rw [statementEnd, if_pos hend] at hstop
        exact (Option.some.inj hstop).symm
      · exact absurd (hkind.symm.trans hend) t.kind_ne_terminator
    · rw [statementEnd_of_ne hend] at hstop
      exact ih (h.behind hend) hstop

/-- What is copied of a statement is no more than the statement. -/
theorem copied (h : Aligned m e p) {i size : ℕ} (hsize : statementSize m p = some size)
    (hi : i < size) : p + i ≤ e := by
  rw [statementSize, Option.map_eq_some_iff] at hsize
  obtain ⟨stop, hstop, rfl⟩ := hsize
  obtain rfl := h.statementEnd_eq hstop
  have hmod := Nat.mod_le (e + 1 - p) 256
  omega

/-- A `FOR` reads up to the end of its statement at most.

**Proof sketch.** Along the tokens of a `FOR`: the variable, the equals sign, the number, the
keyword and the second number. Each is a token of the statement if the one in front of it is
there. -/
theorem forReads (h : Aligned m e p) : ∀ q ∈ forReads m p, q ≤ e := by
  intro q hq
  rcases List.mem_append.1 hq with hq | hq
  · exact h.variableReads q hq
  cases hvar : Basic.varToken m p with
  | none => simp [hvar] at hq
  | some next =>
    have hnext := h.varToken hvar
    rw [hvar] at hq
    dsimp only at hq
    rcases List.mem_append.1 hq with hq | hq
    · exact hnext.operatorReads q hq
    split_ifs at hq with heq hnum hto
    · have hstart := hnext.opCheck heq
      have hbehind := hstart.numeric hnum
      simp only [kwCheck, Bool.and_eq_true, decide_eq_true_eq] at hto
      rcases List.mem_append.1 hq with hq | hq
      · exact hstart.numericReads q hq
      rcases List.mem_append.1 hq with hq | hq
      · exact hbehind.keywordReads q hq
      · exact (hbehind.keyword hto.1).numericReads q hq
    · have hstart := hnext.opCheck heq
      rcases List.mem_append.1 hq with hq | hq
      · exact hstart.numericReads q hq
      rcases List.mem_append.1 hq with hq | hq
      · exact (hstart.numeric hnum).keywordReads q hq
      · exact absurd hq List.not_mem_nil
    · rcases List.mem_append.1 hq with hq | hq
      · exact (hnext.opCheck heq).numericReads q hq
      · exact absurd hq List.not_mem_nil
    · exact absurd hq List.not_mem_nil

/-- A complete `DIM` reads nothing behind its size. -/
theorem dimReads (h : Aligned m e p)
    (hcomplete : Basic.varToken m p ≠ none → CompleteDim m p) : ∀ q ∈ dimReads m p, q ≤ e := by
  intro q hq
  rcases List.mem_append.1 hq with hq | hq
  · exact h.variableReads q hq
  cases hvar : Basic.varToken m p with
  | none => simp [hvar] at hq
  | some next =>
    obtain ⟨next', hvar', hopen, hnum, -⟩ := hcomplete (by rw [hvar]; simp)
    obtain rfl := Option.some.inj (hvar.symm.trans hvar')
    have hbehind : next + opSize + 3 ≤ e := (((h.varToken hvar).opCheck hopen).numeric hnum).le
    rw [hvar] at hq
    simp only [List.mem_cons, List.not_mem_nil, or_false] at hq
    omega

end Aligned

/-! ## Unbroken statements -/

section

variable {s s₁ s' : State} {a a₁ e : ℕ}

/-- In the statement at an address the interpretation comes to no array access and no call of `RND`
with an operand or a parenthesis missing, and if it is a `DIM` then nothing is missing behind its
variable. What the sub-statement of an `IF` comes to is not counted here. -/
structure Unbroken (s : State) (a : ℕ) : Prop where
  call : ∀ s' d, ComesTo s a s' d → ¬ d.Malformed s'.ram
  dim : KeywordAt s a keywordDim → varToken s.ram (a + kwSize) ≠ none →
    CompleteDim s.ram (a + kwSize)

/-- Behind a keyword is a place for a token. -/
theorem KeywordAt.behind {kw : UInt8} (hk : KeywordAt s a kw) (ha : Aligned s.ram e a) :
    Aligned s.ram e (a + kwSize) :=
  ha.keyword hk.1

/-- Behind `IF` is a place for a token. -/
theorem IsIf.behind (hif : IsIf s a) (ha : Aligned s.ram e a) : Aligned s.ram e (a + kwSize) :=
  ha.keyword hif.1

namespace Unbroken

/-- The evaluations of an unbroken statement are clean. -/
theorem clean (h : Unbroken s a) {c : Call} (hc : Enters s a s' c) : Clean s' c :=
  fun d hd => h.call s' d ⟨c, hc, hd⟩

end Unbroken

/-! ### The items of a `PRINT` -/

/-- Behind an item is the start of a token. -/
theorem printItem_aligned {toks stop : ℕ} (h : printItem s toks = .ok (.ok stop, s'))
    (hclean : s.ram toks ≠ tokString → Clean s (.evalNumeric s.r toks))
    (htoks : Aligned s.ram e toks) : Aligned s.ram e stop := by
  unfold printItem at h
  split_ifs at h with hstring
  · simp only [Except.ok.injEq, Prod.mk.injEq] at h
    exact h.1 ▸ htoks.skip (.inl hstring)
  · obtain ⟨⟨v, s₂⟩, heval, heq⟩ := except_map_eq_ok h
    cases v with
    | error err => simp at heq
    | ok v =>
      simp only [Prod.mk.injEq, Except.ok.injEq] at heq
      exact heq.1 ▸ eval_aligned heval (hclean hstring) htoks

/-- `PRINT` goes on behind a separator. -/
theorem PrintTurns.tail {toks toks₁ stop : ℕ} (h : PrintTurns s toks s₁ toks₁)
    (hitem : printItem s₁ toks₁ = .ok (.ok stop, s')) (hsep : s'.ram stop = tokSeparator) :
    PrintTurns s toks s' (stop + sepSize) := by
  induction h with
  | here => exact .next hitem hsep .here
  | next hitem' hsep' _ ih => exact .next hitem' hsep' (ih hitem)

/-- **The items of a `PRINT` begin at the starts of tokens.** The first part of the way is given. -/
theorem Unbroken.printTurns (hbroken : Unbroken s a) (hk : KeywordAt s a keywordPrint)
    {toks toks' : ℕ} (hpre : PrintTurns s (a + kwSize) s₁ toks) (hram : s₁.ram = s.ram)
    (htoks : Aligned s.ram e toks) (h : PrintTurns s₁ toks s' toks') :
    s'.ram = s.ram ∧ Aligned s.ram e toks' := by
  induction h with
  | here => exact ⟨hram, htoks⟩
  | next hitem hsep _ ih =>
    have hram' := (printItem_still hitem).quiet.ram.trans hram
    have hstop := printItem_aligned hitem (fun hne => hbroken.clean (.item hk hpre hne))
      (hram ▸ htoks)
    rw [hram] at hstop
    exact ih (hpre.tail hitem hsep) hram' (hstop.separator (hram' ▸ hsep))

/-! ### Evaluations -/

/-- Behind the variable of an assignment is the start of a token. -/
theorem Unbroken.assignPtr_aligned (hbroken : Unbroken s a) (hassign : AssignAt s a) {ref : Ref}
    {next : ℕ} (h : assignPtr s a = .ok (.ok (ref, next), s')) (ha : Aligned s.ram e a) :
    Aligned s.ram e next := by
  rcases assignPtr_eq_ok h with hget | ⟨s₁, s₂, hget, hset, hagain⟩
  · exact getPtr_aligned hget (hbroken.clean (.assigned hassign)) ha
  · have hram := (programSetNumeric_quiet hset).ram.trans (getPtr_still hget).quiet.ram
    rw [← hram] at ha ⊢
    exact getPtr_aligned hagain (hbroken.clean (.assignedAgain hassign hget hset)) ha

/-- **The evaluations of an unbroken statement begin at the start of a token**, and they are made
with the same memory. -/
theorem Unbroken.enters (hbroken : Unbroken s a) (ha : Aligned s.ram e a) {c : Call}
    (h : Enters s a s' c) : s'.ram = s.ram ∧ Aligned s.ram e c.place := by
  cases h with
  | item hk hturns _ => exact hbroken.printTurns hk .here rfl (hk.behind ha) hturns
  | left hif => exact ⟨rfl, hif.behind ha⟩
  | leftAgain hif heval => exact ⟨(eval_still heval).quiet.ram, hif.behind ha⟩
  | right hif heval hcmp =>
    have hram := (ifEval_reseeded heval).still.quiet.ram
    have hstop := eval_aligned (ifEval_eq_ok heval) (hbroken.clean (.left hif)) (hif.behind ha)
    simp only [tOperatorIsComparison, Bool.and_eq_true, decide_eq_true_eq] at hcmp
    exact ⟨hram, hstop.operator (hram ▸ hcmp.1)⟩
  | rightAgain hif heval hcmp hagain =>
    have hram := (ifEval_reseeded heval).still.quiet.ram
    have hstop := eval_aligned (ifEval_eq_ok heval) (hbroken.clean (.left hif)) (hif.behind ha)
    simp only [tOperatorIsComparison, Bool.and_eq_true, decide_eq_true_eq] at hcmp
    exact ⟨(eval_still hagain).quiet.ram.trans hram, hstop.operator (hram ▸ hcmp.1)⟩
  | assigned _ => exact ⟨rfl, ha⟩
  | assignedAgain _ hget hset =>
    exact ⟨(programSetNumeric_quiet hset).ram.trans (getPtr_still hget).quiet.ram, ha⟩
  | value hassign hptr heq =>
    have hram := (assignPtr_quiet hptr).ram
    have hnext := hbroken.assignPtr_aligned hassign hptr ha
    exact ⟨hram, hnext.opCheck (hram ▸ heq)⟩

/-- Behind the left side of an `IF` is the start of a token. -/
theorem Unbroken.left_aligned (hbroken : Unbroken s a) (hif : IsIf s a) {left : ℤ} {stop : ℕ}
    (h : ifEval s (a + kwSize) = .ok (.ok (left, stop), s')) (ha : Aligned s.ram e a) :
    s'.ram = s.ram ∧ Aligned s.ram e stop :=
  ⟨(ifEval_reseeded h).still.quiet.ram,
    eval_aligned (ifEval_eq_ok h) (hbroken.clean (.left hif)) (hif.behind ha)⟩

/-- Behind the right side of an `IF` is the start of a token. -/
theorem Unbroken.right_aligned (hbroken : Unbroken s a) (hif : IsIf s a) {left right : ℤ}
    {stop stop' : ℕ} (h : ifEval s (a + kwSize) = .ok (.ok (left, stop), s₁))
    (hcmp : tOperatorIsComparison s₁.ram stop = true)
    (hright : ifEval s₁ (stop + opSize) = .ok (.ok (right, stop'), s')) (ha : Aligned s.ram e a) :
    s'.ram = s.ram ∧ Aligned s.ram e stop' := by
  have hclean := hbroken.clean (.right hif h hcmp)
  obtain ⟨hram, hplace⟩ := hbroken.enters ha (.right hif h hcmp)
  rw [← hram] at hplace ⊢
  exact ⟨(ifEval_reseeded hright).still.quiet.ram,
    eval_aligned (ifEval_eq_ok hright) hclean hplace⟩

/-- The sub-statement of an unbroken `IF` begins at the start of a token. -/
theorem ThenAt.aligned (h : ThenAt s a s₁ a₁) (hbroken : Unbroken s a) (ha : Aligned s.ram e a) :
    s₁.ram = s.ram ∧ Aligned s.ram e a₁ := by
  obtain ⟨hif, hsub⟩ := h
  unfold ifSub at hsub
  split at hsub
  · exact absurd hsub (by simp)
  · exact absurd hsub (by simp)
  · next left stop s₂ hleft =>
    split_ifs at hsub with hcmp
    · split at hsub
      · exact absurd hsub (by simp)
      · exact absurd hsub (by simp)
      · next right stop' s₃ hright =>
        obtain ⟨hram, hstop⟩ := hbroken.right_aligned hif hleft hcmp hright ha
        split_ifs at hsub with hthen
        · simp only [Except.ok.injEq, Prod.mk.injEq] at hsub
          obtain ⟨rfl, rfl⟩ := hsub
          simp only [kwCheck, Bool.and_eq_true, decide_eq_true_eq] at hthen
          exact ⟨hram, hstop.keyword (hram ▸ hthen.1)⟩
        · exact absurd hsub (by simp)
        · exact absurd hsub (by simp)
    · exact absurd hsub (by simp)

/-! ### What is read -/

/-- **An unbroken statement reads nothing behind its terminator.**

**Proof sketch.** By cases on what is read. Each place is within a token or directly behind one, and
the tokens are reached from the start of the statement by whole tokens as long as the statement is
unbroken (`Unbroken.printTurns`, `Unbroken.enters`). -/
theorem StatementReads.le {p : ℕ} (h : StatementReads s a p) (hbroken : Unbroken s a)
    (ha : Aligned s.ram e a) : p ≤ e := by
  cases h with
  | kind => exact ha.le
  | keyword hk =>
    have hle : a + 2 ≤ e := (ha.keyword hk).le
    omega
  | lineno _ hp => exact ha.numericReads p hp
  | size hk hbefore hp => exact ((ha.numeric hk).iterate hbefore).sizeReads p hp
  | copied hk hsize hi => exact (ha.numeric hk).copied hsize hi
  | string hk hturns hstring hp =>
    obtain ⟨hram, htoks⟩ := hbroken.printTurns hk .here rfl (hk.behind ha) hturns
    rw [hram] at hstring hp
    exact htoks.sizedReads (.inl hstring) p hp
  | item hk hturns => exact (hbroken.printTurns hk .here rfl (hk.behind ha) hturns).2.le
  | behindItem hk hturns hitem =>
    obtain ⟨hram, htoks⟩ := hbroken.printTurns hk .here rfl (hk.behind ha) hturns
    rw [← hram] at htoks
    exact (printItem_aligned hitem (fun hne => hbroken.clean (.item hk hturns hne)) htoks).le
  | jump hk _ hp => exact (hk.behind ha).numericReads p hp
  | loop hk hp => exact (hk.behind ha).forReads p hp
  | loopEnd hk hp => exact (hk.behind ha).variableReads p hp
  | dim hk hp => exact (hk.behind ha).dimReads (hbroken.dim hk) p hp
  | comparison hif heval hp =>
    obtain ⟨hram, hstop⟩ := hbroken.left_aligned hif heval ha
    exact hstop.operatorReads p (hram ▸ hp)
  | thenKeyword hif heval hcmp hright hp =>
    obtain ⟨hram, hstop⟩ := hbroken.right_aligned hif heval hcmp hright ha
    exact hstop.keywordReads p (hram ▸ hp)
  | assigned _ hp => exact ha.variableReads p hp
  | equal hassign hptr hp =>
    have hnext := hbroken.assignPtr_aligned hassign hptr ha
    exact hnext.operatorReads p ((assignPtr_quiet hptr).ram ▸ hp)
  | evaluation hcomes hp =>
    obtain ⟨c, hc, hd⟩ := hcomes
    obtain ⟨hram, hplace⟩ := hbroken.enters ha hc
    rw [← hram] at hplace
    exact Call.reads_le ((hbroken.clean hc).aligned hplace hd) p hp

end

/-! ## Whole interpretations -/

section

variable [Target] {s s₁ s' : State} {a a₁ e k : ℕ}

/-- A statement other than `IF` that fails has not changed the memory. -/
theorem ram_of_simple_failed {err : Error} (hif : ¬ IsIf s a)
    (h : statementInterpret 1 s a = .ok (.done err, s')) (herr : err ≠ .noerror) :
    s'.ram = s.ram := by
  by_cases hassign : AssignAt s a
  · rw [statementInterpret_assign hassign] at h
    rcases doAssign_failed_cases h herr with hseed | ⟨s₁, s₂, hget, hset, -, hseed⟩
    · exact hseed.still.quiet.ram
    · exact hseed.still.quiet.ram.trans
        ((programSetNumeric_quiet hset).ram.trans (getPtr_still hget).quiet.ram)
  by_cases hprint : KeywordAt s a keywordPrint
  · have hshows : Shows s (doPrint ramSize s (a + kwSize)) := doPrint_shows
    rw [statementInterpret_keyword hprint] at h
    have heq : doPrint ramSize s (a + kwSize) = .ok (.done err, s') := h
    rw [heq] at hshows
    exact hshows.2.quiet.ram
  by_cases hnext : KeywordAt s a keywordNext
  · rw [statementInterpret_keyword hnext] at h
    exact (doNext_moves h).2.ram
  · rw [statement_failsStill hif hassign hprint hnext err s' h herr]

/-- **A statement that fails has not changed the memory.** -/
theorem ram_of_failed {err : Error} (h : statementInterpret k s a = .ok (.done err, s'))
    (herr : err ≠ .noerror) : s'.ram = s.ram := by
  refine statementInterpret_rule (I := fun _ s' _ => s'.ram = s.ram)
    (R := fun o s' => ∀ err, o = .done err → err ≠ .noerror → s'.ram = s.ram)
    ?_ ?_ ?_ ?_ ?_ rfl h err rfl herr
  · rintro k s₁ a o s₂ hram hif hint err rfl herr
    exact (ram_of_simple_failed hif hint herr).trans hram
  · rintro k s₁ a e s₂ hram - hstop err - -
    exact (ifSub_quiet hstop).ram.trans hram
  · exact fun k s₁ a s₂ a₁ hram hthen => (ifSub_quiet hthen.2).ram.trans hram
  · exact fun k s₁ a s₂ a₁ e s₃ _ _ _ he hR => hR e rfl he
  · exact fun k s₁ a s₂ a₁ s₃ nested again _ _ _ _ _ err he => absurd he (by simp)

/-- **All statements that an unbroken statement comes to begin at the start of a token.** They are
executed with the same memory. -/
theorem Executes.aligned {a' : ℕ} (h : Executes k s a s' a')
    (hbroken : ∀ s₁ a₁, Executes k s a s₁ a₁ → Unbroken s₁ a₁) (ha : Aligned s.ram e a) :
    s'.ram = s.ram ∧ Aligned s.ram e a' := by
  induction h with
  | here => exact ⟨rfl, ha⟩
  | sub hthen _ ih =>
    obtain ⟨hram, ha₁⟩ := hthen.aligned (hbroken _ _ .here) ha
    rw [← hram] at ha₁ ⊢
    exact ih (fun s₂ a₂ h => hbroken s₂ a₂ (.sub hthen h)) ha₁
  | again hthen hfail herr _ ih =>
    obtain ⟨hram, ha₁⟩ := hthen.aligned (hbroken _ _ .here) ha
    have hsame := (ram_of_failed hfail herr).trans hram
    rw [← hsame] at ha₁ ⊢
    exact ih (fun s₂ a₂ h => hbroken s₂ a₂ (.again hthen hfail herr h)) ha₁

/-- Where nothing is missing, all that is executed is unbroken. -/
theorem NothingMissing.unbroken (h : NothingMissing s a) (hexec : Executes nestingMax s a s' a₁) :
    Unbroken s' a₁ :=
  ⟨fun s'' d => h.call s' a₁ s'' d hexec, h.dim s' a₁ hexec⟩

/-! ## What is answered -/

omit [Target] in
/-- An array access or a call of `RND` with an operand or a parenthesis missing gives no syntax
error. -/
theorem Call.Malformed.not_syntaxError {c : Call} {r : ℕ} (h : c.Malformed s.ram) :
    ¬ Returns (body s) c (.error .syntaxError, r) := by
  have hexpected : c.Expected s.ram := by
    cases c with
    | evalNumeric | evalShuntingYard => exact trivial
    | tFuncCall r toks => exact h.1
    | tVariableGetPtr r toks =>
      obtain ⟨next, hvar, -⟩ := h
      rw [Call.Expected, hvar]
      simp
  exact fun hret => (errs_of_returns hret _ _ rfl).2 hexpected rfl

/-- A `DIM` gives a syntax error when it has no variable. -/
theorem dim_syntaxError_iff (hk : KeywordAt s a keywordDim) :
    (∃ s', statementInterpret 1 s a = .ok (.done .syntaxError, s')) ↔
      varToken s.ram (a + kwSize) = none := by
  have hint : statementInterpret 1 s a = doDim s (a + kwSize) := statementInterpret_keyword hk
  rw [hint, doDim]
  cases varToken s.ram (a + kwSize) with
  | none => exact iff_of_true ⟨s, rfl⟩ rfl
  | some next =>
    refine iff_of_false ?_ (by simp)
    rintro ⟨s', h⟩
    dsimp only at h
    split_ifs at h
    · simp [fails] at h
    · obtain ⟨q, -, heq⟩ := except_map_eq_ok h
      simp at heq

/-! ## When an interpretation stays inside of its statement -/

/-- **When an interpretation stays inside of its statement.** For every statement that the tokenizer
accepts, at every address and in every state: the interpretation reads nothing behind the terminator
and answers array accesses, calls of `RND` and `DIM` statements in which something is missing with a
syntax error, if and only if it comes to none in which something is missing that is passed without a
look.

**Proof sketch.** As long as nothing is missing, the interpretation goes from the start of a token
to the start of another one. What is missing in an expression is never answered with a syntax error,
and a `DIM` is only when it has no variable. -/
theorem staysWithin_iff {text out : List UInt8} (h0 : 0 ∉ text)
    (h : statementTokenize text = some (.noerror, out)) (hm : s.ram.Holds a out) :
    StaysWithin s a (a + (out.length - 1)) ↔ NothingMissing s a := by
  constructor
  · intro hstays
    refine ⟨fun s' a' s'' d hexec hcomes hmal => ?_, fun s' a' hexec hk hvar => ?_⟩
    · obtain ⟨r, hret⟩ := hstays.call s' a' s'' d hexec hcomes hmal
      exact hmal.not_syntaxError hret
    · by_contra hmissing
      exact hvar ((dim_syntaxError_iff hk).1 (hstays.dim s' a' hexec hk hmissing))
  · intro hnothing
    obtain ⟨ts, rfl, hs, -⟩ := exists_of_statementTokenize h0 h
    have ha : Aligned s.ram (a + ((stored ts).length - 1)) a := ⟨ts, hs, hm, by simp [stored]⟩
    refine ⟨fun s' a' p hexec hread => ?_, fun s' a' s'' d hexec hcomes hmal => ?_,
      fun s' a' hexec hk hmissing => ?_⟩
    · obtain ⟨hram, ha'⟩ := hexec.aligned (fun s₁ a₁ => hnothing.unbroken) ha
      exact hread.le (hnothing.unbroken hexec) (hram ▸ ha')
    · exact absurd hmal (hnothing.call s' a' s'' d hexec hcomes)
    · refine (dim_syntaxError_iff hk).2 ?_
      by_contra hvar
      exact hmissing (hnothing.dim s' a' hexec hk hvar)

end

/-! ### Statements -/

/-- The tokens of `A(1)=2`. -/
def elementEqual : List UInt8 :=
  [tokRegister, 0, tokOperator, opLparen] ++ numericToken 1 ++
    [tokOperator, opRparen, tokOperator, opEqual] ++ numericToken 2 ++ [tokTerminator]

/-- The interpretation of `A(1)=2` stays inside of the statement.

**Proof sketch.** By `staysWithin_iff`. The search finds no array, so that only the index is
evaluated, and that is one number: the call for it makes no further call. -/
theorem staysWithin_element :
    letI := Target.small
    StaysWithin (stateWith elementEqual) 0 14 := by
  let _ := Target.small
  have htok : statementTokenize (ascii ['A', '(', '1', ')', '=', '2']) =
      some (.noerror, elementEqual) := by decide +kernel
  refine (staysWithin_iff (by decide) htok (Ram.holds_memcpy ..)).2 ⟨?_, ?_⟩
  · intro s' a' s'' d hexec hcomes hmal
    obtain ⟨rfl, rfl⟩ := hexec.eq_of_not_if (by decide)
    obtain ⟨c, hc, hd⟩ := hcomes
    have hget : getPtr (stateWith elementEqual) 0 =
      .ok (.error .undefinedArray, stateWith elementEqual) := rfl
    cases hc with
    | item hk => exact absurd hk.1 (by decide)
    | left hif | leftAgain hif | right hif | rightAgain hif => exact absurd hif.1 (by decide)
    | assignedAgain _ hundef => exact absurd (hget.symm.trans hundef) (by simp)
    | value _ hptr =>
      rw [assignPtr_of_defined
        fun s₁ hundef => by rw [hget] at hundef; simp at hundef, hget] at hptr
      exact absurd hptr (by simp)
    | assigned =>
      -- the index is a number, and is evaluated without another call
      have hcomplete : Complete (stateWith elementEqual).ram 4 :=
        ⟨[.number], 7, .numeric (by decide) (by decide) (.stop (by decide)), ⟨0, by decide⟩,
          by decide⟩
      rcases hd.cases_head with rfl | ⟨c', hcall, hd⟩
      · obtain ⟨next, hvar, -, hnot⟩ := hmal
        obtain rfl : 2 = next := Option.some.inj hvar
        exact hnot hcomplete
      · obtain ⟨next, r', hvar, -, rfl⟩ := calls_tVariableGetPtr hcall
        obtain rfl : 2 = next := Option.some.inj hvar
        rcases hd.cases_head with rfl | ⟨c'', hcall, -⟩
        · exact hmal
        · exact hcall
  · intro s' a' hexec hk
    obtain ⟨rfl, rfl⟩ := hexec.eq_of_not_if (by decide)
    exact absurd hk.1 (by decide)

/-- Interpretations always stay inside of their statement. -/
def AlwaysWithin [Target] : Prop :=
  ∀ text out s a, 0 ∉ text → statementTokenize text = some (.noerror, out) → s.ram.Holds a out →
    StaysWithin s a (a + (out.length - 1))

/-- The interpretation of `DIM A` reads bytes behind the statement. -/
theorem not_alwaysWithin : ¬ @AlwaysWithin Target.small := by
  let _ := Target.small
  intro hall
  have htok : statementTokenize (ascii ['D', 'I', 'M', ' ', 'A']) =
      some (.noerror, [tokKeyword, keywordDim, tokRegister, 0, tokTerminator]) := by decide +kernel
  have hstays := hall _ _ (stateWith [tokKeyword, keywordDim, tokRegister, 0, tokTerminator]) 0
    (by decide) htok (Ram.holds_memcpy ..)
  have hle := hstays.reads _ _ 7 .here (.dim ⟨by decide, by decide⟩ (by decide))
  exact absurd hle (by decide)

end Z80OS.Basic
