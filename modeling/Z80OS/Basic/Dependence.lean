import Z80OS.Basic.Alignment
import Z80OS.Basic.Effects

set_option relaxedAutoImplicit false
set_option autoImplicit false

/-!
# What an evaluation depends on

The bytes that are listed for the activations of an evaluation are all of the memory that it depends
on, besides the arrays: in a memory that has the same bytes there, and the same arrays, the
evaluation gives the same. So a clean evaluation does not depend on what is behind the statement.

## Main definitions

* `Z80OS.Basic.SameArrays` — the arrays are the same in another memory.

## Main results

* `Z80OS.Basic.run_congr` — an evaluation depends on what its activations read, and on the arrays.
* `Z80OS.Basic.Clean.evalNumeric_congr` — a clean evaluation does not depend on what is behind the
  statement.
-/

namespace Z80OS.Basic

open CallTree

/-! ## Tokens -/

section

variable {m m' : Ram} {p : ℕ}

/-- An operator is read from its first byte on. -/
theorem mem_operatorReads : p ∈ operatorReads m p := by
  unfold operatorReads
  split_ifs <;> simp

/-- A number is read from its first byte on. -/
theorem mem_numericReads : p ∈ numericReads m p := by
  unfold numericReads
  split_ifs <;> simp

/-- A variable is read from its first byte on. -/
theorem mem_variableReads : p ∈ variableReads m p := by
  unfold variableReads sizedReads
  split_ifs <;> simp

/-- The test for an operator depends on the bytes that it reads. -/
theorem opCheck_congr (h : ∀ q ∈ operatorReads m p, m' q = m q) (op : UInt8) :
    opCheck m' p op = opCheck m p op := by
  unfold operatorReads at h
  split_ifs at h with hk
  · simp only [List.mem_cons, List.not_mem_nil, or_false, forall_eq_or_imp, forall_eq] at h
    rw [opCheck, opCheck, h.1, h.2]
  · rw [opCheck, opCheck, h p (List.mem_singleton_self p)]
    simp [hk]

/-- The test for the end of an expression depends on the bytes that it reads. -/
theorem evalIsEndOfExpression_congr (h : ∀ q ∈ operatorReads m p, m' q = m q) :
    evalIsEndOfExpression m' p = evalIsEndOfExpression m p := by
  have hkind : m' p = m p := h p mem_operatorReads
  have hcmp : tOperatorIsComparison m' p = tOperatorIsComparison m p := by
    by_cases hk : m p = tokOperator
    · rw [tOperatorIsComparison, tOperatorIsComparison, hkind,
        h (p + 1) (by rw [operatorReads, if_pos hk]; simp)]
    · simp [tOperatorIsComparison, hkind, hk]
  rw [evalIsEndOfExpression, evalIsEndOfExpression, hkind, opCheck_congr h, hcmp]

/-- A number depends on the bytes that are read of it. -/
theorem numericGet_congr (h : ∀ q ∈ numericReads m p, m' q = m q) (hk : m p = tokNumeric) :
    numericGet m' p = numericGet m p := by
  rw [numericReads, if_pos hk] at h
  simp only [List.mem_cons, List.not_mem_nil, or_false, forall_eq_or_imp, forall_eq] at h
  rw [numericGet, numericGet, Ram.numeric, Ram.numeric, Ram.word, Ram.word, h.2.1, h.2.2]

/-- The end of a variable depends on the bytes that are read of it. -/
theorem varToken_congr (h : ∀ q ∈ variableReads m p, m' q = m q) :
    varToken m' p = varToken m p := by
  have hkind : m' p = m p := h p mem_variableReads
  by_cases hk : m p = tokVariable
  · rw [varToken, varToken, hkind, if_pos hk, if_pos hk, tVarlenSkip, tVarlenSkip,
      h (p + 1) (by rw [variableReads, if_pos hk, sizedReads]; simp)]
  · rw [varToken, varToken, hkind, if_neg hk, if_neg hk]

/-- A register depends on the bytes that are read of it. -/
theorem register?_congr (h : ∀ q ∈ variableReads m p, m' q = m q) (hk : m p = tokRegister) :
    register? m' p = register? m p := by
  have hnext : m' (p + 1) = m (p + 1) := h (p + 1) (by
    rw [variableReads, if_neg (by rw [hk]; decide), if_pos hk]
    simp)
  unfold register?
  rw [hnext]

/-- A string depends on its characters and the zero behind them. -/
theorem stringTo_congr {k : ℕ} (h : ∀ i ≤ (m.stringTo k p).length, m' (p + i) = m (p + i)) :
    m'.stringTo k p = m.stringTo k p := by
  induction k generalizing p with
  | zero => rfl
  | succ k ih =>
    have hfirst : m' p = m p := h 0 (Nat.zero_le _)
    rw [Ram.stringTo, Ram.stringTo, hfirst]
    by_cases h0 : m p = 0
    · rw [if_pos h0, if_pos h0]
    · rw [if_neg h0, if_neg h0, ih fun i hi => ?_]
      rw [Ram.stringTo, if_neg h0, List.length_cons] at h
      have hbyte := h (i + 1) (Nat.succ_le_succ hi)
      rwa [show p + (i + 1) = p + 1 + i by omega] at hbyte

/-- A name depends on the bytes that are read of it. -/
theorem variableGet_congr (h : ∀ q ∈ variableReads m p, m' q = m q) (hk : m p = tokVariable) :
    variableGet m' p = variableGet m p := by
  rw [variableReads, if_pos hk, sizedReads] at h
  refine stringTo_congr fun i hi => h (p + 2 + i) ?_
  refine List.mem_cons_of_mem _ (List.mem_cons_of_mem _ (List.mem_map.2 ⟨i, ?_, rfl⟩))
  exact List.mem_range.2 (Nat.lt_succ_of_le hi)

end

/-! ## Variables and arrays -/

/-- A variable holds the address, which may be that of an array. -/
def State.ArrayAddress (s : State) (arr : ℕ) : Prop :=
  (∃ i, (s.programRegisters i).defined = true ∧ (s.programRegisters i).value = arr) ∨
    ∃ v ∈ s.programContext, v.value = arr

/-- In another memory, the arrays have the same sizes and the same elements. -/
def SameArrays (s : State) (m : Ram) : Prop :=
  ∀ arr, s.ArrayAddress arr → ∀ i ≤ (s.ram (arr + 1)).toNat, m (arr + 1 + i) = s.ram (arr + 1 + i)

section

variable {s : State} {m : Ram} {toks : ℕ}

/-- An array that is found is at the address of one. -/
theorem programGetArray_address {arr : ℕ} (h : programGetArray s toks = some (.ok arr)) :
    s.ArrayAddress arr := by
  unfold programGetArray at h
  split at h
  · obtain ⟨i, -, h⟩ := Option.map_eq_some_iff.1 h
    split at h
    · next hdef => exact .inl ⟨i, hdef, Except.ok.inj h⟩
    · exact absurd h (by simp)
  · dsimp only at h
    split at h
    · exact absurd h (by simp)
    · split at h
      · exact absurd h (by simp)
      · next v hv => exact .inr ⟨v, List.mem_of_find?_eq_some hv, Except.ok.inj (Option.some.inj h)⟩

/-- The search for an array depends on the bytes that are read of its name. -/
theorem programGetArray_congr (h : ∀ q ∈ variableReads s.ram toks, m q = s.ram q)
    (hvar : varToken s.ram toks ≠ none) :
    programGetArray (s.withRam m) toks = programGetArray s toks := by
  obtain ⟨next, hvar⟩ := Option.ne_none_iff_exists'.1 hvar
  have hkind : (s.withRam m).ram toks = s.ram toks := h toks mem_variableReads
  rcases kind_of_varToken hvar with hk | hk
  · have hname : variableGet (s.withRam m).ram toks = variableGet s.ram toks :=
      variableGet_congr h hk
    rw [programGetArray, programGetArray, hkind, hk, hname]
    rfl
  · have hreg : register? (s.withRam m).ram toks = register? s.ram toks := register?_congr h hk
    rw [programGetArray, programGetArray, hkind, hreg, if_pos hk, if_pos hk]
    rfl

/-- The search for a number depends on the bytes that are read of its name. -/
theorem programGetNumericRef_congr (h : ∀ q ∈ variableReads s.ram toks, m q = s.ram q)
    (hvar : varToken s.ram toks ≠ none) :
    programGetNumericRef (s.withRam m) toks = programGetNumericRef s toks := by
  obtain ⟨next, hvar⟩ := Option.ne_none_iff_exists'.1 hvar
  have hkind : (s.withRam m).ram toks = s.ram toks := h toks mem_variableReads
  rcases kind_of_varToken hvar with hk | hk
  · have hname : variableGet (s.withRam m).ram toks = variableGet s.ram toks :=
      variableGet_congr h hk
    rw [programGetNumericRef, programGetNumericRef, hkind, hk, hname]
    rfl
  · have hreg : register? (s.withRam m).ram toks = register? s.ram toks := register?_congr h hk
    rw [programGetNumericRef, programGetNumericRef, hkind, hreg, if_pos hk, if_pos hk]

/-- The search for an element depends on the bytes that are read of its name, and on the sizes of
the arrays. -/
theorem arrayRef_congr (h : ∀ q ∈ variableReads s.ram toks, m q = s.ram q)
    (hvar : varToken s.ram toks ≠ none) (harrays : SameArrays s m) (index : ℤ) :
    arrayRef (s.withRam m) toks index = arrayRef s toks index := by
  rw [arrayRef, arrayRef, programGetArray_congr h hvar]
  cases hfound : programGetArray s toks with
  | none => rfl
  | some r =>
    cases r with
    | error e => rfl
    | ok arr =>
      have hsize : (s.withRam m).ram (arr + 1) = s.ram (arr + 1) :=
        harrays arr (programGetArray_address hfound) 0 (Nat.zero_le _)
      simp only [hsize]

/-- An element has the same value in a memory with the same arrays. -/
theorem load_of_arrayRef {ref : Ref} {index : ℤ} (harrays : SameArrays s m)
    (h : arrayRef s toks index = some (.ok ref)) : (s.withRam m).load ref = s.load ref := by
  unfold arrayRef at h
  split at h
  · exact absurd h (by simp)
  · exact absurd h (by simp)
  · next arr hfound =>
    split_ifs at h with hlow hhigh
    · simp at h
    · simp at h
    · have hsame := harrays arr (programGetArray_address hfound)
      obtain rfl := Except.ok.inj (Option.some.inj h)
      obtain ⟨n, hn⟩ := Int.eq_ofNat_of_zero_le (show 0 ≤ index - 1 by omega)
      have hfits : 2 * n + 2 ≤ (s.ram (arr + 1)).toNat := by omega
      have hlo := hsame (2 * n + 1) (by omega)
      have hhi := hsame (2 * n + 2) hfits
      rw [show arr + 1 + (2 * n + 1) = arr + 2 + 2 * n by omega] at hlo
      rw [show arr + 1 + (2 * n + 2) = arr + 2 + 2 * n + 1 by omega] at hhi
      show m.numeric (arr + 2 + 2 * (index - 1).toNat) =
        s.ram.numeric (arr + 2 + 2 * (index - 1).toNat)
      rw [hn, Int.toNat_natCast, Ram.numeric, Ram.numeric, Ram.word, Ram.word, hlo, hhi]

/-- A variable that is found has the same value in a memory with the same arrays. -/
theorem load_of_tVariableGetPtr {k r r' stop : ℕ} {ref : Ref} (harrays : SameArrays s m)
    (h : tVariableGetPtr k s r toks = some (.ok (ref, stop), r')) :
    (s.withRam m).load ref = s.load ref := by
  cases k with
  | zero => simp [tVariableGetPtr] at h
  | succ k =>
    cases hvar : varToken s.ram toks with
    | none => simp [tVariableGetPtr, hvar] at h
    | some next =>
      rw [tVariableGetPtr_succ r toks hvar] at h
      split_ifs at h
      · obtain ⟨p, r₁, -, hnext⟩ := Evaluated.andThen_eq_ok h
        obtain ⟨found, hfound, hnext⟩ := Option.map_eq_some_iff.1 hnext
        cases found with
        | error e => simp [Except.map] at hnext
        | ok ref' =>
          simp only [Except.map, Prod.mk.injEq, Except.ok.injEq] at hnext
          exact hnext.1.1 ▸ load_of_arrayRef harrays hfound
      · obtain ⟨found, hfound, hnext⟩ := Option.map_eq_some_iff.1 h
        cases found with
        | none => simp at hnext
        | some ref' =>
          simp only [Option.elim, Prod.mk.injEq, Except.ok.injEq] at hnext
          obtain rfl := hnext.1.1
          cases ref' with
          | register i => rfl
          | context i => rfl
          | memory b => exact absurd rfl (programGetNumericRef_ne_memory hfound b)

end

/-! ## Activations -/

section

variable {s : State} {m : Ram} {c d : Call}

/-- A call for an expression depends on the bytes that it reads.

**Proof sketch.** By cases on the token at the place. Whether a single number or register stands
there depends on its first byte and on the operator behind it; both are read. If it does, its value
depends on the bytes of that token (`numericGet_congr`, `register?_congr`). -/
theorem body_evalNumeric_congr {r src : ℕ}
    (h : ∀ q ∈ (Call.evalNumeric r src).reads s.ram, m q = s.ram q) :
    body (s.withRam m) (.evalNumeric r src) = body s (.evalNumeric r src) := by
  have hram : (s.withRam m).ram = m := rfl
  simp only [Call.reads] at h
  by_cases hnum : s.ram src = tokNumeric
  · rw [if_pos hnum] at h
    have hend : evalIsEndOfExpression m (src + numericSize) =
        evalIsEndOfExpression s.ram (src + numericSize) :=
      evalIsEndOfExpression_congr fun q hq => h q (List.mem_append_left _ hq)
    have hreg : decide (s.ram src = tokRegister) = false := by rw [hnum]; rfl
    have hkind : m src = s.ram src := by
      refine h src (List.mem_append_right _ ?_)
      split_ifs
      · exact mem_numericReads
      · exact List.mem_singleton_self src
    simp only [body, hram, hkind, hend, hreg, Bool.false_and, Bool.false_eq_true, if_false]
    split_ifs with hboth
    · rw [Bool.and_eq_true] at hboth
      rw [if_pos hboth.2] at h
      rw [numericGet_congr (fun q hq => h q (List.mem_append_right _ hq)) hnum]
    · rfl
  have hnum' : decide (s.ram src = tokNumeric) = false := decide_eq_false hnum
  rw [if_neg hnum] at h
  by_cases hreg : s.ram src = tokRegister
  · rw [if_pos hreg] at h
    have hend : evalIsEndOfExpression m (src + registerSize) =
        evalIsEndOfExpression s.ram (src + registerSize) :=
      evalIsEndOfExpression_congr fun q hq => h q (List.mem_append_left _ hq)
    have hkind : m src = s.ram src := by
      refine h src (List.mem_append_right _ ?_)
      split_ifs
      · exact mem_variableReads
      · exact List.mem_singleton_self src
    simp only [body, hram, hkind, hend, hnum', Bool.false_and, Bool.false_eq_true, if_false]
    split_ifs with hboth
    · rw [Bool.and_eq_true] at hboth
      rw [if_pos hboth.2] at h
      rw [register?_congr (fun q hq => h q (List.mem_append_right _ hq)) hreg]
      rfl
    · rfl
  · have hreg' : decide (s.ram src = tokRegister) = false := decide_eq_false hreg
    rw [if_neg hreg] at h
    have hkind : m src = s.ram src := h src (List.mem_singleton_self src)
    simp only [body, hram, hkind, hnum', hreg', Bool.false_and, Bool.false_eq_true, if_false]

/-- A call of a function depends on the bytes that it reads. -/
theorem body_tFuncCall_congr {r toks : ℕ}
    (h : ∀ q ∈ (Call.tFuncCall r toks).reads s.ram, m q = s.ram q) :
    body (s.withRam m) (.tFuncCall r toks) = body s (.tFuncCall r toks) := by
  have hram : (s.withRam m).ram = m := rfl
  simp only [Call.reads] at h
  have hkind : m toks = s.ram toks := h toks (by split_ifs <;> simp)
  by_cases hfunc : s.ram toks = tokFunc
  · rw [if_pos hfunc] at h
    have hname : m (toks + 1) = s.ram (toks + 1) := h (toks + 1) (by simp)
    by_cases hrnd : s.ram (toks + 1) = funcRnd
    · rw [if_pos hrnd] at h
      have hopen : opCheck m (toks + 2) opLparen = opCheck s.ram (toks + 2) opLparen :=
        opCheck_congr (fun q hq => h q (List.mem_cons_of_mem _ (List.mem_cons_of_mem _ hq))) _
      simp only [body, hram, hkind, hname, hopen]
    · rw [body, body, hram, hkind, hname, if_neg (not_not.2 hfunc), if_pos hrnd,
        if_neg (not_not.2 hfunc), if_pos hrnd]
  · rw [body, body, hram, hkind, if_pos hfunc, if_pos hfunc]

/-- A call for a variable depends on the bytes that it reads, and on the sizes of the arrays. -/
theorem body_tVariableGetPtr_congr {r toks : ℕ} (harrays : SameArrays s m)
    (h : ∀ q ∈ (Call.tVariableGetPtr r toks).reads s.ram, m q = s.ram q) :
    body (s.withRam m) (.tVariableGetPtr r toks) = body s (.tVariableGetPtr r toks) := by
  have hram : (s.withRam m).ram = m := rfl
  have hvariable : ∀ q ∈ variableReads s.ram toks, m q = s.ram q :=
    fun q hq => h q (List.mem_append_left _ hq)
  cases hvar : varToken s.ram toks with
  | none => simp only [body, hram, varToken_congr hvariable, hvar]
  | some next =>
    have hne : varToken s.ram toks ≠ none := by rw [hvar]; simp
    have hopen : opCheck m next opLparen = opCheck s.ram next opLparen := by
      refine opCheck_congr (fun q hq => h q (List.mem_append_right _ ?_)) _
      rw [hvar]
      exact hq
    simp only [body, hram, varToken_congr hvariable, hvar, hopen,
      arrayRef_congr hvariable hne harrays, programGetNumericRef_congr hvariable hne]

/-- A turn of the main loop depends on what it reads and on the value of the variable that it looks
up.

**Proof sketch.** Along the branches of a turn: the end of the expression, a number, a function, a
variable, an operator. Each branch depends on bytes that are in the list; only a variable also loads
a cell, which `hload` covers for the answer of the call. -/
theorem eval_evalShuntingYard_congr {g : ∀ c : Call, Option c.Answer} {r src : ℕ}
    {output : List RpnToken} {opstack : List UInt8}
    (h : ∀ q ∈ (Call.evalShuntingYard r src output opstack).reads s.ram, m q = s.ram q)
    (hload : ∀ ref stop r',
      Calls (body s) (.evalShuntingYard r src output opstack) (.tVariableGetPtr r src) →
      g (.tVariableGetPtr r src) = some (.ok (ref, stop), r') →
        (s.withRam m).load ref = s.load ref) :
    (body (s.withRam m) (.evalShuntingYard r src output opstack)).eval g =
      (body s (.evalShuntingYard r src output opstack)).eval g := by
  have hram : (s.withRam m).ram = m := rfl
  have hop : ∀ q ∈ operatorReads s.ram src, m q = s.ram q :=
    fun q hq => h q (List.mem_append_left _ hq)
  have hnumber : ∀ q ∈ numericReads s.ram src, m q = s.ram q :=
    fun q hq => h q (List.mem_append_right _ hq)
  have hkind : m src = s.ram src := hop src mem_operatorReads
  rw [body, body, hram, hkind, evalIsEndOfExpression_congr hop]
  by_cases hend : evalIsEndOfExpression s.ram src = true
  · rw [if_pos hend, if_pos hend]
  rw [if_neg hend, if_neg hend]
  by_cases hnum : s.ram src = tokNumeric
  · rw [if_pos hnum, if_pos hnum, numericGet_congr hnumber hnum]
  rw [if_neg hnum, if_neg hnum]
  by_cases hfunc : s.ram src = tokFunc
  · rw [if_pos hfunc, if_pos hfunc]
  rw [if_neg hfunc, if_neg hfunc]
  by_cases hvar : (s.ram src = tokVariable || s.ram src = tokRegister) = true
  · have hcalls : Calls (body s) (.evalShuntingYard r src output opstack)
        (.tVariableGetPtr r src) := by
      rw [Calls, body, if_neg hend, if_neg hnum, if_neg hfunc, if_pos hvar]
      exact reaches_handled_left (Tree.reaches_ask.2 rfl)
    rw [if_pos hvar, if_pos hvar, eval_handled, eval_handled]
    simp only [askVariable, Tree.eval_ask]
    cases hfound : @errorHandle (Ref × ℕ) (fun r => g (.tVariableGetPtr r src)) r with
    | none => rfl
    | some a =>
      obtain ⟨e | ⟨ref, stop⟩, r'⟩ := a
      · rfl
      · simp only [hload ref stop r' hcalls (errorHandle_eq_ok hfound)]
  rw [if_neg hvar, if_neg hvar]
  by_cases hoperator : s.ram src = tokOperator
  · have hoper : m (src + 1) = s.ram (src + 1) :=
      hop (src + 1) (by rw [operatorReads, if_pos hoperator]; simp)
    rw [if_pos hoperator, if_pos hoperator, hoper]
  · rw [if_neg hoperator, if_neg hoperator]

/-- What an activation gives depends on the bytes that it reads, on the arrays, and on the answers
to its calls. -/
theorem eval_body_congr {g : ∀ c : Call, Option c.Answer} (harrays : SameArrays s m)
    (h : ∀ q ∈ c.reads s.ram, m q = s.ram q)
    (hload : ∀ r src ref stop r', Calls (body s) c (.tVariableGetPtr r src) →
      g (.tVariableGetPtr r src) = some (.ok (ref, stop), r') →
        (s.withRam m).load ref = s.load ref) :
    (body (s.withRam m) c).eval g = (body s c).eval g := by
  cases c with
  | evalNumeric r src => rw [body_evalNumeric_congr h]
  | evalShuntingYard r src output opstack =>
    exact eval_evalShuntingYard_congr h fun ref stop r' => hload r src ref stop r'
  | tFuncCall r toks => rw [body_tFuncCall_congr h]
  | tVariableGetPtr r toks => rw [body_tVariableGetPtr_congr harrays h]

/-! ## Evaluations -/

/-- **What an evaluation depends on.** In a memory that has the same bytes where the activations of
the evaluation read, and the same arrays, the evaluation gives the same.

**Proof sketch.** Induction on the turns. The calls of an activation give the same, so it looks up
the same variables, and these have the same values. -/
theorem run_congr (harrays : SameArrays s m)
    (hreads : ∀ d, Relation.ReflTransGen (Calls (body s)) c d →
      ∀ q ∈ d.reads s.ram, m q = s.ram q) (k : ℕ) :
    run (body (s.withRam m)) k c = run (body s) k c := by
  induction k generalizing c with
  | zero => rfl
  | succ k ih =>
    have hcalled : ∀ d, Calls (body s) c d →
        run (body (s.withRam m)) k d = run (body s) k d :=
      fun d hd => ih fun d' hd' => hreads d' (.head hd hd')
    have hload : ∀ r src ref stop r', Calls (body s) c (.tVariableGetPtr r src) →
        run (body (s.withRam m)) k (.tVariableGetPtr r src) = some (.ok (ref, stop), r') →
          (s.withRam m).load ref = s.load ref := by
      intro r src ref stop r' hd hval
      rw [hcalled _ hd, run_body] at hval
      exact load_of_tVariableGetPtr harrays hval
    calc run (body (s.withRam m)) (k + 1) c
        = (body (s.withRam m) c).eval (run (body (s.withRam m)) k) := run_succ
      _ = (body s c).eval (run (body (s.withRam m)) k) :=
          eval_body_congr harrays (hreads c .refl) hload
      _ = (body s c).eval (run (body s) k) :=
          Tree.eval_congr fun d hd => hcalled d (hd.mono fun c a ha => ⟨k, ha⟩)
      _ = run (body s) (k + 1) c := run_succ.symm

/-- **A clean evaluation does not depend on what is behind the statement**, besides the arrays. -/
theorem Clean.evalNumeric_congr {e r src : ℕ} (hclean : Clean s (.evalNumeric r src))
    (hsrc : Aligned s.ram e src) (harrays : SameArrays s m) (hm : ∀ q ≤ e, m q = s.ram q) (k : ℕ) :
    evalNumeric k (s.withRam m) r src = evalNumeric k s r src := by
  rw [← run_body_evalNumeric, ← run_body_evalNumeric]
  refine run_congr harrays (fun d hd q hq => hm q ?_) k
  exact Call.reads_le (hclean.aligned hsrc hd) q hq

end

/-! ## Statements -/

section

variable {m m' : Ram} {p : ℕ}

/-- The test for a keyword depends on the bytes that it reads. -/
theorem kwCheck_congr (h : ∀ q ∈ keywordReads m p, m' q = m q) (kw : UInt8) :
    kwCheck m' p kw = kwCheck m p kw := by
  unfold keywordReads at h
  split_ifs at h with hk
  · simp only [List.mem_cons, List.not_mem_nil, or_false, forall_eq_or_imp, forall_eq] at h
    rw [kwCheck, kwCheck, h.1, h.2]
  · rw [kwCheck, kwCheck, h p (List.mem_singleton_self p)]
    simp [hk]

/-- The limits of a loop depend on what a `FOR` reads.

**Proof sketch.** Along the tokens of a `FOR`: each test depends on bytes that are read, and only
when it succeeds are the bytes of the next token read. -/
theorem forLimits_congr (h : ∀ q ∈ forReads m p, m' q = m q) : forLimits m' p = forLimits m p := by
  have hvar := varToken_congr fun q hq => h q (List.mem_append_left _ hq)
  unfold forReads at h
  cases hnext : varToken m p with
  | none => rw [forLimits, forLimits, hvar, hnext]
  | some next =>
    rw [hnext] at h
    have hbehind : ∀ q ∈ _, m' q = m q := fun q hq => h q (List.mem_append_right _ hq)
    dsimp only at hbehind
    have hequal := opCheck_congr (fun q hq => hbehind q (List.mem_append_left _ hq)) opEqual
    rw [forLimits, forLimits, hvar, hnext]
    dsimp only
    by_cases heq : opCheck m next opEqual = true
    · rw [if_pos heq] at hbehind
      have hstart : ∀ q ∈ numericReads m (next + opSize), m' q = m q :=
        fun q hq => hbehind q (List.mem_append_right _ (List.mem_append_left _ hq))
      rw [hequal, hstart _ mem_numericReads, if_neg (not_not.2 heq), if_neg (not_not.2 heq)]
      by_cases hnum : m (next + opSize) = tokNumeric
      · rw [if_pos hnum] at hbehind
        have hkw := kwCheck_congr (fun q hq => hbehind q (List.mem_append_right _
          (List.mem_append_right _ (List.mem_append_left _ hq)))) keywordTo
        rw [hkw, if_neg (not_not.2 hnum), if_neg (not_not.2 hnum)]
        by_cases hto : kwCheck m (next + opSize + numericSize) keywordTo = true
        · rw [if_pos hto] at hbehind
          have hlimit : ∀ q ∈ numericReads m (next + opSize + numericSize + kwSize), m' q = m q :=
            fun q hq => hbehind q (List.mem_append_right _ (List.mem_append_right _
              (List.mem_append_right _ hq)))
          rw [if_neg (not_not.2 hto), if_neg (not_not.2 hto), hlimit _ mem_numericReads]
          by_cases hnum' : m (next + opSize + numericSize + kwSize) = tokNumeric
          · rw [numericGet_congr hstart hnum, numericGet_congr hlimit hnum']
          · rw [if_pos hnum', if_pos hnum']
        · rw [if_pos hto, if_pos hto]
      · rw [if_pos hnum, if_pos hnum]
    · rw [hequal, if_pos heq, if_pos heq]

/-- The size of an array depends on what a `DIM` reads. -/
theorem dimSize_congr {next : ℕ} (h : ∀ q ∈ dimReads m p, m' q = m q)
    (hnext : varToken m p = some next) :
    varToken m' p = some next ∧
      numericGet m' (next + opSize) = numericGet m (next + opSize) := by
  have hvar := varToken_congr fun q hq => h q (List.mem_append_left _ hq)
  rw [dimReads, hnext] at h
  have hlo := h (next + opSize + 1) (by simp)
  have hhi := h (next + opSize + 2) (by simp)
  refine ⟨hvar.trans hnext, ?_⟩
  rw [numericGet, numericGet, Ram.numeric, Ram.numeric, Ram.word, Ram.word, hlo, hhi]

/-- The step of the loop of `statement_size` depends on what the loop reads. -/
theorem sizeNext_congr (h : ∀ q ∈ sizeReads m p, m' q = m q) : sizeNext m' p = sizeNext m p := by
  have hkind : m' p = m p := h p (by unfold sizeReads; split_ifs <;> simp)
  by_cases hsized : m p = tokString ∨ m p = tokVariable ∨ m p = tokAlloc ∨ m p = tokRemark
  · have hsize : m' (p + 1) = m (p + 1) := h (p + 1) (by rw [sizeReads, if_pos hsized]; simp)
    rw [sizeNext, sizeNext, tVarlenSkip, tVarlenSkip, hkind, hsize]
  · rw [sizeNext, sizeNext, hkind, if_neg hsized, if_neg hsized]

end

end Z80OS.Basic
