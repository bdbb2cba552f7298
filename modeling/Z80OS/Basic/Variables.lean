import Z80OS.Basic.Effects
import Z80OS.Basic.Stream

set_option relaxedAutoImplicit false
set_option autoImplicit false

/-!
# Variables

A variable that has been set is found where it was stored, with the value that it was set to.

## Main results

* `Z80OS.Basic.programGetNumericRef_programSetNumeric` — where a variable is found after it has been
  set.
* `Z80OS.Basic.forVal_programSetNumeric` — the value of a variable after it has been set.
* `Z80OS.Basic.programSetNumeric_again` — setting a variable twice.
-/

namespace Z80OS.Basic

/-- The name of a variable token in memory. -/
theorem variableGet_of_holds {m : Ram} {a : ℕ} {name : List UInt8} {ts : List Token}
    (hs : Stream (.var name :: ts)) (h : m.Holds a (stored (.var name :: ts))) :
    variableGet m a = name := by
  have hname : Token.IsName name := hs.1
  rw [stored_cons, Ram.holds_append] at h
  simp only [Token.bytes, sized, Ram.holds_cons, List.cons_append] at h
  apply h.1.2.2.string
  · intro h0
    exact absurd (hname.letters 0 h0) (by decide)
  · have := hname.le_four
    unfold varnameSize at this
    unfold ramSize
    omega

/-- A number in memory fits into 16 bits. -/
theorem numericGet_mem (m : Ram) (a : ℕ) : -32768 ≤ numericGet m a ∧ numericGet m a < 32768 := by
  apply toNumeric_mem
  exact word16_lt _ _

/-- The start of a loop is a number in memory. -/
theorem forLimits_start_mem {m : Ram} {a : ℕ} {start limit : ℤ}
    (h : forLimits m a = some (start, limit)) : -32768 ≤ start ∧ start < 32768 := by
  unfold forLimits at h
  split at h
  · exact absurd h (by simp)
  · split at h
    · exact absurd h (by simp)
    · split at h
      · exact absurd h (by simp)
      · simp only at h
        split at h
        · exact absurd h (by simp)
        · split at h
          · exact absurd h (by simp)
          · simp only [Option.some.injEq, Prod.mk.injEq] at h
            rw [← h.1]
            exact numericGet_mem _ _

/-- A variable is found where it was when one of them gets another value. -/
theorem findVar_modify {context : List ContextVar} {name : List UInt8} (i w : ℕ) :
    findVar (context.modify i fun v => { v with value := w }) name = findVar context name := by
  unfold findVar
  induction context generalizing i with
  | nil => simp
  | cons v context ih =>
    cases i with
    | zero => simp [List.findIdx?_cons]
    | succ i => simp [List.findIdx?_cons, ih]

/-- A variable that is found is in the table. -/
theorem findVar_lt {context : List ContextVar} {name : List UInt8} {i : ℕ}
    (h : findVar context name = some i) : i < context.length := by
  rw [findVar, List.findIdx?_eq_some_iff_getElem] at h
  exact h.1

/-- A variable that is added is the last one. -/
theorem findVar_concat {context : List ContextVar} {name : List UInt8} (w : ℕ)
    (h : findVar context name = none) :
    findVar (context ++ [⟨name, w⟩]) name = some context.length := by
  unfold findVar at h ⊢
  rw [List.findIdx?_append, h]
  simp

section

variable [Target] {s s' : State} {toks : ℕ} {val : ℤ} {e : Error}

omit [Target] in
/-- What setting a variable that is found does. -/
theorem programSetNumeric_of_ref {ref : Ref} (h : programGetNumericRef s toks = some (some ref)) :
    programSetNumeric s toks val = .ok (.noerror, s.store ref val) := by
  rw [programSetNumeric, h]

omit [Target] in
/-- What setting a variable that is not found does. -/
theorem programSetNumeric_of_none (h : programGetNumericRef s toks = some none)
    (hroom : s.programContext.length < maxVars)
    (hname : (variableGet s.ram toks).length ≤ varnameSize) :
    programSetNumeric s toks val = .ok (.noerror,
      s.withContext (s.programContext ++ [⟨variableGet s.ram toks, ofNumeric val⟩])) := by
  simp only [programSetNumeric, h]
  rw [if_neg hroom.ne, if_neg (by omega)]

omit [Target] in
/-- What setting a variable has done. -/
theorem programSetNumeric_cases (hset : programSetNumeric s toks val = .ok (.noerror, s')) :
    (∃ ref, programGetNumericRef s toks = some (some ref) ∧ s' = s.store ref val) ∨
      programGetNumericRef s toks = some none ∧
        s' = s.withContext (s.programContext ++ [⟨variableGet s.ram toks, ofNumeric val⟩]) := by
  cases href : programGetNumericRef s toks with
  | none => simp [programSetNumeric, href] at hset
  | some r =>
    cases r with
    | some ref =>
      rw [programSetNumeric_of_ref href, Except.ok.injEq, Prod.mk.injEq] at hset
      exact .inl ⟨ref, rfl, hset.2.symm⟩
    | none =>
      simp only [programSetNumeric, href] at hset
      split at hset
      · simp at hset
      · split at hset
        · simp at hset
        · simp only [Except.ok.injEq, Prod.mk.injEq, true_and] at hset
          exact .inr ⟨rfl, hset.symm⟩

omit [Target] in
/-- A variable of the context is found by its name. -/
theorem programGetNumericRef_eq_context {i : ℕ}
    (h : programGetNumericRef s toks = some (some (.context i))) :
    findVar s.programContext (variableGet s.ram toks) = some i := by
  unfold programGetNumericRef at h
  split at h
  · simp at h
  · simpa using h

omit [Target] in
/-- A variable is found in its place when a number has been stored there. -/
theorem programGetNumericRef_store {ref : Ref} (n : ℤ)
    (h : programGetNumericRef s toks = some (some ref)) :
    programGetNumericRef (s.store ref n) toks = some (some ref) := by
  cases ref with
  | memory b => exact absurd rfl (programGetNumericRef_ne_memory h b)
  | register i => exact h
  | context i =>
    rw [← h]
    unfold programGetNumericRef
    simp only [State.store, State.withContext, findVar_modify]

omit [Target] in
/-- A variable that was not found is found in the place behind the others when it has been added. -/
theorem programGetNumericRef_concat (w : ℕ) (h : programGetNumericRef s toks = some none) :
    programGetNumericRef
      (s.withContext (s.programContext ++ [⟨variableGet s.ram toks, w⟩])) toks =
        some (some (.context s.programContext.length)) := by
  unfold programGetNumericRef at h ⊢
  split at h
  · simp at h
  · next hreg =>
    simp only [Option.some.injEq, Option.map_eq_none_iff] at h
    simp only [State.withContext, if_neg hreg, findVar_concat w h, Option.map_some]

omit [Target] in
/-- A variable that has been set is found with the value that it was set to. -/
theorem programGetNumericRef_programSetNumeric
    (hset : programSetNumeric s toks val = .ok (.noerror, s'))
    (hval : -32768 ≤ val ∧ val < 32768) :
    ∃ ref, programGetNumericRef s' toks = some (some ref) ∧ s'.load ref = val := by
  rcases programSetNumeric_cases hset with ⟨ref, href, rfl⟩ | ⟨hnone, rfl⟩
  · refine ⟨ref, programGetNumericRef_store val href, ?_⟩
    cases ref with
    | memory b => exact absurd rfl (programGetNumericRef_ne_memory href b)
    | register i => simp [State.load, State.store, State.setRegister, toNumeric_ofNumeric hval]
    | context i =>
      have hi : i < s.programContext.length := findVar_lt (programGetNumericRef_eq_context href)
      simp [State.load, State.store, State.withContext, hi, toNumeric_ofNumeric hval]
  · refine ⟨_, programGetNumericRef_concat _ hnone, ?_⟩
    simp [State.load, State.withContext, toNumeric_ofNumeric hval]

omit [Target] in
/-- Storing the same number again changes nothing. -/
theorem store_store {ref : Ref} (h : ∀ b, ref ≠ .memory b) (n : ℤ) :
    (s.store ref n).store ref n = s.store ref n := by
  cases ref with
  | register i => simp [State.store, State.setRegister]
  | context i => simp [State.store, State.withContext, List.modify_modify_eq, Function.comp_def]
  | memory b => exact absurd rfl (h b)

omit [Target] in
/-- Setting a variable to the same value again changes nothing. -/
theorem programSetNumeric_again (hset : programSetNumeric s toks val = .ok (.noerror, s')) :
    programSetNumeric s' toks val = .ok (.noerror, s') := by
  rcases programSetNumeric_cases hset with ⟨ref, href, rfl⟩ | ⟨hnone, rfl⟩
  · rw [programSetNumeric_of_ref (programGetNumericRef_store val href),
      store_store (programGetNumericRef_ne_memory href)]
  · rw [programSetNumeric_of_ref (programGetNumericRef_concat _ hnone)]
    simp [State.store, State.withContext, List.modify_eq_take_drop]

/-- The value of a variable after it has been set. -/
theorem forVal_programSetNumeric (hset : programSetNumeric s toks val = .ok (.noerror, s'))
    (hval : -32768 ≤ val ∧ val < 32768) : forVal s' toks = .ok val := by
  obtain ⟨ref, href, hload⟩ := programGetNumericRef_programSetNumeric hset hval
  rw [forVal, programGetNumeric, href]
  simp only [orFault, Except.map, hload]

omit [Target] in
/-- A variable that is not found is no register. -/
theorem ne_tokRegister_of_none (h : programGetNumericRef s toks = some none) :
    s.ram toks ≠ tokRegister := by
  intro hreg
  unfold programGetNumericRef at h
  rw [if_pos hreg] at h
  cases hr : register? s.ram toks <;> simp [hr] at h

omit [Target] in
/-- Setting a variable that there is room for succeeds. -/
theorem programSetNumeric_noerror (hset : programSetNumeric s toks val = .ok (e, s'))
    (hroom : programGetNumericRef s toks = some none → s.programContext.length < maxVars)
    (hname : programGetNumericRef s toks = some none →
      (variableGet s.ram toks).length ≤ varnameSize) :
    e = .noerror := by
  cases href : programGetNumericRef s toks with
  | none => simp [programSetNumeric, href] at hset
  | some r =>
    cases r with
    | some ref =>
      rw [programSetNumeric_of_ref href, Except.ok.injEq, Prod.mk.injEq] at hset
      exact hset.1.symm
    | none =>
      rw [programSetNumeric_of_none href (hroom href) (hname href), Except.ok.injEq,
        Prod.mk.injEq] at hset
      exact hset.1.symm

end

end Z80OS.Basic
