import Z80OS.Basic.ArrayRuns
import Z80OS.Basic.Variables

set_option relaxedAutoImplicit false
set_option autoImplicit false

/-!
# Scalars and arrays

The value of a variable is a number or the address of an array, and nothing says which of the two it
is: only a register has a flag for its array. A scalar that is assigned to a variable with an array
takes the place of the address. A `DIM` adds a named variable behind the others, whether there is
one of this name or not, and the first one of a name is the one that is found.

This file is about sequences of scalar assignments, of `DIM`, and of assignments to elements, in
which variables can be used both as scalars and as arrays.

## Main definitions

* `Z80OS.Basic.SparesOthers` — only one variable is changed.
* `Z80OS.Basic.StoreRun` — the sequences of statements whose steps meet a condition.
* `Z80OS.Basic.Separate` — the condition that keeps scalars and arrays apart.
* `Z80OS.Basic.ActsAsStore` — what the variables should do as a store.

## Main results

* `Z80OS.Basic.doAssign_spares` — an assignment to a scalar changes no other variable.
* `Z80OS.Basic.store_behaves` — the variables act as a store when scalars and arrays are kept apart.
-/

namespace Z80OS.Basic

/-! ## One variable -/

/-- Where the number of a variable is, if the variable exists. -/
def State.refOf (s : State) : ArrayVar → Option Ref
  | .register i => some (.register i)
  | .named name => (findVar s.programContext name.chars).map .context

/-- Only the variable `v` is changed: memory and the flags of the registers are as before, and so
are the arrays of the other variables. -/
structure SparesOthers (v : ArrayVar) (s s' : State) : Prop where
  ram : s'.ram = s.ram
  programEndPtr : s'.programEndPtr = s.programEndPtr
  defined : ∀ i, (s'.programRegisters i).defined = (s.programRegisters i).defined
  others : ∀ v', v' ≠ v → s'.arrayOf v' = s.arrayOf v'

section

variable {s s' s'' : State} {v : ArrayVar} {a : ℕ} {ref : Ref} {x : ℤ}

/-- A state spares all of its variables. -/
theorem SparesOthers.refl (s : State) : SparesOthers v s s :=
  ⟨rfl, rfl, fun _ => rfl, fun _ _ => rfl⟩

/-- Two steps that spare the other variables. -/
theorem SparesOthers.trans (h : SparesOthers v s s') (h' : SparesOthers v s' s'') :
    SparesOthers v s s'' where
  ram := h'.ram.trans h.ram
  programEndPtr := h'.programEndPtr.trans h.programEndPtr
  defined i := (h'.defined i).trans (h.defined i)
  others v' hv' := (h'.others v' hv').trans (h.others v' hv')

/-- Another seed spares all variables. -/
theorem SparesOthers.of_reseeded (h : Reseeded s s') : SparesOthers v s s' := by
  rw [h]
  exact ⟨rfl, rfl, fun _ => rfl, fun v' _ => by cases v' <;> rfl⟩

/-- The code finds the number of a variable. -/
theorem programGetNumericRef_of_holds (h : s.ram.Holds a v.bytes) :
    programGetNumericRef s a = some (s.refOf v) := by
  cases v with
  | register i =>
    rw [programGetNumericRef, if_pos h.1, register?_of_holds h]
    rfl
  | named name =>
    have hkind : s.ram a ≠ tokRegister := by
      rw [h.1]
      decide
    rw [programGetNumericRef, if_neg hkind, variableGet_of_named h]
    rfl

/-- A variable of another name is found as before when a value is changed. -/
theorem find?_modify_other {context : List ContextVar} {name name' : List UInt8} {k : ℕ} (w : ℕ)
    (hk : findVar context name = some k) (hne : name' ≠ name) :
    (context.modify k fun c => { c with value := w }).find? (fun c => c.name = name') =
      context.find? fun c => c.name = name' := by
  induction context generalizing k with
  | nil => simp [findVar] at hk
  | cons c context ih =>
    rw [findVar, List.findIdx?_cons] at hk
    by_cases hc : c.name = name
    · have hname : c.name ≠ name' := hc ▸ hne.symm
      simp only [hc, decide_true, if_true, Option.some.injEq] at hk
      subst hk
      simp [hname]
    · simp only [hc, decide_false, Bool.false_eq_true, if_false, Option.map_eq_some_iff] at hk
      obtain ⟨j, hj, rfl⟩ := hk
      rw [List.modify_succ_cons, List.find?_cons, List.find?_cons, ih hj]

/-- A store to the place of a variable spares the other ones.

**Proof sketch.** By cases on the variable. A register is one of the registers, and a named variable
is the context of its name (`find?_modify_other`); another variable is another register or has
another name. -/
theorem SparesOthers.store (h : s.refOf v = some ref) (x : ℤ) :
    SparesOthers v s (s.store ref x) := by
  cases v with
  | register i =>
    obtain rfl := Option.some.inj h
    refine ⟨rfl, rfl, fun j => ?_, fun v' hv' => ?_⟩
    · by_cases hj : j = i
      · subst hj
        simp [State.store, State.setRegister]
      · simp [State.store, State.setRegister, Function.update_of_ne hj]
    · cases v' with
      | register j =>
        have hj : j ≠ i := fun he => hv' (by rw [he])
        simp [State.arrayOf, State.store, State.setRegister, Function.update_of_ne hj]
      | named name => rfl
  | named name =>
    simp only [State.refOf, Option.map_eq_some_iff] at h
    obtain ⟨k, hk, rfl⟩ := h
    refine ⟨rfl, rfl, fun j => rfl, fun v' hv' => ?_⟩
    cases v' with
    | register j => rfl
    | named name' =>
      have hne : name'.chars ≠ name.chars := fun he => hv' (by
        cases name
        cases name'
        simp only at he
        subst he
        rfl)
      simp only [State.arrayOf, State.store, State.withContext,
        find?_modify_other (ofNumeric x) hk hne]

/-- A variable that is set changes no other one. -/
theorem SparesOthers.set (hvar : s.ram.Holds a v.bytes)
    (h : programSetNumeric s a x = .ok (.noerror, s')) : SparesOthers v s s' := by
  rcases programSetNumeric_cases h with ⟨ref, href, rfl⟩ | ⟨hnone, rfl⟩
  · rw [programGetNumericRef_of_holds hvar, Option.some.injEq] at href
    exact .store href x
  · rw [programGetNumericRef_of_holds hvar, Option.some.injEq] at hnone
    cases v with
    | register i => exact absurd hnone (by simp [State.refOf])
    | named name =>
      rw [variableGet_of_named hvar]
      refine ⟨rfl, rfl, fun j => rfl, fun v' hv' => ?_⟩
      cases v' with
      | register j => rfl
      | named name' =>
        have hne : name.chars ≠ name'.chars := fun he => hv' (by
          cases name
          cases name'
          simp only at he
          subst he
          rfl)
        simp only [State.arrayOf, State.withContext, List.find?_append]
        cases s.programContext.find? fun c => c.name = name'.chars with
        | none => simp [hne]
        | some c => rfl

/-! ## Assignments to scalars -/

/-- The pointer to a scalar. -/
theorem getPtr_scalar (hvar : s.ram.Holds a v.bytes)
    (hscalar : opCheck s.ram (a + v.bytes.length) opLparen = false) :
    getPtr s a = .ok ((s.refOf v).elim (.error .undefinedVar)
      fun ref => .ok (ref, a + v.bytes.length), s) := by
  have hcall : tVariableGetPtr (65535 + 1) s s.r a = some ((s.refOf v).elim (.error .undefinedVar)
      fun ref => .ok (ref, a + v.bytes.length), s.r) := by
    rw [tVariableGetPtr, varToken_of_holds hvar]
    simp only [hscalar, Bool.false_eq_true, if_false, programGetNumericRef_of_holds hvar]
    cases s.refOf v <;> rfl
  rw [getPtr, show tVariableGetPtr ramSize s s.r a = _ from hcall]
  rfl

/-- The left side of an assignment to a variable without an index is its place, and spares the other
ones.

**Proof sketch.** The place is the one that a search finds, in the state before or, when the
variable was undefined, in the one in which it has been set to zero (`SparesOthers.set`). -/
theorem assignPtr_scalar {res : Except Error (Ref × ℕ)} (hvar : s.ram.Holds a v.bytes)
    (hscalar : opCheck s.ram (a + v.bytes.length) opLparen = false)
    (h : assignPtr s a = .ok (res, s')) :
    SparesOthers v s s' ∧ ∀ ref next, res = .ok (ref, next) → s'.refOf v = some ref := by
  -- the result of the last search, in the state in which it is made
  have hfound : ∀ t, t.ram = s.ram → SparesOthers v s t → getPtr t a = .ok (res, s') →
      SparesOthers v s s' ∧ ∀ ref next, res = .ok (ref, next) → s'.refOf v = some ref := by
    intro t hram hspares hget
    rw [getPtr_scalar (by rw [hram]; exact hvar) (by rw [hram]; exact hscalar), Except.ok.injEq,
      Prod.mk.injEq] at hget
    obtain ⟨hres, rfl⟩ := hget
    refine ⟨hspares, fun ref next he => ?_⟩
    rw [he] at hres
    cases href : t.refOf v with
    | none => simp [href] at hres
    | some ref' =>
      simp only [href, Option.elim_some, Except.ok.injEq, Prod.mk.injEq] at hres
      rw [hres.1]
  by_cases hundef : ∃ s₁, getPtr s a = .ok (.error .undefinedVar, s₁)
  · obtain ⟨s₁, hget⟩ := hundef
    have hs₁ : s₁ = s := by
      have hptr := getPtr_scalar hvar hscalar
      rw [hget, Except.ok.injEq, Prod.mk.injEq] at hptr
      exact hptr.2
    subst hs₁
    cases hset : programSetNumeric s₁ a 0 with
    | error f => simp [assignPtr, hget, hset] at h
    | ok q =>
      obtain ⟨e, s₂⟩ := q
      by_cases he : e = .noerror
      · subst he
        rw [assignPtr_of_set hget hset] at h
        have hspares := SparesOthers.set hvar hset
        exact hfound s₂ hspares.ram hspares h
      · rw [assignPtr_of_unset hget hset he, Except.ok.injEq, Prod.mk.injEq] at h
        obtain ⟨rfl, rfl⟩ := h
        exact ⟨.refl _, fun ref next heq => absurd heq (by simp)⟩
  · rw [assignPtr_of_defined fun s₁ hget => hundef ⟨s₁, hget⟩] at h
    exact hfound s rfl (.refl s) h

/-- **An assignment to a scalar changes no other variable**, and nothing in memory.

**Proof sketch.** The left side spares the other variables (`assignPtr_scalar`), the evaluation
changes the seed alone (`eval_reseeded`), and the value is stored to the place of the variable
(`SparesOthers.store`). -/
theorem doAssign_spares {o : Outcome} (hvar : s.ram.Holds a v.bytes)
    (hscalar : opCheck s.ram (a + v.bytes.length) opLparen = false)
    (h : doAssign s a = .ok (o, s')) : SparesOthers v s s' := by
  unfold doAssign at h
  cases hptr : assignPtr s a with
  | error f => simp [hptr] at h
  | ok q =>
    obtain ⟨res, s₁⟩ := q
    obtain ⟨h₁, href⟩ := assignPtr_scalar hvar hscalar hptr
    cases res with
    | error e =>
      simp only [hptr, fails, Except.ok.injEq, Prod.mk.injEq] at h
      exact h.2 ▸ h₁
    | ok p =>
      obtain ⟨ref, next⟩ := p
      simp only [hptr] at h
      split at h
      · simp only [fails, Except.ok.injEq, Prod.mk.injEq] at h
        exact h.2 ▸ h₁
      · cases heval : eval s₁ (next + opSize) with
        | error f => simp [heval] at h
        | ok q =>
          obtain ⟨e | ⟨val, stop⟩, s₂⟩ := q
          · simp only [heval, fails, Except.ok.injEq, Prod.mk.injEq] at h
            exact h.2 ▸ h₁.trans (.of_reseeded (eval_reseeded heval))
          · simp only [heval, succeeds, Except.ok.injEq, Prod.mk.injEq] at h
            have h₂ : Reseeded s₁ s₂ := eval_reseeded heval
            have href₂ : s₂.refOf v = some ref := by
              rw [h₂, ← href ref next rfl]
              cases v <;> rfl
            exact h.2 ▸ (h₁.trans (.of_reseeded h₂)).trans (.store href₂ val)

end

/-! ## Sequences of statements -/

/-- A statement about the variables: an assignment to a scalar, a `DIM`, an assignment to an
element, and one that ends with an error. -/
inductive StoreStmt
  | scalar (v : ArrayVar)
  | dim (v : ArrayVar) (n : ℕ)
  | assign (v : ArrayVar) (i x : ℤ)
  | refused (v : ArrayVar)

/-- What the history of the arrays has of a statement. -/
def StoreStmt.record : StoreStmt → List ArrayOp
  | .scalar _ => []
  | .dim v n => [.dim v n]
  | .assign v i x => [.assign v i x]
  | .refused _ => []

/-- There is no variable of the name in the context. -/
def State.Unnamed (s : State) (v : ArrayVar) : Prop :=
  ∀ name, v = .named name → ∀ c ∈ s.programContext, c.name ≠ name.chars

/-- What happens between two statements: the variables stay as they are, and so does what is in a
block of an array; the end of the program does not go back. -/
structure Beside (hist : List ArrayOp) (s s' : State) : Prop where
  stop : s.programEndPtr ≤ s'.programEndPtr
  registers : s'.programRegisters = s.programRegisters
  context : s'.programContext = s.programContext
  ram : ∀ v n b, declared hist v = some n → s.arrayOf v = .ok b →
    ∀ i, b ≤ i → i < b + blockSize n → s'.ram i = s.ram i

/-- What is stored beside the arrays is stored elsewhere. -/
theorem Beside.elsewhere {hist : List ArrayOp} {s s' : State} (h : Beside hist s s') :
    Elsewhere hist s s' where
  stop := h.stop
  found v _ _ := by cases v <;> simp only [State.arrayOf, h.registers, h.context]
  ram := h.ram

section

variable [Target]

/-- A statement stands at an address. -/
inductive StmtAt (s : State) (a : ℕ) : StoreStmt → Prop
  | scalar {v : ArrayVar} (hvar : s.ram.Holds a v.bytes)
    (hscalar : opCheck s.ram (a + v.bytes.length) opLparen = false) : StmtAt s a (.scalar v)
  | dim {v : ArrayVar} {n : ℕ} (h : OpAt s a (.dim v n)) : StmtAt s a (.dim v n)
  | assign {v : ArrayVar} {i x : ℤ} (h : OpAt s a (.assign v i x)) : StmtAt s a (.assign v i x)
  | refused {v : ArrayVar} {e : Error} {s' : State} (hvar : s.ram.Holds a v.bytes)
    (hopen : opCheck s.ram (a + v.bytes.length) opLparen = true)
    (h : interpret s a = .ok (.done e, s')) (he : e ≠ .noerror) : StmtAt s a (.refused v)

/-- There is room for what the statement adds. -/
def WithinCapacity (s : State) : StoreStmt → Prop
  | .scalar _ => True
  | .dim v n => n ≤ 127 ∧ s.programEndPtr + blockSize n ≤ Target.programMax ∧
      ∀ name, v = .named name → s.programContext.length < maxVars
  | .assign _ _ _ => True
  | .refused _ => True

/-- A condition on a statement at an address, behind a history. -/
abbrev StoreCondition : Type := List ArrayOp → State → ℕ → StoreStmt → Prop

/-- Scalars and arrays are kept apart: no number is assigned to a variable that has an array; an
array is not declared for a named variable that is there already; no element is assigned of a named
variable that is a scalar; and the variables in an index are defined. -/
def Separate : StoreCondition
  | hist, _, _, .scalar v => declared hist v = none
  | _, s, _, .dim v _ => s.Unnamed v
  | hist, s, _, .assign v _ _ => (declared hist v).isSome ∨ s.Unnamed v
  | _, s, a, .refused _ => ∀ s₁, getPtr s a ≠ .ok (.error .undefinedVar, s₁)

/-- The statements of a run that starts in the state `s₀` meet the condition `C`. They have left a
history of the arrays, and the state `s`. -/
inductive StoreRun (C : StoreCondition) (s₀ : State) : List ArrayOp → State → Prop
  | start : StoreRun C s₀ [] s₀
  | step {hist : List ArrayOp} {s s₁ s₂ : State} {a : ℕ} {stmt : StoreStmt} {o : Outcome}
    (h : StoreRun C s₀ hist s) (hbeside : Beside hist s s₁) (hstands : StmtAt s₁ a stmt)
    (hroom : WithinCapacity s₁ stmt) (hC : C hist s₁ a stmt)
    (hrun : interpret s₁ a = .ok (o, s₂)) : StoreRun C s₀ (stmt.record ++ hist) s₂

/-- No register has an array. -/
def NoArrays (s : State) : Prop := ∀ i, (s.programRegisters i).defined = false

/-- What the variables should do behind a history: an element that is read has the value that has
been assigned to it last, or 0, and an index out of range gives an error; and an assignment to a
scalar does not change where the elements of an array are, and nothing in memory. -/
structure ActsAsStore (C : StoreCondition) (hist : List ArrayOp) (s : State) : Prop where
  read : ∀ s₁ a v i stop r, Beside hist s s₁ → ElementAt s₁ a v i stop r →
    (declared hist v).isSome →
    execute s₁ a (.read v i) = .ok (expected hist (.read v i), s₁.withSeed r)
  scalar : ∀ s₁ s₂ a v o, Beside hist s s₁ → StmtAt s₁ a (.scalar v) → C hist s₁ a (.scalar v) →
    interpret s₁ a = .ok (o, s₂) → s₂.ram = s₁.ram ∧ ∀ v' toks i, (declared hist v').isSome →
      s₁.ram.Holds toks v'.bytes → arrayRef s₂ toks i = arrayRef s₁ toks i

variable {s₀ s s₁ s₂ : State} {hist : List ArrayOp} {lo a : ℕ} {v : ArrayVar}

/-- The arrays lie as the history says, and a register has an array only if one has been
declared. -/
structure StoreInvariant (lo : ℕ) (hist : List ArrayOp) (s : State) : Prop where
  laid : Laid lo hist s
  declared_of_defined : ∀ i, (s.programRegisters i).defined = true →
    (declared hist (.register i)).isSome

omit [Target] in
/-- The arrays lie as before when a variable without an array is changed. -/
theorem StoreInvariant.spares (h : StoreInvariant lo hist s) (hv : declared hist v = none)
    (hs : SparesOthers v s s₁) : StoreInvariant lo hist s₁ where
  laid := h.laid.elsewhere
    { stop := hs.programEndPtr.ge
      found := fun v' n hv' => hs.others v' fun he => by
        rw [he, hv] at hv'
        exact absurd hv' (by simp)
      ram := fun v' n b _ _ i _ _ => by rw [hs.ram] }
  declared_of_defined i hi := h.declared_of_defined i (hs.defined i ▸ hi)

omit [Target] in
/-- A variable that no array has been declared for has none. -/
theorem StoreInvariant.arrayOf_none (h : StoreInvariant lo hist s) (hv : declared hist v = none)
    (hname : s.Unnamed v) : s.arrayOf v = .error .undefinedArray := by
  cases v with
  | register i =>
    have hdef : (s.programRegisters i).defined = false := by
      by_contra hdef
      have hsome := h.declared_of_defined i (Bool.not_eq_false _ ▸ hdef)
      rw [hv] at hsome
      exact absurd hsome (by simp)
    simp [State.arrayOf, hdef]
  | named name =>
    have hnone : (s.programContext.find? fun c => c.name = name.chars) = none := by
      simpa [List.find?_eq_none] using hname name rfl
    simp only [State.arrayOf, hnone, Option.elim_none]

omit [Target] in
/-- What is recorded for a variable without an array says nothing about the arrays. -/
theorem Laid.record_undeclared (h : Laid lo hist s) (hv : declared hist v = none) (i x : ℤ) :
    Laid lo (.assign v i x :: hist) s := by
  refine ⟨h.lo_le, fun v' n' hv' => ?_, h.apart⟩
  obtain ⟨b', hb'⟩ := h.block v' n' hv'
  refine ⟨b', hb'.found, hb'.lo_le, hb'.le_end, hb'.size, fun i' hi' hn' => ?_⟩
  have hne : ¬ (v = v' ∧ i = i') := by
    rintro ⟨rfl, -⟩
    rw [declared, hv] at hv'
    exact absurd hv' (by simp)
  rw [lastAssigned, if_neg hne, hb'.cells i' hi' hn']

omit [Target] in
/-- Another seed keeps the invariant. -/
theorem StoreInvariant.reseeded (h : StoreInvariant lo hist s) (hs : Reseeded s s₁) :
    StoreInvariant lo hist s₁ := by
  rw [hs]
  exact ⟨h.laid.withSeed _, h.declared_of_defined⟩

/-- An assignment to an element of a variable without an array fails. -/
theorem ElementAt.undefined {i : ℤ} {stop r : ℕ} (h : ElementAt s a v i stop r)
    (hv : s.arrayOf v = .error .undefinedArray) :
    interpret s a = fails (s.withSeed r) .undefinedArray := by
  have href : arrayRef s a i = some (.error .undefinedArray) := by
    rw [arrayRef, programGetArray_of_holds h.var, hv]
  rw [interpret_assign (kind_of_bytes h.var), doAssign, assignPtr, h.getPtr, href]
  rfl

/-- **A statement that keeps scalars and arrays apart keeps the invariant.**

**Proof sketch.** An assignment to a scalar changes a variable without an array. A `DIM` of a
register gives it a new array and one of a new name adds a variable. An assignment to an element
goes to its cell, or fails. -/
theorem StoreInvariant.step (h : StoreInvariant lo hist s) {stmt : StoreStmt} {o : Outcome}
    (hstands : StmtAt s a stmt) (hroom : WithinCapacity s stmt) (hC : Separate hist s a stmt)
    (hrun : interpret s a = .ok (o, s₂)) : StoreInvariant lo (stmt.record ++ hist) s₂ := by
  cases hstands with
  | @scalar v hvar hscalar =>
    rw [interpret_assign (kind_of_bytes hvar)] at hrun
    exact h.spares hC (doAssign_spares hvar hscalar hrun)
  | @dim v n hop =>
    cases hop with
    | dim hk hvar hfront hsize =>
      obtain ⟨s', hexec, hlaid, hregs⟩ := h.laid.dim hk hvar hfront hsize hroom.1
        fun name hname => ⟨hroom.2.2 name hname, hC name hname⟩
      rw [execute, hrun] at hexec
      obtain rfl : s₂ = s' := by
        simp only [Except.map, Except.ok.injEq, Prod.mk.injEq] at hexec
        exact hexec.2
      refine ⟨hlaid, fun i hi => ?_⟩
      show (declared (.dim v n :: hist) (.register i)).isSome
      rw [declared]
      split
      · rfl
      · next hne => exact h.declared_of_defined i (hregs i hne ▸ hi)
  | @assign v i x hop =>
    cases hop with
    | assign hel heq hvalue =>
      by_cases hv : (declared hist v).isSome
      · obtain ⟨s', hexec, hlaid, hregs, -⟩ := h.laid.assign hel heq hvalue hv
        rw [execute, hrun] at hexec
        obtain rfl : s₂ = s' := by
          simp only [Except.map, Except.ok.injEq, Prod.mk.injEq] at hexec
          exact hexec.2
        refine ⟨hlaid, fun j hj => ?_⟩
        rw [hregs] at hj
        exact h.declared_of_defined j hj
      · have hnone : declared hist v = none := by simpa using hv
        have harr := h.arrayOf_none hnone (hC.resolve_left hv)
        rw [hel.undefined harr] at hrun
        simp only [fails, Except.ok.injEq, Prod.mk.injEq] at hrun
        obtain ⟨-, rfl⟩ := hrun
        exact ⟨(h.laid.withSeed _).record_undeclared hnone i x, h.declared_of_defined⟩
  | @refused v e s' hvar _ hint he =>
    rw [hint, Except.ok.injEq, Prod.mk.injEq] at hrun
    obtain ⟨-, rfl⟩ := hrun
    rw [interpret_assign (kind_of_bytes hvar)] at hint
    rcases doAssign_failed_cases hint he with hsame | ⟨s₁, -, hget, -⟩
    · exact h.reseeded hsame
    · exact absurd hget (hC s₁)

/-- The invariant holds in every state of a run. -/
theorem StoreRun.invariant (hstart : NoArrays s₀) (h : StoreRun Separate s₀ hist s) :
    StoreInvariant s₀.programEndPtr hist s := by
  induction h with
  | start =>
    refine ⟨Laid.start s₀, fun i hi => ?_⟩
    rw [hstart i] at hi
    exact absurd hi (by simp)
  | step _ hbeside hstands hroom hC hrun ih =>
    refine StoreInvariant.step ⟨ih.laid.elsewhere hbeside.elsewhere, ?_⟩ hstands hroom hC hrun
    intro i hi
    rw [hbeside.registers] at hi
    exact ih.declared_of_defined i hi

/-- **The variables act as a store when scalars and arrays are kept apart.** For every sequence of
scalar assignments, of `DIM` and of assignments to elements within the limits, from a state in which
no register has an array: when each of the statements keeps scalars and arrays apart then in every
state that is reached an element that is read has the value that has been assigned to it last, or 0,
and an assignment to a scalar changes neither memory nor where the elements of the arrays are.

**Proof sketch.** The blocks of the arrays stay laid out along the sequence (`StoreRun.invariant`),
and an element is read from its cell. An assignment to a scalar changes a register that no array has
(`doAssign_spares`). -/
theorem store_behaves (hstart : NoArrays s₀) (h : StoreRun Separate s₀ hist s) :
    ActsAsStore Separate hist s where
  read s₁ a v i stop r hbeside hel hv :=
    ((h.invariant hstart).laid.elsewhere hbeside.elsewhere).read hel hv
  scalar s₁ s₂ a v o hbeside hstands hC hrun := by
    cases hstands with
    | scalar hvar hscalar =>
      rw [interpret_assign (kind_of_bytes hvar)] at hrun
      have hspares := doAssign_spares hvar hscalar hrun
      refine ⟨hspares.ram, fun v' toks i hv' htoks => ?_⟩
      have hne : v' ≠ v := by
        rintro rfl
        rw [show declared hist v' = none from hC] at hv'
        exact absurd hv' (by simp)
      have htoks' : s₂.ram.Holds toks v'.bytes := by
        rw [hspares.ram]
        exact htoks
      rw [arrayRef, arrayRef, programGetArray_of_holds htoks', programGetArray_of_holds htoks,
        hspares.others v' hne, hspares.ram]

end

/-! ## A scalar in the place of an array -/

/-- A new program. -/
def newProgram : State :=
  letI := Target.small
  boot State.zeroed

/-- A new program, with the tokens of `DIM A(3)` in the buffer. -/
def dimmed : State := newProgram.memcpy 0x8100 dimStatement

/-- A new program has no arrays. -/
theorem noArrays_newProgram : NoArrays newProgram := fun _ => rfl

/-- The first step of a run is the creation of an array. -/
theorem storeRun_dim {C : StoreCondition} {s : State} {o : Outcome}
    (hC : C [] dimmed 0x8100 (.dim arrayA 3))
    (h : @interpret Target.small dimmed 0x8100 = .ok (o, s)) :
    @StoreRun Target.small C newProgram [.dim arrayA 3] s := by
  let _ := Target.small
  have hbeside : Beside [] newProgram dimmed :=
    ⟨le_rfl, rfl, rfl, fun _ _ _ hv => absurd hv (by simp [declared])⟩
  have hstands : StmtAt dimmed 0x8100 (.dim arrayA 3) :=
    .dim (.dim ⟨rfl, rfl⟩ ⟨rfl, rfl, trivial⟩ (by decide) rfl)
  have hroom : WithinCapacity dimmed (.dim arrayA 3) := ⟨by decide, by decide, by rintro _ ⟨⟩⟩
  exact StoreRun.start.step hbeside hstands hroom hC h

/-- A register has no name. -/
theorem unnamed_arrayA (s : State) : s.Unnamed arrayA := by rintro _ ⟨⟩

/-- After a `DIM` the elements are 0. -/
theorem store_behaves_dim :
    ∃ s₁ s₂, @interpret Target.small dimmed 0x8100 = .ok (.done .noerror, s₁) ∧
      @execute Target.small (s₁.memcpy 0x8100 storeStatement) 0x8100 (.read arrayA 2) =
        .ok (.ok (some 0), s₂) := by
  let _ := Target.small
  have hrun : (interpret dimmed 0x8100).toOption.map (fun q => q.1) = some (.done .noerror) := by
    decide +kernel
  cases hint : interpret dimmed 0x8100 with
  | error f => simp [hint, Except.toOption] at hrun
  | ok q =>
    obtain ⟨o, s₁⟩ := q
    simp only [hint, Except.toOption, Option.map_some, Option.some.injEq] at hrun
    subst hrun
    have hstore : StoreRun Separate newProgram [.dim arrayA 3] s₁ :=
      storeRun_dim (unnamed_arrayA _) hint
    have hbeside : Beside [.dim arrayA 3] s₁ (s₁.memcpy 0x8100 storeStatement) := by
      refine ⟨le_rfl, rfl, rfl, fun v n b hv hb i hi _ => ?_⟩
      obtain ⟨b', hb'⟩ := (hstore.invariant noArrays_newProgram).laid.block v n hv
      obtain rfl := Except.ok.inj (hb'.found.symm.trans hb)
      have hlo := hb'.lo_le
      have hend : 0x8100 + storeStatement.length ≤ newProgram.programEndPtr := by decide
      exact Ram.memcpy_of_le (by omega)
    have hel : ElementAt (s₁.memcpy 0x8100 storeStatement) 0x8100 arrayA 2 0x8107 s₁.r :=
      ⟨⟨rfl, rfl, trivial⟩, rfl, rfl⟩
    exact ⟨s₁, _, rfl, (store_behaves noArrays_newProgram hstore).read _ _ _ _ _ _ hbeside hel rfl⟩

/-- Scalars and arrays can be mixed. -/
def Mixed : StoreCondition := fun _ _ _ _ => True

/-- The variables act as a store, whatever they are used for. -/
def AlwaysActsAsStore [Target] : Prop :=
  ∀ s₀ hist s, NoArrays s₀ → StoreRun Mixed s₀ hist s → ActsAsStore Mixed hist s

/-- The tokens of `A = 5`. -/
def scalarStatement : List UInt8 :=
  [tokRegister, 0, tokOperator, opEqual] ++ numericToken 5 ++ [tokTerminator]

/-- After `DIM A(3)`, the scalar assignment `A = 5` takes the array away.

**Proof sketch.** The two statements are evaluated: the element is there before the second and not
behind it. That the declaration is a run without other writes gives the place of the array, so that
the second statement can be written beside it. -/
theorem not_alwaysActsAsStore : ¬ @AlwaysActsAsStore Target.small := by
  intro hall
  let _ := Target.small
  have hrun : ((interpret dimmed 0x8100).toOption.bind fun q =>
      (interpret (q.2.memcpy 0x8100 scalarStatement) 0x8100).toOption.map fun q' =>
        ((arrayRef (q.2.memcpy 0x8100 scalarStatement) 0x8100 1).map Except.toOption,
          (arrayRef q'.2 0x8100 1).map Except.toOption)) =
      some (some (some (.memory 0x8402)), some none) := by
    decide +kernel
  cases hint : interpret dimmed 0x8100 with
  | error f => simp [hint, Except.toOption] at hrun
  | ok q =>
    obtain ⟨o, s₁⟩ := q
    have hstore : StoreRun Mixed newProgram [.dim arrayA 3] s₁ := storeRun_dim trivial hint
    simp only [hint, Except.toOption, Option.bind_some] at hrun
    have hsep : StoreRun Separate newProgram [.dim arrayA 3] s₁ :=
      storeRun_dim (unnamed_arrayA _) hint
    have hbeside : Beside [.dim arrayA 3] s₁ (s₁.memcpy 0x8100 scalarStatement) := by
      refine ⟨le_rfl, rfl, rfl, fun v n b hv hb i hi _ => ?_⟩
      obtain ⟨b', hb'⟩ := (hsep.invariant noArrays_newProgram).laid.block v n hv
      obtain rfl := Except.ok.inj (hb'.found.symm.trans hb)
      have hlo := hb'.lo_le
      have hend : 0x8100 + scalarStatement.length ≤ newProgram.programEndPtr := by decide
      exact Ram.memcpy_of_le (by omega)
    have hstands : StmtAt (s₁.memcpy 0x8100 scalarStatement) 0x8100 (.scalar arrayA) :=
      .scalar ⟨rfl, rfl, trivial⟩ rfl
    cases hint₂ : interpret (s₁.memcpy 0x8100 scalarStatement) 0x8100 with
    | error f => simp [hint₂] at hrun
    | ok q =>
      obtain ⟨o₂, s₂⟩ := q
      simp only [hint₂, Option.map_some, Option.some.injEq, Prod.mk.injEq] at hrun
      have hsame :=
        ((hall _ _ _ noArrays_newProgram hstore).scalar _ _ _ _ _ hbeside hstands trivial
        hint₂).2 arrayA 0x8100 1 rfl ⟨rfl, rfl, trivial⟩
      rw [hsame, hrun.1] at hrun
      exact absurd hrun.2 (by simp)

end Z80OS.Basic
