import Z80OS.Basic.Arrays

set_option relaxedAutoImplicit false
set_option autoImplicit false

/-!
# Runs of operations on arrays

Arrays are declared, and their elements are assigned to and read, in any order and by statements
that stand anywhere in memory. Between two operations other things can happen, such as another
statement in the buffer, as long as they leave the variables and the blocks of the arrays alone.

## Main definitions

* `Z80OS.Basic.ArrayRun` — the runs of operations within the limits.

## Main results

* `Z80OS.Basic.array_cells` — what is assigned to an element is read there, and nowhere else.
-/

namespace Z80OS.Basic

section

variable [Target]

/-- From the state `s₀` a run has made the operations of a history, and is in a state. -/
inductive ArrayRun (s₀ : State) : List ArrayOp → State → Prop
  | start : ArrayRun s₀ [] s₀
  | step {hist : List ArrayOp} {s s₁ s₂ : State} {a : ℕ} {op : ArrayOp}
    {res : Except Error (Option ℤ)} (h : ArrayRun s₀ hist s) (he : Elsewhere hist s s₁)
    (hstands : OpAt s₁ a op) (hadm : Admitted hist s₁ op)
    (hrun : execute s₁ a op = .ok (res, s₂)) : ArrayRun s₀ (op :: hist) s₂

variable {s₀ s : State} {hist : List ArrayOp}

/-- The arrays of a run lie behind what was the end of the program in front of it. -/
theorem ArrayRun.laid (h : ArrayRun s₀ hist s) : Laid s₀.programEndPtr hist s := by
  induction h with
  | start => exact Laid.start s₀
  | step _ he hstands hadm hrun ih =>
    obtain ⟨s', hrun', hlaid, -⟩ := (ih.elsewhere he).step hstands hadm
    rw [hrun, Except.ok.injEq, Prod.mk.injEq] at hrun'
    exact hrun'.2 ▸ hlaid

/-- Another statement in the buffer is apart from the arrays. -/
theorem ArrayRun.buffer (h : ArrayRun s₀ hist s) (hstart : Target.programStart ≤ s₀.programEndPtr)
    {toks : List UInt8} (hlen : toks.length ≤ statementSizeMax) :
    Elsewhere hist s (s.memcpy Target.statement toks) where
  stop := le_rfl
  found _ _ _ := rfl
  ram v n b hv hb i hi _ := by
    obtain ⟨b', hb'⟩ := h.laid.block v n hv
    obtain rfl := Except.ok.inj (hb'.found.symm.trans hb)
    have hle := Target.statement_le
    have hlo := hb'.lo_le
    exact Ram.memcpy_of_le (by omega)

/-- The address of the array of a variable, if it has one. -/
def State.base (s : State) (v : ArrayVar) : ℕ := (s.arrayOf v).toOption.getD 0

/-- **Array cells.** For every run of operations on arrays, and every operation that follows it:

* a `DIM` succeeds; an access to an element succeeds if and only if the index is between 1 and the
  declared size, and otherwise it gives `RANGE` and changes nothing but the state of the random
  number generator; what is read is the value that has been assigned to this element of this array
  last, or 0;
* the block of each array lies behind everything that was in the program in front of the run, and in
  front of the end of the program;
* the cell that an access goes to is inside of the block of its array;
* the cells of different elements, of the same array or of two arrays, have no byte in common.

**Proof sketch.** The run keeps the blocks of the arrays laid out, one for each array that has been
declared (`ArrayRun.laid`). The cells of one array are two bytes each, in a row, and the blocks of
two arrays are apart. -/
theorem array_cells (h : ArrayRun s₀ hist s) :
    (∀ s₁ a op, Elsewhere hist s s₁ → OpAt s₁ a op → Admitted hist s₁ op →
      ∃ s₂, execute s₁ a op = .ok (expected hist op, s₂) ∧
        (expected hist op = .error .range → ∃ r, s₂ = s₁.withSeed r)) ∧
    (∀ v n, declared hist v = some n →
      s₀.programEndPtr ≤ s.base v ∧ s.base v + blockSize n ≤ s.programEndPtr) ∧
    (∀ v n i, declared hist v = some n → InRange hist v i →
      (∀ toks, s.ram.Holds toks v.bytes →
        arrayRef s toks i = some (.ok (.memory (cellAt (s.base v) i)))) ∧
      s.base v + 2 ≤ cellAt (s.base v) i ∧
        cellAt (s.base v) i + 2 ≤ s.base v + blockSize n) ∧
    ∀ v i v' i', InRange hist v i → InRange hist v' i' → (v, i) ≠ (v', i') →
      cellAt (s.base v) i + 2 ≤ cellAt (s.base v') i' ∨
        cellAt (s.base v') i' + 2 ≤ cellAt (s.base v) i := by
  have hlaid := h.laid
  have block : ∀ v n, declared hist v = some n →
      BlockAt s₀.programEndPtr hist s v n (s.base v) := by
    intro v n hv
    obtain ⟨b, hb⟩ := hlaid.block v n hv
    have hbase : s.base v = b := by
      rw [State.base, hb.found]
      rfl
    exact hbase ▸ hb
  -- an index in range belongs to an array that has been declared
  have size_of : ∀ v i, InRange hist v i → ∃ n, declared hist v = some n ∧ 1 ≤ i ∧ i ≤ n := by
    intro v i hi
    cases hv : declared hist v with
    | none =>
      rw [InRange, hv] at hi
      exact absurd hi.2 (by
        have := hi.1
        simp only [Option.getD_none, Nat.cast_zero]
        omega)
    | some n => exact ⟨n, rfl, (inRange_iff hv).1 hi⟩
  refine ⟨fun s₁ a op he hstands hadm => ?_, fun v n hv => ?_, fun v n i hv hi => ?_,
    fun v i v' i' hi hi' hne => ?_⟩
  · obtain ⟨s₂, hrun, -, hsame⟩ := (hlaid.elsewhere he).step hstands hadm
    exact ⟨s₂, hrun, hsame⟩
  · exact ⟨(block v n hv).lo_le, (block v n hv).le_end⟩
  · rw [inRange_iff hv] at hi
    refine ⟨fun toks htoks => ?_, cellAt_mem hi.1 hi.2⟩
    rw [(block v n hv).arrayRef htoks, if_pos hi]
  · obtain ⟨n, hv, hlow, hhigh⟩ := size_of v i hi
    obtain ⟨n', hv', hlow', hhigh'⟩ := size_of v' i' hi'
    by_cases hvv : v = v'
    · subst hvv
      exact cellAt_apart hlow hlow' fun hii => hne (by rw [hii])
    · have hapart := hlaid.apart v n v' n' _ _ hv hv' hvv (block v n hv).found
        (block v' n' hv').found
      have hcell := cellAt_mem (b := s.base v) hlow hhigh
      have hcell' := cellAt_mem (b := s.base v') hlow' hhigh'
      omega

end

/-- The tokens of `DIM A(3)`. -/
def dimStatement : List UInt8 :=
  [tokKeyword, keywordDim, tokRegister, 0, tokOperator, opLparen] ++ numericToken 3 ++
    [tokOperator, opRparen, tokTerminator]

/-- The tokens of `A(2)=7`. -/
def storeStatement : List UInt8 :=
  [tokRegister, 0, tokOperator, opLparen] ++ numericToken 2 ++
    [tokOperator, opRparen, tokOperator, opEqual] ++ numericToken 7 ++ [tokTerminator]

/-- The array `A`. -/
def arrayA : ArrayVar := .register ⟨0, Nat.zero_lt_succ 25⟩

/-- An array is declared, an element of it is assigned to, and read.

**Proof sketch.** Each of the three statements is written in front of the arrays
(`ArrayRun.buffer`), stands there by evaluation, and succeeds by `array_cells`. -/
theorem array_cells_element :
    letI := Target.small
    ∃ s₁ s₂ s₃,
      execute ((boot State.zeroed).memcpy 0x8100 dimStatement) 0x8100 (.dim arrayA 3) =
        .ok (.ok none, s₁) ∧
      execute (s₁.memcpy 0x8100 storeStatement) 0x8100 (.assign arrayA 2 7) =
        .ok (.ok none, s₂) ∧
      execute (s₂.memcpy 0x8100 storeStatement) 0x8100 (.read arrayA 2) =
        .ok (.ok (some 7), s₃) := by
  let _ := Target.small
  have hstart : Target.programStart ≤ (boot State.zeroed).programEndPtr := le_rfl
  have hrun₀ : ArrayRun (boot State.zeroed) [] (boot State.zeroed) := .start
  have he₀ : Elsewhere [] (boot State.zeroed) ((boot State.zeroed).memcpy 0x8100 dimStatement) :=
    hrun₀.buffer hstart (by decide)
  have hstands₀ : OpAt ((boot State.zeroed).memcpy 0x8100 dimStatement) 0x8100 (.dim arrayA 3) :=
    .dim ⟨rfl, rfl⟩ ⟨rfl, rfl, trivial⟩ (by decide) rfl
  have hadm₀ : Admitted [] ((boot State.zeroed).memcpy 0x8100 dimStatement) (.dim arrayA 3) :=
    .dim rfl (by decide) nofun (by decide)
  obtain ⟨s₁, hexec₀, -⟩ := (array_cells hrun₀).1 _ _ _ he₀ hstands₀ hadm₀
  have hrun₁ := hrun₀.step he₀ hstands₀ hadm₀ hexec₀
  have he₁ : Elsewhere [.dim arrayA 3] s₁ (s₁.memcpy 0x8100 storeStatement) :=
    hrun₁.buffer hstart (by decide)
  have hel₁ : ElementAt (s₁.memcpy 0x8100 storeStatement) 0x8100 arrayA 2 0x8107 s₁.r :=
    ⟨⟨rfl, rfl, trivial⟩, rfl, rfl⟩
  have hvalue₁ : eval ((s₁.memcpy 0x8100 storeStatement).withSeed s₁.r) 0x810b =
      .ok (.ok (7, 0x810e), s₁.memcpy 0x8100 storeStatement) := rfl
  have hstands₁ : OpAt (s₁.memcpy 0x8100 storeStatement) 0x8100 (.assign arrayA 2 7) :=
    .assign hel₁ rfl hvalue₁
  obtain ⟨s₂, hexec₁, -⟩ := (array_cells hrun₁).1 _ _ _ he₁ hstands₁ (.assign rfl)
  have hrun₂ := hrun₁.step he₁ hstands₁ (.assign rfl) hexec₁
  have he₂ : Elsewhere [.assign arrayA 2 7, .dim arrayA 3] s₂
      (s₂.memcpy 0x8100 storeStatement) := hrun₂.buffer hstart (by decide)
  have hel₂ : ElementAt (s₂.memcpy 0x8100 storeStatement) 0x8100 arrayA 2 0x8107 s₂.r :=
    ⟨⟨rfl, rfl, trivial⟩, rfl, rfl⟩
  obtain ⟨s₃, hexec₂, -⟩ := (array_cells hrun₂).1 _ _ _ he₂ (.read hel₂) (.read rfl)
  exact ⟨s₁, s₂, s₃, hexec₀, hexec₁, hexec₂⟩

end Z80OS.Basic
