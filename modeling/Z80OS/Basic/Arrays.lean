import Z80OS.Basic.Assignments
import Z80OS.Basic.Program
import Z80OS.Basic.Stream
import Z80OS.Basic.Values

set_option relaxedAutoImplicit false
set_option autoImplicit false

/-!
# Arrays

A `DIM` allocates a block at the end of the program: a mark, the size in bytes, and the elements.
The address of the block is kept in the variable of the array. An access to an element takes the
size from the block and checks the index against it.

The operations on arrays are listed in a history, the last one first, which says what a read should
give: the value that has been assigned to the element last, or 0.

## Main definitions

* `Z80OS.Basic.ArrayVar`, `Z80OS.Basic.State.arrayOf` — the variable of an array, and the address
  that it has.
* `Z80OS.Basic.ArrayOp`, `Z80OS.Basic.expected` — the operations on arrays, and what they should
  give.
* `Z80OS.Basic.OpAt`, `Z80OS.Basic.execute` — the statements for the operations, and what the code
  does.
* `Z80OS.Basic.Laid` — how arrays lie in memory.

## Main results

* `Z80OS.Basic.Laid.step` — an operation gives what it should give, and arrays lie as before.
-/

namespace Z80OS.Basic

/-! ## Variables of arrays -/

/-- The name of a variable that the tokenizer can give. -/
structure VarName where
  chars : List UInt8
  length_le : chars.length ≤ varnameSize
  zero_notMem : 0 ∉ chars
  deriving DecidableEq

/-- The variable of an array. -/
inductive ArrayVar
  | register (i : Fin numRegisters)
  | named (name : VarName)
  deriving DecidableEq

/-- The token of a variable. -/
def ArrayVar.bytes : ArrayVar → List UInt8
  | .register i => [tokRegister, UInt8.ofNat i.val]
  | .named name => tokVariable :: sized name.chars

/-- The address of the array of a variable, as `programGetArray` finds it. -/
def State.arrayOf (s : State) : ArrayVar → Except Error ℕ
  | .register i =>
    if (s.programRegisters i).defined then .ok (s.programRegisters i).value
    else .error .undefinedArray
  | .named name =>
    (s.programContext.find? fun v => v.name = name.chars).elim (.error .undefinedArray) fun v =>
      .ok v.value

section

variable {m : Ram} {a : ℕ} {v : ArrayVar}

/-- The number of a register is a byte. -/
theorem toNat_ofNat_register (i : Fin numRegisters) : (UInt8.ofNat i.val).toNat = i.val := by
  have hi := i.isLt
  unfold numRegisters at hi
  rw [UInt8.toNat_ofNat', Nat.mod_eq_of_lt (by omega)]

/-- The token of a register is read as the register. -/
theorem register?_of_holds {i : Fin numRegisters} (h : m.Holds a (ArrayVar.register i).bytes) :
    register? m a = some i := by
  simp only [ArrayVar.bytes, Ram.holds_cons] at h
  have hi : (m (a + 1)).toNat = i.val := by rw [h.2.1, toNat_ofNat_register]
  rw [register?, dif_pos (hi ▸ i.isLt)]
  exact congrArg some (Fin.ext hi)

/-- The token of a name is read as the name. -/
theorem variableGet_of_named {name : VarName} (h : m.Holds a (ArrayVar.named name).bytes) :
    variableGet m a = name.chars := by
  simp only [ArrayVar.bytes, sized, Ram.holds_cons, List.cons_append] at h
  refine h.2.2.string name.zero_notMem ?_
  have hlen := name.length_le
  unfold varnameSize at hlen
  unfold ramSize
  omega

/-- The token behind the token of a variable. -/
theorem varToken_of_holds (h : m.Holds a v.bytes) : varToken m a = some (a + v.bytes.length) := by
  cases v with
  | register i =>
    simp only [ArrayVar.bytes, Ram.holds_cons] at h
    rw [varToken, h.1, if_neg (by decide), if_pos rfl]
    rfl
  | named name =>
    have hlen := name.length_le
    unfold varnameSize at hlen
    have hbytes := h
    simp only [ArrayVar.bytes, sized, Ram.holds_cons, List.cons_append] at h
    rw [varToken, h.1, if_pos rfl, tVarlenSkip, h.2.1, toNat_sized (by omega)]
    simp only [ArrayVar.bytes, sized, List.length_cons, List.cons_append, List.length_append,
      List.length_nil]
    congr 1
    omega

/-- A variable starts with its kind, or with that of a register. -/
theorem kind_of_bytes (h : m.Holds a v.bytes) : m a = tokVariable ∨ m a = tokRegister := by
  cases v with
  | register i => exact .inr h.1
  | named name => exact .inl h.1

/-- The code finds the array of a variable. -/
theorem programGetArray_of_holds {s : State} (h : s.ram.Holds a v.bytes) :
    programGetArray s a = some (s.arrayOf v) := by
  cases v with
  | register i =>
    rw [programGetArray, if_pos h.1, register?_of_holds h]
    rfl
  | named name =>
    have hkind : s.ram a ≠ tokRegister := by
      rw [h.1]
      decide
    rw [programGetArray, if_neg hkind, variableGet_of_named h]
    have hle : ¬ name.chars.length > varnameSize := not_lt.2 name.length_le
    simp only [hle, if_false, State.arrayOf]
    cases s.programContext.find? fun v => v.name = name.chars <;> rfl

end

/-! ## Operations -/

/-- An operation on arrays. -/
inductive ArrayOp
  | dim (v : ArrayVar) (n : ℕ)
  | assign (v : ArrayVar) (i x : ℤ)
  | read (v : ArrayVar) (i : ℤ)

/-- The size with which an array has been created. -/
def declared : List ArrayOp → ArrayVar → Option ℕ
  | [], _ => none
  | .dim v' n :: hist, v => if v' = v then some n else declared hist v
  | .assign _ _ _ :: hist, v => declared hist v
  | .read _ _ :: hist, v => declared hist v

/-- The value that has been assigned last to an element of an array, or 0. -/
def lastAssigned : List ArrayOp → ArrayVar → ℤ → ℤ
  | [], _, _ => 0
  | .dim v' _ :: hist, v, i => if v' = v then 0 else lastAssigned hist v i
  | .assign v' i' x :: hist, v, i => if v' = v ∧ i' = i then int16 x else lastAssigned hist v i
  | .read _ _ :: hist, v, i => lastAssigned hist v i

/-- The index of an element. -/
def InRange (hist : List ArrayOp) (v : ArrayVar) (i : ℤ) : Prop :=
  1 ≤ i ∧ i ≤ ((declared hist v).getD 0 : ℕ)

instance (hist : List ArrayOp) (v : ArrayVar) (i : ℤ) : Decidable (InRange hist v i) := by
  unfold InRange
  infer_instance

/-- What an operation should give: an error, or the value of an element when it is read. -/
def expected (hist : List ArrayOp) : ArrayOp → Except Error (Option ℤ)
  | .dim _ _ => .ok none
  | .assign v i _ => if InRange hist v i then .ok none else .error .range
  | .read v i => if InRange hist v i then .ok (some (lastAssigned hist v i)) else .error .range

/-! ## Blocks -/

/-- The number of bytes of the block of an array. -/
def blockSize (n : ℕ) : ℕ := 2 + 2 * n

/-- The address of an element of the array at an address. -/
def cellAt (b : ℕ) (i : ℤ) : ℕ := b + 2 + 2 * (i - 1).toNat

/-- The array of a variable lies at an address, behind `lo` and in front of the end of the program,
and its elements have the values that have been assigned last. -/
structure BlockAt (lo : ℕ) (hist : List ArrayOp) (s : State) (v : ArrayVar) (n b : ℕ) : Prop where
  found : s.arrayOf v = .ok b
  lo_le : lo ≤ b
  le_end : b + blockSize n ≤ s.programEndPtr
  size : (s.ram (b + 1)).toNat = 2 * n
  cells : ∀ i : ℤ, 1 ≤ i → i ≤ n → s.ram.numeric (cellAt b i) = lastAssigned hist v i

/-- The arrays of a history lie behind `lo`, apart from each other. -/
structure Laid (lo : ℕ) (hist : List ArrayOp) (s : State) : Prop where
  lo_le : lo ≤ s.programEndPtr
  block : ∀ v n, declared hist v = some n → ∃ b, BlockAt lo hist s v n b
  apart : ∀ v n v' n' b b', declared hist v = some n → declared hist v' = some n' → v ≠ v' →
    s.arrayOf v = .ok b → s.arrayOf v' = .ok b' →
      b + blockSize n ≤ b' ∨ b' + blockSize n' ≤ b

/-- What happens between two operations: no variable of an array is changed, and nothing in a block;
the end of the program does not go back. -/
structure Elsewhere (hist : List ArrayOp) (s s' : State) : Prop where
  stop : s.programEndPtr ≤ s'.programEndPtr
  found : ∀ v n, declared hist v = some n → s'.arrayOf v = s.arrayOf v
  ram : ∀ v n b, declared hist v = some n → s.arrayOf v = .ok b →
    ∀ i, b ≤ i → i < b + blockSize n → s'.ram i = s.ram i

section

variable {lo : ℕ} {hist : List ArrayOp} {s s' : State}

/-- No arrays are laid out at the end of a program. -/
theorem Laid.start (s : State) : Laid s.programEndPtr [] s where
  lo_le := le_rfl
  block v n h := absurd h (by simp [declared])
  apart v n v' n' b b' h := absurd h (by simp [declared])

/-- An element is inside of the block of its array. -/
theorem cellAt_mem {b n : ℕ} {i : ℤ} (hi : 1 ≤ i) (hn : i ≤ n) :
    b + 2 ≤ cellAt b i ∧ cellAt b i + 2 ≤ b + blockSize n := by
  unfold cellAt blockSize
  omega

/-- Different elements of an array are apart. -/
theorem cellAt_apart {b : ℕ} {i i' : ℤ} (hi : 1 ≤ i) (hi' : 1 ≤ i') (hne : i ≠ i') :
    cellAt b i + 2 ≤ cellAt b i' ∨ cellAt b i' + 2 ≤ cellAt b i := by
  unfold cellAt
  omega

/-- A number is read from its two bytes. -/
theorem Ram.numeric_congr {m m' : Ram} {a : ℕ} (h : ∀ i, a ≤ i → i < a + 2 → m' i = m i) :
    m'.numeric a = m.numeric a :=
  congrArg toNumeric (Ram.word_congr (h a le_rfl (by omega)) (h (a + 1) (by omega) (by omega)))

/-- The arrays lie where they were when something happens elsewhere. -/
theorem Laid.elsewhere (h : Laid lo hist s) (he : Elsewhere hist s s') : Laid lo hist s' where
  lo_le := h.lo_le.trans he.stop
  block v n hv := by
    obtain ⟨b, hb⟩ := h.block v n hv
    have hram := he.ram v n b hv hb.found
    refine ⟨b, (he.found v n hv).trans hb.found, hb.lo_le, hb.le_end.trans he.stop, ?_, ?_⟩
    · rw [hram (b + 1) (by omega) (by unfold blockSize; omega), hb.size]
    · intro i hi hn
      obtain ⟨hge, hle⟩ := cellAt_mem (b := b) hi hn
      rw [Ram.numeric_congr fun j hj hj' => hram j (by omega) (by omega), hb.cells i hi hn]
  apart v n v' n' b b' hv hv' hne hb hb' :=
    h.apart v n v' n' b b' hv hv' hne ((he.found v n hv).symm.trans hb)
      ((he.found v' n' hv').symm.trans hb')

end

/-! ## Statements -/

/-- An element of an array at an address, with the value of its index, the closing parenthesis and
the state of the random number generator behind the index. -/
structure ElementAt (s : State) (a : ℕ) (v : ArrayVar) (i : ℤ) (stop r : ℕ) : Prop where
  var : s.ram.Holds a v.bytes
  opened : opCheck s.ram (a + v.bytes.length) opLparen = true
  index : evalNumeric (ramSize - 1) s s.r (a + v.bytes.length + opSize) = some (.ok (i, stop), r)

/-- The statement for an operation stands at an address: `DIM` with a variable and a size in front
of the end of the program, an element with a value that is assigned to it, or an element that is
read. -/
inductive OpAt (s : State) (a : ℕ) : ArrayOp → Prop
  | dim {v : ArrayVar} {n : ℕ} (hk : KeywordAt s a keywordDim)
    (hvar : s.ram.Holds (a + kwSize) v.bytes)
    (hfront : a + kwSize + v.bytes.length ≤ s.programEndPtr)
    (hsize : numericGet s.ram (a + kwSize + v.bytes.length + opSize) = n) : OpAt s a (.dim v n)
  | assign {v : ArrayVar} {i x : ℤ} {stop stop' r : ℕ} {s' : State}
    (h : ElementAt s a v i stop r) (heq : opCheck s.ram (stop + opSize) opEqual = true)
    (hvalue : eval (s.withSeed r) (stop + opSize + opSize) = .ok (.ok (x, stop'), s')) :
    OpAt s a (.assign v i x)
  | read {v : ArrayVar} {i : ℤ} {stop r : ℕ} (h : ElementAt s a v i stop r) :
    OpAt s a (.read v i)

section

variable [Target]

/-- An operation is within the limits: an array is new, its variable is no scalar, and there is room
for it; other operations are made on arrays that have been declared. -/
inductive Admitted (hist : List ArrayOp) (s : State) : ArrayOp → Prop
  | dim {v : ArrayVar} {n : ℕ} (hnew : declared hist v = none) (hsize : n ≤ 127)
    (hname : ∀ name, v = .named name → s.programContext.length < maxVars ∧
      ∀ c ∈ s.programContext, c.name ≠ name.chars)
    (hroom : s.programEndPtr + blockSize n ≤ Target.programMax) : Admitted hist s (.dim v n)
  | assign {v : ArrayVar} {i x : ℤ} (hv : (declared hist v).isSome) :
      Admitted hist s (.assign v i x)
  | read {v : ArrayVar} {i : ℤ} (hv : (declared hist v).isSome) : Admitted hist s (.read v i)

/-- What a statement gives: nothing, or an error. -/
def Outcome.result : Outcome → Except Error (Option ℤ)
  | .done .noerror => .ok none
  | .done e => .error e
  | .run => .ok none

/-- What the code does for an operation that stands at an address. An element is read through the
pointer to it. -/
def execute (s : State) (a : ℕ) : ArrayOp → Result (Except Error (Option ℤ) × State)
  | .dim _ _ => (interpret s a).map fun q => (q.1.result, q.2)
  | .assign _ _ _ => (interpret s a).map fun q => (q.1.result, q.2)
  | .read _ _ => (getPtr s a).map fun q => (q.1.map fun p => some (s.load p.1), q.2)

end

section

variable {lo a : ℕ} {hist : List ArrayOp} {s s' : State} {v : ArrayVar} {i : ℤ} {n b stop r : ℕ}

/-- The pointer to an element, when its index has a value. -/
theorem ElementAt.getPtr (h : ElementAt s a v i stop r) : getPtr s a =
    (orFault (arrayRef s a i)).map fun x =>
      (x.map fun ref => (ref, stop + opSize), s.withSeed r) := by
  have hcall : tVariableGetPtr (65535 + 1) s s.r a = (arrayRef s a i).map fun x =>
      (x.map fun ref => (ref, stop + opSize), r) := by
    have hindex : errorHandle (fun r => evalNumeric 65535 s r (a + v.bytes.length + opSize)) s.r =
        some (.ok (i, stop), r) := by
      rw [errorHandle, show evalNumeric 65535 s s.r (a + v.bytes.length + opSize) = _ from h.index]
    rw [tVariableGetPtr, varToken_of_holds h.var]
    simp only [h.opened, if_true, hindex]
    rcases arrayRef s a i with - | (e | ref) <;> rfl
  rw [Basic.getPtr, show tVariableGetPtr ramSize s s.r a = _ from hcall]
  rcases arrayRef s a i with - | (e | ref) <;> rfl

/-- The check of an index against the size in the block. -/
theorem BlockAt.arrayRef (hb : BlockAt lo hist s v n b) (h : s.ram.Holds a v.bytes) (i : ℤ) :
    arrayRef s a i =
      some (if 1 ≤ i ∧ i ≤ n then .ok (.memory (cellAt b i)) else .error .range) := by
  rw [Basic.arrayRef, programGetArray_of_holds h, hb.found]
  simp only [hb.size]
  by_cases hlow : i < 1
  · rw [if_pos hlow, if_neg (by omega)]
  · rw [if_neg hlow]
    by_cases hhigh : i * 2 > ((2 * n : ℕ) : ℤ)
    · rw [if_pos hhigh, if_neg (by omega)]
    · rw [if_neg hhigh, if_pos (by omega)]
      rfl

/-- What is in the blocks is found by the same words when only the random numbers differ. -/
theorem Laid.withSeed (h : Laid lo hist s) (r : ℕ) : Laid lo hist (s.withSeed r) :=
  h.elsewhere ⟨le_rfl, fun _ _ _ => rfl, fun _ _ _ _ _ _ _ _ => rfl⟩

/-- An index is in range when it is one of the numbers up to the size. -/
theorem inRange_iff (hv : declared hist v = some n) : InRange hist v i ↔ 1 ≤ i ∧ i ≤ n := by
  rw [InRange, hv, Option.getD_some]

/-- A number that has been stored in memory is read in 16 bits. -/
theorem Ram.numeric_memcpy (m : Ram) (a : ℕ) (x : ℤ) :
    (m.memcpy a (bytes16 (ofNumeric x))).numeric a = int16 x := by
  rw [(Ram.holds_memcpy m a _).numeric (ofNumeric_lt x)]
  simp only [toNumeric, ofNumeric, int16, Int.bmod_def]
  split_ifs <;> omega

/-- An element that is assigned to, in the arrays of a history.

**Proof sketch.** The word of one cell is written (`cellAt_mem`). The other cells of the block are
apart from it (`cellAt_apart`), and so are the other blocks (`Laid.apart`) and the sizes in front of
the blocks. -/
theorem Laid.store (h : Laid lo hist s) {x : ℤ} (hn : declared hist v = some n)
    (hb : BlockAt lo hist s v n b) (hi : 1 ≤ i ∧ i ≤ n) :
    Laid lo (.assign v i x :: hist) (s.store (.memory (cellAt b i)) x) := by
  have hcell := cellAt_mem (b := b) hi.1 hi.2
  have hlen : (bytes16 (ofNumeric x)).length = 2 := rfl
  -- the word that is written is the only one that is changed
  have hsame : ∀ j, j < cellAt b i ∨ cellAt b i + 2 ≤ j →
      (s.store (.memory (cellAt b i)) x).ram j = s.ram j := by
    intro j hj
    rcases hj with hj | hj
    · exact Ram.memcpy_of_lt hj
    · exact Ram.memcpy_of_le (by rw [hlen]; exact hj)
  have hword : ∀ c, c + 2 ≤ cellAt b i ∨ cellAt b i + 2 ≤ c →
      (s.store (.memory (cellAt b i)) x).ram.numeric c = s.ram.numeric c := by
    intro c hc
    exact Ram.numeric_congr fun j hj hj' => hsame j (by omega)
  refine ⟨h.lo_le, fun v' n' hv' => ?_, h.apart⟩
  obtain ⟨b', hb'⟩ := h.block v' n' hv'
  by_cases hvv : v = v'
  · subst hvv
    obtain rfl := Except.ok.inj (hb.found.symm.trans hb'.found)
    obtain rfl := Option.some.inj (hn.symm.trans hv')
    refine ⟨b, hb.found, hb.lo_le, hb.le_end, ?_, fun i' hi' hn' => ?_⟩
    · rw [hsame _ (by omega), hb.size]
    · rw [lastAssigned]
      by_cases hii : i = i'
      · subst hii
        rw [if_pos ⟨rfl, rfl⟩]
        exact Ram.numeric_memcpy _ _ _
      · rw [if_neg fun h => hii h.2, ← hb.cells i' hi' hn']
        exact hword _ (cellAt_apart hi' hi.1 fun h => hii h.symm)
  · have hapart := h.apart v n v' n' b b' hn hv' hvv hb.found hb'.found
    refine ⟨b', hb'.found, hb'.lo_le, hb'.le_end, ?_, fun i' hi' hn' => ?_⟩
    · rw [hsame _ (by unfold blockSize at hapart hcell; omega), hb'.size]
    · rw [lastAssigned, if_neg fun h => hvv h.1, ← hb'.cells i' hi' hn']
      have hcell' := cellAt_mem (b := b') hi' hn'
      exact hword _ (by omega)

/-- The bytes of a block that is allocated. -/
theorem programAlloc_ram (s : State) (n : ℕ) :
    (∀ j < s.programEndPtr, (programAlloc s (n * 2)).2.ram j = s.ram j) ∧
    (n ≤ 127 → ((programAlloc s (n * 2)).2.ram (s.programEndPtr + 1)).toNat = 2 * n) ∧
    ∀ j < n * 2, (programAlloc s (n * 2)).2.ram (s.programEndPtr + 2 + j) = 0 := by
  refine ⟨fun j hj => Ram.memcpy_of_lt hj, fun hn => ?_, fun j hj => ?_⟩
  · have hbyte := @Ram.memcpy_add s.ram s.programEndPtr
      (tokAlloc :: UInt8.ofNat (n * 2) :: List.replicate (n * 2) 0) 1 (by simp)
    rw [show (programAlloc s (n * 2)).2.ram (s.programEndPtr + 1) = _ from hbyte]
    show (UInt8.ofNat (n * 2)).toNat = 2 * n
    rw [UInt8.toNat_ofNat', Nat.mod_eq_of_lt (by omega), Nat.mul_comm]
  · have hbyte := @Ram.memcpy_add s.ram s.programEndPtr
      (tokAlloc :: UInt8.ofNat (n * 2) :: List.replicate (n * 2) 0) (j + 2) (by simp; omega)
    rw [Nat.add_assoc, Nat.add_comm 2 j,
      show (programAlloc s (n * 2)).2.ram (s.programEndPtr + (j + 2)) = _ from hbyte]
    simp

/-- A new array, behind the arrays of a history. An array that its variable had before is lost.

**Proof sketch.** An array of the new history is the new one or one that had been declared before.
The old ones lie below the end of the program, so that neither their cells nor their distances
change; the new one begins there and is filled with zeros (`programAlloc_ram`). -/
theorem Laid.allocated (h : Laid lo hist s) (hn : n ≤ 127)
    (hram : s'.ram = (programAlloc s (n * 2)).2.ram)
    (hend : s'.programEndPtr = s.programEndPtr + 2 + n * 2)
    (hfound : s'.arrayOf v = .ok s.programEndPtr)
    (hothers : ∀ v' n', declared hist v' = some n' → v' ≠ v → s'.arrayOf v' = s.arrayOf v') :
    Laid lo (.dim v n :: hist) s' := by
  obtain ⟨hbelow, hsize, hzero⟩ := programAlloc_ram s n
  rw [← hram] at hbelow hsize hzero
  have hlo := h.lo_le
  -- an array is the new one, or it has been declared before
  have cases_of : ∀ v' n', declared (.dim v n :: hist) v' = some n' →
      v' = v ∧ n' = n ∨ v' ≠ v ∧ declared hist v' = some n' := by
    intro v' n' hv'
    rw [declared] at hv'
    split_ifs at hv' with hvv
    · exact .inl ⟨hvv.symm, (Option.some.inj hv').symm⟩
    · exact .inr ⟨Ne.symm hvv, hv'⟩
  have old : ∀ v' n' b', declared hist v' = some n' → s.arrayOf v' = .ok b' →
      b' + blockSize n' ≤ s.programEndPtr := by
    intro v' n' b' hv' hb'
    obtain ⟨b, hb⟩ := h.block v' n' hv'
    obtain rfl := Except.ok.inj (hb.found.symm.trans hb')
    exact hb.le_end
  refine ⟨by omega, fun v' n' hv' => ?_, fun v₁ n₁ v₂ n₂ b₁ b₂ hv₁ hv₂ hne hb₁ hb₂ => ?_⟩
  · obtain ⟨rfl, rfl⟩ | ⟨hvv, hv'⟩ := cases_of v' n' hv'
    · refine ⟨s.programEndPtr, hfound, hlo, ?_, hsize hn, fun i hi hle => ?_⟩
      · rw [hend]
        unfold blockSize
        omega
      · have hfirst := hzero (2 * (i - 1).toNat) (by omega)
        have hsecond := hzero (2 * (i - 1).toNat + 1) (by omega)
        rw [lastAssigned, if_pos rfl, cellAt, Ram.numeric, Ram.word, hfirst,
          show s.programEndPtr + 2 + 2 * (i - 1).toNat + 1 =
            s.programEndPtr + 2 + (2 * (i - 1).toNat + 1) from rfl, hsecond]
        rfl
    · obtain ⟨b', hb'⟩ := h.block v' n' hv'
      have hle := hb'.le_end
      refine ⟨b', (hothers v' n' hv' hvv).trans hb'.found, hb'.lo_le, by omega, ?_,
        fun i hi hn' => ?_⟩
      · rw [hbelow _ (by unfold blockSize at hle; omega), hb'.size]
      · have hcell := cellAt_mem (b := b') hi hn'
        rw [lastAssigned, if_neg hvv.symm, ← hb'.cells i hi hn']
        exact Ram.numeric_congr fun j hj hj' => hbelow j (by omega)
  · obtain ⟨rfl, rfl⟩ | ⟨hvv₁, hv₁⟩ := cases_of v₁ n₁ hv₁
    · obtain ⟨rfl, -⟩ | ⟨hvv₂, hv₂⟩ := cases_of v₂ n₂ hv₂
      · exact absurd rfl hne
      · obtain rfl := Except.ok.inj (hfound.symm.trans hb₁)
        exact .inr (old v₂ n₂ b₂ hv₂ ((hothers v₂ n₂ hv₂ hvv₂).symm.trans hb₂))
    · have hle := old v₁ n₁ b₁ hv₁ ((hothers v₁ n₁ hv₁ hvv₁).symm.trans hb₁)
      obtain ⟨rfl, rfl⟩ | ⟨hvv₂, hv₂⟩ := cases_of v₂ n₂ hv₂
      · obtain rfl := Except.ok.inj (hfound.symm.trans hb₂)
        exact .inl hle
      · exact h.apart v₁ n₁ v₂ n₂ b₁ b₂ hv₁ hv₂ hne ((hothers v₁ n₁ hv₁ hvv₁).symm.trans hb₁)
          ((hothers v₂ n₂ hv₂ hvv₂).symm.trans hb₂)

/-- Reading an element does not change what has been assigned. -/
theorem Laid.observe (h : Laid lo hist s) : Laid lo (.read v i :: hist) s := by
  refine ⟨h.lo_le, fun v' n' hv' => ?_, h.apart⟩
  obtain ⟨b', hb'⟩ := h.block v' n' hv'
  exact ⟨b', hb'.found, hb'.lo_le, hb'.le_end, hb'.size, hb'.cells⟩

/-- An index that is out of range changes nothing. -/
theorem Laid.refuse (h : Laid lo hist s) {x : ℤ} (hn : declared hist v = some n)
    (hi : ¬ (1 ≤ i ∧ i ≤ n)) : Laid lo (.assign v i x :: hist) s := by
  refine ⟨h.lo_le, fun v' n' hv' => ?_, h.apart⟩
  obtain ⟨b', hb'⟩ := h.block v' n' hv'
  refine ⟨b', hb'.found, hb'.lo_le, hb'.le_end, hb'.size, fun i' hi' hn' => ?_⟩
  have hne : ¬ (v = v' ∧ i = i') := by
    rintro ⟨rfl, rfl⟩
    obtain rfl := Option.some.inj (hn.symm.trans hv')
    exact hi ⟨hi', hn'⟩
  rw [lastAssigned, if_neg hne, hb'.cells i' hi' hn']

end

section

variable [Target] {lo a : ℕ} {hist : List ArrayOp} {s : State} {v : ArrayVar} {i : ℤ}
  {stop r : ℕ}

/-- Reading an element changes nothing. -/
theorem Laid.read (h : Laid lo hist s) (hel : ElementAt s a v i stop r)
    (hv : (declared hist v).isSome) :
    execute s a (.read v i) = .ok (expected hist (.read v i), s.withSeed r) := by
  obtain ⟨n, hn⟩ := Option.isSome_iff_exists.1 hv
  obtain ⟨b, hb⟩ := h.block v n hn
  rw [execute, hel.getPtr, hb.arrayRef hel.var, expected]
  by_cases hi : 1 ≤ i ∧ i ≤ n
  · rw [if_pos hi, if_pos ((inRange_iff hn).2 hi), ← hb.cells i hi.1 hi.2]
    rfl
  · rw [if_neg hi, if_neg fun hr => hi ((inRange_iff hn).1 hr)]
    rfl

/-- An assignment to an element, in the arrays of a history. -/
theorem Laid.assign (h : Laid lo hist s) (hel : ElementAt s a v i stop r) {x : ℤ} {stop' : ℕ}
    {s₁ : State} (heq : opCheck s.ram (stop + opSize) opEqual = true)
    (hvalue : eval (s.withSeed r) (stop + opSize + opSize) = .ok (.ok (x, stop'), s₁))
    (hv : (declared hist v).isSome) :
    ∃ s', execute s a (.assign v i x) = .ok (expected hist (.assign v i x), s') ∧
      Laid lo (.assign v i x :: hist) s' ∧ s'.programRegisters = s.programRegisters ∧
      (expected hist (.assign v i x) = .error .range → s' = s.withSeed r) := by
  obtain ⟨n, hn⟩ := Option.isSome_iff_exists.1 hv
  obtain ⟨b, hb⟩ := h.block v n hn
  have hptr := hel.getPtr
  rw [hb.arrayRef hel.var] at hptr
  rw [execute, interpret_assign (kind_of_bytes hel.var), doAssign, assignPtr, hptr, expected]
  by_cases hi : 1 ≤ i ∧ i ≤ n
  · obtain ⟨r', -, rfl⟩ := eval_eq_ok hvalue
    have hopen : ¬ ¬ opCheck (s.withSeed r).ram (stop + opSize) opEqual = true := not_not.2 heq
    rw [if_pos hi, if_pos ((inRange_iff hn).2 hi)]
    simp only [orFault, Except.map, hopen, if_false, hvalue]
    have hlaid := (h.withSeed r).withSeed r'
    obtain ⟨b', hb'⟩ := hlaid.block v n hn
    obtain rfl := Except.ok.inj (hb.found.symm.trans hb'.found)
    exact ⟨_, rfl, hlaid.store hn hb' hi, rfl, fun he => absurd he (by simp)⟩
  · rw [if_neg hi, if_neg fun hr => hi ((inRange_iff hn).1 hr)]
    exact ⟨_, rfl, (h.withSeed r).refuse hn hi, rfl, fun _ => rfl⟩

/-- A `DIM`, behind the arrays of a history.

**Proof sketch.** The block is allocated at the end of the program (`Laid.allocated`), and its
address goes to the register or to a new variable. The other arrays keep their addresses. -/
theorem Laid.dim {n : ℕ} (h : Laid lo hist s) (hk : KeywordAt s a keywordDim)
    (hvar : s.ram.Holds (a + kwSize) v.bytes)
    (hfront : a + kwSize + v.bytes.length ≤ s.programEndPtr)
    (hsize : numericGet s.ram (a + kwSize + v.bytes.length + opSize) = n) (hn : n ≤ 127)
    (hname : ∀ name, v = .named name → s.programContext.length < maxVars ∧
      ∀ c ∈ s.programContext, c.name ≠ name.chars) :
    ∃ s', execute s a (.dim v n) = .ok (expected hist (.dim v n), s') ∧
      Laid lo (.dim v n :: hist) s' ∧
      ∀ j, v ≠ .register j → s'.programRegisters j = s.programRegisters j := by
  have hif : ¬ IsIf s a := fun hif => absurd (hk.2.symm.trans hif.2) (by decide)
  have hint : interpret s a = doDim s (a + kwSize) := by
    show statementInterpret (65535 + 1) s a = _
    rw [statementInterpret_keyword hk]
    rfl
  set s₁ := (programAlloc s (n * 2)).2 with hs₁
  have hvar₁ : s₁.ram.Holds (a + kwSize) v.bytes := by
    refine hvar.congr fun j hj => ?_
    exact (programAlloc_ram s n).1 _ (by omega)
  have hcreate : doDim s (a + kwSize) =
      (programCreateArray s (a + kwSize) (n * 2)).map fun q => (.done .noerror, q.2) := by
    have hrange : ¬ ((n : ℤ) < 0 ∨ 127 < (n : ℤ)) := by omega
    rw [doDim, varToken_of_holds hvar]
    simp only [hsize, hrange, if_false, Int.toNat_natCast]
  rw [execute, hint, hcreate, expected]
  cases v with
  | register i =>
    have hreg : s₁.ram (a + kwSize) = tokRegister := hvar₁.1
    have hfound : programCreateArray s (a + kwSize) (n * 2) =
        .ok (.noerror, s₁.setRegister i ⟨true, s.programEndPtr⟩) := by
      rw [programCreateArray]
      simp only [← hs₁, hreg, if_true, register?_of_holds hvar₁]
      rfl
    rw [hfound]
    refine ⟨_, rfl, h.allocated hn rfl rfl ?_ fun v' n' hv' hother => ?_, fun j hj => ?_⟩
    · simp [State.arrayOf, State.setRegister]
    · cases v' with
      | register j =>
        have hne : j ≠ i := fun he => hother (by rw [he])
        simp [State.arrayOf, State.setRegister, Function.update_of_ne hne, hs₁, programAlloc,
          State.memcpy, State.withRam]
      | named name => rfl
    · have hne : j ≠ i := fun he => hj (by rw [he])
      simp [State.setRegister, Function.update_of_ne hne, hs₁, programAlloc, State.memcpy,
        State.withRam]
  | named name =>
    obtain ⟨hcount, hfresh⟩ := hname name rfl
    have hkind : s₁.ram (a + kwSize) ≠ tokRegister := by
      rw [hvar₁.1]
      decide
    have hle : ¬ name.chars.length > varnameSize := not_lt.2 name.length_le
    have hfull : ¬ s₁.programContext.length = maxVars := hcount.ne
    have hfound : programCreateArray s (a + kwSize) (n * 2) =
        .ok (.noerror, s₁.withContext (s.programContext ++ [⟨name.chars, s.programEndPtr⟩])) := by
      rw [programCreateArray]
      simp only [← hs₁, hkind, if_false, variableGet_of_named hvar₁, hfull, hle]
      rfl
    have hnone : (s.programContext.find? fun c => c.name = name.chars) = none := by
      simpa [List.find?_eq_none] using hfresh
    rw [hfound]
    refine ⟨_, rfl, h.allocated hn rfl rfl ?_ fun v' n' hv' _ => ?_, fun _ _ => rfl⟩
    · simp only [State.arrayOf, State.withContext, List.find?_append, hnone]
      simp
    · cases v' with
      | register j => rfl
      | named name' =>
        obtain ⟨b', hb'⟩ := h.block _ _ hv'
        have hold := hb'.found
        simp only [State.arrayOf, State.withContext, List.find?_append] at hold ⊢
        cases hfind : s.programContext.find? fun c => c.name = name'.chars with
        | none => simp [hfind] at hold
        | some c => rfl

/-- **An operation on arrays.** An operation within the limits gives what it should give: an access
with an index out of range gives an error and changes nothing but the state of the random number
generator. The arrays lie apart from each other as before, with the values that have been assigned
last. -/
theorem Laid.step (h : Laid lo hist s) {op : ArrayOp} (hstands : OpAt s a op)
    (hadm : Admitted hist s op) :
    ∃ s', execute s a op = .ok (expected hist op, s') ∧ Laid lo (op :: hist) s' ∧
      (expected hist op = .error .range → ∃ r, s' = s.withSeed r) := by
  cases hadm with
  | dim _ hn hname _ =>
    cases hstands with
    | dim hk hvar hfront hsize =>
      obtain ⟨s', hrun, hlaid, -⟩ := h.dim hk hvar hfront hsize hn hname
      exact ⟨s', hrun, hlaid, fun he => absurd he (by simp [expected])⟩
  | assign hv =>
    cases hstands with
    | assign hel heq hvalue =>
      obtain ⟨s', hrun, hlaid, -, hsame⟩ := h.assign hel heq hvalue hv
      exact ⟨s', hrun, hlaid, fun he => ⟨_, hsame he⟩⟩
  | read hv =>
    cases hstands with
    | read hel =>
      exact ⟨_, h.read hel hv, (h.withSeed _).observe, fun _ => ⟨_, rfl⟩⟩

end

end Z80OS.Basic
