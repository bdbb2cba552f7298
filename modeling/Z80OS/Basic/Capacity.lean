import Z80OS.Basic.Editing
import Z80OS.Basic.Guarded
import Z80OS.Basic.Variables

set_option relaxedAutoImplicit false
set_option autoImplicit false

/-!
# Capacities

The return stack, the variables and the region of the program have fixed sizes. Of the operations
that need more room than there is left, only the definition of a variable by an assignment is
refused: the others write behind the end of a table or of the region, or go on without the variable.

## Main definitions

* `Z80OS.Basic.Limits` — the tables and the program are within their limits.
* `Z80OS.Basic.Exceeds` — a statement needs more room than there is left.
* `Z80OS.Basic.Contained` — the invariant of sessions in which only assignments do.

## Main results

* `Z80OS.Basic.exceeds_refused_iff` — which of the statements that exceed a limit are refused.
* `Z80OS.Basic.capacity_enforced` — in sessions in which only assignments exceed a limit, no limit
  is passed.
-/

namespace Z80OS.Basic

section

variable [Target] {m₀ : Ram} {s s' : State} {a toks : ℕ}

/-! ## Limits -/

/-- The return stack, the variables and the program are within their limits. -/
structure Limits (s : State) : Prop where
  stack : s.programReturnStack.length ≤ returnStackLimit
  context : s.programContext.length ≤ maxVars
  region : s.programEndPtr ≤ Target.programMax

/-- The `n` bytes at an address are in the buffer for direct statements or in the region of the
program. -/
def Writable (a n : ℕ) : Prop :=
  Target.statement ≤ a ∧ a + n ≤ Target.statement + statementSizeMax ∨
    Target.programStart ≤ a ∧ a + n ≤ Target.programMax

/-- The statement needs more room than there is left.

* An assignment defines its variable, and there are 16 variables.
* A `GOSUB` or `JUMPSUB` calls a subroutine, and there are 8 entries on the return stack.
* A `FOR` begins a loop that is executed, and there are 8 entries on the return stack. The loop is
  executed when it starts below its limit, and it may be when its variable has no valid name.
* A `FOR` defines its variable, and there are 16 variables.
* A `DIM` defines its variable, and there are 16 variables.
* A `DIM` allocates memory behind the region of the program.
* A line is inserted that ends behind the region of the program. -/
inductive Exceeds (s : State) (a : ℕ) : Prop
  | assign {s₁ : State} (ha : AssignAt s a) (hptr : getPtr s a = .ok (.error .undefinedVar, s₁))
      (hnew : programGetNumericRef s a = some none) (hfull : s.programContext.length = maxVars)
  | call (hk : KeywordAt s a keywordGosub ∨ KeywordAt s a keywordJumpsub)
      (hnum : s.ram (a + kwSize) = tokNumeric)
      (hfull : s.programReturnStack.length = returnStackLimit)
  | loop {start limit : ℤ} (hk : KeywordAt s a keywordFor)
      (hlimits : forLimits s.ram (a + kwSize) = some (start, limit))
      (hfull : s.programReturnStack.length = returnStackLimit)
      (htop : ∀ top ∈ s.programReturnStack.head?, varcmp s.ram top.vartoken (a + kwSize) = false)
      (hmore : start < limit ∨ programGetNumericRef s (a + kwSize) = some none ∧
        varnameSize < (variableGet s.ram (a + kwSize)).length)
  | loopVariable {start limit : ℤ} (hk : KeywordAt s a keywordFor)
      (hlimits : forLimits s.ram (a + kwSize) = some (start, limit))
      (hnew : programGetNumericRef s (a + kwSize) = some none)
      (hfull : s.programContext.length = maxVars)
  | array {next : ℕ} (hk : KeywordAt s a keywordDim)
      (hvar : varToken s.ram (a + kwSize) = some next)
      (hsize : 0 ≤ numericGet s.ram (next + opSize) ∧ numericGet s.ram (next + opSize) ≤ 127)
      (hname : (programAlloc s ((numericGet s.ram (next + opSize)).toNat * 2)).2.ram (a + kwSize) ≠
        tokRegister) (hfull : s.programContext.length = maxVars)
  | alloc {next : ℕ} (hk : KeywordAt s a keywordDim)
      (hvar : varToken s.ram (a + kwSize) = some next)
      (hsize : 0 ≤ numericGet s.ram (next + opSize) ∧ numericGet s.ram (next + opSize) ≤ 127)
      (hmax : Target.programMax <
        s.programEndPtr + 2 + (numericGet s.ram (next + opSize)).toNat * 2)
  | insert {size : ℕ} (hk : s.ram a = tokNumeric)
      (hsize : statementSize s.ram (a + numericSize) = some size)
      (hmax : Target.programMax < s.programEndPtr + size + progHdrSize)

/-- The statement gives an error, and nothing changes but the state of the random number
generator. -/
def Refuses (s : State) (a : ℕ) : Prop :=
  ∃ e s', statementInterpret 1 s a = .ok (.done e, s') ∧ e ≠ .noerror ∧ Still s s'

/-- A statement that does not pass a limit.

* Only an assignment needs more room than there is left.
* An element of an array that is assigned to is in the region of the program.
* A jump that is rewritten is in the buffer or in the region of the program. -/
structure Modest (s : State) (a : ℕ) : Prop where
  exceeds : Exceeds s a → AssignAt s a
  element : AssignAt s a → ∀ b next s₁, assignPtr s a = .ok (.ok (.memory b, next), s₁) →
    Target.programStart ≤ b ∧ b + 2 ≤ Target.programMax
  place : KeywordAt s a keywordGoto ∨ KeywordAt s a keywordGosub →
    Writable a (kwSize + numericSize)

/-- The tables and the program are within their limits, and nothing has been written outside of the
buffer and of the region of the program, where `m₀` was in memory before. -/
structure Contained (m₀ : Ram) (s : State) : Prop where
  limits : Limits s
  start_le : Target.programStart ≤ s.programEndPtr
  last : s.programLastInsertedLine = null ∨ Target.programStart ≤ s.programLastInsertedLine ∧
    s.programLastInsertedLine + progHdrSize ≤ s.programEndPtr
  outside : ∀ b, ¬ Writable b 1 → s.ram b = m₀ b

namespace Contained

/-- A step that leaves the program, with as many variables as fit. -/
theorem quiet (h : Contained m₀ s) (hq : Quiet s s') (hc : s'.programContext.length ≤ maxVars) :
    Contained m₀ s' where
  limits := ⟨hq.programReturnStack ▸ h.limits.stack, hc, hq.programEndPtr ▸ h.limits.region⟩
  start_le := hq.programEndPtr ▸ h.start_le
  last := by
    rw [hq.programLastInsertedLine, hq.programEndPtr]
    exact h.last
  outside b hb := by
    rw [hq.ram]
    exact h.outside b hb

/-- A step that changes nothing that counts. -/
theorem still (h : Contained m₀ s) (hs : Still s s') : Contained m₀ s' := by
  apply h.quiet hs.quiet
  rw [hs]
  exact h.limits.context

/-- Another mode leaves the tables. -/
theorem withMode (h : Contained m₀ s) (mode : Mode) : Contained m₀ (s.withMode mode) :=
  ⟨⟨h.limits.stack, h.limits.context, h.limits.region⟩, h.start_le, h.last, h.outside⟩

/-- Another line to go on at leaves the tables. -/
theorem goTo (h : Contained m₀ s) (line : ℕ) : Contained m₀ (s.goTo line) :=
  ⟨⟨h.limits.stack, h.limits.context, h.limits.region⟩, h.start_le, h.last, h.outside⟩

/-- Another current line leaves the tables. -/
theorem current (h : Contained m₀ s) (line : ℕ) :
    Contained m₀ { s with programCurrentLine := line } :=
  ⟨⟨h.limits.stack, h.limits.context, h.limits.region⟩, h.start_le, h.last, h.outside⟩

/-- A return stack with room for its entries. -/
theorem withStack (h : Contained m₀ s) {stack : List ReturnEntry}
    (hs : stack.length ≤ returnStackLimit) : Contained m₀ (s.withStack stack) :=
  ⟨⟨hs, h.limits.context, h.limits.region⟩, h.start_le, h.last, h.outside⟩

/-- A table of variables with room for them. -/
theorem withContext (h : Contained m₀ s) {context : List ContextVar}
    (hc : context.length ≤ maxVars) : Contained m₀ (s.withContext context) :=
  h.quiet (Quiet.withContext s context) hc

/-- Another register leaves the tables. -/
theorem setRegister (h : Contained m₀ s) (i : Fin numRegisters) (reg : Register) :
    Contained m₀ (s.setRegister i reg) := h.quiet (Quiet.setRegister s i reg) h.limits.context

/-- A copy into the buffer or into the region. -/
theorem memcpy (h : Contained m₀ s) {bytes : List UInt8} (hw : Writable a bytes.length) :
    Contained m₀ (s.memcpy a bytes) := by
  refine ⟨⟨h.limits.stack, h.limits.context, h.limits.region⟩, h.start_le, h.last, ?_⟩
  intro b hb
  rw [← h.outside b hb]
  show s.ram.memcpy a bytes b = s.ram b
  by_cases hlt : b < a
  · exact Ram.memcpy_of_lt hlt
  · apply Ram.memcpy_of_le
    by_contra hle
    unfold Writable at hw hb
    omega

/-! ## Variables -/

/-- A number that is set leaves the tables within their limits. -/
theorem programSetNumeric (h : Contained m₀ s) (val : ℤ) :
    Upholds (Contained m₀) (programSetNumeric s toks val) := by
  unfold Basic.programSetNumeric
  cases href : programGetNumericRef s toks with
  | none => exact rfl
  | some r =>
    cases r with
    | some ref =>
      cases ref with
      | register i => exact h.setRegister i _
      | context i =>
        apply h.withContext
        rw [List.length_modify]
        exact h.limits.context
      | memory b => exact absurd rfl (programGetNumericRef_ne_memory href b)
    | none =>
      refine Upholds.ite (fun _ => h) fun hroom => ?_
      refine Upholds.ite (fun _ => h) fun _ => h.withContext ?_
      have hle := h.limits.context
      rw [List.length_append, List.length_singleton]
      omega

/-- So does the search for a variable. -/
theorem getPtr (h : Contained m₀ s) : Upholds (Contained m₀) (getPtr s toks) := by
  cases hptr : Basic.getPtr s toks with
  | error f => exact getPtr_fault hptr
  | ok q => exact h.still (getPtr_still hptr)

/-- So does the evaluation of an expression. -/
theorem eval (h : Contained m₀ s) : Upholds (Contained m₀) (eval s toks) := by
  cases heval : Basic.eval s toks with
  | error f => exact eval_fault heval
  | ok q => exact h.still (eval_still heval)

/-! ## Assignments -/

/-- So does the left side of an assignment. -/
theorem assignPtr (h : Contained m₀ s) : Upholds (Contained m₀) (assignPtr s a) := by
  unfold Basic.assignPtr
  have hptr : Upholds (Contained m₀) (Basic.getPtr s a) := h.getPtr
  split
  · next s₁ heq =>
    rw [heq] at hptr
    have hset : Upholds (Contained m₀) (Basic.programSetNumeric s₁ a 0) :=
      Contained.programSetNumeric hptr 0
    split
    · next hf =>
      rw [hf] at hset
      exact hset
    · next hok =>
      rw [hok] at hset
      exact Contained.getPtr hset
    · next hok =>
      rw [hok] at hset
      exact hset
  · exact hptr

/-- Storing a number in a variable, or in the region. -/
theorem store (h : Contained m₀ s) {ref : Ref} (val : ℤ)
    (hmem : ∀ b, ref = .memory b → Target.programStart ≤ b ∧ b + 2 ≤ Target.programMax) :
    Contained m₀ (s.store ref val) := by
  cases ref with
  | register i => exact h.setRegister i _
  | context i =>
    apply h.withContext
    rw [List.length_modify]
    exact h.limits.context
  | memory b =>
    apply h.memcpy
    rw [length_bytes16]
    exact .inr (hmem b rfl)

/-- An assignment leaves the tables within their limits, when an element that it sets is in the
memory of the program. -/
theorem doAssign (h : Contained m₀ s)
    (helement : ∀ b next s₁, Basic.assignPtr s a = .ok (.ok (.memory b, next), s₁) →
      Target.programStart ≤ b ∧ b + 2 ≤ Target.programMax) :
    Upholds (Contained m₀) (doAssign s a) := by
  unfold Basic.doAssign
  have hptr : Upholds (Contained m₀) (Basic.assignPtr s a) := h.assignPtr
  split
  · next hf =>
    rw [hf] at hptr
    exact hptr
  · next hok =>
    rw [hok] at hptr
    exact hptr
  · next ref next s₁ hok =>
    rw [hok] at hptr
    refine Upholds.ite (fun _ => hptr) fun _ => ?_
    have heval : Upholds (Contained m₀) (Basic.eval s₁ (next + opSize)) := Contained.eval hptr
    split
    · next hf =>
      rw [hf] at heval
      exact heval
    · next hok =>
      rw [hok] at heval
      exact heval
    · next val _ s₂ hval =>
      rw [hval] at heval
      apply Contained.store heval
      intro b hb
      exact helement b next s₁ (hb ▸ hok)

/-! ## Lines and arrays -/

/-- A new program leaves the tables within their limits. -/
theorem programNew (h : Contained m₀ s) : Contained m₀ (programNew s) where
  limits := ⟨Nat.zero_le _, Nat.zero_le _, Target.start_le⟩
  start_le := le_rfl
  last := .inl rfl
  outside := h.outside

/-- So does the start of a program. -/
theorem programRunInit (h : Contained m₀ s) : Contained m₀ (programRunInit s) where
  limits := ⟨Nat.zero_le _, Nat.zero_le _, h.limits.region⟩
  start_le := h.start_le
  last := h.last
  outside := h.outside

/-- More of the region is in use. -/
theorem extend (h : Contained m₀ s) {stop : ℕ} (hle : s.programEndPtr ≤ stop)
    (hmax : stop ≤ Target.programMax) : Contained m₀ { s with programEndPtr := stop } where
  limits := ⟨h.limits.stack, h.limits.context, hmax⟩
  start_le := h.start_le.trans hle
  last := h.last.imp_right fun hl => ⟨hl.1, hl.2.trans hle⟩
  outside := h.outside

/-- An allocation leaves the tables within their limits, when there is memory for it. -/
theorem programAlloc (h : Contained m₀ s) {size : ℕ}
    (hmax : s.programEndPtr + 2 + size ≤ Target.programMax) :
    Contained m₀ (programAlloc s size).2 := by
  have hcopy : Contained m₀ (s.memcpy s.programEndPtr
      (tokAlloc :: UInt8.ofNat size :: List.replicate size 0)) := by
    apply h.memcpy
    have hstart := h.start_le
    simp only [List.length_cons, List.length_replicate]
    exact .inr ⟨hstart, by omega⟩
  exact hcopy.extend (show s.programEndPtr ≤ s.programEndPtr + 2 + size by omega) hmax

/-- A line is linked behind the last one.

**Proof sketch.** What is written is the line and its header, between the old end and the limit, and
the link of the last line, which lies in the region already. -/
theorem link (h : Contained m₀ s) {lineno : ℤ} {stmt : List UInt8}
    (hmax : s.programEndPtr + stmt.length + progHdrSize ≤ Target.programMax) :
    Contained m₀ (s.link lineno stmt) where
  limits := ⟨h.limits.stack, h.limits.context, hmax⟩
  start_le := h.start_le.trans (show s.programEndPtr ≤ s.programEndPtr + _ + _ by omega)
  last := by
    refine .inr ⟨h.start_le, ?_⟩
    show s.programEndPtr + progHdrSize ≤ s.programEndPtr + stmt.length + progHdrSize
    omega
  outside b hb := by
    rw [← h.outside b hb]
    show linkRam s.ram s.programLastInsertedLine s.programEndPtr lineno stmt b = s.ram b
    have hstart := h.start_le
    unfold Writable at hb
    unfold progHdrSize at hmax
    by_cases hlt : b < s.programEndPtr
    · apply linkRam_of_lt hlt
      -- the link of the last line is in the region
      refine h.last.imp_right fun hl => ?_
      obtain ⟨hge, hend⟩ := hl
      unfold progHdrSize at hend
      omega
    · rw [linkRam, Ram.memcpy_of_le, Ram.memcpy_of_le]
      · split
        · next hne =>
          obtain ⟨hge, hend⟩ := h.last.resolve_left hne
          unfold progHdrSize at hend
          exact Ram.memcpy_of_le (by rw [length_bytes16]; omega)
        · rfl
      · rw [length_lineHeader, progHdrSize]
        omega
      · unfold progStmt progHdrSize
        omega

/-- The insertion of a line leaves the tables within their limits, when there is memory for it. -/
theorem programInsert (h : Contained m₀ s)
    (hmax : ∀ size, s.ram a = tokNumeric → statementSize s.ram (a + numericSize) = some size →
      s.programEndPtr + size + progHdrSize ≤ Target.programMax) :
    Upholds (Contained m₀) (programInsert s a) := by
  by_cases hnum : s.ram a = tokNumeric
  · rcases programInsert_cases hnum with ⟨-, hins⟩ | ⟨stmt, hsize, hins⟩
    · rw [hins]
      rfl
    · rw [hins]
      exact h.link (hmax _ hnum hsize)
  · rw [Basic.programInsert, if_pos hnum]
    exact h

/-- A new array leaves the tables within their limits, when there is memory for it and room for a
variable. -/
theorem programCreateArray (h : Contained m₀ s) {size : ℕ}
    (hroom : (Basic.programAlloc s size).2.ram toks ≠ tokRegister →
      s.programContext.length < maxVars)
    (hmax : s.programEndPtr + 2 + size ≤ Target.programMax) :
    Upholds (Contained m₀) (programCreateArray s toks size) := by
  have halloc : Contained m₀ (Basic.programAlloc s size).2 := h.programAlloc hmax
  unfold Basic.programCreateArray
  refine Upholds.ite (fun _ => ?_) fun hreg => ?_
  · cases register? (Basic.programAlloc s size).2.ram toks with
    | none => exact rfl
    | some i => exact halloc.setRegister i _
  · have hlt : s.programContext.length < maxVars := hroom hreg
    rw [if_neg (show (Basic.programAlloc s size).2.programContext.length ≠ maxVars from hlt.ne)]
    refine Upholds.ite (fun _ => rfl) fun _ => halloc.withContext ?_
    rw [List.length_append, List.length_singleton]
    exact hlt

end Contained

/-- A limit of a `FOR` has no other fault than the one of an expression. -/
theorem forVal_fault {f : Fault} (h : forVal s toks = .error f) : f = .undefined := by
  unfold forVal programGetNumeric at h
  exact orFault_map_eq_error (except_map_eq_error h)

namespace Contained

/-- A `DIM` that is refused when it does not fit leaves the tables within their limits. -/
theorem doDim (h : Contained m₀ s) (hk : KeywordAt s a keywordDim)
    (hc : Exceeds s a → AssignAt s a) : Upholds (Contained m₀) (doDim s (a + kwSize)) := by
  unfold Basic.doDim
  cases hvar : varToken s.ram (a + kwSize) with
  | none => exact h
  | some next =>
    refine Upholds.ite (fun _ => h) fun hsize => ?_
    have hrange : 0 ≤ numericGet s.ram (next + opSize) ∧
        numericGet s.ram (next + opSize) ≤ 127 := by omega
    have hle := h.limits.context
    refine Upholds.map (h.programCreateArray (fun hname => ?_) ?_) fun _ _ h => h
    · by_contra hfull
      exact hk.not_assignAt (hc (.array hk hvar hrange hname (by omega)))
    · by_contra hmax
      exact hk.not_assignAt (hc (.alloc hk hvar hrange (by omega)))

/-! ## Control -/

/-- With room on the return stack an entry is pushed, and the tables stay within their limits. -/
theorem push (h : Contained m₀ s) (hroom : s.programReturnStack.length < returnStackLimit)
    {line vartok : ℕ} : ∃ s', programPushReturn s line vartok = .ok s' ∧ Contained m₀ s' := by
  refine ⟨_, if_pos hroom, h.withStack ?_⟩
  rw [List.length_cons]
  exact hroom

/-- What follows a push leaves the tables within their limits, when there is room and it does so
itself. -/
theorem push_map {α : Type} {g : State → α × State} (h : Contained m₀ s)
    (hroom : s.programReturnStack.length < returnStackLimit) {line vartok : ℕ}
    (hg : ∀ s', Contained m₀ s' → Contained m₀ (g s').2) :
    Upholds (Contained m₀) ((programPushReturn s line vartok).map g) := by
  obtain ⟨s', hpush, h'⟩ := @push _ _ _ h hroom line vartok
  rw [hpush]
  exact hg s' h'

/-- The topmost entry of the return stack may be taken. -/
theorem pop (h : Contained m₀ s) : Contained m₀ (s.withStack s.programReturnStack.tail) := by
  apply h.withStack
  rw [List.length_tail]
  exact (Nat.sub_le _ _).trans h.limits.stack

/-- `RETURN` leaves the tables within their limits. -/
theorem doReturn (h : Contained m₀ s) : Upholds (Contained m₀) (doReturn s) := by
  unfold Basic.doReturn programPopReturn
  cases s.programReturnStack.head? with
  | none => exact h.pop
  | some top => exact h.pop.goTo _

/-- So does `NEXT`. -/
theorem doNext (h : Contained m₀ s) : Upholds (Contained m₀) (doNext s toks) := by
  unfold Basic.doNext
  refine Upholds.ite (fun _ => h) fun _ => ?_
  unfold programPopReturn
  cases hs : s.programReturnStack with
  | nil =>
    have hpop := h.pop
    rw [hs] at hpop
    exact hpop
  | cons top rest =>
    have hpop : Contained m₀ (s.withStack rest) := by
      have := h.pop
      rwa [hs] at this
    have hroom : rest.length < returnStackLimit := by
      have hle := h.limits.stack
      rw [hs, List.length_cons] at hle
      exact hle
    exact Upholds.ite (fun _ => hpop) fun _ => hpop.push_map hroom fun _ h' => h'.goTo _

/-- So does `JUMPTO`. -/
theorem doJumpto (h : Contained m₀ s) : Upholds (Contained m₀) (doJumpto s toks) :=
  Upholds.ite (fun _ => h) fun _ => h.goTo _

/-- So does `JUMPSUB`, when it is refused without room on the return stack. -/
theorem doJumpsub (h : Contained m₀ s) (hk : KeywordAt s a keywordJumpsub)
    (hc : Exceeds s a → AssignAt s a) : Upholds (Contained m₀) (doJumpsub s (a + kwSize)) := by
  refine Upholds.ite (fun _ => h) fun hnum => ?_
  have hroom : s.programReturnStack.length < returnStackLimit := by
    by_contra hfull
    have hle := h.limits.stack
    exact hk.not_assignAt (hc (.call (.inr hk) (not_not.1 hnum) (by omega)))
  exact h.push_map hroom fun _ h' => h'.goTo _

/-- The rewriting of a jump in the buffer or in the region. -/
theorem transferRewrite (h : Contained m₀ s) {jump : UInt8}
    (hw : Writable a (kwSize + numericSize)) :
    Upholds (Contained m₀) (transferRewrite s (a + kwSize) jump) := by
  unfold Basic.transferRewrite programTransferControl
  cases programSearchLineno s (numericGet s.ram (a + kwSize)) with
  | none => exact rfl
  | some line =>
    unfold Writable kwSize numericSize at hw
    refine ((h.goTo line).memcpy ?_).memcpy ?_
    · unfold Writable kwSize
      rw [List.length_singleton]
      omega
    · unfold Writable kwSize
      rw [length_bytes16]
      omega

/-- So does `GOTO`, when it may be written to. -/
theorem doGoto (h : Contained m₀ s) (hw : Writable a (kwSize + numericSize)) :
    Upholds (Contained m₀) (doGoto s (a + kwSize)) :=
  Upholds.ite (fun _ => h) fun _ => h.transferRewrite hw

/-- So does `GOSUB`, when it may be written to and is refused without room on the return stack. -/
theorem doGosub (h : Contained m₀ s) (hk : KeywordAt s a keywordGosub)
    (hc : Exceeds s a → AssignAt s a) (hw : Writable a (kwSize + numericSize)) :
    Upholds (Contained m₀) (doGosub s (a + kwSize)) := by
  refine Upholds.ite (fun _ => h) fun hnum => ?_
  have hroom : s.programReturnStack.length < returnStackLimit := by
    by_contra hfull
    have hle := h.limits.stack
    exact hk.not_assignAt (hc (.call (.inl hk) (not_not.1 hnum) (by omega)))
  obtain ⟨s₁, hpush, h₁⟩ := @push _ _ _ h hroom s.programCurrentLine null
  rw [hpush]
  exact h₁.transferRewrite hw

/-- The end of a program leaves the tables within their limits. -/
theorem programEnd (h : Contained m₀ s) (e : Error) : Contained m₀ (programEnd s e).2 := by
  unfold Basic.programEnd
  cases s.mode with
  | ready => exact h
  | running nested again => exact h.withMode _

/-! ## Loops -/

/-- The variable of a loop has been set to its start, and the entry on top of the full stack, which
is not for the loop, has been pushed back. -/
def Started (s : State) (toks : ℕ) (start : ℤ) (s₁ : State) : Prop :=
  s.programReturnStack.length = returnStackLimit ∧
    (∀ top ∈ s.programReturnStack.head?, varcmp s.ram top.vartoken toks = false) ∧
    ∃ e s₂, Basic.programSetNumeric (s.withStack s.programReturnStack.tail) toks start =
      .ok (e, s₂) ∧ s₁ = s₂.withStack s.programReturnStack

/-- After the beginning of a `FOR` there is room for the entry of the loop, or the loop has started
with a full stack.

**Proof sketch.** The entry on top is popped first. If it is the one of this loop the variable is
counted up and the room stays. Otherwise it is pushed back, and the stack is as long as it was,
which may be full. -/
theorem forStep (h : Contained m₀ s) (start : ℤ) :
    Upholds (fun s₁ => Contained m₀ s₁ ∧
      (s₁.programReturnStack.length < returnStackLimit ∨ Started s toks start s₁))
      (forStep s toks start) := by
  have hle := h.limits.stack
  have hpop := h.pop
  have hset : ∀ val, Upholds (Contained m₀)
      (Basic.programSetNumeric (s.withStack s.programReturnStack.tail) toks val) :=
    fun val => hpop.programSetNumeric val
  unfold Basic.forStep programPopReturn
  cases hs : s.programReturnStack with
  | nil =>
    rw [hs] at hset
    show Upholds _ (Except.map _ (Basic.programSetNumeric (s.withStack []) toks start))
    cases hres : Basic.programSetNumeric (s.withStack []) toks start with
    | error f => exact (hres ▸ hset start : Upholds _ (Except.error f))
    | ok q =>
      have hstack : q.2.programReturnStack = [] := (programSetNumeric_quiet hres).programReturnStack
      refine ⟨(hres ▸ hset start : Upholds _ (Except.ok q)), .inl ?_⟩
      show q.2.programReturnStack.length < returnStackLimit
      rw [hstack]
      decide
  | cons top rest =>
    rw [hs, List.tail_cons] at hset
    rw [hs, List.length_cons] at hle
    simp only [List.head?_cons, List.tail_cons]
    refine Upholds.ite (fun _ => ?_) fun hother => ?_
    · -- the loop goes on, and its entry has been popped
      cases hval : forVal (s.withStack rest) toks with
      | error f => exact forVal_fault hval
      | ok val =>
        show Upholds _ (Except.map _ (Basic.programSetNumeric (s.withStack rest) toks _))
        cases hres : Basic.programSetNumeric (s.withStack rest) toks (int16 (val + 1)) with
        | error f => exact (hres ▸ hset _ : Upholds _ (Except.error f))
        | ok q =>
          have hstack := (programSetNumeric_quiet hres).programReturnStack
          refine ⟨(hres ▸ hset _ : Upholds _ (Except.ok q)), .inl ?_⟩
          show q.2.programReturnStack.length < returnStackLimit
          rw [hstack]
          exact hle
    · -- the loop begins, and the entry on top is pushed back
      cases hres : Basic.programSetNumeric (s.withStack rest) toks start with
      | error f => exact (hres ▸ hset _ : Upholds _ (Except.error f))
      | ok q =>
        obtain ⟨e, s₂⟩ := q
        have h₂ : Contained m₀ s₂ := (hres ▸ hset _ : Upholds _ (Except.ok (e, s₂)))
        have hstack : s₂.programReturnStack = rest :=
          (programSetNumeric_quiet hres).programReturnStack
        have hpush : programPushReturn s₂ top.line top.vartoken =
            .ok (s₂.withStack (top :: rest)) := by
          rw [programPushReturn, hstack, if_pos (show rest.length < returnStackLimit from hle)]
        show Upholds _ (Except.map _ (programPushReturn s₂ top.line top.vartoken))
        rw [hpush]
        refine ⟨h₂.withStack (by rw [List.length_cons]; exact hle), ?_⟩
        by_cases hroom : (top :: rest).length < returnStackLimit
        · exact .inl hroom
        · refine .inr ⟨?_, ?_, e, s₂, ?_, ?_⟩
          · rw [hs]
            rw [List.length_cons] at hroom ⊢
            omega
          · rw [hs]
            rintro _ ⟨⟩
            exact Bool.eq_false_iff.2 hother
          · rw [hs]
            exact hres
          · rw [hs]

/-- The value of the variable of a loop that has started. -/
theorem forVal_of_started (h : Contained m₀ s) {start limit : ℤ} {s₁ : State}
    (hk : KeywordAt s a keywordFor) (hc : ¬ Exceeds s a)
    (hlimits : forLimits s.ram (a + kwSize) = some (start, limit))
    (hstart : Started s (a + kwSize) start s₁) : forVal s₁ (a + kwSize) = .ok start := by
  obtain ⟨hfull, htop, e, s₂, hset, rfl⟩ := hstart
  -- a variable that cannot be defined exceeds a limit
  have hnoerror : e = .noerror := by
    apply programSetNumeric_noerror hset
    · intro hnew
      by_contra hroom
      exact hc (.loopVariable hk hlimits hnew (le_antisymm h.limits.context (not_lt.1 hroom)))
    · intro hnew
      by_contra hname
      exact hc (.loop hk hlimits hfull htop (.inr ⟨hnew, not_le.1 hname⟩))
  subst hnoerror
  obtain ⟨ref, href, hload⟩ :=
    programGetNumericRef_programSetNumeric hset (forLimits_start_mem hlimits)
  have href' : programGetNumericRef (s₂.withStack s.programReturnStack) (a + kwSize) =
      some (some ref) := href
  rw [forVal, programGetNumeric, href', ← hload]
  rfl

/-- `FOR` leaves the tables within their limits, when it is refused without room on the return
stack.

**Proof sketch.** The step of the loop pops an entry or starts the loop (`Contained.forStep`). It
pushes one only behind a pop, or when the loop is started and goes on, which is what the condition
forbids without room. -/
theorem doFor (h : Contained m₀ s) (hk : KeywordAt s a keywordFor)
    (hc : Exceeds s a → AssignAt s a) : Upholds (Contained m₀) (doFor s (a + kwSize)) := by
  have hnot : ¬ Exceeds s a := fun he => hk.not_assignAt (hc he)
  unfold Basic.doFor
  cases hlimits : forLimits s.ram (a + kwSize) with
  | none => exact h
  | some lim =>
    obtain ⟨start, limit⟩ := lim
    have hstep : Upholds (fun s₁ => Contained m₀ s₁ ∧
        (s₁.programReturnStack.length < returnStackLimit ∨ Started s (a + kwSize) start s₁))
        (Basic.forStep s (a + kwSize) start) := h.forStep start
    simp only
    cases hs : Basic.forStep s (a + kwSize) start with
    | error f =>
      rw [hs] at hstep
      exact hstep
    | ok q =>
      obtain ⟨line, s₁⟩ := q
      rw [hs] at hstep
      obtain ⟨h₁, hroom⟩ := hstep
      simp only
      cases hval : forVal s₁ (a + kwSize) with
      | error f => exact forVal_fault hval
      | ok val =>
        refine Upholds.ite (fun _ => h₁.goTo _) fun hlt => h₁.push_map ?_ fun _ h' => h'
        apply hroom.resolve_right
        intro hstart
        obtain rfl : start = val :=
          Except.ok.inj ((forVal_of_started h hk hnot hlimits hstart).symm.trans hval)
        exact hnot (.loop hk hlimits hstart.1 hstart.2.1 (.inl (by omega)))

end Contained

/-! ## Statements -/

/-- A modest statement passes no limit. -/
theorem Modest.kept (hm : Modest s a) (h : Contained m₀ s) (hif : ¬ IsIf s a) :
    Upholds (Contained m₀) (statementInterpret 1 s a) := by
  have hdispatch := dispatch hif
  generalize statementInterpret 1 s a = r at hdispatch
  cases hdispatch with
  | shows _ hshows =>
    cases r with
    | error f => exact hshows
    | ok q => exact h.still hshows.2
  | insert hk =>
    refine Upholds.map (h.programInsert fun size hnum hsize => ?_) fun _ _ h => h
    by_contra hmax
    rcases hm.exceeds (.insert hnum hsize (not_le.1 hmax)) with ha | ha <;>
      exact absurd (hk.symm.trans ha) (by decide)
  | assign ha => exact h.doAssign (hm.element ha)
  | new => exact h.programNew
  | run => exact h.programRunInit
  | stop => exact h.programEnd _
  | goto hk => exact h.doGoto (hm.place (.inl hk))
  | jumpto => exact h.doJumpto
  | «for» hk => exact h.doFor hk hm.exceeds
  | next => exact h.doNext
  | gosub hk => exact h.doGosub hk hm.exceeds (hm.place (.inr hk))
  | jumpsub hk => exact h.doJumpsub hk hm.exceeds
  | «return» => exact h.doReturn
  | dim hk => exact h.doDim hk hm.exceeds

/-- The condition on statements guards the invariant. -/
theorem guards_contained (m₀ : Ram) : Guards Modest (Contained m₀) where
  still h hs := h.still hs
  mode mode h := h.withMode mode
  buffer h ht := by
    apply h.memcpy
    exact .inl ⟨le_rfl, Nat.add_le_add_left (length_le_of_statementTokenize ht) _⟩
  current h := h.current _
  enterLine h := (h.current _).goTo _
  simple h hm hif := hm.kept h hif

/-- An assignment that exceeds a limit is refused. -/
theorem refuses_of_exceeds (h : Exceeds s a) (ha : AssignAt s a) : Refuses s a := by
  have hkey : ∀ kw, ¬ KeywordAt s a kw := fun kw hk => hk.not_assignAt ha
  cases h with
  | @assign s₁ _ hptr hnew hfull =>
    have hstill := getPtr_still hptr
    refine ⟨.tooManyVars, s₁, ?_, by simp, hstill⟩
    have hset : programSetNumeric s₁ a 0 = .ok (.tooManyVars, s₁) := by
      have hnew₁ : programGetNumericRef s₁ a = some none := by
        rw [hstill]
        exact hnew
      have hfull₁ : s₁.programContext.length = maxVars := by
        rw [hstill]
        exact hfull
      simp only [programSetNumeric, hnew₁, if_pos hfull₁]
    rw [statementInterpret_assign ha]
    simp only [doAssign, assignPtr, hptr, hset, fails]
  | call hk => exact absurd hk (not_or.2 ⟨hkey _, hkey _⟩)
  | loop hk => exact absurd hk (hkey _)
  | loopVariable hk => exact absurd hk (hkey _)
  | array hk => exact absurd hk (hkey _)
  | alloc hk => exact absurd hk (hkey _)
  | insert hk => rcases ha with ha | ha <;> exact absurd (hk.symm.trans ha) (by decide)

omit [Target] in
/-- A full return stack takes no frame. -/
theorem programPushReturn_of_full (hfull : s.programReturnStack.length = returnStackLimit)
    {line vartok : ℕ} : programPushReturn s line vartok = .error .returnStack :=
  if_neg (by rw [hfull]; exact lt_irrefl _)

/-- A loop gives no error. -/
theorem doFor_noerror {lim : ℤ × ℤ} {e : Error} (hlimits : forLimits s.ram toks = some lim)
    (h : doFor s toks = .ok (.done e, s')) : e = .noerror := by
  unfold doFor at h
  rw [hlimits] at h
  simp only at h
  split at h
  · exact absurd h (by simp)
  · split at h
    · exact absurd h (by simp)
    · split at h
      · simp only [succeeds, Except.ok.injEq, Prod.mk.injEq, Outcome.done.injEq] at h
        exact h.1.symm
      · obtain ⟨s₂, -, he⟩ := except_map_eq_ok h
        simp only [Prod.mk.injEq, Outcome.done.injEq] at he
        exact he.1.symm

omit [Target] in
/-- An array whose size is in range gives no error. -/
theorem doDim_noerror {next : ℕ} {e : Error} (hvar : varToken s.ram toks = some next)
    (hsize : 0 ≤ numericGet s.ram (next + opSize) ∧ numericGet s.ram (next + opSize) ≤ 127)
    (h : doDim s toks = .ok (.done e, s')) : e = .noerror := by
  unfold doDim at h
  rw [hvar] at h
  simp only at h
  rw [if_neg (by omega)] at h
  obtain ⟨q, -, he⟩ := except_map_eq_ok h
  simp only [Prod.mk.injEq, Outcome.done.injEq] at he
  exact he.1.symm

/-- **Of the statements that exceed a limit, the assignments are refused.**

**Proof sketch.** A call pushes its entry behind the end of the stack. A loop, an array and a line
never give an error when they exceed a limit. -/
theorem exceeds_refused_iff (h : Exceeds s a) : Refuses s a ↔ AssignAt s a := by
  refine ⟨?_, refuses_of_exceeds h⟩
  rintro ⟨e, s', hint, he, -⟩
  cases h with
  | assign ha => exact ha
  | call hk hnum hfull =>
    rcases hk with hk | hk <;> rw [statementInterpret_keyword hk] at hint
    · have hgosub : doGosub s (a + kwSize) = .ok (.done e, s') := hint
      rw [doGosub, if_neg (not_not.2 hnum), programPushReturn_of_full hfull] at hgosub
      exact absurd hgosub (by simp)
    · have hjumpsub : doJumpsub s (a + kwSize) = .ok (.done e, s') := hint
      rw [doJumpsub, if_neg (not_not.2 hnum), programPushReturn_of_full hfull] at hjumpsub
      exact absurd hjumpsub (by simp [Except.map])
  | loop hk hlimits =>
    rw [statementInterpret_keyword hk] at hint
    exact absurd (doFor_noerror hlimits hint) he
  | loopVariable hk hlimits =>
    rw [statementInterpret_keyword hk] at hint
    exact absurd (doFor_noerror hlimits hint) he
  | array hk hvar hsize =>
    rw [statementInterpret_keyword hk] at hint
    exact absurd (doDim_noerror hvar hsize hint) he
  | alloc hk hvar hsize =>
    rw [statementInterpret_keyword hk] at hint
    exact absurd (doDim_noerror hvar hsize hint) he
  | insert hk hsize =>
    rw [statementInterpret, if_pos hk] at hint
    rcases programInsert_cases hk with ⟨-, hins⟩ | ⟨stmt, -, hins⟩
    · rw [hins] at hint
      exact absurd hint (by simp [Except.map])
    · simp only [hins, Except.map, Except.ok.injEq, Prod.mk.injEq, Outcome.done.injEq] at hint
      exact absurd hint.1.symm he

/-! ## Sessions -/

/-- The statements that are executed in a step of a session pass no limit. -/
def StepModest (s : State) (input : Input) : Prop :=
  ∀ s' a, StepExecutes s input s' a → Modest s' a

/-- In a step of a session no table is left, every state is within the limits in which a statement
is executed or the step ends, and the statements that exceed a limit are refused. -/
structure Enforces (s : State) (input : Input) : Prop where
  fault : ∀ f, basicStep s input = .error f → f = .undefined
  limits : ∀ e s', basicStep s input = .ok (e, s') → Limits s'
  executed : ∀ s' a, StepExecutes s input s' a → Limits s'
  refused : ∀ s' a, StepExecutes s input s' a → Exceeds s' a → Refuses s' a

/-- The interpreter starts with its tables within their limits. -/
theorem Contained.boot (s₀ : State) : Contained s₀.ram (boot s₀) where
  limits := ⟨Nat.zero_le _, Nat.zero_le _, Target.start_le⟩
  start_le := le_rfl
  last := .inl rfl
  outside _ _ := rfl

/-- A statement that is modest keeps to the limits. -/
theorem Contained.enforces (h : Contained m₀ s) {input : Input} (hm : StepModest s input) :
    Enforces s input := by
  have hkept := (guards_contained m₀).basicStep_kept h hm
  refine ⟨?_, ?_, ?_, ?_⟩
  · intro f hf
    rw [hf] at hkept
    exact hkept
  · intro e s' hs
    rw [hs] at hkept
    exact hkept.limits
  · intro s' a hex
    exact ((guards_contained m₀).invariant hex h hm).limits
  · intro s' a hex hexceeds
    exact refuses_of_exceeds hexceeds ((hm s' a hex).exceeds hexceeds)

/-- In a run of modest statements, no step leaves a table, also not a last one that does not
return. -/
theorem Contained.each {s₀ : State} {inputs : List Input}
    (h : Run.Each basicRun StepModest (Basic.boot s₀) inputs) :
    Run.Each basicRun Enforces (Basic.boot s₀) inputs := by
  refine Run.Each.of_invariant (I := Contained s₀.ram) (C := StepModest) ?_ (Contained.boot s₀) h
  intro s input hin hm
  refine ⟨hin.enforces hm, fun e s' hstep => ?_⟩
  have hkept := (guards_contained s₀.ram).basicStep_kept hin hm
  rw [basicRun_eq_some hstep] at hkept
  exact hkept

/-- **The capacities are enforced in sessions of modest statements.** In every state of such a
session the return stack, the variables and the program are within their limits, and no memory
outside of the buffer and the region of the program has changed. In the next step, no table is left,
and a statement that needs more room than there is left gives an error and leaves the stack, the
variables and the program as they are.

**Proof sketch.** Every step of the session keeps the limits and the memory outside
(`guards_contained`), so that they hold in every state, by induction on the run. What the next step
does then is `Contained.enforces`. -/
theorem capacity_enforced {s₀ : State} {inputs : List Input} {es : List Error}
    (hrun : Run.exec basicRun (boot s₀) inputs = some (es, s))
    (hall : Run.Always basicRun (fun s input _ _ => StepModest s input) (boot s₀) inputs) :
    Limits s ∧ (∀ b, ¬ Writable b 1 → s.ram b = s₀.ram b) ∧
      ∀ input, StepModest s input → Enforces s input := by
  have hinv : Contained s₀.ram s := by
    refine Run.invariant_of_always (I := Contained s₀.ram) (C := StepModest) ?_ (Contained.boot s₀)
      hall hrun
    intro s input e s' h hm hstep
    have hkept := (guards_contained s₀.ram).basicStep_kept h hm
    cases hs : basicStep s input with
    | error f => simp [basicRun, hs, Except.toOption] at hstep
    | ok q =>
      rw [hs] at hkept
      simp only [basicRun, hs, Except.toOption, Option.some.injEq] at hstep
      subst hstep
      exact hkept
  exact ⟨hinv.limits, hinv.outside, fun input hm => hinv.enforces hm⟩

/-! ## A session -/

instance (a n : ℕ) : Decidable (Writable a n) := by
  unfold Writable
  infer_instance

/-- A test for modest statements that leave room for more. -/
def modestTest (s : State) (a : ℕ) : Bool :=
  s.programReturnStack.length < returnStackLimit && s.programContext.length < maxVars &&
  s.programEndPtr + 262 ≤ Target.programMax &&
  (!(s.ram a = tokVariable || s.ram a = tokRegister) ||
    match assignPtr s a with
    | .ok (.ok (.memory b, _), _) => Target.programStart ≤ b && b + 2 ≤ Target.programMax
    | _ => true) &&
  (!(kwCheck s.ram a keywordGoto || kwCheck s.ram a keywordGosub) ||
    Writable a (kwSize + numericSize))

omit [Target] in
/-- The size of a statement is a byte. -/
theorem statementSize_lt {m : Ram} {stmt size : ℕ} (h : statementSize m stmt = some size) :
    size < 256 := by
  rw [statementSize, Option.map_eq_some_iff] at h
  obtain ⟨stop, -, rfl⟩ := h
  exact Nat.mod_lt _ (by decide)

/-- The test finds out that a statement is modest. -/
theorem modest_of_test (h : modestTest s a = true) : Modest s a := by
  simp only [modestTest, Bool.and_eq_true, decide_eq_true_eq] at h
  obtain ⟨⟨⟨⟨hstack, hcontext⟩, hroom⟩, helem⟩, hplace⟩ := h
  refine ⟨?_, ?_, ?_⟩
  · intro hexceeds
    cases hexceeds with
    | assign ha => exact ha
    | call _ _ hfull => omega
    | loop _ _ hfull => omega
    | loopVariable _ _ _ hfull => omega
    | array _ _ _ _ hfull => omega
    | alloc _ _ hsize hmax => omega
    | insert _ hsize hmax =>
      have hlt := statementSize_lt hsize
      unfold progHdrSize at hmax
      omega
  · intro ha b next s₁ hptr
    have hassign : (decide (s.ram a = tokVariable) || decide (s.ram a = tokRegister)) = true := by
      simpa using show s.ram a = tokVariable ∨ s.ram a = tokRegister from ha
    simp only [hassign, Bool.not_true, Bool.false_or, hptr, Bool.and_eq_true,
      decide_eq_true_eq] at helem
    exact helem
  · intro hk
    have hkw : (kwCheck s.ram a keywordGoto || kwCheck s.ram a keywordGosub) = true := by
      simpa [kwCheck, KeywordAt] using hk
    simpa [hkw] using hplace

/-- The test finds out that every statement of a session is modest. -/
theorem always_stepModest_of_test {inputs : List Input}
    (h : Run.check basicRun (fun s input _ _ => executedTest modestTest s input) s inputs = true) :
    Run.Always basicRun (fun s input _ _ => StepModest s input) s inputs :=
  Run.Always.of_check (fun _ _ _ _ ht _ _ hex => modest_of_test (hex.of_test ht)) h

end

/-- A program with a subroutine, an array and a variable. -/
def modestSession : List Input :=
  [.line (ascii ['1', '0', ' ', 'G', 'O', 'S', 'U', 'B', ' ', '6', '0']),
   .line (ascii ['2', '0', ' ', 'D', 'I', 'M', ' ', 'X', '(', '3', ')']),
   .line (ascii ['3', '0', ' ', 'X', '(', '1', ')', '=', '7']),
   .line (ascii ['4', '0', ' ', 'A', 'A', '=', 'X', '(', '1', ')']),
   .line (ascii ['5', '0', ' ', 'E', 'N', 'D']),
   .line (ascii ['6', '0', ' ', 'R', 'E', 'T', 'U', 'R', 'N']),
   .line (ascii ['R', 'U', 'N']), .go, .go, .go, .go, .go, .go]

/-- A session in which a program is entered, run and changed. -/
theorem capacity_enforced_modestSession :
    letI := Target.small
    Limits (sessionEnd modestSession) ∧
      (∀ b, ¬ Writable b 1 → (sessionEnd modestSession).ram b = State.zeroed.ram b) ∧
        ∀ input, StepModest (sessionEnd modestSession) input →
          Enforces (sessionEnd modestSession) input := by
  let _ := Target.small
  have hall : (Run.exec basicRun (boot State.zeroed) modestSession).isSome = true := by
    decide +kernel
  obtain ⟨⟨es, s⟩, hrun⟩ := Option.isSome_iff_exists.1 hall
  have hs : sessionEnd modestSession = s := by rw [sessionEnd, hrun]; rfl
  rw [hs]
  exact capacity_enforced hrun (always_stepModest_of_test (by decide +kernel))

/-- The capacities are enforced in all sessions. -/
def AlwaysEnforced [Target] : Prop :=
  ∀ inputs, Typeable (boot State.zeroed) inputs → ∀ es s,
    Run.exec basicRun (boot State.zeroed) inputs = some (es, s) →
      ∀ input, input.Possible s → Enforces s input

/-- The fault of a result. -/
def faultOf {α : Type} : Result α → Option Fault
  | .error f => some f
  | .ok _ => none

/-- A fault that is found is the result. -/
theorem eq_error_of_faultOf {α : Type} {r : Result α} {f : Fault} (h : faultOf r = some f) :
    r = .error f := by
  cases r with
  | error f' => exact congrArg _ (Option.some.inj h)
  | ok a => exact absurd h (by simp [faultOf])

/-- A line that calls itself as a subroutine. -/
def endlessSession : List Input :=
  [.line (ascii ['1', '0', ' ', 'G', 'O', 'S', 'U', 'B', ' ', '1', '0']),
   .line (ascii ['R', 'U', 'N']), .go, .go, .go, .go, .go, .go, .go, .go]

/-- The ninth call writes behind the end of the return stack. -/
theorem not_alwaysEnforced : ¬ @AlwaysEnforced Target.small := by
  intro h
  let _ := Target.small
  have hall : (Run.exec basicRun (boot State.zeroed) endlessSession).isSome = true := by
    decide +kernel
  obtain ⟨⟨es, s⟩, hrun⟩ := Option.isSome_iff_exists.1 hall
  have hs : sessionEnd endlessSession = s := by rw [sessionEnd, hrun]; rfl
  have hfault : faultOf (basicStep (sessionEnd endlessSession) .go) = some .returnStack := by
    decide +kernel
  have hpos : Input.Possible (sessionEnd endlessSession) .go := by decide +kernel
  rw [hs] at hfault hpos
  have henforces := h endlessSession (typeable_of_check (by decide +kernel)) es s hrun .go hpos
  exact absurd (henforces.fault _ (eq_error_of_faultOf hfault)) (by decide)

end Z80OS.Basic
