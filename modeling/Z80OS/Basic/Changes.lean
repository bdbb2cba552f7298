import Z80OS.Basic.Courses

set_option relaxedAutoImplicit false
set_option autoImplicit false

/-!
# What changes the region of the program

Only some statements change the lines and arrays in the region of the program: assignments to
elements of arrays, insertions, `NEW`, `DIM`, and jumps to a number that a program executes.

## Main definitions

* `Z80OS.Basic.Change` — what a tame statement can do to the region of the program.
* `Z80OS.Basic.Unrewritten` — the statements are in memory as they were inserted.

## Main results

* `Z80OS.Basic.Stands.change` — a tame statement does nothing else.
* `Z80OS.Basic.carries_unrewritten` — statements are rewritten by jumps to a number only.
-/

namespace Z80OS.Basic

section

variable [Target] {s s' : State} {p : List ProgLine} {a : ℕ} {ts : List Token} {o : Outcome}

/-- The statement at an address is a jump to a number that a program executes. -/
structure JumpsByNumber (s : State) (a : ℕ) : Prop where
  mode : s.mode ≠ .ready
  keyword : KeywordAt s a keywordGoto ∨ KeywordAt s a keywordGosub
  number : s.ram (a + kwSize) = tokNumeric

/-- The statement at an address is a `DIM` that allocates memory. -/
structure Allocates (s : State) (a : ℕ) : Prop where
  keyword : KeywordAt s a keywordDim
  size : ∃ next, varToken s.ram (a + kwSize) = some next ∧ 0 ≤ numericGet s.ram (next + opSize) ∧
    numericGet s.ram (next + opSize) ≤ 127

/-- What a tame statement can do to the region of the program. -/
inductive Change (s : State) (a : ℕ) (s' : State) : Prop
  | same (h : SameProgram s s')
  | element (b w : ℕ) (hlines : ∀ l ∈ s.inserted, b + 2 ≤ l.addr ∨
      progStmt l.addr + l.stmt.length ≤ b) (h : SameProgram (s.memcpy b (bytes16 w)) s')
  | insert (w : ℕ) (rest : List Token) (hk : s.ram a = tokNumeric)
      (hw : numericGet s.ram a = toNumeric w) (hs : Stream rest)
      (h : s' = s.link (toNumeric w) (stored rest))
  | new (h : s' = programNew s)
  | alloc (size : ℕ) (hk : Allocates s a) (h : SameProgram (programAlloc s size).2 s')
  | jump (hk : JumpsByNumber s a)

/-- A step to another line leaves the program. -/
theorem SameProgram.of_moves {targets : ℕ → Prop} (h : Moves s s' targets) : SameProgram s s' :=
  .of_ram h.programEndPtr h.inserted h.ram

/-- A state has its own program. -/
theorem SameProgram.refl (s : State) : SameProgram s s := .of_ram rfl rfl rfl

/-- A direct jump to a number changes the buffer only. -/
theorem Stands.change_jump {s₁ : State} {kw jump : UInt8} (hs : Stands s p a ts)
    (hk : KeywordAt s a kw) (hkw : kw = keywordGoto ∨ kw = keywordGosub)
    (hnum : s.ram (a + kwSize) = tokNumeric) (hsame : SameProgram s s₁)
    (hjump : transferRewrite s₁ (a + kwSize) jump = .ok (o, s')) : Change s a s' := by
  by_cases hmode : s.mode = .ready
  · obtain ⟨rest, rfl⟩ := keyword_of_holds hs.tokens.holds hk.1 hk.2
    obtain ⟨w, rest, rfl⟩ := numeric_of_holds (holds_of_keyword hs.tokens.holds).2.2 hnum
    rcases hs.ready hmode with ⟨-, hle⟩ | hrun
    · obtain ⟨-, line, -, rfl⟩ := transferRewrite_eq_ok hjump
      simp only [stored_cons, Token.bytes, List.length_append, List.length_cons, length_bytes16,
        List.length_nil] at hle
      have hbuf := Target.statement_le
      refine .same ⟨hsame.programEndPtr, hsame.inserted, fun b hb => ?_⟩
      rw [← hsame.ram b hb]
      show ((s₁.ram.memcpy (a + kwSize - 1) [jump]).memcpy (a + kwSize + 1) (bytes16 line)) b = _
      rw [Ram.memcpy_of_le (by simp only [length_bytes16, kwSize]; omega),
        Ram.memcpy_of_le (by simp only [List.length_singleton, kwSize]; omega)]
    · obtain ⟨kw', rest', he, hkw'⟩ := hrun.exists_keyword
      simp only [List.cons.injEq, Token.keyword.injEq] at he
      rcases hkw with rfl | rfl <;> rcases hkw' with rfl | rfl <;> exact absurd he.1 (by decide)
  · refine .jump ⟨hmode, ?_, hnum⟩
    rcases hkw with rfl | rfl
    · exact .inl hk
    · exact .inr hk

/-- A `DIM` that changes something allocates memory. -/
theorem change_dim (hk : KeywordAt s a keywordDim) (h : doDim s (a + kwSize) = .ok (o, s')) :
    Change s a s' := by
  unfold doDim at h
  cases hvar : varToken s.ram (a + kwSize) with
  | none =>
    simp only [hvar, fails, Except.ok.injEq, Prod.mk.injEq] at h
    exact .same (h.2 ▸ .refl s)
  | some next =>
    simp only [hvar] at h
    split at h
    · simp only [fails, Except.ok.injEq, Prod.mk.injEq] at h
      exact .same (h.2 ▸ .refl s)
    · next hsize =>
      obtain ⟨⟨e, s₁⟩, hcreate, he⟩ := except_map_eq_ok h
      simp only [Prod.mk.injEq] at he
      obtain ⟨-, rfl⟩ := he
      exact .alloc _ ⟨hk, next, hvar, by omega, by omega⟩
        (.of_quiet (programCreateArray_quiet hcreate))

/-- A tame statement other than `IF` does one of the things that are listed.

**Proof sketch.** By cases on the effect of the statement. An assignment to an array element changes
one cell outside the lines, which is what tame says; a line that is inserted is the rest of the
tokens (`Represents.insert`); `GOTO` and `GOSUB` are rewritten (`Stands.change_jump`); the other
statements keep the program. -/
theorem Stands.change (hs : Stands s p a ts) (h : Represents s p) (htame : Tame s a)
    (hif : ¬ IsIf s a) (hint : statementInterpret 1 s a = .ok (o, s')) : Change s a s' := by
  have hfits : s'.programEndPtr ≤ ramSize := (htame.fits o s' hint).trans Target.max_le
  cases effect_of_statementInterpret hif hint with
  | quiet hq => exact .same (.of_quiet hq)
  | @element s₁ s₂ b next n ha hptr hq =>
    obtain ⟨-, -, hlines⟩ := htame.element ha b next s₁ hptr
    have hram : (s₂.memcpy b (bytes16 (ofNumeric n))).ram =
        (s.memcpy b (bytes16 (ofNumeric n))).ram := by
      show s₂.ram.memcpy b _ = s.ram.memcpy b _
      rw [hq.ram]
    exact .element b (ofNumeric n) hlines (.of_ram hq.programEndPtr hq.inserted hram)
  | insert hk hins =>
    obtain ⟨-, w, rest, rfl, rfl, -⟩ := h.insert hs.tokens hk hins hfits
    refine .insert w rest hk ?_ hs.tokens.stream.2.2 rfl
    rw [numericGet, Ram.numeric, (word_of_holds hs.tokens.stream hs.tokens.holds).2]
  | new _ => exact .new rfl
  | run _ => exact .same (.of_ram rfl rfl rfl)
  | stop _ hend =>
    unfold programEnd at hend
    split at hend
    · simp only [Prod.mk.injEq] at hend
      exact .same (hend.2 ▸ .refl s)
    · simp only [Prod.mk.injEq] at hend
      exact .same (hend.2 ▸ .of_ram rfl rfl rfl)
  | goto hk hgoto =>
    rcases doGoto_eq_ok hgoto with ⟨e, -, rfl⟩ | ⟨hnum, hjump⟩
    · exact .same (.refl _)
    · exact hs.change_jump hk (.inl rfl) hnum (.refl s) hjump
  | gosub hk hgosub =>
    rcases doGosub_eq_ok hgosub with ⟨e, -, rfl⟩ | ⟨hnum, s₁, hpush, hjump⟩
    · exact .same (.refl _)
    · obtain ⟨-, rfl⟩ := programPushReturn_eq_ok hpush
      have hsame : SameProgram s
          (s.withStack (⟨s.programCurrentLine, null⟩ :: s.programReturnStack)) :=
        .of_ram rfl rfl rfl
      exact hs.change_jump hk (.inr rfl) hnum hsame hjump
  | jumpto _ hjump => exact .same (.of_moves (doJumpto_moves hjump).2)
  | jumpsub _ hjump => exact .same (.of_moves (doJumpsub_moves hjump).2)
  | «for» _ hfor => exact .same (.of_moves (doFor_moves hfor).2)
  | next _ hnext => exact .same (.of_moves (doNext_moves hnext).2)
  | «return» _ hret => exact .same (.of_moves (doReturn_moves hret).2)
  | dim hk hdim => exact change_dim hk hdim

/-- A test for `JumpsByNumber`. -/
def jumpsByNumberTest (s : State) (a : ℕ) : Bool :=
  s.mode ≠ .ready && (kwCheck s.ram a keywordGoto || kwCheck s.ram a keywordGosub)

omit [Target] in
/-- The test finds out that a statement has no number of a line. -/
theorem not_jumpsByNumber_of_test {a : ℕ} (h : (! jumpsByNumberTest s a) = true) :
    ¬ JumpsByNumber s a := by
  rintro ⟨hmode, hk, -⟩
  have hkw : (kwCheck s.ram a keywordGoto || kwCheck s.ram a keywordGosub) = true := by
    rw [Bool.or_eq_true]
    exact hk.imp kwCheck_eq_true.2 kwCheck_eq_true.2
  simp [jumpsByNumberTest, hmode, hkw] at h

/-! ## Statements that are not rewritten -/

/-- The lines are in the region of the program, with their statements as they were inserted. -/
def Unrewritten (s : State) : Prop :=
  ∀ l ∈ s.inserted, Target.programStart ≤ l.addr ∧ s.ram.Holds (progStmt l.addr) l.stmt

/-- The lines that have been inserted end in front of the end of the program. -/
theorem Represents.inserted_le (h : Represents s p) {l : Line} (hl : l ∈ s.inserted) :
    progStmt l.addr + l.stmt.length ≤ s.programEndPtr := by
  rw [h.inserted, List.mem_map] at hl
  obtain ⟨x, hx, rfl⟩ := hl
  obtain ⟨before, after, hp⟩ := List.append_of_mem hx
  have hlen := (h.lines _ _ _ hp).rewritten.length_stored
  have hstop := h.stop_le x hx
  rw [ProgLine.stop, hlen] at hstop
  exact hstop

/-- The condition depends on the lines that have been entered, and on their memory. -/
theorem Unrewritten.congr (hu : Unrewritten s) (hins : s'.inserted = s.inserted)
    (hram : ∀ l ∈ s.inserted, ∀ i < l.stmt.length, Target.programStart ≤ l.addr →
      s'.ram (progStmt l.addr + i) = s.ram (progStmt l.addr + i)) : Unrewritten s' := by
  intro l hl
  rw [hins] at hl
  obtain ⟨hstart, hholds⟩ := hu l hl
  exact ⟨hstart, hholds.congr fun i hi => hram l hl i hi hstart⟩

/-- A step that leaves the program keeps the condition. -/
theorem Unrewritten.same (hu : Unrewritten s) (h : SameProgram s s') : Unrewritten s' :=
  hu.congr h.inserted fun l _ i _ hstart => h.ram _ (by unfold progStmt; omega)

/-- A statement in front of a line that is linked stays the same. -/
theorem Represents.link_stmt (h : Represents s p) {l : Line} (hl : l ∈ s.inserted) {i : ℕ}
    (hi : i < l.stmt.length) (lineno : ℤ) (stmt : List UInt8) :
    (s.link lineno stmt).ram (progStmt l.addr + i) = s.ram (progStmt l.addr + i) := by
  have hle := h.inserted_le hl
  apply h.link_ram lineno stmt (by omega)
  intro x hx
  rw [h.inserted, List.mem_map] at hl
  obtain ⟨y, hy, rfl⟩ := hl
  obtain ⟨before, after, hp⟩ := List.append_of_mem hy
  have hlen := (h.lines _ _ _ hp).rewritten.length_stored
  change i < (stored y.typed).length at hi
  show progStmt y.addr + i < x.addr + 4 ∨ x.addr + 6 ≤ progStmt y.addr + i
  rcases List.mem_append.1 (hp ▸ List.mem_of_getLast? hx : x ∈ before ++ y :: after) with hxb | hxa
  · have := h.stop_le_addr hp hxb
    have := x.addr_lt_stop
    unfold progStmt progHdrSize
    omega
  · rcases List.mem_cons.1 hxa with rfl | hxa
    · unfold progStmt progHdrSize
      omega
    · have hle := h.stop_le_addr_after hp hxa
      rw [ProgLine.stop, hlen] at hle
      omega

/-- Statements are rewritten by jumps to a number only.

**Proof sketch.** By cases on what the statement does to the program (`Stands.change`). An element
of an array is outside the lines, an inserted line stands as it was typed, and a rewritten jump is
excluded. -/
theorem carries_unrewritten : Carries (fun s a => ¬ JumpsByNumber s a) Unrewritten where
  congr _ _ hsame hu := hu.same hsame
  step := by
    intro s p a ts o s' hrep hs htame hnot hif hint hu
    cases hs.change hrep htame hif hint with
    | same h => exact hu.same h
    | element b w hlines h =>
      have hcopy : Unrewritten (s.memcpy b (bytes16 w)) := by
        refine hu.congr rfl fun l hl i hi _ => ?_
        rcases hlines l hl with hd | hd
        · exact Ram.memcpy_of_le (by rw [length_bytes16]; unfold progStmt; omega)
        · exact Ram.memcpy_of_lt (by omega)
      exact hcopy.same h
    | insert w rest hk hw hstream h =>
      subst h
      intro l hl
      change l ∈ s.inserted ++ [_] at hl
      rw [List.mem_append, List.mem_singleton] at hl
      rcases hl with hl | rfl
      · obtain ⟨hstart, hholds⟩ := hu l hl
        exact ⟨hstart, hholds.congr fun i hi => hrep.link_stmt hl hi _ _⟩
      · exact ⟨hrep.start_le_end, linkRam_stmt⟩
    | new h =>
      subst h
      intro l hl
      exact absurd hl List.not_mem_nil
    | alloc size hk h =>
      have halloc : Unrewritten (programAlloc s size).2 := by
        refine hu.congr rfl fun l hl i hi _ => ?_
        have := hrep.inserted_le hl
        exact Ram.memcpy_of_lt (by omega)
      exact halloc.same h
    | jump hk => exact absurd hk hnot

end

end Z80OS.Basic
