import Z80OS.Basic.Editing
import Z80OS.Basic.Effects
import Z80OS.Basic.Invariants

set_option relaxedAutoImplicit false
set_option autoImplicit false

/-!
# Lines that are stored

A line that the user types is tokenized into the buffer for direct statements. When its first token
is a number, the tokens behind the number are copied behind the end of the program. How many bytes
are copied is counted by a second walk over the tokens, in a byte.

## Main definitions

* `Z80OS.Basic.Anchored` — where the program ends, and where its last line begins.
* `Z80OS.Basic.StoresLine` — what has to be in memory after a line has been stored.

## Main results

* `Z80OS.Basic.anchored_of_session` — the pointers are where they should be in every session.
* `Z80OS.Basic.line_stored` — a line that is typed is stored byte for byte.
-/

namespace Z80OS.Basic

section

variable [Target] {s s' : State} {a : ℕ}

/-! ## The pointers of the program -/

/-- The program ends behind the start of its region, and the line that has been inserted last is in
front of its end. -/
structure Anchored (s : State) : Prop where
  start_le : Target.programStart ≤ s.programEndPtr
  last : s.programLastInsertedLine = null ∨ Target.programStart ≤ s.programLastInsertedLine ∧
    s.programLastInsertedLine + progHdrSize ≤ s.programEndPtr

namespace Anchored

/-- The condition depends on the end of the program and on the line that was inserted last. -/
theorem congr (h : Anchored s) (hend : s'.programEndPtr = s.programEndPtr)
    (hlast : s'.programLastInsertedLine = s.programLastInsertedLine) : Anchored s' :=
  ⟨hend ▸ h.start_le, by rw [hend, hlast]; exact h.last⟩

/-- A quiet step keeps the condition. -/
theorem quiet (h : Anchored s) (hq : Quiet s s') : Anchored s' :=
  h.congr hq.programEndPtr hq.programLastInsertedLine

/-- A step to another line keeps the condition. -/
theorem moves {targets : ℕ → Prop} (h : Anchored s) (hm : Moves s s' targets) : Anchored s' :=
  h.congr hm.programEndPtr hm.programLastInsertedLine

/-- A new line keeps the condition. -/
theorem link (h : Anchored s) (lineno : ℤ) (stmt : List UInt8) :
    Anchored (s.link lineno stmt) where
  start_le := by
    have := h.start_le
    show _ ≤ s.programEndPtr + stmt.length + progHdrSize
    omega
  last := .inr ⟨h.start_le, by
    show s.programEndPtr + progHdrSize ≤ s.programEndPtr + stmt.length + progHdrSize
    omega⟩

/-- An allocation keeps the condition. -/
theorem alloc (h : Anchored s) (size : ℕ) : Anchored (programAlloc s size).2 where
  start_le := by
    have := h.start_le
    show _ ≤ s.programEndPtr + 2 + size
    omega
  last := by
    refine h.last.imp id fun hl => ⟨hl.1, ?_⟩
    show s.programLastInsertedLine + progHdrSize ≤ s.programEndPtr + 2 + size
    omega

/-- A jump that is rewritten keeps the condition. -/
theorem transferRewrite {jump : UInt8} {o : Outcome} (h : Anchored s)
    (hjump : transferRewrite s a jump = .ok (o, s')) : Anchored s' := by
  obtain ⟨-, line, -, rfl⟩ := transferRewrite_eq_ok hjump
  exact h.congr rfl rfl

end Anchored

/-- Single statements keep the pointers of the program where they should be.

**Proof sketch.** By cases on the effect of the statement: quiet steps and transfers of control
leave the pointers alone, a rewritten jump writes behind them, `NEW` resets them, and an inserted
line or an array moves the end up. -/
theorem stable_anchored : Stable Anchored where
  still h hs := h.quiet hs.quiet
  mode _ h := h.congr rfl rfl
  buffer h _ := h.congr rfl rfl
  current h := h.congr rfl rfl
  enterLine h := h.congr rfl rfl
  simple := by
    intro s s' a o h hif hint
    cases effect_of_statementInterpret hif hint with
    | quiet hq => exact h.quiet hq
    | element _ _ hq => exact (h.quiet hq).congr rfl rfl
    | insert hk hins =>
      rcases programInsert_cases hk with ⟨-, hins'⟩ | ⟨stmt, -, hins'⟩
      · rw [hins] at hins'
        exact absurd hins' (by simp)
      · rw [hins, Except.ok.injEq, Prod.mk.injEq] at hins'
        exact hins'.2 ▸ h.link _ stmt
    | new _ => exact ⟨le_rfl, .inl rfl⟩
    | run _ => exact h.congr rfl rfl
    | stop _ hend =>
      unfold programEnd at hend
      split at hend
      · exact (Prod.mk.inj hend).2 ▸ h
      · exact (Prod.mk.inj hend).2 ▸ h.congr rfl rfl
    | goto _ hgoto =>
      rcases doGoto_eq_ok hgoto with ⟨e, -, rfl⟩ | ⟨-, hjump⟩
      · exact h
      · exact h.transferRewrite hjump
    | gosub _ hgosub =>
      rcases doGosub_eq_ok hgosub with ⟨e, -, rfl⟩ | ⟨-, s₁, hpush, hjump⟩
      · exact h
      · obtain ⟨-, rfl⟩ := programPushReturn_eq_ok hpush
        have hstack : Anchored (s.withStack (⟨s.programCurrentLine, null⟩ ::
            s.programReturnStack)) := h.congr rfl rfl
        exact hstack.transferRewrite hjump
    | jumpto _ hjump => exact h.moves (doJumpto_moves hjump).2
    | jumpsub _ hjump => exact h.moves (doJumpsub_moves hjump).2
    | «for» _ hfor => exact h.moves (doFor_moves hfor).2
    | next _ hnext => exact h.moves (doNext_moves hnext).2
    | «return» _ hret => exact h.moves (doReturn_moves hret).2
    | dim _ hdim =>
      rcases doDim_eq_ok hdim with ⟨e, -, rfl⟩ | ⟨-, size, hq⟩
      · exact h
      · exact (h.alloc size).quiet hq

/-- **The pointers of the program are where they should be in every session.** -/
theorem anchored_of_session {s₀ : State} {inputs : List Input} {es : List Error}
    (h : Run.exec basicRun (boot s₀) inputs = some (es, s)) : Anchored s :=
  stable_anchored.reached ⟨le_rfl, .inl rfl⟩ h

/-! ## Storing a line -/

/-- The tokens `out` of a line, which begin with a number, have been stored between the states `s`
and `s'`. -/
structure StoresLine (s : State) (out : List UInt8) (s' : State) : Prop where
  /-- The bytes behind the number are at the place of the statement. -/
  stmt : s'.ram.slice (progStmt s.programEndPtr) (out.length - numericSize) = out.drop numericSize
  lineno : progLineno s'.ram s.programEndPtr =
    toNumeric (word16 (out.getD 1 0) (out.getD 2 0))
  prev : progPrev s'.ram s.programEndPtr = s.programLastInsertedLine
  next : progNext s'.ram s.programEndPtr = null
  /-- The line that had been inserted last is followed by the new one. -/
  link : s.programLastInsertedLine ≠ null →
    progNext s'.ram s.programLastInsertedLine = s.programEndPtr
  /-- In front of the new line nothing else has changed. -/
  frame : ∀ b, Target.programStart ≤ b → b < s.programEndPtr →
    (s.programLastInsertedLine ≠ null →
      b ≠ s.programLastInsertedLine + 4 ∧ b ≠ s.programLastInsertedLine + 5) → s'.ram b = s.ram b
  last : s'.programLastInsertedLine = s.programEndPtr
  stop : s'.programEndPtr = s.programEndPtr + progHdrSize + (out.length - numericSize)

omit [Target] in
/-- The tokens of a line that begins with a number. -/
theorem exists_numeric_line {out : List UInt8} {ts : List Token} (hout : out = stored ts)
    (hnum : out.head? = some tokNumeric) : ∃ w rest, ts = .numeric w :: rest := by
  subst hout
  cases ts with
  | nil => exact absurd hnum (by decide)
  | cons t ts =>
    cases t with
    | numeric w => exact ⟨w, ts, rfl⟩
    | _ => exact absurd (Option.some.inj hnum) (by decide)

/-- What linking a line behind the last one does.

**Proof sketch.** The header holds the number and the two links (`linkRam_header`), the statement
stands behind it (`linkRam_stmt`), the line in front is linked to it (`linkRam_link`), and below the
end nothing else is written (`linkRam_of_lt`). -/
theorem Anchored.storesLine (h : Anchored s) {w : ℕ} {rest : List Token} (hw : w < 65536)
    (hend : s.programEndPtr < 65536) :
    StoresLine s (stored (.numeric w :: rest)) (s.link (toNumeric w) (stored rest)) := by
  have hpos := Target.statement_pos
  have hbuf := Target.statement_le
  have hram : (s.link (toNumeric w) (stored rest)).ram = linkRam s.ram s.programLastInsertedLine
      s.programEndPtr (toNumeric w) (stored rest) := rfl
  have hdrop : (stored (.numeric w :: rest)).drop numericSize = stored rest := rfl
  have hlen : (stored (.numeric w :: rest)).length - numericSize = (stored rest).length := by
    rw [← List.length_drop, hdrop]
  have hlast : s.programLastInsertedLine < 65536 := by
    rcases h.last with hnull | ⟨-, hle⟩
    · rw [hnull]
      decide
    · omega
  obtain ⟨hno, hprev, hnext⟩ := lineHeader_spec (linkRam_header s.ram s.programLastInsertedLine
    s.programEndPtr (toNumeric w) (stored rest)) hw hlast
  refine ⟨?_, ?_, ?_, ?_, ?_, ?_, rfl, ?_⟩
  · rw [hlen, hdrop, hram]
    exact linkRam_stmt.slice
  · rw [hram, hno]
    show toNumeric w = toNumeric (word16 (UInt8.ofNat w) (UInt8.ofNat (w / 256)))
    rw [word16_ofNat, Nat.mod_eq_of_lt hw]
  · rw [hram, hprev]
  · rw [hram, hnext]
  · intro hne
    rcases h.last with hnull | ⟨-, hle⟩
    · exact absurd hnull hne
    · exact linkRam_link s.ram (toNumeric w) (stored rest) hne hle hend
  · intro b _ hlt hb
    rw [hram]
    apply linkRam_of_lt hlt
    by_cases hnull : s.programLastInsertedLine = null
    · exact .inl hnull
    · have := hb hnull
      exact .inr (by omega)
  · rw [hlen]
    show s.programEndPtr + (stored rest).length + progHdrSize = _
    omega

/-- A line that begins with a number is linked behind the last line.

**Proof sketch.** The tokens are a number and the rest of the line (`exists_of_statementTokenize`).
They are copied to the buffer, which lies in front of the program, so that the insertion links the
rest unchanged (`programInsert_eq`). -/
theorem processLine_number (h : Anchored s) {text out : List UInt8} (htext : 0 ∉ text)
    (htok : statementTokenize text = some (.noerror, out)) (hnum : out.head? = some tokNumeric) :
    ∃ w rest, out = stored (.numeric w :: rest) ∧ Stream (.numeric w :: rest) ∧
      (stored rest).length + 3 = out.length ∧ out.length ≤ 256 ∧
      processLine s text = .ok (.noerror,
        (s.memcpy Target.statement out).link (toNumeric w) (stored rest)) := by
  obtain ⟨ts, hout, hs, -, hlen⟩ := exists_of_statementTokenize htext htok
  obtain ⟨w, rest, rfl⟩ := exists_numeric_line hout hnum
  have hsum : (stored rest).length + 3 = out.length := by
    rw [hout, stored_cons, List.length_append]
    simp only [Token.bytes, List.length_cons, length_bytes16]
    omega
  have hstart := h.start_le
  have hbuf := Target.statement_le
  rw [← hout] at hlen
  unfold statementSizeMax at hlen hbuf
  set s₁ := s.memcpy Target.statement out with hs₁
  have hholds : s₁.ram.Holds Target.statement (stored (.numeric w :: rest)) := by
    rw [← hout]
    exact Ram.holds_memcpy _ _ _
  have hanch₁ : Anchored s₁ := h.congr rfl rfl
  -- the buffer is in front of the program
  have hinsert : programInsert s₁ Target.statement =
      .ok (.noerror, s₁.link (toNumeric w) (stored rest)) := by
    refine programInsert_eq hs hholds (by omega) ?_ ?_
    · rw [← hout]
      show _ ≤ s.programEndPtr
      omega
    · rw [← hout]
      rcases hanch₁.last with hnull | ⟨hge, -⟩
      · exact .inl hnull
      · exact .inr (.inl (by omega))
  have hkind : s₁.ram Target.statement = tokNumeric := by
    rw [stored_cons] at hholds
    exact hholds.1
  have hint : interpret s₁ Target.statement =
      .ok (.done .noerror, s₁.link (toNumeric w) (stored rest)) := by
    show statementInterpret (65535 + 1) s₁ Target.statement = _
    rw [statementInterpret, if_pos hkind, hinsert]
    rfl
  refine ⟨w, rest, hout, hs, hsum, hlen, ?_⟩
  simp only [processLine, htok, ne_eq, not_true_eq_false, if_false]
  rw [← hs₁, hint]
  rfl

/-- **A line that is typed is stored byte for byte.** In every state that a session reaches, take a
line that begins with a number and that the tokenizer accepts, and whose header and tokens fit
between the end of the program and the end of memory. The walk over the tokens in the buffer counts
exactly the bytes behind the number, which are less than 256, and the line is stored with an exact
copy of them, linked behind the last line; the end of the program moves by the header and these
bytes.

**Proof sketch.** The accepted text is a stream of valid tokens, of which the first is a number of
three bytes, so that at most 253 bytes are left. The walk passes each token by as many bytes as it
has. The buffer lies in front of the region of the program, and the last line in front of its end,
so that neither the link nor the header changes the bytes that are copied. -/
theorem line_stored (s₀ : State) (inputs : List Input) (es : List Error) (s : State)
    (hrun : Run.exec basicRun (boot s₀) inputs = some (es, s)) (text out : List UInt8)
    (htext : 0 ∉ text) (htok : statementTokenize text = some (.noerror, out))
    (hnum : out.head? = some tokNumeric)
    (hfits : s.programEndPtr + progHdrSize + (out.length - numericSize) ≤ Target.programMax) :
    statementSize (s.memcpy Target.statement out).ram (Target.statement + numericSize) =
        some (out.length - numericSize) ∧
      out.length - numericSize < 256 ∧
      ∃ s', processLine s text = .ok (.noerror, s') ∧ StoresLine s out s' := by
  have hanch := anchored_of_session hrun
  have hmax := Target.max_le
  have hend : s.programEndPtr < 65536 := by
    unfold ramSize at hmax
    unfold progHdrSize at hfits
    omega
  obtain ⟨w, rest, hout, hs, hsum, hlen, hline⟩ := processLine_number hanch htext htok hnum
  have hrest : out.length - numericSize = (stored rest).length := by
    unfold numericSize
    omega
  have hanch₁ : Anchored (s.memcpy Target.statement out) := hanch.congr rfl rfl
  have hstart := hanch.start_le
  have hbuf := Target.statement_le
  unfold statementSizeMax at hbuf
  refine ⟨?_, by omega, _, hline, ?_⟩
  · have hholds := Ram.holds_memcpy s.ram Target.statement out
    have hstream := hout ▸ hholds
    rw [stored_cons, Ram.holds_append, ← stored_cons, ← hout] at hstream
    rw [hrest]
    exact statementSize_eq hs.2.2 hstream.2 (by omega)
  · have hstores := @Anchored.storesLine _ _ hanch₁ _ rest hs.1 hend
    rw [← hout] at hstores
    refine ⟨hstores.stmt, hstores.lineno, hstores.prev, hstores.next, hstores.link,
      ?_, hstores.last,
      hstores.stop⟩
    intro b hge hlt hb
    rw [hstores.frame b hge hlt hb]
    exact Ram.memcpy_of_le (by omega)

end

/-- Two lines, of which the second one has bytes that are zero inside of its tokens. -/
theorem line_stored_second :
    letI := Target.small
    ∃ s', processLine (sessionEnd [.line (ascii ['1', '0', ' ', 'X', '=', '5'])])
        (ascii ['2', '0', ' ', 'P', 'R', 'I', 'N', 'T', ' ', 'A', '-', '2', '5', '6']) =
          .ok (.noerror, s') ∧
      StoresLine (sessionEnd [.line (ascii ['1', '0', ' ', 'X', '=', '5'])])
        (numericToken 20 ++ [tokKeyword, keywordPrint, tokRegister, 0, tokOperator, opMinus] ++
          numericToken 256 ++ [tokTerminator]) s' := by
  let _ := Target.small
  have hsome : (Run.exec basicRun (boot State.zeroed)
      [.line (ascii ['1', '0', ' ', 'X', '=', '5'])]).isSome = true := by decide +kernel
  obtain ⟨⟨es, s⟩, hrun⟩ := Option.isSome_iff_exists.1 hsome
  have hs : sessionEnd [.line (ascii ['1', '0', ' ', 'X', '=', '5'])] = s := by
    rw [sessionEnd, hrun]
    rfl
  have hfits : (sessionEnd [.line (ascii ['1', '0', ' ', 'X', '=', '5'])]).programEndPtr + 6 + 10 ≤
      0xf000 := by decide +kernel
  rw [hs] at hfits ⊢
  exact (line_stored State.zeroed _ es s hrun
    (ascii ['2', '0', ' ', 'P', 'R', 'I', 'N', 'T', ' ', 'A', '-', '2', '5', '6'])
    (numericToken 20 ++ [tokKeyword, keywordPrint, tokRegister, 0, tokOperator, opMinus] ++
      numericToken 256 ++ [tokTerminator])
    (by decide) (by decide +kernel) (by decide) hfits).2.2

end Z80OS.Basic
