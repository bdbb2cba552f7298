import Z80OS.Basic.Tame
import Z80OS.Basic.Variables

set_option relaxedAutoImplicit false
set_option autoImplicit false

/-!
# Tame statements keep the program

A statement is interpreted where its tokens stand. When the program runs, this is in the current
line, and the next line and the lines on the return stack are lines of the program. This file proves
that a tame statement keeps all this.

## Main definitions

* `Z80OS.Basic.Control` — the flow of control stays in a program.
* `Z80OS.Basic.Evolves` — the lines of a program are lines of another one, up to rewritten jumps.
* `Z80OS.Basic.Stands` — a statement stands where it can be interpreted.
* `Z80OS.Basic.Flows` — what is known after the interpretation of a statement.

## Main results

* `Z80OS.Basic.Stands.flows` — a tame statement other than `IF` keeps the program and the flow of
  control.
-/

namespace Z80OS.Basic

/-- Every line of the first program is a line of the second one, up to rewritten jumps. -/
def Evolves (p p' : List ProgLine) : Prop :=
  ∀ l ∈ p, ∃ l' ∈ p', l'.addr = l.addr ∧ Rewritten (fun _ _ => True) l.stmt l'.stmt

/-- A program has evolved from itself. -/
theorem Evolves.refl (p : List ProgLine) : Evolves p p :=
  fun l hl => ⟨l, hl, rfl, .refl _⟩

/-- A program with more lines behind has evolved. -/
theorem Evolves.append (p new : List ProgLine) : Evolves p (p ++ new) :=
  fun l hl => ⟨l, List.mem_append_left _ hl, rfl, .refl _⟩

/-- A program with a line that has been rewritten has evolved. -/
theorem Evolves.replace {before after : List ProgLine} {l l' : ProgLine} (haddr : l'.addr = l.addr)
    (h : Rewritten (fun _ _ => True) l.stmt l'.stmt) :
    Evolves (before ++ l :: after) (before ++ l' :: after) := by
  intro x hx
  simp only [List.mem_append, List.mem_cons] at hx
  rcases hx with hx | rfl | hx
  · exact ⟨x, by simp [hx], rfl, .refl _⟩
  · exact ⟨l', by simp, haddr, h⟩
  · exact ⟨x, by simp [hx], rfl, .refl _⟩

/-- The next line and the lines on the return stack are lines of a program. -/
structure Control (s : State) (p : List ProgLine) : Prop where
  next : s.programNextLine = null ∨ ∃ l ∈ p, l.addr = s.programNextLine
  stack : ∀ e ∈ s.programReturnStack, ∃ l ∈ p, l.addr = e.line

/-- The flow of control stays in a program that has evolved. -/
theorem Control.evolves {s s' : State} {p p' : List ProgLine} (h : Control s p)
    (hp : Evolves p p') (hnext : s'.programNextLine = s.programNextLine)
    (hstack : s'.programReturnStack = s.programReturnStack) : Control s' p' where
  next := by
    rw [hnext]
    refine h.next.imp_right ?_
    rintro ⟨l, hl, he⟩
    obtain ⟨l', hl', haddr, -⟩ := hp l hl
    exact ⟨l', hl', haddr.trans he⟩
  stack e he := by
    rw [hstack] at he
    obtain ⟨l, hl, he⟩ := h.stack e he
    obtain ⟨l', hl', haddr, -⟩ := hp l hl
    exact ⟨l', hl', haddr.trans he⟩

/-- Control stays in the program when all targets of a statement are in it. -/
theorem Control.of_moves {s s' : State} {p : List ProgLine} {targets : ℕ → Prop}
    (h : Control s p) (hcur : ∃ l ∈ p, l.addr = s.programCurrentLine) (hm : Moves s s' targets)
    (ht : ∀ b, targets b → b = null ∨ ∃ l ∈ p, l.addr = b) : Control s' p where
  next := by
    cases hm.next with
    | inl he => exact he ▸ h.next
    | inr htarget => exact ht _ htarget
  stack e he := by
    cases hm.stack e he with
    | inl he => exact h.stack e he
    | inr hl => exact hl ▸ hcur

section

variable [Target] {s s' : State} {p p' : List ProgLine} {a : ℕ} {ts : List Token} {o : Outcome}

/-! ## Statements in changed programs -/

/-- The buffer for direct statements, and what is in front of it, is the same. -/
def BufferKept (m m' : Ram) : Prop := ∀ b < Target.statement + statementSizeMax, m' b = m b

/-- A statement that leads to `RUN` stands at an address. -/
def RunAt (s : State) (p : List ProgLine) (a : ℕ) : Prop :=
  ∃ ts, TokensAt s p a ts ∧ LeadsToRun ts

/-- The tokens of a statement are the same in the same memory. -/
theorem TokensAt.congr (h : TokensAt s p a ts) (hram : s'.ram = s.ram) : TokensAt s' p a ts :=
  ⟨h.stream, hram ▸ h.holds, h.place⟩

/-- A statement leads to `RUN` in the same memory. -/
theorem RunAt.congr (h : RunAt s p a) (hram : s'.ram = s.ram) : RunAt s' p a := by
  obtain ⟨ts, hat, hrun⟩ := h
  exact ⟨ts, hat.congr hram, hrun⟩

/-- The tokens that end a line stand behind the ones in front of them. -/
theorem Represents.tokensAt (h : Represents s p) {before after : List ProgLine} {l : ProgLine}
    (hline : InLine p before l after a ts) : TokensAt s p a ts := by
  obtain ⟨pre, hl, ha⟩ := hline.tokens
  have hat := h.lines _ _ _ hline.program
  refine ⟨(hl ▸ hat.stream).append, ?_, .inl ⟨before, l, after, hline⟩⟩
  have hholds := hat.stmt
  rw [hl, stored_append, Ram.holds_append, ← ha] at hholds
  exact hholds.2

/-- A statement that leads to `RUN` does so in a program that has evolved. -/
theorem RunAt.evolves (h : RunAt s p a) (hrep : Represents s' p') (hp : Evolves p p')
    (hbuf : BufferKept s.ram s'.ram) : RunAt s' p' a := by
  obtain ⟨ts, hat, hrun⟩ := h
  rcases hat.place with ⟨before, l, after, hline⟩ | hbuffer
  · obtain ⟨pre, hl, ha⟩ := hline.tokens
    obtain ⟨l', hl', haddr, hr⟩ := hp l (by rw [hline.program]; simp)
    obtain ⟨kw, rest, hts, -⟩ := hrun.exists_keyword
    rw [hl, hts] at hr
    obtain ⟨pre', t', post', hstmt, hlen, hr'⟩ := hr.split (by simp)
    obtain ⟨before', after', hp'⟩ := List.append_of_mem hl'
    refine ⟨t' :: post', hrep.tokensAt ⟨hp', pre', hstmt, ?_⟩, ?_⟩
    · rw [ha, haddr, hlen]
    · exact hrun.rewritten (hts ▸ hr')
  · refine ⟨ts, ⟨hat.stream, hat.holds.congr fun i hi => hbuf _ (by omega), .inr hbuffer⟩, hrun⟩

/-! ## What is known before and after a statement -/

/-- The tokens of a statement stand where it can be interpreted. When the program runs, they are in
the current line. Otherwise they are in the buffer, or they lead to `RUN`. -/
structure Stands (s : State) (p : List ProgLine) (a : ℕ) (ts : List Token) : Prop where
  tokens : TokensAt s p a ts
  running : s.mode ≠ .ready → Control s p ∧
    ∃ before l after, InLine p before l after a ts ∧ l.addr = s.programCurrentLine
  ready : s.mode = .ready →
    Target.statement ≤ a ∧ a + (stored ts).length ≤ Target.statement + statementSizeMax ∨
      LeadsToRun ts

/-- Nothing has changed but variables, the output, the return stack and the next line, which stays
in the program. -/
structure Kept (s : State) (p : List ProgLine) (s' : State) : Prop where
  represents : Represents s' p
  ram : s'.ram = s.ram
  mode : s'.mode = s.mode
  current : s'.programCurrentLine = s.programCurrentLine
  control : s.mode ≠ .ready → Control s' p

/-- What is known after the interpretation of a statement. -/
inductive Flows (s : State) (p : List ProgLine) : Outcome → State → Prop
  | failed {e : Error} {s' : State} (he : e ≠ .noerror) (kept : Kept s p s') :
      Flows s p (.done e) s'
  | done {s' : State} {p' : List ProgLine} (hrep : Represents s' p')
      (goes : s'.mode ≠ .ready → s'.mode = s.mode ∧ Control s' p' ∧ Evolves p p' ∧
        BufferKept s.ram s'.ram) : Flows s p (.done .noerror) s'
  | run {s' : State} {again : List ℕ} (hrep : Represents s' p) (ram : s'.ram = s.ram)
      (mode : s'.mode = .running (s.mode ≠ .ready) again) (control : Control s' p)
      (next : s'.programNextLine ≠ null) (hagain : ∀ b ∈ again, RunAt s' p b) : Flows s p .run s'

/-- Two steps that keep the program. -/
theorem Kept.trans {s₁ : State} (h : Kept s p s₁) (h' : Kept s₁ p s') : Kept s p s' :=
  ⟨h'.represents, h'.ram.trans h.ram, h'.mode.trans h.mode, h'.current.trans h.current,
    fun hmode => h'.control (h.mode ▸ hmode)⟩

/-- What is known after a statement does not depend on more than memory, the mode and the current
line. -/
theorem Flows.congr {s₁ : State} (h : Flows s₁ p o s') (hram : s₁.ram = s.ram)
    (hmode : s₁.mode = s.mode) (hcur : s₁.programCurrentLine = s.programCurrentLine) :
    Flows s p o s' := by
  cases h with
  | failed he kept =>
    exact .failed he ⟨kept.represents, kept.ram.trans hram, kept.mode.trans hmode,
      kept.current.trans hcur, hmode ▸ kept.control⟩
  | done hrep goes => exact .done hrep (hram ▸ hmode ▸ goes)
  | run hrep ram mode control next hagain =>
    exact .run hrep (ram.trans hram) (hmode ▸ mode) control next hagain

/-- What is known after a statement is known after all of its predecessors that change nothing. -/
theorem Flows.of_kept {s₁ : State} (hk : Kept s p s₁) (h : Flows s₁ p o s') : Flows s p o s' :=
  h.congr hk.ram hk.mode hk.current

/-- A statement that moves the flow of control to a line of the program. -/
theorem Flows.of_moves {targets : ℕ → Prop} (e : Error) (h : Represents s p)
    (hrun : s.mode ≠ .ready → Control s p ∧ (∃ l ∈ p, l.addr = s.programCurrentLine) ∧
      ∀ b, targets b → b = null ∨ ∃ l ∈ p, l.addr = b)
    (hm : Moves s s' targets) : Flows s p (.done e) s' := by
  have hrep : Represents s' p :=
    h.same hm.inserted hm.programLastInsertedLine hm.programEndPtr hm.ram
  have hcontrol : s.mode ≠ .ready → Control s' p := by
    intro hmode
    obtain ⟨hc, hcur, ht⟩ := hrun hmode
    exact hc.of_moves hcur hm ht
  by_cases he : e = .noerror
  · subst he
    apply Flows.done hrep
    intro hmode
    rw [hm.mode] at hmode
    exact ⟨hm.mode, hcontrol hmode, Evolves.refl p, fun b _ => congrFun hm.ram b⟩
  · exact .failed he ⟨hrep, hm.ram, hm.mode, hm.programCurrentLine, hcontrol⟩

/-- A statement that leaves memory and the flow of control as they are. -/
theorem Stands.flows_quiet (hs : Stands s p a ts) (e : Error) (h : Represents s p)
    (hq : Quiet s s') : Flows s p (.done e) s' := by
  have hmoves : Moves s s' fun _ => False := Moves.of_quiet hq
  apply Flows.of_moves e h _ hmoves
  intro hmode
  obtain ⟨hc, before, l, after, hline, hcur⟩ := hs.running hmode
  exact ⟨hc, ⟨l, by rw [hline.program]; simp, hcur⟩, fun _ hf => hf.elim⟩

/-! ## Lines that are inserted -/

omit [Target] in
/-- The tokens that end a line end where it does. -/
theorem InLine.stop_eq {before after : List ProgLine} {l : ProgLine}
    (h : InLine p before l after a ts) : l.addr + progHdrSize ≤ a ∧
      a + (stored ts).length = l.stop := by
  obtain ⟨pre, hl, ha⟩ := h.tokens
  simp only [ProgLine.stop, hl, ha, stored_append, List.length_append, progStmt]
  omega

/-- A statement that begins with a number is inserted as a line.

**Proof sketch.** The statement is a line of the program or in the buffer in front of it. In both
places its bytes end before the end of the program, and the link of the last line is none of them,
so that the line is copied as it is (`programInsert_eq`) and the program goes on with it
(`Represents.link`). -/
theorem Represents.insert {e : Error} (h : Represents s p) (hat : TokensAt s p a ts)
    (hk : s.ram a = tokNumeric) (hins : programInsert s a = .ok (e, s'))
    (hle : s'.programEndPtr ≤ ramSize) :
    e = .noerror ∧ ∃ w rest, ts = .numeric w :: rest ∧ s' = s.link (toNumeric w) (stored rest) ∧
      Represents s' (p ++ [⟨s.programEndPtr, toNumeric w, rest, rest⟩]) := by
  obtain ⟨w, rest, rfl⟩ := numeric_of_holds hat.holds hk
  have hs := hat.stream
  have hlen : (stored (.numeric w :: rest)).length = (stored rest).length + 3 := by
    rw [stored_cons, List.length_append]
    simp only [Token.bytes, List.length_cons, length_bytes16]
    omega
  have hstart := h.start_le_end
  have hbuf := Target.statement_le
  -- the line is read in front of the end of the program, and not from the link of the last line
  have hplace : (stored rest).length < 256 ∧
      a + (stored (.numeric w :: rest)).length ≤ s.programEndPtr ∧
        (s.programLastInsertedLine = null ∨
          a + (stored (.numeric w :: rest)).length ≤ s.programLastInsertedLine + 4 ∨
            s.programLastInsertedLine + 6 ≤ a) := by
    rcases hat.place with ⟨before, l, after, hline⟩ | ⟨hge, hle⟩
    · obtain ⟨hge, hstop⟩ := hline.stop_eq
      have hmem : l ∈ p := by rw [hline.program]; simp
      have hshort := h.short l hmem
      have hend := h.stop_le l hmem
      unfold progHdrSize at hge hshort
      refine ⟨by omega, by omega, .inr ?_⟩
      rw [h.last]
      cases hlast : after.getLast? with
      | none =>
        rw [List.getLast?_eq_none_iff] at hlast
        subst hlast
        rw [hline.program, List.getLast?_append, List.getLast?_singleton, Option.some_or,
          addrOf_some]
        exact .inr hge
      | some x =>
        have hx := h.stop_le_addr_after hline.program (List.mem_of_getLast? hlast)
        rw [hline.program, List.getLast?_append, List.getLast?_cons, hlast, Option.getD_some,
          Option.some_or, addrOf_some]
        exact .inl (by omega)
    · unfold statementSizeMax at hle hbuf
      refine ⟨by omega, by omega, ?_⟩
      rw [h.last]
      cases hlast : p.getLast? with
      | none => exact .inl rfl
      | some x =>
        have hx := h.start_le x (List.mem_of_getLast? hlast)
        exact .inr (.inl (by rw [addrOf_some]; omega))
  obtain ⟨hshort, hend, hlast⟩ := hplace
  rw [programInsert_eq hs hat.holds hshort hend hlast, Except.ok.injEq, Prod.mk.injEq] at hins
  obtain ⟨rfl, rfl⟩ := hins
  exact ⟨rfl, w, rest, rfl, rfl, h.link hs.1 hs.2.2 hshort hle⟩

/-- Linking a line keeps the buffer. -/
theorem Represents.link_buffer (h : Represents s p) (lineno : ℤ) (stmt : List UInt8) :
    BufferKept s.ram (s.link lineno stmt).ram := by
  intro b hb
  have hstart := h.start_le_end
  have hbuf := Target.statement_le
  apply h.link_ram lineno stmt (by omega)
  intro x hx
  have := h.start_le x (List.mem_of_getLast? hx)
  exact .inl (by omega)

/-- A line that is entered in the place of a statement. -/
theorem Stands.flows_insert {e : Error} (hs : Stands s p a ts) (h : Represents s p)
    (hk : s.ram a = tokNumeric) (hins : programInsert s a = .ok (e, s'))
    (hle : s'.programEndPtr ≤ ramSize) : Flows s p (.done e) s' := by
  obtain ⟨rfl, w, rest, -, rfl, hrep⟩ := h.insert hs.tokens hk hins hle
  apply Flows.done hrep
  intro hmode
  obtain ⟨hc, -⟩ := hs.running hmode
  exact ⟨rfl, hc.evolves (Evolves.append p _) rfl rfl, Evolves.append p _, h.link_buffer _ _⟩

/-! ## Arrays -/

/-- An element of an array that is set. -/
theorem Stands.flows_element {s₁ s₂ : State} {b next : ℕ} {n : ℤ} (hs : Stands s p a ts)
    (h : Represents s p) (htame : Tame s a) (ha : AssignAt s a)
    (hptr : assignPtr s a = .ok (.ok (.memory b, next), s₁)) (hq : Quiet s s₂) :
    Flows s p (.done .noerror) (s₂.memcpy b (bytes16 (ofNumeric n))) := by
  obtain ⟨hstart, hend, hlines⟩ := htame.element ha b next s₁ hptr
  have hrep₂ : Represents s₂ p :=
    h.same hq.inserted hq.programLastInsertedLine hq.programEndPtr hq.ram
  have hrep : Represents (s₂.memcpy b (bytes16 (ofNumeric n))) p := by
    apply hrep₂.memcpy
    intro l hl
    have hmem : l.line ∈ s.inserted := by
      rw [h.inserted]
      exact List.mem_map_of_mem hl
    obtain ⟨before, after, hp⟩ := List.append_of_mem hl
    have hlen := (h.lines _ _ _ hp).rewritten.length_stored
    have hd := hlines l.line hmem
    simp only [ProgLine.line] at hd
    rw [length_bytes16, ProgLine.stop, hlen]
    exact hd
  apply Flows.done hrep
  intro hmode
  have hmode' : s.mode ≠ .ready := hq.mode ▸ hmode
  obtain ⟨hc, -⟩ := hs.running hmode'
  refine ⟨hq.mode, hc.evolves (Evolves.refl p) hq.programNextLine hq.programReturnStack,
    Evolves.refl p, fun c hcb => ?_⟩
  have hbuf := Target.statement_le
  rw [← hq.ram]
  exact Ram.memcpy_of_lt (by omega)

/-- An array that is created. -/
theorem Stands.flows_dim (hs : Stands s p a ts) (h : Represents s p)
    (hdim : doDim s (a + kwSize) = .ok (o, s')) (hle : s'.programEndPtr ≤ ramSize) :
    Flows s p o s' := by
  rcases doDim_eq_ok hdim with ⟨e, rfl, rfl⟩ | ⟨rfl, size, hq⟩
  · exact hs.flows_quiet e h (Quiet.refl _)
  · have hle' : (programAlloc s size).2.programEndPtr ≤ ramSize := hq.programEndPtr ▸ hle
    apply Flows.done
      ((h.alloc hle').same hq.inserted hq.programLastInsertedLine hq.programEndPtr hq.ram)
    intro hmode
    have hmode' : s.mode ≠ .ready := fun he => hmode (hq.mode.trans he)
    obtain ⟨hc, -⟩ := hs.running hmode'
    refine ⟨hq.mode, hc.evolves (Evolves.refl p) hq.programNextLine hq.programReturnStack,
      Evolves.refl p, fun b hb => ?_⟩
    have hstart := h.start_le_end
    have hbuf := Target.statement_le
    rw [hq.ram]
    exact Ram.memcpy_of_lt (by omega)

/-! ## The beginning and the end of a run -/

/-- `NEW`, after which there is no program. -/
theorem flows_new (s : State) (p : List ProgLine) :
    Flows s p (.done .noerror) (programNew s) :=
  .done (represents_programNew s) fun hmode => absurd rfl hmode

/-- `RUN`, in front of the first line. -/
theorem flows_run (h : Represents s p) (htame : Tame s a) (hk : KeywordAt s a keywordRun) :
    Flows s p .run (programRunInit s) := by
  obtain ⟨x, hx, hstart⟩ := htame.run_first hk
  rw [h.inserted, List.head?_map, Option.map_eq_some_iff] at hx
  obtain ⟨l, hl, rfl⟩ := hx
  have hmem : l ∈ p := List.mem_of_head? hl
  have hpos := h.addr_pos hmem
  have hcontrol : Control (programRunInit s) p := by
    refine ⟨.inr ⟨l, hmem, hstart⟩, ?_⟩
    intro e he
    exact absurd he List.not_mem_nil
  have hnext : (programRunInit s).programNextLine ≠ null := by
    show Target.programStart ≠ null
    exact hstart ▸ hpos.ne'
  have hagain : ∀ b ∈ ([] : List ℕ), RunAt (programRunInit s) p b := by
    intro b hb
    exact absurd hb List.not_mem_nil
  exact .run (h.same rfl rfl rfl rfl) rfl rfl hcontrol hnext hagain

/-- `END`. -/
theorem Stands.flows_end {e : Error} (hs : Stands s p a ts) (h : Represents s p)
    (hend : programEnd s .noerror = (e, s')) : Flows s p (.done e) s' := by
  unfold programEnd at hend
  split at hend
  · simp only [Prod.mk.injEq] at hend
    obtain ⟨rfl, rfl⟩ := hend
    exact hs.flows_quiet _ h (Quiet.refl _)
  · simp only [Prod.mk.injEq] at hend
    obtain ⟨rfl, rfl⟩ := hend
    exact .done (h.same rfl rfl rfl rfl) fun hmode => absurd rfl hmode

/-! ## Jumps -/

/-- The line that a search finds is `NULL` or a line of the program, and fits into a word. -/
theorem Represents.lookup_spec (h : Represents s p) {before after after' : List ProgLine}
    {l : ProgLine} (hp : p = before ++ l :: after) (hafter : after' <+: after) (n : ℤ) :
    (lookup before l after' n = null ∨ ∃ x ∈ p, x.addr = lookup before l after' n) ∧
      lookup before l after' n < 65536 := by
  have hmem : lookup before l after' n = null ∨ ∃ x ∈ p, x.addr = lookup before l after' n := by
    refine (lookup_mem before l after' n).imp_right ?_
    rintro ⟨x, hx, he⟩
    refine ⟨x, ?_, he.symm⟩
    rw [hp]
    simp only [List.mem_append, List.mem_cons] at hx ⊢
    exact hx.imp_right fun hx => hx.imp_right fun hx => hafter.subset hx
  refine ⟨hmem, ?_⟩
  rcases hmem with he | ⟨x, hx, he⟩
  · rw [he]
    decide
  · have := h.stop_le_ramSize hx
    have := x.addr_lt_stop
    unfold ramSize at *
    omega

/-- A jump to an address has been there from the beginning, or the search for the number that was in
its place has found the line with the address. -/
theorem Represents.jump_cases (h : Represents s p) {before after : List ProgLine} {l : ProgLine}
    {kw : UInt8} {rest : List Token} (hline : InLine p before l after a (.keyword kw :: rest)) :
    Typed s a kw ∨ ∃ kw₀ w ptr pre₀ post₀ post, IsJump kw₀ kw ∧
      l.typed = pre₀ ++ .keyword kw₀ :: .numeric w :: post₀ ∧
        a = progStmt l.addr + (encode pre₀).length ∧ rest = .numeric ptr :: post ∧
          Cached before l after (toNumeric w) ptr := by
  obtain ⟨pre, hl, ha⟩ := hline.tokens
  have hr := (h.lines _ _ _ hline.program).rewritten
  rw [hl] at hr
  obtain ⟨pre₀, post₀, hlen, hcase⟩ := hr.keyword_cases
  rcases hcase with ⟨htyped, -⟩ | ⟨kw₀, w, ptr, post, post₀', hj, htyped, rfl, hrest, hc, -⟩
  · refine .inl ⟨l.line, ?_, (encode pre₀).length, by rw [ha, hlen]; rfl, ?_, ?_⟩
    · rw [h.inserted, hline.program]
      simp
    · show (stored l.typed)[(encode pre₀).length]? = some tokKeyword
      rw [htyped, stored_append, stored_cons, List.getElem?_append_right le_rfl]
      simp [Token.bytes]
    · show (stored l.typed)[(encode pre₀).length + 1]? = some kw
      rw [htyped, stored_append, stored_cons, List.getElem?_append_right (by omega)]
      simp [Token.bytes]
  · exact .inr ⟨kw₀, w, ptr, pre₀, post₀', post, hj, htyped, by rw [ha, hlen], hrest, hc⟩

omit [Target] in
/-- The number of a numeric token in memory. -/
theorem word_of_holds {w : ℕ} {rest : List Token} (hs : Stream (.numeric w :: rest))
    (h : s.ram.Holds a (stored (.numeric w :: rest))) :
    s.ram a = tokNumeric ∧ s.ram.word (a + 1) = w := by
  rw [stored_cons, Ram.holds_append] at h
  simp only [Token.bytes, Ram.holds_cons] at h
  exact ⟨h.1.1, h.1.2.word.trans (Nat.mod_eq_of_lt hs.1)⟩

/-- A jump to an address that the interpreter has written leads to a line, or nowhere. -/
theorem Stands.jump_target (hs : Stands s p a ts) (h : Represents s p) {kw : UInt8}
    (hk : KeywordAt s a kw) (hres : ¬ Typed s a kw) (hmode : s.mode ≠ .ready) :
    s.ram.word (a + kwSize + 1) = null ∨ ∃ l ∈ p, l.addr = s.ram.word (a + kwSize + 1) := by
  obtain ⟨rest, rfl⟩ := keyword_of_holds hs.tokens.holds hk.1 hk.2
  obtain ⟨-, before, l, after, hline, -⟩ := hs.running hmode
  rcases h.jump_cases hline with ht | ⟨kw₀, w, ptr, -, -, post, -, -, -, rfl, hc⟩
  · exact absurd ht hres
  · have hword := (word_of_holds hs.tokens.stream.2.2 (holds_of_keyword hs.tokens.holds).2.2).2
    obtain ⟨after', hafter, he⟩ := hc
    rw [hword, ← he]
    exact (h.lookup_spec hline.program hafter _).1

/-- The line behind a line of the program is a line of the program, or there is none. -/
theorem Represents.progNext_mem (h : Represents s p) {b : ℕ} (hb : ∃ l ∈ p, l.addr = b) :
    progNext s.ram b = null ∨ ∃ l ∈ p, l.addr = progNext s.ram b := by
  obtain ⟨l, hl, rfl⟩ := hb
  obtain ⟨before, after, hp⟩ := List.append_of_mem hl
  rw [(h.lines _ _ _ hp).next]
  cases after with
  | nil => exact .inl rfl
  | cons x after => exact .inr ⟨x, by rw [hp]; simp, rfl⟩

/-- The current line is a line of the program. -/
theorem Stands.current_mem (hs : Stands s p a ts) (hmode : s.mode ≠ .ready) :
    ∃ l ∈ p, l.addr = s.programCurrentLine := by
  obtain ⟨-, before, l, after, hline, hcur⟩ := hs.running hmode
  exact ⟨l, by rw [hline.program]; simp, hcur⟩

/-- A statement that moves the flow of control. -/
theorem Stands.flows_moves {targets : ℕ → Prop} (hs : Stands s p a ts) (h : Represents s p)
    (hm : o ≠ .run ∧ Moves s s' targets)
    (ht : s.mode ≠ .ready → ∀ b, targets b → b = null ∨ ∃ l ∈ p, l.addr = b) :
    Flows s p o s' := by
  obtain ⟨ho, hm⟩ := hm
  cases o with
  | run => exact absurd rfl ho
  | done e =>
    apply Flows.of_moves e h _ hm
    intro hmode
    exact ⟨(hs.running hmode).1, hs.current_mem hmode, ht hmode⟩

/-! ## Loops -/

omit [Target] in
/-- The name of the variable of a `FOR` is not too long. -/
theorem length_variableGet_le {lim : ℤ × ℤ} (hs : Stream (.keyword keywordFor :: ts))
    (h : s.ram.Holds a (stored (.keyword keywordFor :: ts)))
    (hlim : forLimits s.ram (a + kwSize) = some lim) (hreg : s.ram (a + kwSize) ≠ tokRegister) :
    (variableGet s.ram (a + kwSize)).length ≤ varnameSize := by
  have hvar : s.ram (a + kwSize) = tokVariable := by
    by_contra hvar
    rw [forLimits, varToken, if_neg hvar, if_neg hreg] at hlim
    exact absurd hlim (by simp)
  have hrest := (holds_of_keyword h).2.2
  have hkind := kind_of_holds hrest
  rw [hvar] at hkind
  cases ts with
  | nil => exact absurd hkind (by decide)
  | cons t rest =>
    cases t with
    | var name =>
      rw [variableGet_of_holds hs.2.2 hrest]
      exact hs.2.2.1.le_four
    | _ => exact absurd hkind (by simp [Token.kind]; decide)

/-- A `FOR` leads to a line of the program, or to none. -/
theorem Stands.for_target (hs : Stands s p a ts) (h : Represents s p) (htame : Tame s a)
    (hk : KeywordAt s a keywordFor) (hmode : s.mode ≠ .ready) {b : ℕ}
    (hb : ForTarget s (a + kwSize) b) : b = null ∨ ∃ l ∈ p, l.addr = b := by
  rcases hb with ⟨top, htop, rfl⟩ | ⟨hnil, start, limit, e, s₁, val, hlim, hset, hval, hge⟩
  · exact h.progNext_mem ((hs.running hmode).1.stack top htop)
  · -- the loop would begin with its first value, which is below the limit
    obtain ⟨rest, rfl⟩ := keyword_of_holds hs.tokens.holds hk.1 hk.2
    obtain ⟨hlt, hroom⟩ := htame.for_begins hmode hk hnil start limit hlim
    have he : e = .noerror := programSetNumeric_noerror hset hroom
      fun hnew => length_variableGet_le hs.tokens.stream hs.tokens.holds hlim
        (ne_tokRegister_of_none hnew)
    subst he
    rw [forVal_programSetNumeric hset (forLimits_start_mem hlim)] at hval
    obtain rfl := Except.ok.inj hval
    exact absurd hge (by omega)

/-! ## Jumps to a number -/

/-- What a jump to a number leaves, when it is executed in a line of the program.

**Proof sketch.** The search gives a line of the program or `NULL` (`Represents.lookup_spec`), and
the program stands with the jump rewritten (`Represents.rewrite`). Control goes on at that line, and
only bytes of the program have changed. -/
theorem flows_transferRewrite {before after : List ProgLine} {l : ProgLine} {kw jump : UInt8}
    {w : ℕ} {rest : List Token} (h : Represents s p) (hc : Control s p)
    (hline : InLine p before l after a (.keyword kw :: .numeric w :: rest))
    (hcur : l.addr = s.programCurrentLine) (hkw : IsJump kw jump)
    (hjump : transferRewrite s (a + kwSize) jump = .ok (o, s')) : Flows s p o s' := by
  obtain ⟨rfl, line, hsearch, rfl⟩ := transferRewrite_eq_ok hjump
  obtain ⟨pre, hl, ha⟩ := hline.tokens
  have hat := h.tokensAt hline
  have hword := (word_of_holds hat.stream.2.2 (holds_of_keyword hat.holds).2.2).2
  rw [h.programSearchLineno_eq hline.program hcur.symm, Option.some.injEq] at hsearch
  have hnum : numericGet s.ram (a + kwSize) = toNumeric w := by
    rw [numericGet, Ram.numeric, hword]
  rw [hnum] at hsearch
  obtain ⟨hmem, hlt⟩ := h.lookup_spec hline.program List.prefix_rfl (toNumeric w)
  rw [hsearch] at hmem hlt
  have hrep := h.rewrite hline.program hl hkw hsearch.symm hlt ha
  have hevolves : Evolves p
      (before ++ { l with stmt := pre ++ .keyword jump :: .numeric line :: rest } :: after) := by
    rw [hline.program]
    refine Evolves.replace ?_ ?_
    · rfl
    · show Rewritten _ l.stmt (pre ++ .keyword jump :: .numeric line :: rest)
      rw [hl]
      exact (Rewritten.refl _).patch hkw trivial
  refine .done (hrep.same rfl rfl rfl rfl) fun _ => ⟨rfl, ?_, hevolves, ?_⟩
  · have hgo : Control (s.goTo line) p := ⟨hmem, hc.stack⟩
    exact hgo.evolves hevolves rfl rfl
  · intro b hb
    have hstart := h.start_le l (by rw [hline.program]; simp)
    have hbuf := Target.statement_le
    have hge := hline.stop_eq.1
    show ((s.ram.memcpy (a + kwSize - 1) [jump]).memcpy (a + kwSize + 1) (bytes16 line)) b = s.ram b
    rw [Ram.memcpy_of_lt (by omega), Ram.memcpy_of_lt (by unfold kwSize; omega)]

/-- What a jump to a number leaves, when it is a direct statement. -/
theorem flows_transferRewrite_direct {jump : UInt8} (h : Represents s p) (hmode : s.mode = .ready)
    (hle : a + kwSize + numericSize ≤ Target.statement + statementSizeMax)
    (hjump : transferRewrite s (a + kwSize) jump = .ok (o, s')) : Flows s p o s' := by
  obtain ⟨rfl, line, -, rfl⟩ := transferRewrite_eq_ok hjump
  unfold kwSize numericSize at hle
  have hgo : Represents (s.goTo line) p := h.same rfl rfl rfl rfl
  refine .done ((hgo.buffer ?_).buffer ?_) fun hm => absurd hmode hm
  · simp only [List.length_singleton, kwSize]
    omega
  · simp only [length_bytes16, kwSize]
    omega

/-- A jump to a number keeps the program. -/
theorem Stands.flows_jump {kw jump : UInt8} (hs : Stands s p a ts) (h : Represents s p)
    (hk : KeywordAt s a kw) (hkw : IsJump kw jump) (hnum : s.ram (a + kwSize) = tokNumeric)
    (hjump : transferRewrite s (a + kwSize) jump = .ok (o, s')) : Flows s p o s' := by
  obtain ⟨rest, rfl⟩ := keyword_of_holds hs.tokens.holds hk.1 hk.2
  have hrest := (holds_of_keyword hs.tokens.holds).2.2
  obtain ⟨w, rest, rfl⟩ := numeric_of_holds hrest hnum
  by_cases hmode : s.mode = .ready
  · rcases hs.ready hmode with ⟨-, hle⟩ | hrun
    · apply flows_transferRewrite_direct h hmode _ hjump
      simp only [stored_cons, Token.bytes, List.length_append, List.length_cons, length_bytes16,
        List.length_nil] at hle
      unfold kwSize numericSize
      omega
    · obtain ⟨kw', rest', he, hkw'⟩ := hrun.exists_keyword
      simp only [List.cons.injEq, Token.keyword.injEq] at he
      rcases hkw with ⟨rfl, -⟩ | ⟨rfl, -⟩ <;> rcases hkw' with rfl | rfl <;>
        exact absurd he.1 (by decide)
  · obtain ⟨hc, before, l, after, hline, hcur⟩ := hs.running hmode
    exact flows_transferRewrite h hc hline hcur hkw hjump

/-- An entry for the current line on the return stack. -/
theorem Stands.push (hs : Stands s p a ts) {e : ReturnEntry} (he : e.line = s.programCurrentLine) :
    Stands (s.withStack (e :: s.programReturnStack)) p a ts where
  tokens := hs.tokens.congr rfl
  running hmode := by
    obtain ⟨hc, before, l, after, hline, hcur⟩ := hs.running hmode
    refine ⟨⟨hc.next, fun x hx => ?_⟩, before, l, after, hline, hcur⟩
    cases List.mem_cons.1 hx with
    | inl hx => exact ⟨l, by rw [hline.program]; simp, by rw [hx, he, hcur]⟩
    | inr hx => exact hc.stack x hx
  ready := hs.ready

/-! ## All statements -/

/-- **Tame statements keep the program.** A tame statement other than `IF` that succeeds leaves a
program behind, with the flow of control in it when it still runs; one that fails leaves the program
as it is.

**Proof sketch.** By what the statement can do. Statements that evaluate, print and assign change
neither the program nor control. An insertion adds a line behind the last one, and an allocation
lies behind it. `NEXT`, `RETURN` and `FOR` go to lines of the return stack and the lines behind
them. A `GOTO` or `GOSUB` goes where the search finds a line, and is rewritten to a jump to an
address; and such a jump goes where the search has found a line before. -/
theorem Stands.flows (hs : Stands s p a ts) (h : Represents s p) (htame : Tame s a)
    (hif : ¬ IsIf s a) (hint : statementInterpret 1 s a = .ok (o, s')) : Flows s p o s' := by
  have hfits : s'.programEndPtr ≤ ramSize := (htame.fits o s' hint).trans Target.max_le
  cases effect_of_statementInterpret hif hint with
  | quiet hq => exact hs.flows_quiet _ h hq
  | element ha hptr hq => exact hs.flows_element h htame ha hptr hq
  | insert hk hins => exact hs.flows_insert h hk hins hfits
  | new _ => exact flows_new s p
  | run hk => exact flows_run h htame hk
  | stop _ hend => exact hs.flows_end h hend
  | goto hk hgoto =>
    rcases doGoto_eq_ok hgoto with ⟨e, rfl, rfl⟩ | ⟨hnum, hjump⟩
    · exact hs.flows_quiet e h (Quiet.refl _)
    · exact hs.flows_jump h hk (.inl ⟨rfl, rfl⟩) hnum hjump
  | gosub hk hgosub =>
    rcases doGosub_eq_ok hgosub with ⟨e, rfl, rfl⟩ | ⟨hnum, s₁, hpush, hjump⟩
    · exact hs.flows_quiet e h (Quiet.refl _)
    · obtain ⟨-, rfl⟩ := programPushReturn_eq_ok hpush
      have hrep : Represents
          (s.withStack (⟨s.programCurrentLine, null⟩ :: s.programReturnStack)) p :=
        h.same rfl rfl rfl rfl
      have hflows := (hs.push rfl).flows_jump hrep hk (.inr ⟨rfl, rfl⟩) hnum hjump
      exact hflows.congr rfl rfl rfl
  | jumpto hk hjump =>
    apply hs.flows_moves h (doJumpto_moves hjump)
    rintro hmode b ⟨-, rfl⟩
    exact hs.jump_target h hk (hk.2 ▸ htame.resolved hmode (.inl hk)) hmode
  | jumpsub hk hjump =>
    apply hs.flows_moves h (doJumpsub_moves hjump)
    rintro hmode b ⟨-, rfl⟩
    exact hs.jump_target h hk (hk.2 ▸ htame.resolved hmode (.inr hk)) hmode
  | «for» hk hfor =>
    apply hs.flows_moves h (doFor_moves hfor)
    intro hmode b hb
    exact hs.for_target h htame hk hmode hb
  | next _ hnext =>
    apply hs.flows_moves h (doNext_moves hnext)
    rintro hmode b ⟨top, htop, rfl⟩
    exact .inr ((hs.running hmode).1.stack top htop)
  | «return» _ hret =>
    apply hs.flows_moves h (doReturn_moves hret)
    rintro hmode b ⟨top, htop, rfl⟩
    exact h.progNext_mem ((hs.running hmode).1.stack top htop)
  | dim _ hdim => exact hs.flows_dim h hdim hfits

end

end Z80OS.Basic
