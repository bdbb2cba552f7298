import Z80OS.Basic.Program

set_option relaxedAutoImplicit false
set_option autoImplicit false

/-!
# Changes of the program

What inserting a line, rewriting a jump, allocating memory and `NEW` do to the program that memory
stands for.

## Main results

* `Z80OS.Basic.Represents.insert` — a line is inserted behind the last one.
* `Z80OS.Basic.Represents.replace` — a line is replaced by one in the same place.
* `Z80OS.Basic.Represents.rewrite` — a jump of a line is rewritten.
* `Z80OS.Basic.Represents.alloc`, `Z80OS.Basic.Represents.buffer`, `Z80OS.Basic.Represents.element`
  — what does not change the program.
* `Z80OS.Basic.represents_programNew` — `NEW` leaves no line.
-/

namespace Z80OS.Basic

/-- The bytes of a word in memory are read as the word. -/
theorem Ram.Holds.word {m : Ram} {a w : ℕ} (h : m.Holds a (bytes16 w)) : m.word a = w % 65536 := by
  simp only [bytes16, Ram.holds_cons] at h
  rw [Ram.word, h.1, h.2.1, word16_ofNat]

/-- Where a line begins and ends. -/
def ProgLine.span (l : ProgLine) : ℕ × ℕ := (l.addr, l.stop)

/-- What holds of the places of the lines holds of lines in the same places. -/
theorem forall_of_spans {p q : List ProgLine} {P : ℕ × ℕ → Prop}
    (h : p.map ProgLine.span = q.map ProgLine.span) (hp : ∀ l ∈ p, P l.span) :
    ∀ l ∈ q, P l.span := by
  intro l hl
  have hmem : l.span ∈ p.map ProgLine.span := h ▸ List.mem_map_of_mem hl
  obtain ⟨x, hx, he⟩ := List.mem_map.1 hmem
  exact he ▸ hp x hx

/-- What holds of the places of any two lines holds of lines in the same places. -/
theorem pairwise_of_spans {p q : List ProgLine} {R : ℕ × ℕ → ℕ × ℕ → Prop}
    (h : p.map ProgLine.span = q.map ProgLine.span) (hp : p.Pairwise fun l x => R l.span x.span) :
    q.Pairwise fun l x => R l.span x.span := by
  rw [← List.pairwise_map] at hp ⊢
  rwa [← h]

/-! ## Rewriting a jump -/

/-- Memory in which the keyword at an address has become the given jump, and the number behind it an
address. -/
def jumpRam (m : Ram) (a : ℕ) (jump : UInt8) (dest : ℕ) : Ram :=
  (m.memcpy (a + 1) [jump]).memcpy (a + 3) (bytes16 dest)

section Jump

variable {m : Ram} {a x dest : ℕ} {kw jump : UInt8} {w : ℕ} {pre post : List Token}
  {before after : List ProgLine} {l : ProgLine}

/-- The bytes outside of the jump are the same. -/
theorem jumpRam_of_outside {b : ℕ} (hb : b < a + 1 ∨ a + 5 ≤ b) :
    jumpRam m a jump dest b = m b := by
  unfold jumpRam
  cases hb with
  | inl hb => rw [Ram.memcpy_of_lt (by omega), Ram.memcpy_of_lt (by omega)]
  | inr hb => rw [Ram.memcpy_of_le (by simp; omega), Ram.memcpy_of_le (by simp; omega)]

/-- The jump is where the keyword was. -/
theorem jumpRam_keyword : jumpRam m a jump dest (a + 1) = jump := by
  rw [jumpRam, Ram.memcpy_of_lt (by omega)]
  exact Ram.memcpy_add (i := 0) (by simp)

/-- The mark of the number is the same. -/
theorem jumpRam_mark : jumpRam m a jump dest (a + 2) = m (a + 2) := by
  rw [jumpRam, Ram.memcpy_of_lt (by omega), Ram.memcpy_of_le (by simp)]

/-- Tokens in memory are the tokens with the new jump when the keyword among them is rewritten. -/
theorem holds_jumpRam (h : m.Holds x (stored (pre ++ .keyword kw :: .numeric w :: post)))
    (ha : a = x + (encode pre).length) :
    (jumpRam m a jump dest).Holds x (stored (pre ++ .keyword jump :: .numeric dest :: post)) := by
  rw [stored_append, stored_cons, stored_cons, Ram.holds_append, Ram.holds_append,
    Ram.holds_append, ← ha] at h ⊢
  obtain ⟨hpre, hkw, hnum, hpost⟩ := h
  refine ⟨?_, ?_, ?_, ?_⟩
  · exact hpre.congr fun i hi => jumpRam_of_outside (by omega)
  · simp only [Token.bytes, Ram.holds_cons] at hkw ⊢
    exact ⟨(jumpRam_of_outside (by omega)).trans hkw.1, jumpRam_keyword, trivial⟩
  · simp only [Token.bytes, Ram.holds_cons] at hnum ⊢
    exact ⟨jumpRam_mark.trans hnum.1, Ram.holds_memcpy _ (a + 3) (bytes16 dest)⟩
  · exact hpost.congr fun i _ => jumpRam_of_outside (.inr (by simp [Token.bytes]))

/-- A jump of a line lies in front of its end. -/
theorem ProgLine.jump_le_stop (l : ProgLine)
    (hl : l.stmt = pre ++ .keyword kw :: .numeric w :: post)
    (ha : a = progStmt l.addr + (encode pre).length) : a + 5 ≤ l.stop := by
  simp only [ProgLine.stop, hl, ha, stored, encode_append, encode_cons, Token.bytes,
    List.length_append, List.length_cons, length_bytes16, List.length_nil]
  omega

/-- A line with a rewritten jump ends where it did. -/
theorem ProgLine.stop_jump (l : ProgLine)
    (hl : l.stmt = pre ++ .keyword kw :: .numeric w :: post) :
    ProgLine.stop { l with stmt := pre ++ .keyword jump :: .numeric dest :: post } = l.stop := by
  simp [ProgLine.stop, hl, stored, Token.bytes]

/-- A line whose jump is rewritten is in memory with the new jump. -/
theorem LineAt.rewrite (h : LineAt m before l after)
    (hl : l.stmt = pre ++ .keyword kw :: .numeric w :: post) (hkw : IsJump kw jump)
    (hdest : dest = lookup before l after (toNumeric w)) (hlt : dest < 65536)
    (ha : a = progStmt l.addr + (encode pre).length) :
    LineAt (jumpRam m a jump dest) before
      { l with stmt := pre ++ .keyword jump :: .numeric dest :: post } after := by
  have hgt : l.addr + 6 ≤ a := by
    simp only [progStmt, progHdrSize] at ha
    omega
  have hw : ∀ d < 6, jumpRam m a jump dest (l.addr + d) = m (l.addr + d) :=
    fun d hd => jumpRam_of_outside (by omega)
  refine ⟨?_, ?_, ?_, ?_, ?_, ?_⟩
  · rw [← h.lineno, progLineno, progLineno, Ram.numeric, Ram.numeric,
      Ram.word_congr (jumpRam_of_outside (by omega)) (hw 1 (by omega))]
  · rw [← h.prev, progPrev, progPrev, Ram.word_congr (hw 2 (by omega)) (hw 3 (by omega))]
  · rw [← h.next, progNext, progNext, Ram.word_congr (hw 4 (by omega)) (hw 5 (by omega))]
  · exact holds_jumpRam (hl ▸ h.stmt) ha
  · exact (hl ▸ h.stream).patch hkw hlt
  · have hr : Rewritten (Cached before l after) l.typed
        (pre ++ .keyword kw :: .numeric w :: post) := hl ▸ h.rewritten
    exact (hr.patch hkw ⟨after, List.prefix_rfl, hdest.symm⟩).mono
      fun _ _ hc => hc.congr rfl rfl rfl

end Jump

/-! ## The program behind a change -/

section

variable [Target] {s : State} {p before after : List ProgLine} {l : ProgLine}

/-- `NEW` leaves no line. -/
theorem represents_programNew (s : State) : Represents (programNew s) [] where
  inserted := rfl
  lines before l after hp := absurd hp (by simp)
  last := rfl
  start_le l hl := absurd hl List.not_mem_nil
  spaced := List.Pairwise.nil
  stop_le l hl := absurd hl List.not_mem_nil
  short l hl := absurd hl List.not_mem_nil
  typed l hl := absurd hl List.not_mem_nil
  start_le_end := le_rfl
  end_le := Target.start_le.trans Target.max_le

namespace Represents

/-- A copy to a place behind the lines and allocations, which does not reach the program. -/
theorem alloc (h : Represents s p) {size : ℕ}
    (hle : (programAlloc s size).2.programEndPtr ≤ ramSize) :
    Represents (programAlloc s size).2 p := by
  have hend : s.programEndPtr ≤ (programAlloc s size).2.programEndPtr := by
    show s.programEndPtr ≤ s.programEndPtr + 2 + size
    omega
  apply h.frame (programAlloc s size).2 rfl rfl hend hle
  intro l hl a _ hstop
  have := h.stop_le l hl
  exact Ram.memcpy_of_lt (by omega)

/-- A copy to a place that belongs to no line. -/
theorem memcpy (h : Represents s p) {a : ℕ} {bs : List UInt8}
    (hd : ∀ l ∈ p, a + bs.length ≤ l.addr ∨ l.stop ≤ a) : Represents (s.memcpy a bs) p := by
  apply h.frame (s.memcpy a bs) rfl rfl le_rfl h.end_le
  intro l hl b hle hlt
  cases hd l hl with
  | inl hd => exact Ram.memcpy_of_le (by omega)
  | inr hd => exact Ram.memcpy_of_lt (by omega)

/-- A copy to the buffer for direct statements. -/
theorem buffer (h : Represents s p) {a : ℕ} {bs : List UInt8}
    (hle : a + bs.length ≤ Target.statement + statementSizeMax) : Represents (s.memcpy a bs) p := by
  apply h.memcpy
  intro l hl
  have h1 := h.start_le l hl
  have h2 := Target.statement_le
  exact .inl (by omega)

/-- A line may be replaced by one that has been inserted in the same way and is in the same place,
in memory that is the same outside of the line.

**Proof sketch.** The other lines keep their bytes, and the new line has the number and the place of
the old one (`ProgLine.key`, `ProgLine.span`). What is said of the lines by their places alone
carries over by `forall_of_spans` and `pairwise_of_spans`; a line in front of the new one or behind
it is read as before (`split_cases`, `LineAt.congr`). -/
theorem replace (h : Represents s p) (hp : p = before ++ l :: after) {l' : ProgLine} {m' : Ram}
    (hline : l'.line = l.line) (htyped : l'.typed = l.typed) (hstop : l'.stop = l.stop)
    (hout : ∀ b, b < l.addr ∨ l.stop ≤ b → m' b = s.ram b) (hl' : LineAt m' before l' after) :
    Represents (s.withRam m') (before ++ l' :: after) := by
  have hline' := hline
  simp only [ProgLine.line, Line.mk.injEq] at hline'
  obtain ⟨haddr, hlineno, -⟩ := hline'
  have hkey : l'.key = l.key := Prod.ext haddr hlineno
  have hspan : l'.span = l.span := Prod.ext haddr hstop
  have hmem : l ∈ p := by simp [hp]
  have hkeys : (before ++ l :: after).map ProgLine.key =
      (before ++ l' :: after).map ProgLine.key := by simp [hkey]
  have hspans : p.map ProgLine.span = (before ++ l' :: after).map ProgLine.span := by
    rw [hp]
    simp [hspan]
  refine ⟨?_, ?_, ?_, ?_, ?_, ?_, ?_, ?_, h.start_le_end, h.end_le⟩
  · show s.inserted = _
    rw [h.inserted, hp]
    simp [hline]
  · intro before' x after' hx
    -- the other lines have their bytes, and the lines around them have their numbers and places
    rcases split_cases hx with ⟨mid, rfl, rfl⟩ | ⟨rfl, rfl, rfl⟩ | ⟨mid, rfl, rfl⟩
    · have hx := h.lines before' x (mid ++ l :: after) (by simp [hp])
      have hle := h.stop_le_addr hp (List.mem_append_right before' (List.mem_cons_self (a := x)))
      apply (hx.congr ?_).congr_lines rfl (by simp [hkey])
      intro b _ hlt
      exact hout b (by omega)
    · exact hl'
    · have hx := h.lines (before ++ l :: mid) x after' (by simp [hp])
      have hle := h.stop_le_addr_after hp (List.mem_append_right mid (List.mem_cons_self (a := x)))
      apply (hx.congr ?_).congr_lines (by simp [hkey]) rfl
      intro b hb _
      exact hout b (by omega)
  · have hlast := congrArg List.getLast? hkeys
    rw [List.getLast?_map, List.getLast?_map] at hlast
    show s.programLastInsertedLine = _
    rw [h.last, hp, addrOf_eq, addrOf_eq, hlast]
  · exact forall_of_spans (P := fun i => Target.programStart ≤ i.1) hspans h.start_le
  · exact pairwise_of_spans (R := fun i j => i.2 ≤ j.1) hspans h.spaced
  · exact forall_of_spans (P := fun i => i.2 ≤ s.programEndPtr) hspans h.stop_le
  · exact forall_of_spans (P := fun i => i.2 < i.1 + progHdrSize + 256) hspans h.short
  · intro x hx
    simp only [List.mem_append, List.mem_cons] at hx
    rcases hx with hx | rfl | hx
    · exact h.typed x (by simp [hp, hx])
    · exact htyped ▸ h.typed l hmem
    · exact h.typed x (by simp [hp, hx])

/-- A jump of a line is rewritten.

**Proof sketch.** The line with the new jump is in the same place and has been inserted in the same
way, so it may replace the old one: the bytes outside of the jump are the same, and in memory there
is the line with the address in place of the number. -/
theorem rewrite (h : Represents s p) (hp : p = before ++ l :: after) {pre post : List Token}
    {kw jump : UInt8} {w dest : ℕ} (hl : l.stmt = pre ++ .keyword kw :: .numeric w :: post)
    (hkw : IsJump kw jump) (hdest : dest = lookup before l after (toNumeric w))
    (hlt : dest < 65536) {a : ℕ} (ha : a = progStmt l.addr + (encode pre).length) :
    Represents ((s.memcpy (a + 1) [jump]).memcpy (a + 3) (bytes16 dest))
      (before ++ { l with stmt := pre ++ .keyword jump :: .numeric dest :: post } :: after) := by
  have hin : a + 5 ≤ l.stop := l.jump_le_stop hl ha
  have hge : l.addr + 6 ≤ a := by
    simp only [progStmt, progHdrSize] at ha
    omega
  have hline := (h.lines before l after hp).rewrite hl hkw hdest hlt ha
  have hout : ∀ b, b < l.addr ∨ l.stop ≤ b → jumpRam s.ram a jump dest b = s.ram b :=
    fun b hb => jumpRam_of_outside (by omega)
  exact h.replace hp rfl rfl (l.stop_jump hl) hout hline

end Represents

/-! ## Inserting a line -/

/-- The memory in which a line has been linked to the last one, and its header and statement have
been written. -/
def linkRam (m : Ram) (last line : ℕ) (lineno : ℤ) (stmt : List UInt8) : Ram :=
  ((if last ≠ null then m.memcpy (last + 4) (bytes16 line) else m).memcpy line
    (lineHeader lineno last)).memcpy (progStmt line) stmt

section Link

variable {m : Ram} {last line : ℕ} {lineno : ℤ} {stmt : List UInt8}

omit [Target] in
/-- The header of a line has its size. -/
theorem length_lineHeader : (lineHeader lineno last).length = progHdrSize := rfl

omit [Target] in
/-- In front of the line only the link of the last line has changed. -/
theorem linkRam_of_lt {b : ℕ} (hb : b < line) (h : last = null ∨ b < last + 4 ∨ last + 6 ≤ b) :
    linkRam m last line lineno stmt b = m b := by
  have hstmt : b < progStmt line := by
    unfold progStmt
    omega
  rw [linkRam, Ram.memcpy_of_lt hstmt, Ram.memcpy_of_lt hb]
  split
  · next hne =>
    rcases h with h | h | h
    · exact absurd h hne
    · exact Ram.memcpy_of_lt h
    · exact Ram.memcpy_of_le (by simpa using h)
  · rfl

omit [Target] in
/-- The line that was the last one is linked to the new one. -/
theorem linkRam_link (m : Ram) (lineno : ℤ) (stmt : List UInt8) (hne : last ≠ null)
    (hle : last + 6 ≤ line)
    (hlt : line < 65536) :
    (linkRam m last line lineno stmt).word (last + 4) = line := by
  have hold : (linkRam m last line lineno stmt).Holds (last + 4) (bytes16 line) := by
    have h := Ram.holds_memcpy m (last + 4) (bytes16 line)
    rw [linkRam, if_pos hne]
    refine (h.memcpy ?_).memcpy ?_
    · exact .inl (by simpa using hle)
    · refine .inl ?_
      simp only [length_bytes16, progStmt]
      omega
  rw [hold.word, Nat.mod_eq_of_lt hlt]

omit [Target] in
/-- The new line has its header. -/
theorem linkRam_header (m : Ram) (last line : ℕ) (lineno : ℤ) (stmt : List UInt8) :
    (linkRam m last line lineno stmt).Holds line (lineHeader lineno last) := by
  unfold linkRam
  refine (Ram.holds_memcpy _ _ _).memcpy (.inl ?_)
  rw [length_lineHeader]
  rfl

omit [Target] in
/-- The new line has its statement. -/
theorem linkRam_stmt : (linkRam m last line lineno stmt).Holds (progStmt line) stmt :=
  Ram.holds_memcpy _ _ _

end Link

omit [Target] in
/-- What inserting a line does, when the line is read in front of the end of the program and not
from the link of the last line.

**Proof sketch.** The number and the size of the statement are read from the tokens. The statement
is copied last, and what has been written before that lies outside of it, so that what is copied is
the statement. -/
theorem programInsert_eq {a w : ℕ} {ts : List Token} (hs : Stream (.numeric w :: ts))
    (hm : s.ram.Holds a (stored (.numeric w :: ts))) (hlen : (stored ts).length < 256)
    (ha : a + (stored (.numeric w :: ts)).length ≤ s.programEndPtr)
    (hlast : s.programLastInsertedLine = null ∨
      a + (stored (.numeric w :: ts)).length ≤ s.programLastInsertedLine + 4 ∨
        s.programLastInsertedLine + 6 ≤ a) :
    programInsert s a =
      .ok (.noerror,
        { s with
          ram := linkRam s.ram s.programLastInsertedLine s.programEndPtr (toNumeric w) (stored ts)
          programLastInsertedLine := s.programEndPtr
          programEndPtr := s.programEndPtr + (stored ts).length + progHdrSize
          inserted := s.inserted ++ [⟨s.programEndPtr, toNumeric w, stored ts⟩] }) := by
  rw [stored_cons, Ram.holds_append] at hm
  rw [stored_cons, List.length_append] at ha hlast
  simp only [Token.bytes, List.length_cons, length_bytes16, Ram.holds_cons] at hm ha hlast
  obtain ⟨⟨hkind, hnum⟩, hstmt⟩ := hm
  have hw : numericGet s.ram a = toNumeric w := hnum.numeric hs.1
  have hsize : statementSize s.ram (a + numericSize) = some (stored ts).length :=
    statementSize_eq hs.2.2 hstmt hlen
  -- the statement is not changed in front of the copy
  have hslice : ∀ m : Ram, (∀ i < (stored ts).length, m (a + 3 + i) = s.ram (a + 3 + i)) →
      m.slice (a + numericSize) (stored ts).length = stored ts :=
    fun m h => (hstmt.congr h).slice
  simp only [programInsert, hkind, ne_eq, not_true_eq_false, if_false, hsize, hw, orFault,
    Except.map, Except.ok.injEq, Prod.mk.injEq, true_and]
  by_cases hnull : s.programLastInsertedLine = null
  · simp only [hnull, not_true_eq_false, if_false]
    have hcopy := hslice (s.ram.memcpy s.programEndPtr (lineHeader (toNumeric w) null))
      fun i hi => Ram.memcpy_of_lt (by omega)
    simp only [State.memcpy, State.withRam, hcopy, linkRam, ne_eq, not_true_eq_false, if_false]
  · simp only [hnull, not_false_eq_true, if_true]
    have hcopy := hslice
      ((s.ram.memcpy (s.programLastInsertedLine + 4) (bytes16 s.programEndPtr)).memcpy
        s.programEndPtr (lineHeader (toNumeric w) s.programLastInsertedLine)) (by
        intro i hi
        rw [Ram.memcpy_of_lt (by omega)]
        rcases hlast with h | h | h
        · exact absurd h hnull
        · exact Ram.memcpy_of_lt (by omega)
        · exact Ram.memcpy_of_le (by rw [length_bytes16]; omega))
    simp only [State.memcpy, State.withRam, hcopy, linkRam, ne_eq, hnull, not_false_eq_true,
      if_true]

/-- The state after a line has been linked to the last one. -/
def State.link (s : State) (lineno : ℤ) (stmt : List UInt8) : State :=
  { s with
    ram := linkRam s.ram s.programLastInsertedLine s.programEndPtr lineno stmt
    programLastInsertedLine := s.programEndPtr
    programEndPtr := s.programEndPtr + stmt.length + progHdrSize
    inserted := s.inserted ++ [⟨s.programEndPtr, lineno, stmt⟩] }

omit [Target] in
/-- What inserting a line does, whatever is read as its statement. -/
theorem programInsert_cases {a : ℕ} (hnum : s.ram a = tokNumeric) :
    statementSize s.ram (a + numericSize) = none ∧ programInsert s a = .error .undefined ∨
      ∃ stmt : List UInt8, statementSize s.ram (a + numericSize) = some stmt.length ∧
        programInsert s a = .ok (.noerror, s.link (numericGet s.ram a) stmt) := by
  cases hsize : statementSize s.ram (a + numericSize) with
  | none => exact .inl ⟨rfl, by simp [programInsert, hnum, hsize, orFault, Except.map]⟩
  | some size =>
    set m := (if s.programLastInsertedLine ≠ null then
      s.ram.memcpy (s.programLastInsertedLine + 4) (bytes16 s.programEndPtr) else s.ram).memcpy
        s.programEndPtr (lineHeader (numericGet s.ram a) s.programLastInsertedLine) with hm
    have hlen : (m.slice (a + numericSize) size).length = size := by simp [Ram.slice]
    refine .inr ⟨m.slice (a + numericSize) size, by rw [hlen], ?_⟩
    simp only [programInsert, hnum, hsize, orFault, Except.map, ne_eq, not_true_eq_false, if_false]
    by_cases hlast : s.programLastInsertedLine = null <;>
      simp [hm, hlast, State.link, linkRam, State.memcpy, State.withRam, Ram.slice]

omit [Target] in
/-- The header of a line in memory. -/
theorem lineHeader_spec {m : Ram} {a w prev : ℕ} (h : m.Holds a (lineHeader (toNumeric w) prev))
    (hw : w < 65536) (hprev : prev < 65536) :
    progLineno m a = toNumeric w ∧ progPrev m a = prev ∧ progNext m a = null := by
  rw [lineHeader, Ram.holds_append, Ram.holds_append] at h
  obtain ⟨⟨hno, hp⟩, hn⟩ := h
  refine ⟨?_, ?_, ?_⟩
  · rw [progLineno, hno.numeric (ofNumeric_lt _), toNumeric_ofNumeric (toNumeric_mem hw)]
  · rw [progPrev]
    exact hp.word.trans (Nat.mod_eq_of_lt hprev)
  · rw [progNext]
    exact hn.word

section Inserted

variable (h : Represents s p) (lineno : ℤ) (stmt : List UInt8)
include h

/-- In front of a new line only the link of the last line has changed. -/
theorem Represents.link_ram {b : ℕ} (hb : b < s.programEndPtr)
    (hx : ∀ x, p.getLast? = some x → b < x.addr + 4 ∨ x.addr + 6 ≤ b) :
    (s.link lineno stmt).ram b = s.ram b := by
  apply linkRam_of_lt hb
  rw [h.last]
  cases hlast : p.getLast? with
  | none => exact .inl rfl
  | some x => exact .inr (hx x hlast)

/-- The last line is linked to the new one. -/
theorem Represents.link_last {new : ProgLine} (hp : p = before ++ [l])
    (hnew : new.addr = s.programEndPtr) (hend : s.programEndPtr < 65536) :
    LineAt (s.link lineno stmt).ram before l [new] := by
  have hl := h.lines before l [] hp
  have hmem : l ∈ p := by simp [hp]
  have hstop := h.stop_le l hmem
  have hlt := l.addr_lt_stop
  have hlast : p.getLast? = some l := by simp [hp]
  have hsame : ∀ b, b < s.programEndPtr → b < l.addr + 4 ∨ l.addr + 6 ≤ b →
      (s.link lineno stmt).ram b = s.ram b := by
    intro b hb hd
    apply h.link_ram lineno stmt hb
    intro x hx
    rw [hlast] at hx
    exact Option.some.inj hx ▸ hd
  refine ⟨?_, ?_, ?_, ?_, hl.stream, hl.rewritten.mono fun _ _ hc => hc.append [new]⟩
  · rw [← hl.lineno, progLineno, progLineno, Ram.numeric, Ram.numeric,
      Ram.word_congr (hsame _ (by omega) (by omega)) (hsame _ (by omega) (by omega))]
  · rw [← hl.prev, progPrev, progPrev,
      Ram.word_congr (hsame _ (by omega) (by omega)) (hsame _ (by omega) (by omega))]
  · have haddr : s.programLastInsertedLine = l.addr := by rw [h.last, hlast, addrOf_some]
    have hpos := h.addr_pos hmem
    have hlink := linkRam_link s.ram lineno stmt hpos.ne' (by omega) hend
    rw [progNext, List.head?_cons, addrOf_some, hnew]
    simpa only [State.link, haddr] using hlink
  · apply hl.stmt.congr
    intro i hi
    simp only [ProgLine.stop] at hstop
    exact hsame _ (by omega) (by simp only [progStmt, progHdrSize]; omega)

/-- The lines in front of the last one are the same. -/
theorem Represents.link_before {y new : ProgLine} (hp : p = before ++ l :: (after ++ [y])) :
    LineAt (s.link lineno stmt).ram before l (after ++ [y] ++ [new]) := by
  have hl := h.lines before l (after ++ [y]) hp
  have hmem : l ∈ p := by simp [hp]
  have hstop := h.stop_le l hmem
  have hy := h.stop_le_addr_after hp (show y ∈ after ++ [y] by simp)
  have hlast : p.getLast? = some y := by
    rw [hp, ← List.cons_append, ← List.append_assoc]
    exact List.getLast?_concat
  have hline : LineAt (s.link lineno stmt).ram before l (after ++ [y]) := by
    apply hl.congr
    intro b _ hb
    apply h.link_ram lineno stmt (by omega)
    intro x hx
    rw [hlast] at hx
    obtain rfl := Option.some.inj hx
    omega
  refine ⟨hline.lineno, hline.prev, ?_, hline.stmt, hline.stream,
    hline.rewritten.mono fun _ _ hc => hc.append [new]⟩
  rw [hline.next]
  cases after <;> rfl

end Inserted

/-- The new line. -/
theorem Represents.link_new (h : Represents s p) {w : ℕ} (hw : w < 65536) {ts : List Token}
    (hs : Stream ts)
    (hend : s.programEndPtr < 65536) {new : ProgLine} (haddr : new.addr = s.programEndPtr)
    (hno : new.lineno = toNumeric w) (htyped : new.typed = ts) (hstmt : new.stmt = ts) :
    LineAt (s.link (toNumeric w) (stored ts)).ram p new [] := by
  have hprev : s.programLastInsertedLine < 65536 := by
    rw [h.last]
    cases hlast : p.getLast? with
    | none => exact (by decide : null < 65536)
    | some x =>
      have hx := h.stop_le x (List.mem_of_getLast? hlast)
      have := x.addr_lt_stop
      rw [addrOf_some]
      omega
  have hram : (s.link (toNumeric w) (stored ts)).ram = linkRam s.ram s.programLastInsertedLine
      s.programEndPtr (toNumeric w) (stored ts) := rfl
  obtain ⟨h1, h2, h3⟩ := lineHeader_spec
    (linkRam_header s.ram s.programLastInsertedLine s.programEndPtr (toNumeric w) (stored ts)) hw
    hprev
  refine ⟨?_, ?_, ?_, ?_, hstmt ▸ hs, ?_⟩
  · rw [hram, haddr, hno, h1]
  · rw [hram, haddr, h2, h.last]
  · rw [hram, haddr, h3]
    rfl
  · rw [hram, haddr, hstmt]
    exact linkRam_stmt
  · rw [htyped, hstmt]
    exact .refl ts

/-- A line is inserted behind the last one.

**Proof sketch.** The lines are those in front and the new one. The last of those in front gets the
link to the new one, the others have not changed, and the new one is what has just been written
(`Represents.link_last`, `Represents.link_before`, `Represents.link_new`). It lies behind all
others, as it starts at the end of the program. -/
theorem Represents.link (h : Represents s p) {w : ℕ} (hw : w < 65536) {ts : List Token}
    (hs : Stream ts)
    (hlen : (stored ts).length < 256)
    (hle : s.programEndPtr + (stored ts).length + progHdrSize ≤ ramSize) :
    Represents (s.link (toNumeric w) (stored ts))
      (p ++ [⟨s.programEndPtr, toNumeric w, ts, ts⟩]) := by
  set new : ProgLine := ⟨s.programEndPtr, toNumeric w, ts, ts⟩ with hnew
  have hend : s.programEndPtr < 65536 := by
    unfold progHdrSize ramSize at hle
    omega
  have hstop : new.stop = s.programEndPtr + (stored ts).length + progHdrSize := by
    simp only [ProgLine.stop, hnew, progStmt]
    omega
  have hmem : ∀ l ∈ p ++ [new], l ∈ p ∨ l = new := by
    intro l hl
    simpa using hl
  refine ⟨?_, ?_, ?_, ?_, ?_, ?_, ?_, ?_, ?_, hle⟩
  · show s.inserted ++ [⟨s.programEndPtr, toNumeric w, stored ts⟩] = _
    rw [h.inserted]
    simp [ProgLine.line, hnew]
  · intro before l after hp
    rcases split_cases hp with ⟨mid, rfl, rfl⟩ | ⟨rfl, rfl, rfl⟩ | ⟨mid, rfl, hnil⟩
    · cases mid using List.reverseRecOn with
      | nil => exact h.link_last _ _ rfl rfl hend
      | append_singleton mid y => exact h.link_before _ _ rfl
    · exact h.link_new hw hs hend (by rw [hnew]) (by rw [hnew]) (by rw [hnew]) (by rw [hnew])
    · exact absurd hnil (by simp)
  · show s.programEndPtr = _
    simp [hnew]
  · intro l hl
    cases hmem l hl with
    | inl hl => exact h.start_le l hl
    | inr hl => exact hl ▸ h.start_le_end
  · rw [List.pairwise_append]
    refine ⟨h.spaced, List.pairwise_singleton _ _, fun l hl x hx => ?_⟩
    rw [List.mem_singleton.1 hx]
    exact h.stop_le l hl
  · intro l hl
    show l.stop ≤ s.programEndPtr + (stored ts).length + progHdrSize
    cases hmem l hl with
    | inl hl =>
      have := h.stop_le l hl
      omega
    | inr hl => exact hl ▸ hstop.le
  · intro l hl
    cases hmem l hl with
    | inl hl => exact h.short l hl
    | inr hl =>
      rw [hl, hstop, hnew]
      simp only
      omega
  · intro l hl
    cases hmem l hl with
    | inl hl => exact h.typed l hl
    | inr hl => exact hl ▸ hs
  · have := h.start_le_end
    show _ ≤ s.programEndPtr + (stored ts).length + progHdrSize
    omega

end

end Z80OS.Basic
