import Z80OS.Basic.Transfers

set_option relaxedAutoImplicit false
set_option autoImplicit false

/-!
# Jumps and the lines that they lead to

The first execution of `GOTO` or `GOSUB` replaces the number by the address of the line that was
found, and later executions go to the address. The program only grows at its end, and a line that
is found stays the one that is found. When no line was found, `NULL` is stored in place of the
number, and a line that is inserted later and would be found is not.

## Main definitions

* `Z80OS.Basic.StoredJump` — a statement that was a `GOTO` or `GOSUB` when its line was inserted.
* `Z80OS.Basic.Selects` — a statement leads to the line that a search for a number finds.
* `Z80OS.Basic.Outdated` — the address of a jump is `NULL`, although there is a line now.

## Main results

* `Z80OS.Basic.selects_iff` — a jump leads to the line that a search finds unless it is outdated.
-/

namespace Z80OS.Basic

/-! ## The tokens of the statement as it was inserted -/

/-- The tokens of a statement from a place on, and the tokens that were there before jumps were
rewritten. Only between a jump and its address is there no token in common.

**Proof sketch.** By induction on the rewriting. A place in front of a token that was kept, or of a
jump, splits both lists of tokens there; the place between a jump and its address splits the typed
tokens in front of the number. -/
theorem Rewritten.suffix {T : ℤ → ℕ → Prop} {ts pre post : List Token}
    (h : Rewritten T ts (pre ++ post)) :
    ∃ pre₀ post₀, ts = pre₀ ++ post₀ ∧ (encode pre₀).length = (encode pre).length ∧
      (Rewritten T post₀ post ∨ ∃ w rest, post₀ = .numeric w :: rest) := by
  generalize hcur : pre ++ post = cur at h
  induction h generalizing pre with
  | nil =>
    obtain ⟨rfl, rfl⟩ := List.append_eq_nil_iff.1 hcur
    exact ⟨[], [], rfl, rfl, .inl .nil⟩
  | @same ts₀ ts' t h ih =>
    cases pre with
    | nil =>
      rw [List.nil_append] at hcur
      subst hcur
      exact ⟨[], _, rfl, rfl, .inl (.same t h)⟩
    | cons u pre =>
      simp only [List.cons_append, List.cons.injEq] at hcur
      obtain ⟨rfl, hrest⟩ := hcur
      obtain ⟨pre₀, post₀, rfl, hlen, hcase⟩ := ih hrest
      exact ⟨u :: pre₀, post₀, rfl, by simp [hlen], hcase⟩
  | @jump ts₀ ts' kw jump w p hkw hT h ih =>
    cases pre with
    | nil =>
      rw [List.nil_append] at hcur
      subst hcur
      exact ⟨[], _, rfl, rfl, .inl (.jump hkw hT h)⟩
    | cons u pre =>
      cases pre with
      | nil =>
        simp only [List.cons_append, List.nil_append, List.cons.injEq] at hcur
        obtain ⟨rfl, -⟩ := hcur
        exact ⟨[.keyword kw], _, rfl, by simp [Token.bytes], .inr ⟨w, ts₀, rfl⟩⟩
      | cons v pre =>
        simp only [List.cons_append, List.cons.injEq] at hcur
        obtain ⟨rfl, rfl, hrest⟩ := hcur
        obtain ⟨pre₀, post₀, rfl, hlen, hcase⟩ := ih hrest
        exact ⟨.keyword kw :: .numeric w :: pre₀, post₀, rfl, by simp [hlen, Token.bytes], hcase⟩

/-- The bytes of a jump to a number. -/
def jumpBytes (kw : UInt8) (w : ℕ) : List UInt8 := tokKeyword :: kw :: tokNumeric :: bytes16 w

/-- The tokens of a stream that begins with the bytes of a jump.

**Proof sketch.** The first byte of a token is its kind, so that the bytes of the jump are a keyword
and a number; their values are compared byte by byte. -/
theorem exists_of_jumpBytes {kw : UInt8} {w : ℕ} {ts : List Token} (hs : Stream ts)
    (hw : w < 65536) (h : jumpBytes kw w <+: stored ts) :
    ∃ rest, ts = .keyword kw :: .numeric w :: rest := by
  have hkind : ∀ {kind : UInt8} {data : List UInt8} {us : List Token},
      kind :: data <+: stored us → kind ≠ tokTerminator → ∃ u rest, us = u :: rest ∧
        u.kind = kind := by
    intro kind data us hp hne
    cases us with
    | nil =>
      simp only [stored_nil, List.cons_prefix_cons] at hp
      exact absurd hp.1 hne
    | cons u rest =>
      obtain ⟨bs, hbs⟩ := u.bytes_eq_kind_cons
      rw [stored_cons, hbs, List.cons_append, List.cons_prefix_cons] at hp
      exact ⟨u, rest, rfl, hp.1.symm⟩
  obtain ⟨t, ts₁, rfl, ht⟩ := hkind h (by decide)
  cases t with
  | keyword kw' =>
    simp only [jumpBytes, stored_cons, Token.bytes, List.cons_append, List.nil_append,
      List.cons_prefix_cons, true_and] at h
    obtain ⟨rfl, h⟩ := h
    obtain ⟨u, rest, rfl, hu⟩ := hkind h (by decide)
    cases u with
    | numeric w' =>
      have hw' : w' < 65536 := hs.2.2.1
      simp only [stored_cons, Token.bytes, bytes16, List.cons_append, List.nil_append,
        List.cons_prefix_cons, List.nil_prefix, and_true, true_and] at h
      obtain rfl := eq_of_bytes16 hw hw' (by rw [bytes16, bytes16, h.1, h.2])
      exact ⟨rest, rfl⟩
    | _ => exact absurd hu (by simp [Token.kind]; decide)
  | _ => exact absurd ht (by simp [Token.kind]; decide)

section

variable [Target] {s s₁ s₂ : State} {p : List ProgLine} {a w : ℕ} {kw : UInt8} {ts : List Token}

/-! ## Stored jumps -/

/-- The statement at an address, in the current line, was `GOTO n` or `GOSUB n` when the line was
inserted, where `w` is the word for `n`. -/
structure StoredJump (s : State) (a : ℕ) (kw : UInt8) (w : ℕ) : Prop where
  keyword : kw = keywordGoto ∨ kw = keywordGosub
  word_lt : w < 65536
  bytes : ∃ l ∈ s.inserted, l.addr = s.programCurrentLine ∧ ∃ i, a = progStmt l.addr + i ∧
    jumpBytes kw w <+: l.stmt.drop i

/-- The interpretation of a statement succeeds, the program goes on, and the next line is the one
that a search for a number finds, or `NULL` when there is none. -/
def Selects (s : State) (a : ℕ) (n : ℤ) : Prop :=
  ∃ line s', programSearchLineno s n = some line ∧
    statementInterpret 1 s a = .ok (.done .noerror, s') ∧ s'.mode = s.mode ∧
      s'.programNextLine = line

/-- The statement at an address is a jump to `NULL`, and now there is a line that a search for the
number finds. -/
structure Outdated (s : State) (a : ℕ) (n : ℤ) : Prop where
  keyword : KeywordAt s a keywordJumpto ∨ KeywordAt s a keywordJumpsub
  address : s.ram.word (a + kwSize + 1) = null
  lineno_le : progLineno s.ram s.programCurrentLine ≤ n
  found : ∃ x ∈ s.inserted, s.programCurrentLine ≤ x.addr ∧ n ≤ x.lineno

/-- Lines with the same address are the same. -/
theorem Represents.eq_of_addr (h : Represents s p) {before after : List ProgLine} {l x : ProgLine}
    (hp : p = before ++ l :: after) (hx : x ∈ p) (he : x.addr = l.addr) : x = l := by
  rw [hp] at hx
  have hl := l.addr_lt_stop
  have hxs := x.addr_lt_stop
  simp only [List.mem_append, List.mem_cons] at hx
  rcases hx with hx | rfl | hx
  · have := h.stop_le_addr hp hx
    omega
  · rfl
  · have := h.stop_le_addr_after hp hx
    omega

/-- Where a stored jump is executed there is the jump to the number, or the jump to an address that
a search for the number has found.

**Proof sketch.** The place lies in the current line (`Stands.running`), whose typed tokens have the
jump there (`Rewritten.suffix`, `exists_of_jumpBytes`). In the rewritten line the jump is kept, or
rewritten to an address. -/
theorem StoredJump.cases (hj : StoredJump s a kw w) (h : Represents s p) (hs : Stands s p a ts)
    (hmode : s.mode ≠ .ready) :
    ∃ before l after rest, InLine p before l after a ts ∧ l.addr = s.programCurrentLine ∧
      (ts = .keyword kw :: .numeric w :: rest ∨ ∃ jump ptr, IsJump kw jump ∧
        ts = .keyword jump :: .numeric ptr :: rest ∧ Cached before l after (toNumeric w) ptr) := by
  obtain ⟨-, before, l, after, hline, hcur⟩ := hs.running hmode
  obtain ⟨pre, hl, ha⟩ := hline.tokens
  obtain ⟨x, hx, hxcur, i, hi, hbytes⟩ := hj.bytes
  rw [h.inserted, List.mem_map] at hx
  obtain ⟨y, hy, rfl⟩ := hx
  obtain rfl := h.eq_of_addr hline.program hy (hxcur.trans hcur.symm)
  have hat := h.lines _ _ _ hline.program
  have hr := hat.rewritten
  rw [hl] at hr
  obtain ⟨pre₀, post₀, htyped, hlen, hcase⟩ := hr.suffix
  have hdrop : (stored y.typed).drop i = stored post₀ := by
    have hi' : i = (encode pre₀).length := by
      have hadd : progStmt y.addr + i = progStmt y.addr + (encode pre₀).length := by
        rw [hlen, ← ha]
        exact hi.symm
      omega
    rw [htyped, stored_append, hi', List.drop_left]
  have hstream : Stream post₀ := (htyped ▸ h.typed y hy).append
  have hpost : jumpBytes kw w <+: stored post₀ := hdrop ▸ hbytes
  obtain ⟨rest, rfl⟩ := exists_of_jumpBytes hstream hj.word_lt hpost
  rcases hcase with hr' | ⟨w', rest', he⟩
  · cases hr' with
    | same _ hr' =>
      cases hr' with
      | same _ hr' => exact ⟨before, y, after, _, hline, hcur, .inl rfl⟩
    | jump hkw hT _ => exact ⟨before, y, after, _, hline, hcur, .inr ⟨_, _, hkw, rfl, hT⟩⟩
  · exact absurd he (by simp)

/-! ## The lines that are selected -/

/-- An address that was found when the program had fewer lines is the one that is found now, unless
it is `NULL` and a line that is there now would be found.

**Proof sketch.** An address other than `NULL` stays when lines are appended (`lookup_append`). For
`NULL` the search either starts from the first line, where only the lines in front of the current
one count, or from the current one: then it finds something now exactly if a line from the current
one on has a number that is large enough. -/
theorem Represents.cached_eq_iff (h : Represents s p) {before after : List ProgLine}
    {l : ProgLine} {n : ℤ} {ptr : ℕ} (hp : p = before ++ l :: after)
    (hc : Cached before l after n ptr) :
    lookup before l after n = ptr ↔
      ¬ (ptr = null ∧ l.lineno ≤ n ∧ ∃ x ∈ p, l.addr ≤ x.addr ∧ n ≤ x.lineno) := by
  obtain ⟨after', ⟨new, rfl⟩, rfl⟩ := hc
  by_cases hnull : lookup before l after' n = null
  · rw [hnull]
    by_cases hn : n < l.lineno
    · -- only the lines in front of the current one count
      have hsame : lookup before l (after' ++ new) n = lookup before l after' n := by
        rw [lookup, if_pos hn, lookup, if_pos hn]
      rw [hsame, hnull]
      exact iff_of_true rfl fun hx => absurd hx.2.1 (by omega)
    · have hlook : lookup before l (after' ++ new) n =
          addrOf ((l :: (after' ++ new)).find? fun x => n ≤ x.lineno) := by
        rw [lookup, if_neg hn]
      rw [hlook]
      constructor
      · rintro hfind ⟨-, -, x, hx, hle, hno⟩
        have hxin : x ∈ l :: (after' ++ new) := by
          rw [hp, List.mem_append] at hx
          rcases hx with hx | hx
          · have := h.stop_le_addr hp hx
            have := x.addr_lt_stop
            omega
          · exact hx
        cases hf : (l :: (after' ++ new)).find? fun x => n ≤ x.lineno with
        | none =>
          rw [List.find?_eq_none] at hf
          exact absurd hno (by simpa using hf x hxin)
        | some y =>
          have hy : y ∈ p := by
            rw [hp]
            exact List.mem_append_right _ (List.mem_of_find?_eq_some hf)
          rw [hf, addrOf_some] at hfind
          exact absurd hfind (h.addr_pos hy).ne'
      · intro hno
        cases hf : (l :: (after' ++ new)).find? fun x => n ≤ x.lineno with
        | none => rfl
        | some y =>
          have hmem := List.mem_of_find?_eq_some hf
          have hle : l.addr ≤ y.addr := by
            rcases List.mem_cons.1 hmem with rfl | hy
            · exact le_rfl
            · have := h.stop_le_addr_after hp hy
              have := l.addr_lt_stop
              omega
          refine absurd ⟨rfl, by omega, y, ?_, hle, by simpa using List.find?_some hf⟩ hno
          rw [hp]
          exact List.mem_append_right _ hmem
  · rw [lookup_append hnull]
    exact iff_of_true rfl fun hx => hnull hx.1

/-- A jump to a number goes where the search finds a line. -/
theorem selects_of_goto {n : ℤ} {line : ℕ} (hk : KeywordAt s a kw)
    (hkw : kw = keywordGoto ∨ kw = keywordGosub) (hnum : s.ram (a + kwSize) = tokNumeric)
    (hn : numericGet s.ram (a + kwSize) = n) (hline : programSearchLineno s n = some line)
    (hroom : kw = keywordGosub → s.programReturnStack.length < returnStackLimit) :
    Selects s a n := by
  have hrewrite : ∀ (s' : State) (jump : UInt8), s'.ram = s.ram →
      programSearchLineno s' n = some line → ∃ s₂, transferRewrite s' (a + kwSize) jump =
        .ok (.done .noerror, s₂) ∧ s₂.mode = s'.mode ∧ s₂.programNextLine = line := by
    intro s' jump hram hsearch
    simp only [transferRewrite, programTransferControl, hram, hn, hsearch, orFault, Except.map]
    exact ⟨_, rfl, rfl, rfl⟩
  rcases hkw with rfl | rfl
  · obtain ⟨s₂, hs₂, hnext⟩ := hrewrite s keywordJumpto rfl hline
    refine ⟨line, s₂, hline, ?_, hnext⟩
    rw [statementInterpret_keyword hk]
    show doGoto s (a + kwSize) = _
    rw [doGoto, if_neg (not_not.2 hnum), hs₂]
  · obtain ⟨s₂, hs₂, hnext⟩ := hrewrite
      (s.withStack (⟨s.programCurrentLine, null⟩ :: s.programReturnStack)) keywordJumpsub rfl hline
    refine ⟨line, s₂, hline, ?_, hnext⟩
    rw [statementInterpret_keyword hk]
    show doGosub s (a + kwSize) = _
    rw [doGosub, if_neg (not_not.2 hnum), programPushReturn, if_pos (hroom rfl)]
    exact hs₂

/-- A jump to an address goes there. -/
theorem interpret_jump {jump : UInt8} (hk : KeywordAt s a jump)
    (hj : jump = keywordJumpto ∨ jump = keywordJumpsub)
    (hnum : s.ram (a + kwSize) = tokNumeric)
    (hroom : jump = keywordJumpsub → s.programReturnStack.length < returnStackLimit) :
    ∃ s', statementInterpret 1 s a = .ok (.done .noerror, s') ∧ s'.mode = s.mode ∧
      s'.programNextLine = s.ram.word (a + kwSize + 1) := by
  rw [statementInterpret_keyword hk]
  rcases hj with rfl | rfl
  · show ∃ s', doJumpto s (a + kwSize) = _ ∧ _
    rw [doJumpto, if_neg (not_not.2 hnum)]
    exact ⟨_, rfl, rfl, rfl⟩
  · show ∃ s', doJumpsub s (a + kwSize) = _ ∧ _
    rw [doJumpsub, if_neg (not_not.2 hnum), programPushReturn, if_pos (hroom rfl)]
    exact ⟨_, rfl, rfl, rfl⟩

/-- A stored jump leads to the line that a search finds unless it is outdated.

**Proof sketch.** A statement that still has its number searches for the line, so it selects the
line and is not outdated. A rewritten one goes to the address it has stored (`interpret_jump`), so
that it selects the line if and only if the address is the one a search finds now, which
`Represents.cached_eq_iff` characterises. -/
theorem StoredJump.selects_iff (hj : StoredJump s a kw w) (h : Represents s p)
    (hs : Stands s p a ts) (hmode : s.mode ≠ .ready)
    (hroom : kw = keywordGosub → s.programReturnStack.length < returnStackLimit) :
    Selects s a (toNumeric w) ↔ ¬ Outdated s a (toNumeric w) := by
  obtain ⟨before, l, after, rest, hline, hcur, hcase⟩ := hj.cases h hs hmode
  have hsearch := h.programSearchLineno_eq hline.program hcur.symm (toNumeric w)
  rcases hcase with rfl | ⟨jump, ptr, hjump, rfl, hc⟩
  · obtain ⟨hk, hkw, hrest⟩ := holds_of_keyword hs.tokens.holds
    obtain ⟨hnum, hword⟩ := word_of_holds hs.tokens.stream.2.2 hrest
    have hn : numericGet s.ram (a + kwSize) = toNumeric w := by
      rw [numericGet, Ram.numeric, hword]
    refine iff_of_true (selects_of_goto ⟨hk, hkw⟩ hj.keyword hnum hn hsearch hroom) ?_
    intro ho
    rcases ho.keyword with ⟨-, hkw'⟩ | ⟨-, hkw'⟩ <;> rw [hkw] at hkw' <;>
      rcases hj.keyword with hkw₀ | hkw₀ <;> rw [hkw₀] at hkw' <;> exact absurd hkw' (by decide)
  · obtain ⟨hk, hkw, hrest⟩ := holds_of_keyword hs.tokens.holds
    obtain ⟨hnum, hword⟩ := word_of_holds hs.tokens.stream.2.2 hrest
    have hjumps : jump = keywordJumpto ∨ jump = keywordJumpsub :=
      hjump.imp And.right And.right
    have hroom' : jump = keywordJumpsub → s.programReturnStack.length < returnStackLimit := by
      intro he
      rcases hjump with ⟨-, rfl⟩ | ⟨rfl, -⟩
      · exact absurd he (by decide)
      · exact hroom rfl
    obtain ⟨s', hint, hmode', hnext⟩ := interpret_jump ⟨hk, hkw⟩ hjumps hnum hroom'
    rw [hword] at hnext
    have hselects : Selects s a (toNumeric w) ↔ lookup before l after (toNumeric w) = ptr := by
      constructor
      · rintro ⟨line, s₂, hline', hint', -, hnext'⟩
        rw [hint, Except.ok.injEq, Prod.mk.injEq] at hint'
        rw [hsearch, Option.some.injEq] at hline'
        rw [hline', ← hnext', ← hint'.2, hnext]
      · rintro he
        exact ⟨_, s', hsearch, hint, hmode', hnext.trans he.symm⟩
    rw [hselects, h.cached_eq_iff hline.program hc, not_iff_not]
    have hlineno : progLineno s.ram s.programCurrentLine = l.lineno := by
      rw [← hcur]
      exact (h.lines _ _ _ hline.program).lineno
    constructor
    · rintro ⟨hnull, hle, x, hx, haddr, hno⟩
      refine ⟨hjumps.imp (fun he => ⟨hk, hkw.trans he⟩) (fun he => ⟨hk, hkw.trans he⟩),
        hword.trans hnull, hlineno ▸ hle, x.line, ?_, hcur ▸ haddr, hno⟩
      rw [h.inserted]
      exact List.mem_map_of_mem hx
    · rintro ⟨-, hnull, hle, x, hx, haddr, hno⟩
      rw [h.inserted, List.mem_map] at hx
      obtain ⟨y, hy, rfl⟩ := hx
      exact ⟨hword ▸ hnull, hlineno ▸ hle, y, hy, hcur ▸ haddr, hno⟩

/-! ## Sessions -/

/-- A statement inside other ones that succeeds makes them succeed. -/
theorem Executes.interpret_of_noerror {k : ℕ} {a₁ : ℕ} (hex : Executes k s a s₁ a₁)
    (hif : ¬ IsIf s₁ a₁) (hint : statementInterpret 1 s₁ a₁ = .ok (.done .noerror, s₂)) :
    statementInterpret k s a = .ok (.done .noerror, s₂) := by
  induction hex with
  | here => rw [statementInterpret_simple hif, hint]
  | sub hthen _ ih =>
    rw [statementInterpret_if hthen.1, doIf, hthen.2]
    simp only [ifThen, ih hif hint, succeeds]
  | @again k s s₃ s₄ s' a a₂ a' e hthen hfail he _ ih =>
    rw [statementInterpret_if hthen.1, doIf, hthen.2]
    simp only [ifThen, hfail]
    cases e <;> first | exact absurd rfl he | exact ih hif hint

/-- A statement that is executed in a step leads to the line that a search for a number finds, or
the run stops with `ERROR_GOTO` when there is none. -/
def JumpAgrees (s s₁ : State) (a : ℕ) (n : ℤ) : Prop :=
  ∃ line s₂, programSearchLineno s₁ n = some line ∧
    statementInterpret 1 s₁ a = .ok (.done .noerror, s₂) ∧ s₂.mode = s₁.mode ∧
      s₂.programNextLine = line ∧ (line = null → programTurn s = .ok (some .goto, s₂))

/-- A run stops with `ERROR_GOTO` when a jump has found no line. -/
theorem programTurn_goto {input : Input} (hex : LineExecutes s input s₁ a) (hif : ¬ IsIf s₁ a)
    (hint : statementInterpret 1 s₁ a = .ok (.done .noerror, s₂)) (hmode : s₂.mode ≠ .ready)
    (hnull : s₂.programNextLine = null) : programTurn s = .ok (some .goto, s₂) := by
  have hline : interpret s.enterLine (progStmt s.programNextLine) = .ok (.done .noerror, s₂) :=
    hex.executes.interpret_of_noerror hif hint
  rw [programTurn_eq, if_neg hex.ne_alloc, if_neg hex.ne_numeric, hline]
  simp only [hmode, if_false, ne_eq, not_true_eq_false, hnull, if_true]

/-- A stored jump is not an `IF`. -/
theorem StoredJump.not_isIf (hj : StoredJump s a kw w) (h : Represents s p) (hs : Stands s p a ts)
    (hmode : s.mode ≠ .ready) : ¬ IsIf s a := by
  rintro ⟨-, hif⟩
  obtain ⟨before, l, after, rest, -, -, hcase⟩ := hj.cases h hs hmode
  rcases hcase with rfl | ⟨jump, ptr, hjump, rfl, -⟩
  · rw [(holds_of_keyword hs.tokens.holds).2.1] at hif
    rcases hj.keyword with rfl | rfl <;> exact absurd hif (by decide)
  · rw [(holds_of_keyword hs.tokens.holds).2.1] at hif
    rcases hjump with ⟨-, rfl⟩ | ⟨-, rfl⟩ <;> exact absurd hif (by decide)

/-- **Cached jumps agree with line lookup.** In every session of tame statements, whenever a stored
`GOTO` or `GOSUB` is executed, in the place of which there may be a jump to an address by then,
control goes to the line that the search for its number selects, or the run stops with `ERROR_GOTO`
when there is none, if and only if the jump is not outdated. A subroutine needs room on the return
stack, and so does a loop: a run is over where an entry would be pushed behind the end of the stack.

**Proof sketch.** Where a statement is executed, memory stands for a program, and the address of a
rewritten jump is what the search has found when the program had a part of its lines. Lines are only
added at the end. So a line that was found is still found; and when none was found, one is found now
if and only if it has been added behind the jump. -/
theorem jumpAgrees_iff {s₀ : State} {inputs : List Input}
    (h : Run.Always basicRun (fun s input _ _ => Tamely (fun _ _ => True) s input) (boot s₀)
      inputs) :
    Run.Always basicRun (fun s input _ _ => ∀ s₁ a kw w, StepExecutes s input s₁ a →
      s₁.mode ≠ .ready → StoredJump s₁ a kw w →
      (kw = keywordGosub → s₁.programReturnStack.length < returnStackLimit) →
      (JumpAgrees s s₁ a (toNumeric w) ↔ ¬ Outdated s₁ a (toNumeric w))) (boot s₀) inputs := by
  refine (Carries.always carries_true trivial h).mono ?_
  rintro s input e s' ⟨-, hplaced⟩ s₁ a kw w hex hmode hj hroom
  obtain ⟨⟨p, ts, hrep, hs⟩, -, hline⟩ := hplaced s₁ a hex
  rw [← hj.selects_iff hrep hs hmode hroom]
  constructor
  · rintro ⟨line, s₂, hsearch, hint, hm, hnext, -⟩
    exact ⟨line, s₂, hsearch, hint, hm, hnext⟩
  · rintro ⟨line, s₂, hsearch, hint, hm, hnext⟩
    refine ⟨line, s₂, hsearch, hint, hm, hnext, fun hnull => ?_⟩
    exact programTurn_goto (hline hmode) (hj.not_isIf hrep hs hmode) hint (hm ▸ hmode)
      (hnext.trans hnull)

end

/-- A program with a loop, whose jump is stored, rewritten and run again. -/
theorem jumpAgrees_iff_loopSession :
    letI := Target.small
    Run.Always basicRun (fun s input _ _ => ∀ s₁ a kw w, StepExecutes s input s₁ a →
      s₁.mode ≠ .ready → StoredJump s₁ a kw w →
      (kw = keywordGosub → s₁.programReturnStack.length < returnStackLimit) →
      (JumpAgrees s s₁ a (toNumeric w) ↔ ¬ Outdated s₁ a (toNumeric w))) (boot State.zeroed)
        loopSession := by
  let _ := Target.small
  exact jumpAgrees_iff (always_tamely_of_test (c := fun _ _ => true) (fun _ _ _ => trivial)
    (by decide +kernel))

/-- A `GOTO` that is executed before the line with the number is there. -/
def earlySession : List Input :=
  [.line (ascii ['1', '0', ' ', 'G', 'O', 'T', 'O', ' ', '2', '0']),
   .line (ascii ['R', 'U', 'N']), .go,
   .line (ascii ['2', '0', ' ', 'E', 'N', 'D']),
   .line (ascii ['R', 'U', 'N'])]

/-- Stored jumps agree with line lookup in all sessions. -/
def AlwaysAgrees [Target] : Prop :=
  ∀ inputs, Typeable (boot State.zeroed) inputs →
    Run.Always basicRun (fun s input _ _ => ∀ s₁ a kw w, StepExecutes s input s₁ a →
      s₁.mode ≠ .ready → StoredJump s₁ a kw w →
      (kw = keywordGosub → s₁.programReturnStack.length < returnStackLimit) →
      JumpAgrees s s₁ a (toNumeric w)) (boot State.zeroed) inputs

/-- A `GOTO 20` that was executed without a line 20 finds none later.

**Proof sketch.** The session is evaluated. Its `GOTO 20` has the address `NULL`, with which the run
ends, while a search finds the line 20 that was entered later. -/
theorem not_alwaysAgrees : ¬ @AlwaysAgrees Target.small := by
  intro h
  let _ := Target.small
  obtain ⟨e, hagrees⟩ := always_sessionEnd
    (h (earlySession ++ [.go]) (typeable_of_check (by decide +kernel))) (by decide +kernel)
  set s := sessionEnd earlySession with hs
  have hstored : StoredJump s.enterLine (progStmt s.programNextLine) keywordGoto 20 := by
    refine ⟨.inl rfl, by decide, ⟨0x8400, 10, stored [.keyword keywordGoto, .numeric 20]⟩, ?_, ?_,
      0, ?_, ?_⟩
    · rw [hs]
      decide +kernel
    · rw [hs]
      decide +kernel
    · rw [hs]
      decide +kernel
    · decide
  obtain ⟨line, s₂, hsearch, hint, -, hnext, -⟩ := hagrees s.enterLine _ _ _
    (.stored (by rw [hs]; decide +kernel) (by rw [hs]; decide +kernel) (by rw [hs]; decide +kernel)
      .here) (by rw [hs]; decide +kernel) hstored (by decide)
  have hfound : programSearchLineno s.enterLine (toNumeric 20) = some 0x840c := by
    rw [hs]
    decide +kernel
  have hnone : ∀ q, statementInterpret 1 s.enterLine (progStmt s.programNextLine) = .ok q →
      q.2.programNextLine = null := by
    have hmap : (statementInterpret 1 s.enterLine (progStmt s.programNextLine)).toOption.map
        (fun q => q.2.programNextLine) = some null := by
      rw [hs]
      decide +kernel
    intro q hq
    simpa [hq, Except.toOption] using hmap
  rw [hfound, Option.some.injEq] at hsearch
  rw [hnone _ hint] at hnext
  exact absurd (hnext.trans hsearch.symm) (by decide)

end Z80OS.Basic
