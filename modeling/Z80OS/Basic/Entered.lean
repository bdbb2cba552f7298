import Z80OS.Basic.Capacity
import Z80OS.Basic.Changes

set_option relaxedAutoImplicit false
set_option autoImplicit false

/-!
# `LIST` and `RUN` see the entered program

The interpreter has no pointer to the first line: `LIST` and `RUN` begin at the start of the region
of the program. The first line is there when no memory has been allocated in front of it.

## Main definitions

* `Z80OS.Basic.linesText` — the text of lines.
* `Z80OS.Basic.Linked` — the lines that have been inserted are linked, from the start of the region
  on.
* `Z80OS.Basic.SeesProgram` — `LIST` and `RUN` see the lines that have been inserted.

## Main results

* `Z80OS.Basic.seesProgram` — they do in sessions of tame statements under a condition.
-/

namespace Z80OS.Basic

/-- The text of a statement that is given by its bytes. -/
def stmtText (stmt : List UInt8) : Option (List UInt8) :=
  programListStmt (Ram.memcpy (fun _ => 0) 0 stmt) 0

/-- The text of lines, one after the other. -/
def linesText : List Line → Option (List UInt8)
  | [] => some []
  | l :: ls =>
    match stmtText l.stmt with
    | none => none
    | some text => (linesText ls).map fun rest => printNumeric l.lineno ++ 0x20 :: text ++ rest

/-- The address of the first line, or `NULL`. -/
def firstAddr (lines : List Line) : ℕ := (lines.head?.map Line.addr).getD null

section

variable [Target] {s s' : State} {p : List ProgLine} {a : ℕ} {ts : List Token} {o : Outcome}

/-- The lines that have been inserted are linked in their order, forwards and backwards, and the
first one is at the start of the region. -/
structure Linked (s : State) : Prop where
  first : s.inserted ≠ [] → (programRunInit s).programNextLine = firstAddr s.inserted
  next : ∀ before l after, s.inserted = before ++ l :: after →
    progNext s.ram l.addr = firstAddr after
  prev : ∀ before l after, s.inserted = before ++ l :: after →
    progPrev s.ram l.addr = firstAddr before.reverse

/-- `LIST` prints exactly the lines that have been inserted. -/
def ListsLines (s : State) (a : ℕ) : Prop :=
  ∃ text, linesText s.inserted = some text ∧
    statementInterpret 1 s a = .ok (.done .noerror, s.print text)

/-- `RUN` starts at the first line that has been inserted. -/
def RunsLines (s : State) (a : ℕ) : Prop :=
  ∃ s', statementInterpret 1 s a = .ok (.run, s') ∧
    s'.programNextLine = firstAddr s.inserted

/-- What `LIST` and `RUN` do where they are executed in a step. -/
def SeesProgram (s : State) (input : Input) : Prop :=
  ∀ s₁ a, StepExecutes s input s₁ a → (KeywordAt s₁ a keywordList → ListsLines s₁ a) ∧
    (KeywordAt s₁ a keywordRun → RunsLines s₁ a)

/-- A condition for statements.

* No memory is allocated in front of the first line.
* No line has the number 0, at which `LIST` stops.
* The program executes no `GOTO` and `GOSUB`, which are listed as jumps to an address.
* `LIST` is executed when there is a line, or zero in place of its number. -/
structure Orderly (s : State) (a : ℕ) : Prop where
  allocates : Allocates s a → s.inserted ≠ []
  inserts : s.ram a = tokNumeric → numericGet s.ram a ≠ 0
  jumps : ¬ JumpsByNumber s a
  lists : KeywordAt s a keywordList → s.inserted ≠ [] ∨ progLineno s.ram Target.programStart = 0

/-! ## The invariant -/

/-- The first line is at the start of the region, and no line has the number 0. -/
structure Headed (s : State) : Prop where
  empty : s.inserted = [] → s.programEndPtr = Target.programStart
  first : ∀ l, s.inserted.head? = some l → l.addr = Target.programStart
  lineno : ∀ l ∈ s.inserted, l.lineno ≠ 0
  unrewritten : Unrewritten s

/-- Orderly statements carry the address of the first line along.

**Proof sketch.** By cases on what the statement does to the program (`Stands.change`). Only an
insertion and `NEW` change the lines: a first line is stored at the end of an empty program, and the
condition gives its number. -/
theorem carries_headed : Carries Orderly Headed where
  congr s s' hsame hh := by
    refine ⟨fun he => ?_, fun l hl => ?_, fun l hl => ?_, hh.unrewritten.same hsame⟩
    · rw [hsame.programEndPtr]
      exact hh.empty (hsame.inserted ▸ he)
    · exact hh.first l (hsame.inserted ▸ hl)
    · exact hh.lineno l (hsame.inserted ▸ hl)
  step := by
    intro s p a ts o s' hrep hs htame hc hif hint hh
    have hu' :=
      carries_unrewritten.step s p a ts o s' hrep hs htame hc.jumps hif hint hh.unrewritten
    cases hs.change hrep htame hif hint with
    | same h =>
      refine ⟨fun he => ?_, fun l hl => ?_, fun l hl => ?_, hu'⟩
      · rw [h.programEndPtr]
        exact hh.empty (h.inserted ▸ he)
      · exact hh.first l (h.inserted ▸ hl)
      · exact hh.lineno l (h.inserted ▸ hl)
    | element b w hlines h =>
      have hins : s'.inserted = s.inserted := h.inserted
      refine ⟨fun he => ?_, fun l hl => ?_, fun l hl => ?_, hu'⟩
      · rw [h.programEndPtr]
        exact hh.empty (hins ▸ he)
      · exact hh.first l (hins ▸ hl)
      · exact hh.lineno l (hins ▸ hl)
    | insert w rest hk hw hstream h =>
      have hins : s'.inserted = s.inserted ++ [⟨s.programEndPtr, toNumeric w, stored rest⟩] := by
        rw [h]
        rfl
      refine ⟨fun he => ?_, fun l hl => ?_, fun l hl => ?_, hu'⟩
      · rw [hins] at he
        exact absurd he (by simp)
      · rw [hins, List.head?_append] at hl
        cases hhead : s.inserted.head? with
        | some x =>
          rw [hhead, Option.some_or] at hl
          exact Option.some.inj hl ▸ hh.first x hhead
        | none =>
          rw [hhead, Option.none_or, List.head?_cons, Option.some.injEq] at hl
          rw [← hl]
          exact hh.empty (List.head?_eq_none_iff.1 hhead)
      · rw [hins, List.mem_append, List.mem_singleton] at hl
        rcases hl with hl | rfl
        · exact hh.lineno l hl
        · show toNumeric w ≠ 0
          exact hw ▸ hc.inserts hk
    | new h =>
      subst h
      exact ⟨fun _ => rfl, fun l hl => absurd hl (by simp [programNew]),
        fun l hl => absurd hl List.not_mem_nil, hu'⟩
    | alloc size hk h =>
      have hins : s'.inserted = s.inserted := h.inserted
      refine ⟨fun he => ?_, fun l hl => ?_, fun l hl => ?_, hu'⟩
      · exact absurd (hins ▸ he) (hc.allocates hk)
      · exact hh.first l (hins ▸ hl)
      · exact hh.lineno l (hins ▸ hl)
    | jump hk => exact absurd hk hc.jumps

/-- The first line is where the program starts when the interpreter does. -/
theorem headed_boot (s₀ : State) : Headed (boot s₀) :=
  ⟨fun _ => rfl, fun l hl => absurd hl (by simp [boot, programNew]),
    fun l hl => absurd hl List.not_mem_nil, fun l hl => absurd hl List.not_mem_nil⟩

/-! ## The links -/

omit [Target] in
/-- The first address of the lines of a program. -/
theorem firstAddr_map (p : List ProgLine) : firstAddr (p.map ProgLine.line) = addrOf p.head? := by
  cases p <;> rfl

/-- A line that has been inserted, in its place in the program. -/
theorem Represents.exists_split (h : Represents s p) {before after : List Line} {l : Line}
    (hl : s.inserted = before ++ l :: after) :
    ∃ pb x pa, p = pb ++ x :: pa ∧ before = pb.map ProgLine.line ∧ l = x.line ∧
      after = pa.map ProgLine.line := by
  rw [h.inserted, List.map_eq_append_iff] at hl
  obtain ⟨pb, rest, rfl, rfl, hrest⟩ := hl
  rw [List.map_eq_cons_iff] at hrest
  obtain ⟨x, pa, rfl, rfl, rfl⟩ := hrest
  exact ⟨pb, x, pa, rfl, rfl, rfl, rfl⟩

/-- A program in memory is linked from its first line on. -/
theorem Represents.linked (h : Represents s p) (hh : Headed s) : Linked s where
  first hne := by
    cases hins : s.inserted with
    | nil => exact absurd hins hne
    | cons l lines => exact (hh.first l (by rw [hins]; rfl)).symm
  next before l after hl := by
    obtain ⟨pb, x, pa, hp, -, rfl, rfl⟩ := h.exists_split hl
    rw [firstAddr_map]
    exact (h.lines _ _ _ hp).next
  prev before l after hl := by
    obtain ⟨pb, x, pa, hp, rfl, rfl, -⟩ := h.exists_split hl
    rw [← List.map_reverse, firstAddr_map, List.head?_reverse]
    exact (h.lines _ _ _ hp).prev

/-! ## The listing -/

omit [Target] in
/-- A statement that is stored has a text. -/
theorem stmtText_stored {ts : List Token} (hs : Stream ts) (hlen : ts.length < ramSize) :
    stmtText (stored ts) = some (listing ts ++ newline) :=
  programListStmt_eq hs (Ram.holds_memcpy _ _ _) hlen

/-- The statement of a line has fewer tokens than there are bytes of memory. -/
theorem Represents.length_typed_lt (h : Represents s p) {l : ProgLine} (hl : l ∈ p) :
    l.typed.length < ramSize := by
  obtain ⟨before, after, hp⟩ := List.append_of_mem hl
  have hlen := (h.lines _ _ _ hp).rewritten.length_stored
  have hshort := h.short l hl
  have hle := length_le_length_encode l.typed
  rw [ProgLine.stop, hlen, stored, List.length_append, List.length_singleton] at hshort
  unfold progStmt progHdrSize at hshort
  unfold ramSize
  omega

/-- From a line on, the lines behind it are printed. -/
theorem Represents.programListTo_eq (h : Represents s p) (hh : Headed s) (before : List ProgLine)
    {after : List ProgLine} (hp : p = before ++ after) {k : ℕ} (hk : after.length < k) :
    programListTo s.ram k (addrOf after.head?) = linesText (after.map ProgLine.line) := by
  induction after generalizing before k with
  | nil =>
    obtain ⟨k, rfl⟩ : ∃ k', k = k' + 1 := ⟨k - 1, by simp at hk; omega⟩
    rw [programListTo, if_pos (.inl rfl)]
    rfl
  | cons l after ih =>
    obtain ⟨k, rfl⟩ : ∃ k', k = k' + 1 := ⟨k - 1, by simp at hk; omega⟩
    have hmem : l ∈ p := by simp [hp]
    have hline : l.line ∈ s.inserted := by
      rw [h.inserted]
      exact List.mem_map_of_mem hmem
    have hat := h.lines _ _ _ hp
    have hpos := h.addr_pos hmem
    have hlen := h.length_typed_lt hmem
    have hne : ¬ (l.addr = null ∨ progLineno s.ram l.addr = 0) := by
      rintro (he | he)
      · exact hpos.ne' he
      · exact hh.lineno _ hline (hat.lineno.symm.trans he)
    have hstmt : programListStmt s.ram (progStmt l.addr) = some (listing l.typed ++ newline) :=
      programListStmt_eq (h.typed l hmem) (hh.unrewritten _ hline).2 hlen
    have hrest := ih (before ++ [l]) (by simp [hp]) (by simpa using hk)
    show programListTo s.ram (k + 1) l.addr = _
    rw [programListTo, if_neg hne, hstmt, hat.next, hat.lineno, hrest, List.map_cons, linesText]
    simp only [ProgLine.line, stmtText_stored (h.typed l hmem) hlen]

/-- A program in memory has a text. -/
theorem exists_linesText (h : Represents s p) : ∃ text, linesText s.inserted = some text := by
  have key : ∀ q : List ProgLine, (∀ l ∈ q, l ∈ p) →
      ∃ text, linesText (q.map ProgLine.line) = some text := by
    intro q
    induction q with
    | nil => exact fun _ => ⟨[], rfl⟩
    | cons l q ih =>
      intro hq
      obtain ⟨text, htext⟩ := ih fun x hx => hq x (List.mem_cons_of_mem _ hx)
      have hl := hq l List.mem_cons_self
      rw [List.map_cons, linesText]
      simp only [ProgLine.line, stmtText_stored (h.typed l hl) (h.length_typed_lt hl)]
      rw [show linesText (q.map ProgLine.line) = some text from htext]
      exact ⟨_, rfl⟩
  rw [h.inserted]
  exact key p fun _ hl => hl

/-- `LIST` prints exactly the lines that have been inserted. -/
theorem Represents.listsLines (h : Represents s p) (hh : Headed s) (hc : Orderly s a)
    (hk : KeywordAt s a keywordList) : ListsLines s a := by
  obtain ⟨text, htext⟩ := exists_linesText h
  refine ⟨text, htext, ?_⟩
  have hto : programListTo s.ram ramSize Target.programStart = some text := by
    cases hp : p with
    | nil =>
      have hins : s.inserted = [] := by rw [h.inserted, hp]; rfl
      have hzero := (hc.lists hk).resolve_left (not_not.2 hins)
      rw [hins] at htext
      obtain rfl := Option.some.inj htext
      show programListTo s.ram (65535 + 1) Target.programStart = some []
      rw [programListTo, if_pos (.inr hzero)]
    | cons l rest =>
      have hfirst : l.addr = Target.programStart := hh.first l.line (by rw [h.inserted, hp]; rfl)
      have hall := h.programListTo_eq hh [] (List.nil_append p).symm h.length_lt
      rw [← h.inserted, htext, hp, List.head?_cons, addrOf_some, hfirst] at hall
      exact hall
  rw [statementInterpret, hk.1, if_neg (by decide), if_pos rfl, hk.2]
  show doList s = _
  simp only [doList, programList, hto, orFault, Except.map]

/-! ## Sessions -/

/-- `RUN` starts at the first line that has been inserted. -/
theorem Headed.runsLines (hh : Headed s) (htame : Tame s a) (hk : KeywordAt s a keywordRun) :
    RunsLines s a := by
  refine ⟨programRunInit s, ?_, ?_⟩
  · rw [statementInterpret, hk.1, if_neg (by decide), if_pos rfl, hk.2]
    rfl
  · obtain ⟨l, hl, -⟩ := htame.run_first hk
    rw [firstAddr, hl, Option.map_some, Option.getD_some]
    exact (hh.first l hl).symm

/-- **`LIST` and `RUN` see exactly the entered program.** In every session of tame and modest
statements that meet the condition, no step leaves a table, and the lines inserted since the last
`NEW` are linked in their order, forwards and backwards, with the first one where a run starts,
after every step; and every `LIST` that is executed prints exactly these lines, and every `RUN`
starts at the first of them.

**Proof sketch.** Memory stands for a program, whose lines are the ones that have been inserted. The
first line stays at the start of the region: it is inserted when the region is empty, and nothing is
allocated in front of it. The listing follows the links, over the statements as they were
inserted. -/
theorem seesProgram {s₀ : State} {inputs : List Input}
    (h : Run.Each basicRun (Tamely fun s a => Orderly s a ∧ Modest s a) (boot s₀) inputs) :
    Run.Each basicRun (fun s input => SeesProgram s input ∧ Enforces s input) (boot s₀) inputs ∧
      Run.Always basicRun (fun s input _ s' => SeesProgram s input ∧ Linked s') (boot s₀)
        inputs := by
  have horderly : Run.Each basicRun (Tamely Orderly) (boot s₀) inputs :=
    h.mono fun s input ht => ht.mono fun _ _ hc => hc.1
  have hmodest : Run.Each basicRun StepModest (boot s₀) inputs :=
    h.mono fun s input ht s₁ a hex => (ht.2 s₁ a hex).2.2
  -- what is executed finds the lines that have been inserted
  have hsees : Run.Each basicRun (fun s input => SeesProgram s input) (boot s₀) inputs := by
    refine (horderly.and (carries_headed.each (headed_boot s₀) horderly)).mono ?_
    rintro s input ⟨⟨-, htame⟩, hplaced⟩ s₁ a hex
    obtain ⟨⟨p, ts, hrep, -⟩, hh⟩ := hplaced s₁ a hex
    obtain ⟨ht, hc⟩ := htame s₁ a hex
    exact ⟨hrep.listsLines hh hc, hh.runsLines ht⟩
  have hlinked := carries_headed.always (headed_boot s₀) horderly.always
  refine ⟨hsees.and (Contained.each hmodest), (hsees.always.and hlinked).mono ?_⟩
  rintro s input e s' ⟨hsees, ⟨hh', p, hrep, -⟩, -⟩
  exact ⟨hsees, hrep.linked hh'⟩

/-- A test for `Orderly`. -/
def orderlyTest (s : State) (a : ℕ) : Bool :=
  (!kwCheck s.ram a keywordDim || !s.inserted.isEmpty) &&
  (s.ram a ≠ tokNumeric || numericGet s.ram a ≠ 0) &&
  !jumpsByNumberTest s a &&
  (!kwCheck s.ram a keywordList || !s.inserted.isEmpty ||
    progLineno s.ram Target.programStart = 0)

/-- The test finds out that a statement is orderly. -/
theorem orderly_of_test (h : orderlyTest s a = true) : Orderly s a := by
  simp only [orderlyTest, Bool.and_eq_true, Bool.or_eq_true, Bool.not_eq_true', decide_eq_true_eq,
    List.isEmpty_eq_false_iff] at h
  obtain ⟨⟨⟨hdim, hins⟩, hjump⟩, hlist⟩ := h
  refine ⟨fun hk => ?_, fun hk => ?_, ?_, fun hk => ?_⟩
  · rw [kwCheck_eq_true.2 hk.keyword] at hdim
    exact hdim.resolve_left (by simp)
  · exact hins.resolve_left (not_not.2 hk)
  · exact not_jumpsByNumber_of_test (by simp [hjump])
  · rw [kwCheck_eq_true.2 hk] at hlist
    exact hlist.imp (fun hl => hl.resolve_left (by simp)) id

end

/-- Lines, direct statements and runs in some order. -/
def entrySession : List Input :=
  [.line (ascii ['2', '0', ' ', 'X', '=', 'X', '+', '1']),
   .line (ascii ['D', 'I', 'M', ' ', 'A', '(', '3', ')']),
   .line (ascii ['1', '0', ' ', 'E', 'N', 'D']),
   .line (ascii ['L', 'I', 'S', 'T']),
   .line (ascii ['R', 'U', 'N']), .go, .go,
   .line (ascii ['N', 'E', 'W']),
   .line (ascii ['3', '0', ' ', 'E', 'N', 'D']),
   .line (ascii ['L', 'I', 'S', 'T']),
   .line (ascii ['R', 'U', 'N']), .go]

/-- A program that is entered, listed and run. -/
theorem seesProgram_entrySession :
    letI := Target.small
    Run.Each basicRun (fun s input => SeesProgram s input ∧ Enforces s input) (boot State.zeroed)
        entrySession ∧
      Run.Always basicRun (fun s input _ s' => SeesProgram s input ∧ Linked s') (boot State.zeroed)
        entrySession := by
  let _ := Target.small
  refine seesProgram (each_tamely_of_test (c := fun s a => orderlyTest s a && modestTest s a)
    (fun _ _ h => ?_) (by decide +kernel))
  rw [Bool.and_eq_true] at h
  exact ⟨orderly_of_test h.1, modest_of_test h.2⟩

/-- `LIST` and `RUN` see the entered program in all sessions. -/
def AlwaysSees [Target] : Prop :=
  ∀ inputs, Typeable (boot State.zeroed) inputs →
    Run.Always basicRun (fun s input _ s' => SeesProgram s input ∧ Linked s') (boot State.zeroed)
      inputs

/-- A statement that has been copied starts with its keyword. -/
theorem keywordAt_memcpy (s : State) (a : ℕ) (kw : UInt8) (ts : List Token) :
    KeywordAt (s.memcpy a (stored (.keyword kw :: ts))) a kw := by
  have hholds := holds_of_keyword (Ram.holds_memcpy s.ram a (stored (.keyword kw :: ts)))
  exact ⟨hholds.1, hholds.2.1⟩

/-- A program that `NEW` has removed. -/
def removedSession : List Input :=
  [.line (ascii ['1', '0', ' ', 'E', 'N', 'D']), .line (ascii ['N', 'E', 'W'])]

/-- `LIST` still prints a program that `NEW` has removed. -/
theorem not_alwaysSees : ¬ @AlwaysSees Target.small := by
  intro h
  let _ := Target.small
  obtain ⟨e, hsees, -⟩ := always_sessionEnd
    (h (removedSession ++ [.line (ascii ['L', 'I', 'S', 'T'])])
      (typeable_of_check (by decide +kernel))) (by decide +kernel)
  set s := sessionEnd removedSession with hs
  have ht : statementTokenize (ascii ['L', 'I', 'S', 'T']) =
      some (.noerror, stored [.keyword keywordList]) := by decide +kernel
  have hex : StepExecutes s (.line (ascii ['L', 'I', 'S', 'T']))
      (s.memcpy Target.statement (stored [.keyword keywordList])) Target.statement :=
    .direct ht .here
  obtain ⟨text, htext, hint⟩ := (hsees _ _ hex).1 (keywordAt_memcpy s _ _ [])
  have hnone : linesText (s.memcpy Target.statement (stored [.keyword keywordList])).inserted =
      some [] := by
    rw [hs]
    decide +kernel
  have houtput : ((statementInterpret 1 (s.memcpy Target.statement (stored [.keyword keywordList]))
      Target.statement).toOption.map fun q => q.2.output) ≠ some s.output := by
    rw [hs]
    decide +kernel
  rw [hnone, Option.some.injEq] at htext
  rw [hint, ← htext] at houtput
  exact houtput (by simp [Except.toOption, State.print, State.memcpy, State.withRam])

end Z80OS.Basic
