import Z80OS.Basic.Flow

set_option relaxedAutoImplicit false
set_option autoImplicit false

/-!
# Sessions of tame statements

Whatever lines are inserted and however the program runs: as long as every statement that is
executed is tame, memory stands for a program, and the flow of control of a running program stays in
it. This file proves so from what single statements do. Another invariant, which depends on the
region of the program only and which single statements keep under a condition of its own, is carried
along.

## Main definitions

* `Z80OS.Basic.SameProgram` — the region of the program is the same.
* `Z80OS.Basic.Carries` — single statements keep an invariant.
* `Z80OS.Basic.Intact` — what holds between the steps of a session.

## Main results

* `Z80OS.Basic.Carries.always` — what holds in every session of tame statements.
-/

namespace Z80OS.Basic

section

variable [Target]

/-- The region of the program is the same, with the lines that have been inserted. -/
structure SameProgram (s s' : State) : Prop where
  programEndPtr : s'.programEndPtr = s.programEndPtr
  inserted : s'.inserted = s.inserted
  ram : ∀ b, Target.programStart ≤ b → s'.ram b = s.ram b

/-- A program stays as it is when memory does. -/
theorem SameProgram.of_ram {s s' : State} (hend : s'.programEndPtr = s.programEndPtr)
    (hins : s'.inserted = s.inserted) (hram : s'.ram = s.ram) : SameProgram s s' :=
  ⟨hend, hins, fun _ _ => by rw [hram]⟩

/-- A quiet step leaves the program. -/
theorem SameProgram.of_quiet {s s' : State} (h : Quiet s s') : SameProgram s s' :=
  .of_ram h.programEndPtr h.inserted h.ram

/-- Tame statements that meet the condition `C` keep the invariant `J`, which depends on the region
of the program only. -/
structure Carries (C : State → ℕ → Prop) (J : State → Prop) : Prop where
  congr : ∀ s s', SameProgram s s' → J s → J s'
  step : ∀ s p a ts o s', Represents s p → Stands s p a ts → Tame s a → C s a → ¬ IsIf s a →
    statementInterpret 1 s a = .ok (o, s') → J s → J s'

variable {C : State → ℕ → Prop} {J : State → Prop} {s s' : State} {p : List ProgLine} {a k : ℕ}
  {ts : List Token} {o : Outcome}

/-! ## Sub-statements -/

/-- The tokens behind the first `THEN` stand behind it. -/
theorem TokensAt.sub {e sub : List Token} {a₁ : ℕ}
    (h : TokensAt s p a (.keyword keywordIf :: (e ++ .keyword keywordThen :: sub)))
    (ha : a₁ = a + kwSize + (encode e).length + kwSize) : TokensAt s p a₁ sub := by
  have hsplit : (.keyword keywordIf :: (e ++ .keyword keywordThen :: sub) : List Token) =
      (.keyword keywordIf :: (e ++ [.keyword keywordThen])) ++ sub := by simp
  have hlen : a₁ = a + (encode (.keyword keywordIf :: (e ++ [.keyword keywordThen]))).length := by
    rw [ha]
    simp only [encode_cons, encode_append, encode_nil, Token.bytes, List.length_append,
      List.length_cons, List.length_nil, kwSize]
    omega
  rw [hsplit] at h
  refine ⟨h.stream.append, ?_, ?_⟩
  · have hholds := h.holds
    rw [stored_append, Ram.holds_append, ← hlen] at hholds
    exact hholds.2
  · rcases h.place with ⟨before, l, after, hline⟩ | ⟨hge, hle⟩
    · obtain ⟨pre, hl, hpre⟩ := hline.tokens
      refine .inl ⟨before, l, after, hline.program,
        pre ++ .keyword keywordIf :: (e ++ [.keyword keywordThen]), ?_, ?_⟩
      · rw [hl, List.append_assoc]
      · rw [hlen, hpre, encode_append, List.length_append]
        omega
    · rw [stored_append, List.length_append] at hle
      exact .inr ⟨by omega, by omega⟩

omit [Target] in
/-- What is behind the first occurrence of an element. -/
theorem append_cons_inj {α : Type*} {x : α} {e e' sub sub' : List α} (he : x ∉ e) (he' : x ∉ e')
    (h : e ++ x :: sub = e' ++ x :: sub') : sub = sub' := by
  induction e generalizing e' with
  | nil =>
    cases e' with
    | nil => exact (List.cons.inj h).2
    | cons y e' => exact absurd (List.cons.inj h).1 (List.ne_of_not_mem_cons he')
  | cons y e ih =>
    cases e' with
    | nil => exact absurd (List.cons.inj h).1.symm (List.ne_of_not_mem_cons he)
    | cons z e' =>
      exact ih (List.not_mem_of_not_mem_cons he) (List.not_mem_of_not_mem_cons he')
        (List.cons.inj h).2

omit [Target] in
/-- The sub-statement of a statement that leads to `RUN` does so. -/
theorem LeadsToRun.of_sub {e sub : List Token}
    (h : LeadsToRun (.keyword keywordIf :: (e ++ .keyword keywordThen :: sub)))
    (he : Token.keyword keywordThen ∉ e) : LeadsToRun sub := by
  generalize hts : (.keyword keywordIf :: (e ++ .keyword keywordThen :: sub) : List Token) = ts at h
  cases h with
  | run rest =>
    simp only [List.cons.injEq, Token.keyword.injEq] at hts
    exact absurd hts.1 (by decide)
  | sub he' h =>
    simp only [List.cons.injEq, true_and] at hts
    exact append_cons_inj he he' hts ▸ h

/-! ## Whole statements -/

/-- The program stands where it stood. -/
theorem Kept.refl (hs : Stands s p a ts) (h : Represents s p) : Kept s p s :=
  ⟨h, rfl, rfl, rfl, fun hmode => (hs.running hmode).1⟩

/-- A quiet change keeps everything. -/
theorem Kept.of_quiet (hs : Stands s p a ts) (h : Represents s p) (hq : Quiet s s') :
    Kept s p s' := by
  refine ⟨h.same hq.inserted hq.programLastInsertedLine hq.programEndPtr hq.ram, hq.ram, hq.mode,
    hq.programCurrentLine, fun hmode => ?_⟩
  exact (hs.running hmode).1.evolves (Evolves.refl p) hq.programNextLine hq.programReturnStack

/-- A line that a step has left is where it was. -/
theorem Stands.kept (hs : Stands s p a ts) (hk : Kept s p s') : Stands s' p a ts where
  tokens := hs.tokens.congr hk.ram
  running hmode := by
    have hmode' : s.mode ≠ .ready := hk.mode ▸ hmode
    obtain ⟨-, before, l, after, hline, hcur⟩ := hs.running hmode'
    exact ⟨hk.control hmode', before, l, after, hline, hcur.trans hk.current.symm⟩
  ready hmode := hs.ready (hk.mode ▸ hmode)

/-- The sub-statement of a tame statement stands behind the first `THEN`. -/
theorem Stands.sub {s₁ : State} {a₁ : ℕ} (hs : Stands s p a ts) (h : Represents s p)
    (htame : Tame s a) (hthen : ThenAt s a s₁ a₁) :
    Kept s p s₁ ∧ ∃ sub, Stands s₁ p a₁ sub ∧ (LeadsToRun sub → LeadsToRun ts) := by
  have hk : Kept s p s₁ := .of_quiet hs h (ifSub_quiet hthen.2)
  obtain ⟨e, sub, rfl, he, ha⟩ := htame.then_first ts hs.tokens.stream hs.tokens.holds s₁ a₁ hthen
  have hat := hs.tokens.sub ha
  have hsub : Stands s p a₁ sub := by
    refine ⟨hat, fun hmode => ?_, fun hmode => ?_⟩
    · obtain ⟨hc, before, l, after, hline, hcur⟩ := hs.running hmode
      refine ⟨hc, before, l, after, ⟨hline.program, ?_⟩, hcur⟩
      obtain ⟨pre, hl, hpre⟩ := hline.tokens
      refine ⟨pre ++ .keyword keywordIf :: (e ++ [.keyword keywordThen]), by simp [hl], ?_⟩
      rw [ha, hpre]
      simp only [encode_cons, encode_append, encode_nil, Token.bytes, List.length_append,
        List.length_cons, List.length_nil, kwSize]
      omega
    · rcases hs.ready hmode with ⟨hge, hle⟩ | hrun
      · have hsplit : (.keyword keywordIf :: (e ++ .keyword keywordThen :: sub) : List Token) =
            (.keyword keywordIf :: (e ++ [.keyword keywordThen])) ++ sub := by simp
        rw [hsplit, stored_append, List.length_append] at hle
        simp only [encode_cons, encode_append, encode_nil, Token.bytes, List.length_append,
          List.length_cons, List.length_nil, List.append_nil] at hle
        simp only [kwSize] at ha
        exact .inl ⟨by omega, by omega⟩
      · exact .inr (hrun.of_sub he)
  exact ⟨hk, sub, hsub.kept hk, fun hrun => .sub he hrun⟩

/-- A statement other than `IF` that starts the program is `RUN`. -/
theorem keywordAt_run (hif : ¬ IsIf s a) (h : statementInterpret 1 s a = .ok (.run, s')) :
    KeywordAt s a keywordRun := by
  cases effect_of_statementInterpret hif h with
  | run hk => exact hk
  | goto _ hgoto =>
    rcases doGoto_eq_ok hgoto with ⟨e, he, -⟩ | ⟨-, hjump⟩
    · exact absurd he (by simp)
    · exact absurd (transferRewrite_eq_ok hjump).1 (by simp)
  | gosub _ hgosub =>
    rcases doGosub_eq_ok hgosub with ⟨e, he, -⟩ | ⟨-, s₁, -, hjump⟩
    · exact absurd he (by simp)
    · exact absurd (transferRewrite_eq_ok hjump).1 (by simp)
  | jumpto _ hjump => exact absurd rfl (doJumpto_moves hjump).1
  | jumpsub _ hjump => exact absurd rfl (doJumpsub_moves hjump).1
  | «for» _ hfor => exact absurd rfl (doFor_moves hfor).1
  | next _ hnext => exact absurd rfl (doNext_moves hnext).1
  | «return» _ hret => exact absurd rfl (doReturn_moves hret).1
  | dim _ hdim =>
    rcases doDim_eq_ok hdim with ⟨e, he, -⟩ | ⟨he, -⟩
    · exact absurd he (by simp)
    · exact absurd he (by simp)

/-- A step that ends with an error has left the program. -/
theorem Flows.kept {e : Error} (h : Flows s p (.done e) s') (he : e ≠ .noerror) : Kept s p s' := by
  cases h with
  | failed _ kept => exact kept
  | done _ _ => exact absurd rfl he

/-- All statements that the interpretation of a statement comes to are tame and meet a condition. -/
def AllTame (C : State → ℕ → Prop) (k : ℕ) (s : State) (a : ℕ) : Prop :=
  ∀ s' a', Executes k s a s' a' → Tame s' a' ∧ C s' a'

/-- A statement that is tame with all that it executes is tame. -/
theorem AllTame.here (h : AllTame C (k + 1) s a) : Tame s a ∧ C s a := h s a .here

/-- The interpretation of a statement in the state `s` has come to another statement. -/
structure Course (C : State → ℕ → Prop) (s : State) (p : List ProgLine) (ts : List Token) (k : ℕ)
    (s₁ : State) (a₁ : ℕ) : Prop where
  kept : Kept s p s₁
  stands : ∃ ts₁, Stands s₁ p a₁ ts₁ ∧ (LeadsToRun ts₁ → LeadsToRun ts)
  tame : AllTame C k s₁ a₁

namespace Course

variable {s₁ s₂ s₃ : State} {a₁ a₂ : ℕ} {e : Error}

/-- The execution of a statement begins with it. -/
theorem start (hs : Stands s p a ts) (h : Represents s p) (htame : AllTame C k s a) :
    Course C s p ts k s a :=
  ⟨.refl hs h, ⟨ts, hs, id⟩, htame⟩

/-- A sub-statement is interpreted. -/
theorem sub (hc : Course C s p ts (k + 1) s₁ a₁) (hthen : ThenAt s₁ a₁ s₂ a₂) :
    Course C s p ts k s₂ a₂ := by
  obtain ⟨hk, ⟨ts₁, hs₁, hrun⟩, htame⟩ := hc
  obtain ⟨hk₂, sub, hsub, hlead⟩ := hs₁.sub hk.represents htame.here.1 hthen
  exact ⟨hk.trans hk₂, ⟨sub, hsub, fun hr => hrun (hlead hr)⟩,
    fun s' a' hex => htame s' a' (.sub hthen hex)⟩

/-- A sub-statement is interpreted again after it has failed. -/
theorem again (hc : Course C s p ts (k + 1) s₁ a₁) (hthen : ThenAt s₁ a₁ s₂ a₂)
    (hfail : statementInterpret k s₂ a₂ = .ok (.done e, s₃)) (he : e ≠ .noerror)
    (hk₃ : Kept s p s₃) : Course C s p ts k s₃ a₂ := by
  obtain ⟨hk₂, ⟨sub, hsub, hlead⟩, -⟩ := hc.sub hthen
  have hk₂₃ : Kept s₂ p s₃ := ⟨hk₃.represents, hk₃.ram.trans hk₂.ram.symm,
    hk₃.mode.trans hk₂.mode.symm, hk₃.current.trans hk₂.current.symm,
    fun hmode => hk₃.control (hk₂.mode ▸ hmode)⟩
  exact ⟨hk₃, ⟨sub, hsub.kept hk₂₃, hlead⟩,
    fun s' a' hex => hc.tame s' a' (.again hthen hfail he hex)⟩

end Course

/-- A statement that fails keeps everything, and a statement that starts the program leads to
`RUN`. -/
theorem Stands.kept_or_leads (hs : Stands s p a ts) (h : Represents s p) (htame : AllTame C k s a)
    (hint : statementInterpret k s a = .ok (o, s')) :
    (∀ e, o = .done e → e ≠ .noerror → Kept s p s') ∧ (o = .run → LeadsToRun ts) := by
  refine statementInterpret_rule (I := Course C s p ts)
    (R := fun o s' => (∀ e, o = .done e → e ≠ .noerror → Kept s p s') ∧ (o = .run → LeadsToRun ts))
    ?_ ?_ ?_ ?_ ?_ (.start hs h htame) hint
  · rintro k s₁ a₁ o s₂ ⟨hk, ⟨ts₁, hs₁, hrun⟩, htame⟩ hif hint
    have hflows := hs₁.flows hk.represents htame.here.1 hif hint
    refine ⟨fun e he hne => ?_, fun ho => ?_⟩
    · subst he
      exact hk.trans (hflows.kept hne)
    · subst ho
      have hat := keywordAt_run hif hint
      obtain ⟨rest, rfl⟩ := keyword_of_holds hs₁.tokens.holds hat.1 hat.2
      exact hrun (.run rest)
  · rintro k s₁ a₁ e s₂ ⟨hk, ⟨ts₁, hs₁, -⟩, -⟩ - hstop
    refine ⟨fun _ _ _ => hk.trans (.of_quiet hs₁ hk.represents (ifSub_quiet hstop)), ?_⟩
    intro ho
    exact absurd ho (by simp)
  · intro k s₁ a₁ s₂ a₂ hc hthen
    exact hc.sub hthen
  · rintro k s₁ a₁ s₂ a₂ e s₃ hc hthen hfail hne ⟨hkept, -⟩
    exact hc.again hthen hfail hne (hkept e rfl hne)
  · rintro k s₁ a₁ s₂ a₂ s₃ nested again - - - - ⟨-, hlead⟩
    exact ⟨fun e he => absurd he (by simp), hlead⟩

/-- The interpretation of tame statements keeps the program, the flow of control and the
invariant.

**Proof sketch.** By `statementInterpret_rule`, with the invariant that the course of the
interpretation is tame and keeps the program: at a single statement (`Stands.flows`), at a condition
that fails, behind `THEN` (`Course.sub`), at a second attempt (`Course.again`) and at a run that has
been started. -/
theorem Stands.interpret_flows (hJ : Carries C J) (hs : Stands s p a ts) (h : Represents s p)
    (htame : AllTame C k s a) (hj : J s) (hint : statementInterpret k s a = .ok (o, s')) :
    Flows s p o s' ∧ J s' := by
  refine statementInterpret_rule (I := fun k s₁ a₁ => Course C s p ts k s₁ a₁ ∧ J s₁)
    (R := fun o s' => Flows s p o s' ∧ J s') ?_ ?_ ?_ ?_ ?_ ⟨.start hs h htame, hj⟩ hint
  · rintro k s₁ a₁ o s₂ ⟨⟨hk, ⟨ts₁, hs₁, -⟩, htame⟩, hj⟩ hif hint
    obtain ⟨ht, hc⟩ := htame.here
    exact ⟨.of_kept hk (hs₁.flows hk.represents ht hif hint),
      hJ.step s₁ p a₁ ts₁ o s₂ hk.represents hs₁ ht hc hif hint hj⟩
  · rintro k s₁ a₁ e s₂ ⟨⟨hk, ⟨ts₁, hs₁, -⟩, -⟩, hj⟩ - hstop
    have hq := ifSub_quiet hstop
    exact ⟨.of_kept hk (hs₁.flows_quiet e hk.represents hq), hJ.congr _ _ (.of_quiet hq) hj⟩
  · rintro k s₁ a₁ s₂ a₂ ⟨hc, hj⟩ hthen
    exact ⟨hc.sub hthen, hJ.congr _ _ (.of_quiet (ifSub_quiet hthen.2)) hj⟩
  · rintro k s₁ a₁ s₂ a₂ e s₃ ⟨hc, -⟩ hthen hfail hne ⟨hflows, hj⟩
    exact ⟨hc.again hthen hfail hne (hflows.kept hne), hj⟩
  · rintro k s₁ a₁ s₂ a₂ s₃ nested again ⟨hc, -⟩ hthen hint hmode ⟨hflows, hj⟩
    obtain ⟨hk₂, ⟨sub, hsub, -⟩, htame₂⟩ := hc.sub hthen
    have hlead : LeadsToRun sub := (hsub.kept_or_leads hk₂.represents htame₂ hint).2 rfl
    cases hflows with
    | run hrep ram mode control next hagain =>
      rw [hmode, Mode.running.injEq] at mode
      obtain ⟨rfl, rfl⟩ := mode
      refine ⟨.run (hrep.same rfl rfl rfl rfl) ram rfl ⟨control.next, control.stack⟩ next ?_, ?_⟩
      · intro b hb
        rw [List.mem_append, List.mem_singleton] at hb
        rcases hb with hb | rfl
        · exact (hagain b hb).congr rfl
        · exact ⟨sub, hsub.tokens.congr (ram.trans hk₂.ram.symm), hlead⟩
      · exact hJ.congr s₃ _ (.of_ram rfl rfl rfl) hj

/-- What holds where a statement is executed. -/
def Placed (s : State) (a : ℕ) : Prop := ∃ p ts, Represents s p ∧ Stands s p a ts

/-- What holds in front of a statement holds in front of the statements that its interpretation
comes to. -/
theorem Executes.placed {s₁ : State} {a₁ : ℕ} (hJ : Carries C J) (hex : Executes k s₁ a₁ s' a)
    (hc : Course C s p ts k s₁ a₁) (hj : J s₁) : Placed s' a ∧ J s' ∧ s'.mode = s.mode := by
  induction hex with
  | here =>
    obtain ⟨hk, ⟨ts₁, hs₁, -⟩, -⟩ := hc
    exact ⟨⟨p, ts₁, hk.represents, hs₁⟩, hj, hk.mode⟩
  | sub hthen _ ih => exact ih (hc.sub hthen) (hJ.congr _ _ (.of_quiet (ifSub_quiet hthen.2)) hj)
  | again hthen hfail he _ ih =>
    have hc₂ := hc.sub hthen
    obtain ⟨hk₂, ⟨sub, hsub, -⟩, htame₂⟩ := id hc₂
    have hj₂ := hJ.congr _ _ (.of_quiet (ifSub_quiet hthen.2)) hj
    obtain ⟨hflows, hj₃⟩ := hsub.interpret_flows hJ hk₂.represents htame₂ hj₂ hfail
    exact ih (hc.again hthen hfail he (hk₂.trans (hflows.kept he))) hj₃

/-! ## Between the steps -/

/-- What holds between the steps of a session: memory stands for a program, and when the program
runs, the flow of control is in it, and the statements that have started the run lead to `RUN`. -/
def Intact (J : State → Prop) (s : State) : Prop :=
  J s ∧ ∃ p, Represents s p ∧ ∀ nested again, s.mode = .running nested again →
    Control s p ∧ s.programNextLine ≠ null ∧ ∀ b ∈ again, RunAt s p b

/-- A program that is stored and does not run is intact. -/
theorem Intact.of_ready (hj : J s) (h : Represents s p) (hmode : s.mode = .ready) : Intact J s :=
  ⟨hj, p, h, fun _ _ he => absurd (hmode.symm.trans he) (by simp)⟩

/-- A quiet step leaves the program intact. -/
theorem Intact.of_quiet (hJ : Carries C J) (h : Intact J s) (hq : Quiet s s') : Intact J s' := by
  obtain ⟨hj, p, hrep, hrun⟩ := h
  refine ⟨hJ.congr _ _ (.of_quiet hq) hj, p,
    hrep.same hq.inserted hq.programLastInsertedLine hq.programEndPtr hq.ram, ?_⟩
  intro nested again hmode
  obtain ⟨hc, hnext, hagain⟩ := hrun nested again (hq.mode ▸ hmode)
  exact ⟨hc.evolves (Evolves.refl p) hq.programNextLine hq.programReturnStack,
    hq.programNextLine ▸ hnext, fun b hb => (hagain b hb).congr hq.ram⟩

omit [Target] in
/-- The report of an error is quiet. -/
theorem reportInt_quiet (s : State) (e : Error) : Quiet s (reportInt s e) := by
  unfold reportInt
  split
  · exact Quiet.refl s
  · exact Quiet.print s _

/-- A run that a statement has started. -/
theorem Flows.intact_run (h : Flows s p .run s') (hj : J s') : Intact J s' := by
  cases h with
  | run hrep ram mode control next hagain =>
    refine ⟨hj, p, hrep, fun nested again hmode => ?_⟩
    rw [mode, Mode.running.injEq] at hmode
    exact ⟨control, next, hmode.2 ▸ hagain⟩

/-- A statement that ends when no program runs. -/
theorem Flows.intact_ready {e : Error} (h : Flows s p (.done e) s') (hmode : s.mode = .ready) :
    s'.mode = .ready ∧ ∃ p', Represents s' p' := by
  cases h with
  | failed _ kept => exact ⟨kept.mode.trans hmode, p, kept.represents⟩
  | @done s' p' hrep goes =>
    refine ⟨?_, p', hrep⟩
    by_contra hne
    exact hne ((goes hne).1.trans hmode)

/-! ## Direct statements -/

/-- A line that has been typed stands in the buffer. -/
theorem stands_buffer {text out : List UInt8} (h0 : 0 ∉ text)
    (hmode : s.mode = .ready) (ht : statementTokenize text = some (.noerror, out)) :
    ∃ ts, Stands (s.memcpy Target.statement out) p Target.statement ts := by
  obtain ⟨ts, rfl, hs, -, hlen⟩ := exists_of_statementTokenize h0 ht
  have hbuffer : Target.statement ≤ Target.statement ∧
      Target.statement + (stored ts).length ≤ Target.statement + statementSizeMax :=
    ⟨le_rfl, Nat.add_le_add_left hlen _⟩
  exact ⟨ts, ⟨hs, Ram.holds_memcpy _ _ _, .inr hbuffer⟩, fun hm => absurd hmode hm,
    fun _ => .inl hbuffer⟩

/-- A statement in the buffer does not change the program. -/
theorem Represents.fill_buffer {out : List UInt8} (h : Represents s p)
    (hlen : out.length ≤ statementSizeMax) :
    Represents (s.memcpy Target.statement out) p ∧
      SameProgram s (s.memcpy Target.statement out) := by
  refine ⟨h.buffer (Nat.add_le_add_left hlen _), rfl, rfl, fun b hb => ?_⟩
  have := Target.statement_le
  exact Ram.memcpy_of_le (by omega)

/-- A line that is entered leaves the program intact.

**Proof sketch.** The text is tokenized into the buffer, which keeps the program
(`Represents.fill_buffer`), and a statement stands there (`stands_buffer`). Its interpretation keeps
the program (`Stands.interpret_flows`), whether it ends or starts a run. -/
theorem Intact.line {text : List UInt8} {e : Error} (hJ : Carries C J) (h : Intact J s)
    (hmode : s.mode = .ready) (h0 : 0 ∉ text)
    (htame : ∀ s₁ a₁, StepExecutes s (.line text) s₁ a₁ → Tame s₁ a₁ ∧ C s₁ a₁)
    (hline : processLine s text = .ok (e, s')) : Intact J s' := by
  obtain ⟨hj, p, hrep, -⟩ := h
  unfold processLine at hline
  cases ht : statementTokenize text with
  | none => simp [ht] at hline
  | some q =>
    obtain ⟨e₁, out⟩ := q
    simp only [ht] at hline
    obtain ⟨hrep₁, hsame⟩ := hrep.fill_buffer (length_le_of_statementTokenize ht)
    have hj₁ := hJ.congr _ _ hsame hj
    by_cases he : e₁ = .noerror
    · subst he
      simp only [ne_eq, not_true_eq_false, if_false] at hline
      obtain ⟨ts, hs⟩ := stands_buffer (p := p) h0 hmode ht
      obtain ⟨⟨o, s₂⟩, hint, he⟩ := except_map_eq_ok hline
      have hall : AllTame C nestingMax (s.memcpy Target.statement out) Target.statement :=
        fun s₁ a₁ hex => htame s₁ a₁ (.direct ht hex)
      obtain ⟨hflows, hj₂⟩ := hs.interpret_flows hJ hrep₁ hall hj₁ hint
      cases o with
      | done e₂ =>
        simp only [Prod.mk.injEq] at he
        obtain ⟨-, rfl⟩ := he
        obtain ⟨hready, p', hrep'⟩ := hflows.intact_ready hmode
        exact (Intact.of_ready hj₂ hrep' hready).of_quiet hJ (reportInt_quiet _ _)
      | run =>
        simp only [Prod.mk.injEq] at he
        obtain ⟨-, rfl⟩ := he
        exact hflows.intact_run hj₂
    · simp only [ne_eq, he, not_false_eq_true, if_true, Except.ok.injEq, Prod.mk.injEq] at hline
      obtain ⟨-, rfl⟩ := hline
      exact (Intact.of_ready hj₁ hrep₁ hmode).of_quiet hJ (Quiet.print _ _)

/-! ## Lines of the program -/

/-- The line that comes next is entered, and its statement stands in it. -/
theorem Represents.enterLine (h : Represents s p) (hc : Control s p)
    (hnext : s.programNextLine ≠ null) (hmode : s.mode ≠ .ready) :
    Represents s.enterLine p ∧
      ∃ ts, Stands s.enterLine p (progStmt s.programNextLine) ts := by
  have hmem := hc.next.resolve_left hnext
  have hbehind := h.progNext_mem hmem
  obtain ⟨l, hl, he⟩ := hmem
  obtain ⟨before, after, hp⟩ := List.append_of_mem hl
  have hrep : Represents s.enterLine p := h.same rfl rfl rfl rfl
  have hline : InLine p before l after (progStmt s.programNextLine) l.stmt :=
    ⟨hp, [], rfl, by rw [← he]; rfl⟩
  exact ⟨hrep, l.stmt, hrep.tokensAt hline,
    fun _ => ⟨⟨hbehind, hc.stack⟩, before, l, after, hline, he⟩, fun hm => absurd hm hmode⟩

/-- No statement begins with an allocation. -/
theorem TokensAt.ne_alloc (h : TokensAt s p a ts) : s.ram a ≠ tokAlloc := by
  rw [kind_of_holds h.holds]
  cases ts with
  | nil => decide
  | cons t ts =>
    show t.kind ≠ tokAlloc
    cases t <;> simp [Token.kind] <;> decide

/-- What holds when a turn of the loop has ended the run. -/
structure Ended (J : State → Prop) (again : List ℕ) (e : Error) (s : State) : Prop where
  inv : J s
  represents : ∃ p, Represents s p ∧ (e ≠ .noerror → ∀ b ∈ again, RunAt s p b)

/-- Another mode does not change how a statement has ended. -/
theorem Ended.withMode (hJ : Carries C J) {again : List ℕ} {e : Error} {mode : Mode}
    (h : Ended J again e s) : Ended J again e (s.withMode mode) := by
  obtain ⟨hj, p, hrep, hagain⟩ := h
  exact ⟨hJ.congr s _ (.of_ram rfl rfl rfl) hj, p, hrep.same rfl rfl rfl rfl,
    fun he b hb => (hagain he b hb).congr rfl⟩

/-- One turn of the loop of a run.

**Proof sketch.** The line that is next is entered. An empty one is passed, one that begins with a
number is refused, and any other one is interpreted (`interpret_flows`), which leads to another
line, ends the run, or starts another one. -/
theorem Intact.turn {nested : Bool} {again : List ℕ} {r : Option Error} (hJ : Carries C J)
    (h : Intact J s) (hmode : s.mode = .running nested again)
    (htame : ∀ s₁ a₁, StepExecutes s .go s₁ a₁ → Tame s₁ a₁ ∧ C s₁ a₁)
    (hturn : programTurn s = .ok (r, s')) :
    (r = none → Intact J s') ∧ ∀ e, r = some e → Ended J again e s' := by
  obtain ⟨hj, p, hrep, hrun⟩ := h
  obtain ⟨hc, hnext, hagain⟩ := hrun nested again hmode
  have hne : s.mode ≠ .ready := by rw [hmode]; simp
  obtain ⟨hrep₁, ts, hs⟩ := hrep.enterLine hc hnext hne
  have halloc : s.ram (progStmt s.programNextLine) ≠ tokAlloc := hs.tokens.ne_alloc
  have hj₁ : J s.enterLine := hJ.congr s _ (.of_ram rfl rfl rfl) hj
  rw [programTurn_eq, if_neg halloc] at hturn
  by_cases hnum : s.ram (progStmt s.programNextLine) = tokNumeric
  · rw [if_pos hnum, Except.ok.injEq, Prod.mk.injEq] at hturn
    obtain ⟨rfl, rfl⟩ := hturn
    refine ⟨fun he => absurd he (by simp), fun e he => ?_⟩
    exact ⟨hJ.congr s _ (.of_ram rfl rfl rfl) hj, p, hrep.same rfl rfl rfl rfl,
      fun _ b hb => (hagain b hb).congr rfl⟩
  · rw [if_neg hnum] at hturn
    have hall : AllTame C nestingMax s.enterLine (progStmt s.programNextLine) :=
      fun s₁ a₁ hex => htame s₁ a₁ (.stored hne halloc hnum hex)
    cases hint : interpret s.enterLine (progStmt s.programNextLine) with
    | error f =>
      rw [hint] at hturn
      exact absurd hturn (by simp)
    | ok q =>
      obtain ⟨o, s₂⟩ := q
      obtain ⟨hflows, hj₂⟩ := hs.interpret_flows hJ hrep₁ hall hj₁ hint
      rw [hint] at hturn
      cases o with
      | run =>
        simp only [Except.ok.injEq, Prod.mk.injEq] at hturn
        obtain ⟨rfl, rfl⟩ := hturn
        exact ⟨fun _ => hflows.intact_run hj₂, fun e he => absurd he (by simp)⟩
      | done e =>
        simp only at hturn
        by_cases hready : s₂.mode = .ready
        · rw [if_pos hready, Except.ok.injEq, Prod.mk.injEq] at hturn
          obtain ⟨rfl, rfl⟩ := hturn
          refine ⟨fun he => absurd he (by simp), fun e' he => ?_⟩
          obtain rfl := Option.some.inj he
          have hp : ∃ p', Represents s₂ p' := by
            cases hflows with
            | failed _ kept => exact ⟨p, kept.represents⟩
            | done hrep _ => exact ⟨_, hrep⟩
          obtain ⟨p', hrep'⟩ := hp
          exact ⟨hj₂, p', hrep', fun hne => absurd rfl hne⟩
        rw [if_neg hready] at hturn
        -- the statements that have started the run still lead to `RUN`
        have hgoes : ∃ p', Represents s₂ p' ∧ s₂.mode = s.mode ∧ Control s₂ p' ∧
            ∀ b ∈ again, RunAt s₂ p' b := by
          cases hflows with
          | failed _ kept =>
            exact ⟨p, kept.represents, kept.mode, kept.control hne,
              fun b hb => (hagain b hb).congr kept.ram⟩
          | done hrep' goes =>
            obtain ⟨hm, hc', hp, hbuf⟩ := goes hready
            exact ⟨_, hrep', hm, hc', fun b hb => (hagain b hb).evolves hrep' hp hbuf⟩
        obtain ⟨p', hrep', hm, hc', hagain'⟩ := hgoes
        by_cases he : e = .noerror
        · rw [if_neg (not_not.2 he)] at hturn
          by_cases hnull : s₂.programNextLine = null
          · rw [if_pos hnull, Except.ok.injEq, Prod.mk.injEq] at hturn
            obtain ⟨rfl, rfl⟩ := hturn
            exact ⟨fun he => absurd he (by simp), fun _ _ => ⟨hj₂, p', hrep', fun _ => hagain'⟩⟩
          · rw [if_neg hnull, Except.ok.injEq, Prod.mk.injEq] at hturn
            obtain ⟨rfl, rfl⟩ := hturn
            refine ⟨fun _ => ⟨hj₂, p', hrep', fun nested' again' hm' => ?_⟩,
              fun e he => absurd he (by simp)⟩
            rw [hm, hmode, Mode.running.injEq] at hm'
            exact ⟨hc', hnull, hm'.2 ▸ hagain'⟩
        · rw [if_pos he, Except.ok.injEq, Prod.mk.injEq] at hturn
          obtain ⟨rfl, rfl⟩ := hturn
          exact ⟨fun he => absurd he (by simp), fun _ _ => ⟨hj₂, p', hrep', fun _ => hagain'⟩⟩

/-! ## The end of a run -/

/-- A statement that has started a run is interpreted again. -/
theorem Ended.stands {again : List ℕ} {e : Error} {stmt : ℕ} (h : Ended J (stmt :: again) e s)
    (hmode : s.mode = .ready) (he : e ≠ .noerror) : ∃ p ts, Represents s p ∧
      Stands s p stmt ts ∧ ∀ b ∈ again, RunAt s p b := by
  obtain ⟨-, p, hrep, hagain⟩ := h
  obtain ⟨ts, hat, hrun⟩ := hagain he stmt List.mem_cons_self
  exact ⟨p, ts, hrep, ⟨hat, fun hm => absurd hmode hm, fun _ => .inr hrun⟩,
    fun b hb => hagain he b (List.mem_cons_of_mem _ hb)⟩

/-- After a statement that has been interpreted again the others may be interpreted again. -/
theorem Flows.ended {again : List ℕ} {e : Error} (h : Flows s p (.done e) s')
    (hmode : s.mode = .ready) (hj : J s') (hagain : ∀ b ∈ again, RunAt s p b) :
    s'.mode = .ready ∧ Ended J again e s' := by
  obtain ⟨hready, p', hrep'⟩ := h.intact_ready hmode
  refine ⟨hready, hj, ?_⟩
  cases h with
  | failed _ kept => exact ⟨p, kept.represents, fun _ b hb => (hagain b hb).congr kept.ram⟩
  | done _ _ => exact ⟨p', hrep', fun he => absurd rfl he⟩

/-- The return of the loop leaves the program intact.

**Proof sketch.** By induction on the statements that are left to be made again. With none left, or
after a success, the program is intact and the loop reports the error at most. Otherwise the next
one stands in the program (`Ended.stands`) and is interpreted (`Stands.interpret_flows`): it ends,
and the induction hypothesis applies, or it starts a nested run, for which the remaining statements
have to lie within the program still. -/
theorem Ended.finish {nested : Bool} {again : List ℕ} {e e' : Error} (hJ : Carries C J)
    (h : Ended J again e s) (hmode : s.mode = .ready)
    (htame : ∀ s₁ a₁, ReturnExecutes again s e s₁ a₁ → Tame s₁ a₁ ∧ C s₁ a₁)
    (hret : programReturn nested again s e = .ok (e', s')) : Intact J s' := by
  induction again generalizing s e with
  | nil =>
    obtain ⟨hj, p, hrep, -⟩ := h
    have hready := Intact.of_ready hj hrep hmode
    rw [programReturn] at hret
    split at hret
    · simp only [Except.ok.injEq, Prod.mk.injEq] at hret
      exact hret.2 ▸ hready
    · simp only [Except.ok.injEq, Prod.mk.injEq] at hret
      exact hret.2 ▸ hready.of_quiet hJ (reportInt_quiet s e)
  | cons stmt again ih =>
    rw [programReturn] at hret
    by_cases he : e = .noerror
    · obtain ⟨hj, p, hrep, -⟩ := h
      rw [if_pos he, Except.ok.injEq, Prod.mk.injEq] at hret
      exact hret.2 ▸ Intact.of_ready hj hrep hmode
    · rw [if_neg he] at hret
      obtain ⟨p, ts, hrep, hs, hagain⟩ := h.stands hmode he
      have hall : AllTame C nestingMax s stmt := fun s₁ a₁ hex => htame s₁ a₁ (.here he hex)
      cases hint : interpret s stmt with
      | error f => simp [hint] at hret
      | ok q =>
        obtain ⟨o, s₂⟩ := q
        obtain ⟨hflows, hj₂⟩ := hs.interpret_flows hJ hrep hall h.inv hint
        simp only [hint] at hret
        cases o with
        | done e₁ =>
          obtain ⟨hready, hended⟩ := hflows.ended hmode hj₂ hagain
          exact ih hended hready (fun s₁ a₁ hex => htame s₁ a₁ (.next he hint hex)) hret
        | run =>
          simp only [Except.ok.injEq, Prod.mk.injEq] at hret
          obtain ⟨-, rfl⟩ := hret
          cases hflows with
          | @run s₂ again₂ hrep₂ ram mode control next hagain₂ =>
            rw [State.waits, mode]
            refine ⟨hJ.congr s₂ _ (.of_ram rfl rfl rfl) hj₂, p, hrep₂.same rfl rfl rfl rfl, ?_⟩
            intro nested' again' hm
            simp only [State.withMode, Mode.running.injEq] at hm
            refine ⟨⟨control.next, control.stack⟩, next, fun b hb => ?_⟩
            rw [← hm.2, List.mem_append] at hb
            cases hb with
            | inl hb => exact (hagain₂ b hb).congr rfl
            | inr hb => exact (hagain b hb).congr ram

/-- The statement behind the end of a nested loop is in its place. -/
theorem ReturnExecutes.placed {again : List ℕ} {e : Error} {s₁ : State} (hJ : Carries C J)
    (hex : ReturnExecutes again s₁ e s' a) (h : Ended J again e s₁) (hmode : s₁.mode = .ready)
    (htame : ∀ s₂ a₂, ReturnExecutes again s₁ e s₂ a₂ → Tame s₂ a₂ ∧ C s₂ a₂) :
    Placed s' a ∧ J s' ∧ s'.mode = .ready := by
  induction hex with
  | here he hex =>
    obtain ⟨p, ts, hrep, hs, -⟩ := h.stands hmode he
    rw [← hmode]
    exact hex.placed hJ (.start hs hrep fun s₂ a₂ hex => htame s₂ a₂ (.here he hex)) h.inv
  | next he hint hrest ih =>
    obtain ⟨p, ts, hrep, hs, hagain⟩ := h.stands hmode he
    obtain ⟨hflows, hj₂⟩ := hs.interpret_flows hJ hrep
      (fun s₂ a₂ hex => htame s₂ a₂ (.here he hex)) h.inv hint
    obtain ⟨hready, hended⟩ := hflows.ended hmode hj₂ hagain
    exact ih hended hready fun s₂ a₂ hex => htame s₂ a₂ (.next he hint hex)

/-! ## Sessions -/

/-- All statements that are executed in a step are tame and meet a condition. -/
def StepTame (C : State → ℕ → Prop) (s : State) (input : Input) : Prop :=
  ∀ s₁ a₁, StepExecutes s input s₁ a₁ → Tame s₁ a₁ ∧ C s₁ a₁

/-- **A step of a session** leaves the program intact, when all that it executes is tame. -/
theorem Intact.step {input : Input} {e : Error} (hJ : Carries C J) (h : Intact J s)
    (hpos : input.Possible s) (htame : StepTame C s input)
    (hstep : basicStep s input = .ok (e, s')) : Intact J s' := by
  cases input with
  | line text => exact h.line hJ hpos.1 hpos.2 htame hstep
  | go =>
    cases hmode : s.mode with
    | ready => exact absurd hmode hpos
    | running nested again =>
      simp only [basicStep, hmode, programStep] at hstep
      cases hturn : programTurn s with
      | error f => simp [hturn] at hstep
      | ok q =>
        obtain ⟨r, s₁⟩ := q
        obtain ⟨hgo, hend⟩ := h.turn hJ hmode htame hturn
        cases r with
        | none =>
          simp only [hturn, Except.ok.injEq, Prod.mk.injEq] at hstep
          exact hstep.2 ▸ hgo rfl
        | some e₁ =>
          simp only [hturn] at hstep
          exact ((hend e₁ rfl).withMode hJ).finish hJ rfl
            (fun s₂ a₂ hex => htame s₂ a₂ (.returned hmode hturn hex)) hstep

/-- A statement is executed in the line that comes next. -/
structure LineExecutes (s : State) (input : Input) (s' : State) (a : ℕ) : Prop where
  input : input = .go
  ne_alloc : s.ram (progStmt s.programNextLine) ≠ tokAlloc
  ne_numeric : s.ram (progStmt s.programNextLine) ≠ tokNumeric
  executes : Executes nestingMax s.enterLine (progStmt s.programNextLine) s' a

/-- What holds where the statements of a step are executed. -/
theorem StepExecutes.placed {input : Input} (hJ : Carries C J) (h : Intact J s)
    (hpos : input.Possible s) (htame : StepTame C s input) (hex : StepExecutes s input s' a) :
    Placed s' a ∧ J s' ∧ (s'.mode ≠ .ready → LineExecutes s input s' a) := by
  cases hex with
  | direct ht hex =>
    obtain ⟨hj, p, hrep, -⟩ := h
    obtain ⟨hrep₁, hsame⟩ := hrep.fill_buffer (length_le_of_statementTokenize ht)
    obtain ⟨ts, hs⟩ := stands_buffer (p := p) hpos.2 hpos.1 ht
    obtain ⟨hplaced, hj', hmode⟩ := hex.placed hJ
      (.start hs hrep₁ fun s₁ a₁ hex => htame s₁ a₁ (.direct ht hex)) (hJ.congr _ _ hsame hj)
    exact ⟨hplaced, hj', fun hne => absurd (hmode.trans hpos.1) hne⟩
  | stored hne halloc hnum hex =>
    obtain ⟨hj, p, hrep, hrun⟩ := h
    cases hmode : s.mode with
    | ready => exact absurd hmode hne
    | running nested again =>
      obtain ⟨hc, hnext, -⟩ := hrun nested again hmode
      obtain ⟨hrep₁, ts, hs⟩ := hrep.enterLine hc hnext hne
      obtain ⟨hplaced, hj', -⟩ := hex.placed hJ
        (.start hs hrep₁ fun s₁ a₁ hex => htame s₁ a₁ (.stored hne halloc hnum hex))
        (hJ.congr s _ (.of_ram rfl rfl rfl) hj)
      exact ⟨hplaced, hj', fun _ => ⟨rfl, halloc, hnum, hex⟩⟩
  | returned hmode hturn hex =>
    have hended := (h.turn hJ hmode htame hturn).2 _ rfl
    obtain ⟨hplaced, hj', hready⟩ := hex.placed hJ (hended.withMode hJ) rfl
      fun s₂ a₂ hex => htame s₂ a₂ (.returned hmode hturn hex)
    exact ⟨hplaced, hj', fun hne => absurd hready hne⟩

/-- The interpreter starts without a program. -/
theorem intact_boot {s₀ : State} (hj : J (boot s₀)) : Intact J (boot s₀) :=
  .of_ready hj (represents_programNew _) rfl

/-- The steps of a session can be made, and their statements are tame and meet a condition. -/
def Tamely (C : State → ℕ → Prop) (s : State) (input : Input) : Prop :=
  input.Possible s ∧ StepTame C s input

/-- A condition that implies another one. -/
theorem Tamely.mono {D : State → ℕ → Prop} (hCD : ∀ s a, C s a → D s a) {input : Input}
    (h : Tamely C s input) : Tamely D s input :=
  ⟨h.1, fun s₁ a hex => (h.2 s₁ a hex).imp_right (hCD s₁ a)⟩

/-- **Sessions of tame statements.** In every session whose statements are all tame, memory stands
for a program between the steps and where a statement is executed, and the invariant holds. -/
theorem Carries.always (hJ : Carries C J) {s₀ : State} (hj : J (boot s₀)) {inputs : List Input}
    (htame : Run.Always basicRun (fun s input _ _ => Tamely C s input) (boot s₀) inputs) :
    Run.Always basicRun (fun s input _ s' => Intact J s' ∧ ∀ s₁ a, StepExecutes s input s₁ a →
      Placed s₁ a ∧ J s₁ ∧ (s₁.mode ≠ .ready → LineExecutes s input s₁ a)) (boot s₀) inputs := by
  refine Run.Always.of_invariant (I := Intact J) (C := Tamely C) ?_ (intact_boot hj) htame
  intro s input e s' h hC hstep
  have hintact := h.step hJ hC.1 hC.2 (basicRun_eq_some hstep)
  exact ⟨⟨hintact, fun s₁ a hex => hex.placed hJ h hC.1 hC.2⟩, hintact⟩

/-- Where a statement is executed, also in a last step that does not return, memory stands for a
program and the invariant holds. -/
theorem Carries.each (hJ : Carries C J) {s₀ : State} (hj : J (boot s₀)) {inputs : List Input}
    (htame : Run.Each basicRun (Tamely C) (boot s₀) inputs) :
    Run.Each basicRun (fun s input => ∀ s₁ a, StepExecutes s input s₁ a → Placed s₁ a ∧ J s₁)
      (boot s₀) inputs := by
  refine Run.Each.of_invariant (I := Intact J) (C := Tamely C) ?_ (intact_boot hj) htame
  intro s input h hC
  refine ⟨fun s₁ a hex => ?_, fun e s' hstep => h.step hJ hC.1 hC.2 (basicRun_eq_some hstep)⟩
  obtain ⟨hplaced, hj, -⟩ := hex.placed hJ h hC.1 hC.2
  exact ⟨hplaced, hj⟩

/-- In every state that is reached, the same. -/
theorem Carries.reached (hJ : Carries C J) {s₀ : State} (hj : J (boot s₀)) {inputs : List Input}
    {es : List Error}
    (htame : Run.Always basicRun (fun s input _ _ => Tamely C s input) (boot s₀) inputs)
    (hrun : Run.exec basicRun (boot s₀) inputs = some (es, s)) : Intact J s := by
  refine Run.invariant_of_always (I := Intact J) (C := Tamely C) ?_ (intact_boot hj) htame hrun
  intro s input e s' h hC hstep
  exact h.step hJ hC.1 hC.2 (basicRun_eq_some hstep)

/-! ## A test

The condition can be tested for sessions without `IF`. -/

/-- A test for `Typed`. -/
def typedTest (s : State) (a : ℕ) (kw : UInt8) : Bool :=
  s.inserted.any fun l => progStmt l.addr ≤ a && l.stmt[a - progStmt l.addr]? == some tokKeyword &&
    l.stmt[a - progStmt l.addr + 1]? == some kw

/-- A test for tame statements other than `IF`. -/
def tameTest (s : State) (a : ℕ) : Bool :=
  !decide (IsIf s a) &&
  (s.mode = .ready || !kwCheck s.ram a keywordFor || !s.programReturnStack.isEmpty ||
    match forLimits s.ram (a + kwSize) with
    | none => true
    | some (start, limit) => start < limit && (programGetNumericRef s (a + kwSize) ≠ some none ||
        s.programContext.length < maxVars)) &&
  (s.mode = .ready || !(kwCheck s.ram a keywordJumpto || kwCheck s.ram a keywordJumpsub) ||
    !typedTest s a (s.ram (a + 1))) &&
  (!(s.ram a = tokVariable || s.ram a = tokRegister) ||
    match assignPtr s a with
    | .ok (.ok (.memory b, _), _) => Target.programStart ≤ b && b + 2 ≤ s.programEndPtr &&
        s.inserted.all fun l => b + 2 ≤ l.addr || progStmt l.addr + l.stmt.length ≤ b
    | _ => true) &&
  (!kwCheck s.ram a keywordRun || s.inserted.head?.map Line.addr = some Target.programStart) &&
  match statementInterpret 1 s a with
  | .ok (_, s') => s'.programEndPtr ≤ Target.programMax
  | .error _ => true

omit [Target] in
/-- The test for a keyword compares two bytes. -/
theorem kwCheck_eq_true {m : Ram} {toks : ℕ} {kw : UInt8} :
    kwCheck m toks kw = true ↔ m toks = tokKeyword ∧ m (toks + 1) = kw := by
  simp [kwCheck]

omit [Target] in
/-- A keyword that a line has been entered with passes the test. -/
theorem typedTest_of_typed {kw : UInt8} (h : Typed s a kw) : typedTest s a kw = true := by
  obtain ⟨l, hl, i, rfl, h1, h2⟩ := h
  simp only [typedTest, List.any_eq_true]
  exact ⟨l, hl, by simp [h1, h2]⟩

/-- The test finds out that a statement is tame. -/
theorem tame_of_test (h : tameTest s a = true) : ¬ IsIf s a ∧ Tame s a := by
  simp only [tameTest, Bool.and_eq_true, Bool.not_eq_true', decide_eq_false_iff_not] at h
  obtain ⟨⟨⟨⟨⟨hif, hfor⟩, hres⟩, helem⟩, hfirst⟩, hfits⟩ := h
  refine ⟨hif, ?_, ?_, ?_, ?_, ?_, ?_⟩
  · intro ts _ _ s₁ a₁ hthen
    exact absurd hthen.1 hif
  · intro hmode hk hnil start limit hlim
    simp only [hmode, decide_false, Bool.false_or, kwCheck_eq_true.2 hk, Bool.not_true, hnil,
      List.isEmpty_nil, hlim, Bool.and_eq_true, decide_eq_true_eq, Bool.or_eq_true] at hfor
    exact ⟨hfor.1, fun hnone => hfor.2.resolve_left (by simp [hnone])⟩
  · intro hmode hk htyped
    have hkw : (kwCheck s.ram a keywordJumpto || kwCheck s.ram a keywordJumpsub) = true := by
      rw [Bool.or_eq_true]
      exact hk.imp kwCheck_eq_true.2 kwCheck_eq_true.2
    simp [hmode, hkw, typedTest_of_typed htyped] at hres
  · intro ha b next s₁ hptr
    have hassign : (decide (s.ram a = tokVariable) || decide (s.ram a = tokRegister)) = true := by
      simpa using show s.ram a = tokVariable ∨ s.ram a = tokRegister from ha
    simp only [hassign, Bool.not_true, Bool.false_or, hptr, Bool.and_eq_true, decide_eq_true_eq,
      List.all_eq_true, Bool.or_eq_true] at helem
    exact ⟨helem.1.1, helem.1.2, helem.2⟩
  · intro hk
    simp only [kwCheck_eq_true.2 hk, Bool.not_true, Bool.false_or, decide_eq_true_eq,
      Option.map_eq_some_iff] at hfirst
    exact hfirst
  · intro o s' hint
    simpa [hint] using hfits

/-- A test for steps. -/
def tamelyTest (c : State → ℕ → Bool) (s : State) : Input → Bool
  | .line text => s.mode = .ready && !text.contains 0 &&
    match statementTokenize text with
    | some (.noerror, stmt) =>
      let s := s.memcpy Target.statement stmt
      tameTest s Target.statement && c s Target.statement
    | _ => true
  | .go =>
    match s.mode with
    | .running _ [] => tameTest s.enterLine (progStmt s.programNextLine) &&
        c s.enterLine (progStmt s.programNextLine)
    | _ => false

/-- The test finds out that all that a step executes is tame.

**Proof sketch.** By cases on the step. The statement that the test looks at is the only one that is
executed, since it is no `IF` and no statement is left to be made again. -/
theorem tamely_of_test {c : State → ℕ → Bool} (hc : ∀ s a, c s a = true → C s a) {input : Input}
    (h : tamelyTest c s input = true) : Tamely C s input := by
  cases input with
  | line text =>
    simp only [tamelyTest, Bool.and_eq_true, decide_eq_true_eq, Bool.not_eq_true'] at h
    obtain ⟨⟨hmode, h0⟩, htest⟩ := h
    refine ⟨⟨hmode, by simpa using h0⟩, fun s₁ a₁ hex => ?_⟩
    cases hex with
    | direct ht hex =>
      simp only [ht, Bool.and_eq_true] at htest
      obtain ⟨hif, htame⟩ := tame_of_test htest.1
      obtain ⟨rfl, rfl⟩ := hex.eq_of_not_if hif
      exact ⟨htame, hc _ _ htest.2⟩
  | go =>
    cases hmode : s.mode with
    | ready => simp [tamelyTest, hmode] at h
    | running nested again =>
      cases again with
      | cons b again => simp [tamelyTest, hmode] at h
      | nil =>
        simp only [tamelyTest, hmode, Bool.and_eq_true] at h
        obtain ⟨hif, htame⟩ := tame_of_test h.1
        refine ⟨by rw [Input.Possible, hmode]; simp, fun s₁ a₁ hex => ?_⟩
        cases hex with
        | stored _ _ _ hex =>
          obtain ⟨rfl, rfl⟩ := hex.eq_of_not_if hif
          exact ⟨htame, hc _ _ h.2⟩
        | returned hm _ hex =>
          rw [hmode, Mode.running.injEq] at hm
          rw [← hm.2] at hex
          cases hex

/-- The test for whole sessions. -/
theorem always_tamely_of_test {c : State → ℕ → Bool} (hc : ∀ s a, c s a = true → C s a)
    {inputs : List Input}
    (h : Run.check basicRun (fun s input _ _ => tamelyTest c s input) s inputs = true) :
    Run.Always basicRun (fun s input _ _ => Tamely C s input) s inputs :=
  Run.Always.of_check (fun _ _ _ _ ht => tamely_of_test hc ht) h

/-- The test for whole sessions, with a last step that need not return. -/
theorem each_tamely_of_test {c : State → ℕ → Bool} (hc : ∀ s a, c s a = true → C s a)
    {inputs : List Input} (h : Run.checkEach basicRun (tamelyTest c) s inputs = true) :
    Run.Each basicRun (Tamely C) s inputs :=
  Run.Each.of_check (fun _ _ ht => tamely_of_test hc ht) h

end

end Z80OS.Basic
