import Z80OS.Basic.Dispatch

set_option relaxedAutoImplicit false
set_option autoImplicit false

/-!
# What a statement can do

Evaluating expressions, printing and assigning to variables change no memory and nothing that has to
do with the flow of control. This file lists what else a statement that is executed can do.

## Main definitions

* `Z80OS.Basic.Quiet` — memory and the flow of control are the same in two states.
* `Z80OS.Basic.Effect` — what a statement can do.

## Main results

* `Z80OS.Basic.effect_of_statementInterpret` — a statement does nothing else.
-/

namespace Z80OS.Basic

/-- Two states have the same memory, program and flow of control. They can have other values of
variables, another output and another state of the random number generator. -/
structure Quiet (s s' : State) : Prop where
  ram : s'.ram = s.ram
  programEndPtr : s'.programEndPtr = s.programEndPtr
  mode : s'.mode = s.mode
  programReturnStack : s'.programReturnStack = s.programReturnStack
  programCurrentLine : s'.programCurrentLine = s.programCurrentLine
  programLastInsertedLine : s'.programLastInsertedLine = s.programLastInsertedLine
  programNextLine : s'.programNextLine = s.programNextLine
  inserted : s'.inserted = s.inserted

namespace Quiet

variable {s s' s'' : State}

/-- Nothing has changed. -/
@[refl] theorem refl (s : State) : Quiet s s := ⟨rfl, rfl, rfl, rfl, rfl, rfl, rfl, rfl⟩

/-- Two quiet steps one after the other. -/
@[trans] theorem trans (h : Quiet s s') (h' : Quiet s' s'') : Quiet s s'' :=
  ⟨h'.ram.trans h.ram, h'.programEndPtr.trans h.programEndPtr, h'.mode.trans h.mode,
    h'.programReturnStack.trans h.programReturnStack,
    h'.programCurrentLine.trans h.programCurrentLine,
    h'.programLastInsertedLine.trans h.programLastInsertedLine,
    h'.programNextLine.trans h.programNextLine, h'.inserted.trans h.inserted⟩

/-- What is printed is quiet. -/
theorem print (s : State) (text : List UInt8) : Quiet s (s.print text) :=
  ⟨rfl, rfl, rfl, rfl, rfl, rfl, rfl, rfl⟩

/-- Another table of variables is quiet. -/
theorem withContext (s : State) (context : List ContextVar) : Quiet s (s.withContext context) :=
  ⟨rfl, rfl, rfl, rfl, rfl, rfl, rfl, rfl⟩

/-- Another register is quiet. -/
theorem setRegister (s : State) (i : Fin numRegisters) (reg : Register) :
    Quiet s (s.setRegister i reg) := ⟨rfl, rfl, rfl, rfl, rfl, rfl, rfl, rfl⟩

/-- Storing a number quietly is storing it in a variable. -/
theorem store (s : State) {ref : Ref} (h : ∀ a, ref ≠ .memory a) (n : ℤ) :
    Quiet s (s.store ref n) := by
  cases ref with
  | register i => exact setRegister s i _
  | context i => exact withContext s _
  | memory a => exact absurd rfl (h a)

end Quiet

/-- A step that changes nothing that counts is quiet. -/
theorem Still.quiet {s s' : State} (h : Still s s') : Quiet s s' := by
  rw [h]
  exact ⟨rfl, rfl, rfl, rfl, rfl, rfl, rfl, rfl⟩

section

variable [Target] {s s' : State} {a : ℕ}

/-! ## Variables and expressions -/

omit [Target] in
/-- A reference to a variable is not a place in memory. -/
theorem programGetNumericRef_ne_memory {toks : ℕ} {ref : Ref}
    (h : programGetNumericRef s toks = some (some ref)) (b : ℕ) : ref ≠ .memory b := by
  unfold programGetNumericRef at h
  split at h
  · rw [Option.map_eq_some_iff] at h
    obtain ⟨i, -, he⟩ := h
    rw [Option.some.injEq] at he
    rintro rfl
    exact absurd he (by simp)
  · rw [Option.some.injEq, Option.map_eq_some_iff] at h
    obtain ⟨i, -, he⟩ := h
    rintro rfl
    exact absurd he (by simp)

omit [Target] in
/-- A number that is set is quiet, but for its memory. -/
theorem programSetNumeric_quiet {toks : ℕ} {val : ℤ} {e : Error}
    (h : programSetNumeric s toks val = .ok (e, s')) : Quiet s s' := by
  unfold programSetNumeric at h
  split at h
  · exact absurd h (by simp)
  · next ref href =>
    simp only [Except.ok.injEq, Prod.mk.injEq] at h
    rw [← h.2]
    exact Quiet.store s (programGetNumericRef_ne_memory href) val
  · split at h
    · simp only [Except.ok.injEq, Prod.mk.injEq] at h
      rw [← h.2]
    · simp only at h
      split at h
      · simp only [Except.ok.injEq, Prod.mk.injEq] at h
        rw [← h.2]
      · simp only [Except.ok.injEq, Prod.mk.injEq] at h
        rw [← h.2]
        exact Quiet.withContext s _

omit [Target] in
/-- The left side of an assignment is quiet. -/
theorem assignPtr_quiet {r : Except Error (Ref × ℕ)} (h : assignPtr s a = .ok (r, s')) :
    Quiet s s' := by
  unfold assignPtr at h
  split at h
  · next s₁ hptr =>
    have h₁ := (getPtr_still hptr).quiet
    cases hset : programSetNumeric s₁ a 0 with
    | error f => simp [hset] at h
    | ok q =>
      obtain ⟨e, s₂⟩ := q
      have h₂ := h₁.trans (programSetNumeric_quiet hset)
      simp only [hset] at h
      split at h
      · exact absurd ‹_› (by simp)
      · next heq =>
        simp only [Except.ok.injEq, Prod.mk.injEq] at heq
        obtain ⟨-, rfl⟩ := heq
        exact h₂.trans (getPtr_still h).quiet
      · next heq =>
        simp only [Except.ok.injEq, Prod.mk.injEq] at heq h
        obtain ⟨-, rfl⟩ := heq
        exact h.2 ▸ h₂
  · exact (getPtr_still h).quiet

omit [Target] in
/-- The comparison of an `IF` changes no memory and nothing about control. -/
theorem ifSub_quiet {toks : ℕ} {r : Except Error ℕ} (h : ifSub s toks = .ok (r, s')) :
    Quiet s s' := (ifSub_still h).quiet

/-! ## Statements -/

/-- What a statement other than `IF` can do. -/
inductive Effect (s : State) (a : ℕ) : Outcome → State → Prop
  | quiet {e : Error} {s' : State} (h : Quiet s s') : Effect s a (.done e) s'
  | element {s₁ s₂ : State} {b next : ℕ} {n : ℤ} (ha : AssignAt s a)
      (hptr : assignPtr s a = .ok (.ok (.memory b, next), s₁)) (h : Quiet s s₂) :
      Effect s a (.done .noerror) (s₂.memcpy b (bytes16 (ofNumeric n)))
  | insert {e : Error} {s' : State} (hk : s.ram a = tokNumeric)
      (h : programInsert s a = .ok (e, s')) : Effect s a (.done e) s'
  | new (hk : KeywordAt s a keywordNew) : Effect s a (.done .noerror) (programNew s)
  | run (hk : KeywordAt s a keywordRun) : Effect s a .run (programRunInit s)
  | stop {e : Error} {s' : State} (hk : KeywordAt s a keywordEnd)
      (h : programEnd s .noerror = (e, s')) : Effect s a (.done e) s'
  | goto {o : Outcome} {s' : State} (hk : KeywordAt s a keywordGoto)
      (h : doGoto s (a + kwSize) = .ok (o, s')) : Effect s a o s'
  | jumpto {o : Outcome} {s' : State} (hk : KeywordAt s a keywordJumpto)
      (h : doJumpto s (a + kwSize) = .ok (o, s')) : Effect s a o s'
  | for {o : Outcome} {s' : State} (hk : KeywordAt s a keywordFor)
      (h : doFor s (a + kwSize) = .ok (o, s')) : Effect s a o s'
  | next {o : Outcome} {s' : State} (hk : KeywordAt s a keywordNext)
      (h : doNext s (a + kwSize) = .ok (o, s')) : Effect s a o s'
  | gosub {o : Outcome} {s' : State} (hk : KeywordAt s a keywordGosub)
      (h : doGosub s (a + kwSize) = .ok (o, s')) : Effect s a o s'
  | jumpsub {o : Outcome} {s' : State} (hk : KeywordAt s a keywordJumpsub)
      (h : doJumpsub s (a + kwSize) = .ok (o, s')) : Effect s a o s'
  | return {o : Outcome} {s' : State} (hk : KeywordAt s a keywordReturn)
      (h : doReturn s = .ok (o, s')) : Effect s a o s'
  | dim {o : Outcome} {s' : State} (hk : KeywordAt s a keywordDim)
      (h : doDim s (a + kwSize) = .ok (o, s')) : Effect s a o s'

/-- An assignment has the effect of its keyword. -/
theorem doAssign_effect {o : Outcome} (ha : AssignAt s a) (h : doAssign s a = .ok (o, s')) :
    Effect s a o s' := by
  unfold doAssign at h
  split at h
  · exact absurd h (by simp)
  · next hptr =>
    simp only [fails, Except.ok.injEq, Prod.mk.injEq] at h
    obtain ⟨rfl, rfl⟩ := h
    exact .quiet (assignPtr_quiet hptr)
  · next ref next s₁ hptr =>
    have h₁ := assignPtr_quiet hptr
    split at h
    · simp only [fails, Except.ok.injEq, Prod.mk.injEq] at h
      obtain ⟨rfl, rfl⟩ := h
      exact .quiet h₁
    · split at h
      · exact absurd h (by simp)
      · next heval =>
        simp only [fails, Except.ok.injEq, Prod.mk.injEq] at h
        obtain ⟨rfl, rfl⟩ := h
        exact .quiet (h₁.trans ((eval_still heval).quiet))
      · next val stop s₂ heval =>
        have h₂ := h₁.trans ((eval_still heval).quiet)
        simp only [succeeds, Except.ok.injEq, Prod.mk.injEq] at h
        obtain ⟨rfl, rfl⟩ := h
        cases ref with
        | memory b => exact .element ha hptr h₂
        | register i => exact .quiet (h₂.trans (Quiet.store s₂ (by simp) val))
        | context i => exact .quiet (h₂.trans (Quiet.store s₂ (by simp) val))

/-- A statement other than `IF` does one of the things that are listed.

**Proof sketch.** By cases on the branch that the interpreter takes (`dispatch`). Each of them is
one of the effects, and one that only prints is quiet. -/
theorem effect_of_statementInterpret {o : Outcome} (hif : ¬ IsIf s a)
    (h : statementInterpret 1 s a = .ok (o, s')) : Effect s a o s' := by
  have hdispatch : Dispatch s a (.ok (o, s')) := h ▸ dispatch hif
  generalize hr : (Except.ok (o, s') : Interpreted) = r at hdispatch
  cases hdispatch with
  | shows _ hshows =>
    subst hr
    cases o with
    | done e => exact .quiet hshows.2.quiet
    | run => exact absurd rfl hshows.1
  | insert hk =>
    obtain ⟨⟨e, s₁⟩, hins, he⟩ := except_map_eq_ok hr.symm
    obtain ⟨rfl, rfl⟩ := Prod.mk.inj he
    exact .insert hk hins
  | assign ha => exact doAssign_effect ha hr.symm
  | new hk =>
    obtain ⟨rfl, rfl⟩ := Prod.mk.inj (Except.ok.inj hr)
    exact .new hk
  | run hk =>
    obtain ⟨rfl, rfl⟩ := Prod.mk.inj (Except.ok.inj hr)
    exact .run hk
  | stop hk =>
    obtain ⟨rfl, rfl⟩ := Prod.mk.inj (Except.ok.inj hr)
    exact .stop hk rfl
  | goto hk => exact .goto hk hr.symm
  | jumpto hk => exact .jumpto hk hr.symm
  | «for» hk => exact .for hk hr.symm
  | next hk => exact .next hk hr.symm
  | gosub hk => exact .gosub hk hr.symm
  | jumpsub hk => exact .jumpsub hk hr.symm
  | «return» hk => exact .return hk hr.symm
  | dim hk => exact .dim hk hr.symm

/-! ## The flow of control -/

/-- Memory and the program are the same in two states, and the next line and the return stack have
changed in the following way: the next line is the same or one of the `targets`, and the entries of
the stack have been there before or are for the current line. -/
structure Moves (s s' : State) (targets : ℕ → Prop) : Prop where
  ram : s'.ram = s.ram
  programEndPtr : s'.programEndPtr = s.programEndPtr
  mode : s'.mode = s.mode
  programCurrentLine : s'.programCurrentLine = s.programCurrentLine
  programLastInsertedLine : s'.programLastInsertedLine = s.programLastInsertedLine
  inserted : s'.inserted = s.inserted
  next : s'.programNextLine = s.programNextLine ∨ targets s'.programNextLine
  stack : ∀ e ∈ s'.programReturnStack,
    e ∈ s.programReturnStack ∨ e.line = s.programCurrentLine

namespace Moves

variable {s s' s'' : State} {targets : ℕ → Prop}

omit [Target] in
/-- A quiet step does not move. -/
theorem of_quiet (h : Quiet s s') : Moves s s' targets where
  ram := h.ram
  programEndPtr := h.programEndPtr
  mode := h.mode
  programCurrentLine := h.programCurrentLine
  programLastInsertedLine := h.programLastInsertedLine
  inserted := h.inserted
  next := .inl h.programNextLine
  stack _ he := .inl (h.programReturnStack ▸ he)

omit [Target] in
/-- Two steps that move to the given lines. -/
theorem trans (h : Moves s s' targets) (h' : Moves s' s'' targets) : Moves s s'' targets where
  ram := h'.ram.trans h.ram
  programEndPtr := h'.programEndPtr.trans h.programEndPtr
  mode := h'.mode.trans h.mode
  programCurrentLine := h'.programCurrentLine.trans h.programCurrentLine
  programLastInsertedLine := h'.programLastInsertedLine.trans h.programLastInsertedLine
  inserted := h'.inserted.trans h.inserted
  next := by
    cases h'.next with
    | inl he => exact he ▸ h.next
    | inr ht => exact .inr ht
  stack e he := by
    cases h'.stack e he with
    | inl he => exact h.stack e he
    | inr hl => exact .inr (hl.trans h.programCurrentLine)

omit [Target] in
/-- A step to one of the given lines. -/
theorem goTo (s : State) {line : ℕ} (h : targets line) : Moves s (s.goTo line) targets where
  ram := rfl
  programEndPtr := rfl
  mode := rfl
  programCurrentLine := rfl
  programLastInsertedLine := rfl
  inserted := rfl
  next := .inr h
  stack _ he := .inl he

omit [Target] in
/-- A return stack with entries for the current line only. -/
theorem withStack (s : State) {stack : List ReturnEntry}
    (h : ∀ e ∈ stack, e ∈ s.programReturnStack ∨ e.line = s.programCurrentLine) :
    Moves s (s.withStack stack) targets where
  ram := rfl
  programEndPtr := rfl
  mode := rfl
  programCurrentLine := rfl
  programLastInsertedLine := rfl
  inserted := rfl
  next := .inl rfl
  stack := h

omit [Target] in
/-- A step that moves to fewer lines. -/
theorem mono {targets' : ℕ → Prop} (h : Moves s s' targets) (ht : ∀ l, targets l → targets' l) :
    Moves s s' targets' :=
  ⟨h.ram, h.programEndPtr, h.mode, h.programCurrentLine, h.programLastInsertedLine, h.inserted,
    h.next.imp_right (ht _), h.stack⟩

end Moves

section Control

variable {toks : ℕ} {o : Outcome}

omit [Target] in
/-- An entry that is taken from the return stack does not move. -/
theorem pop_moves (targets : ℕ → Prop) (s : State) : Moves s (programPopReturn s).2 targets :=
  Moves.withStack s fun _ he => .inl (List.mem_of_mem_tail he)

omit [Target] in
/-- The entry that is popped is the top of the stack. -/
theorem programPopReturn_eq_some {top : ReturnEntry} {s₁ : State}
    (h : programPopReturn s = (some top, s₁)) :
    s.programReturnStack = top :: s₁.programReturnStack ∧
      s₁ = s.withStack s.programReturnStack.tail := by
  simp only [programPopReturn, Prod.mk.injEq] at h
  obtain ⟨htop, rfl⟩ := h
  refine ⟨?_, rfl⟩
  cases hs : s.programReturnStack with
  | nil => simp [hs] at htop
  | cons e rest =>
    simp only [hs, List.head?_cons, Option.some.injEq] at htop
    subst htop
    simp [State.withStack]

omit [Target] in
/-- An entry is pushed where there is room for it. -/
theorem programPushReturn_eq_ok {line vartok : ℕ} (h : programPushReturn s line vartok = .ok s') :
    s.programReturnStack.length < returnStackLimit ∧
      s' = s.withStack (⟨line, vartok⟩ :: s.programReturnStack) := by
  unfold programPushReturn at h
  split at h
  · next hlt => exact ⟨hlt, (Except.ok.inj h).symm⟩
  · exact absurd h (by simp)

omit [Target] in
/-- Pushing an entry that was popped, or one for the current line. -/
theorem push_moves (targets : ℕ → Prop) {line vartok : ℕ}
    (h : programPushReturn s line vartok = .ok s')
    (hline : line = s.programCurrentLine) : Moves s s' targets := by
  rw [(programPushReturn_eq_ok h).2]
  apply Moves.withStack
  intro e he
  cases List.mem_cons.1 he with
  | inl he => exact .inr (by rw [he, hline])
  | inr he => exact .inl he

omit [Target] in
/-- `RETURN` moves to the line behind the one of the topmost entry. -/
theorem doReturn_moves (h : doReturn s = .ok (o, s')) :
    o ≠ .run ∧ Moves s s' fun l => ∃ top ∈ s.programReturnStack, l = progNext s.ram top.line := by
  unfold doReturn at h
  split at h
  · next s₁ hpop =>
    simp only [fails, Except.ok.injEq, Prod.mk.injEq] at h
    obtain ⟨rfl, rfl⟩ := h
    refine ⟨by simp, ?_⟩
    have := pop_moves (fun l => ∃ top ∈ s.programReturnStack, l = progNext s.ram top.line) s
    rwa [hpop] at this
  · next top s₁ hpop =>
    obtain ⟨hstack, rfl⟩ := programPopReturn_eq_some hpop
    simp only [succeeds, Except.ok.injEq, Prod.mk.injEq] at h
    obtain ⟨rfl, rfl⟩ := h
    refine ⟨by simp, (Moves.withStack s fun _ he => .inl (List.mem_of_mem_tail he)).trans ?_⟩
    exact Moves.goTo _ ⟨top, by rw [hstack]; exact List.mem_cons_self, rfl⟩

omit [Target] in
/-- `NEXT` moves to the line of the topmost entry. -/
theorem doNext_moves (h : doNext s toks = .ok (o, s')) :
    o ≠ .run ∧ Moves s s' fun l => ∃ top ∈ s.programReturnStack, l = top.line := by
  unfold doNext at h
  split at h
  · simp only [fails, Except.ok.injEq, Prod.mk.injEq] at h
    obtain ⟨rfl, rfl⟩ := h
    exact ⟨by simp, Moves.of_quiet (Quiet.refl s)⟩
  split at h
  · next s₁ hpop =>
    simp only [fails, Except.ok.injEq, Prod.mk.injEq] at h
    obtain ⟨rfl, rfl⟩ := h
    refine ⟨by simp, ?_⟩
    have := pop_moves (fun l => ∃ top ∈ s.programReturnStack, l = top.line) s
    rwa [hpop] at this
  · next top s₁ hpop =>
    obtain ⟨hstack, rfl⟩ := programPopReturn_eq_some hpop
    have hpopped : Moves s (s.withStack s.programReturnStack.tail)
        fun l => ∃ top ∈ s.programReturnStack, l = top.line :=
      Moves.withStack s fun _ he => .inl (List.mem_of_mem_tail he)
    split at h
    · simp only [fails, Except.ok.injEq, Prod.mk.injEq] at h
      obtain ⟨rfl, rfl⟩ := h
      exact ⟨by simp, hpopped⟩
    · obtain ⟨s₂, hpush, he⟩ := except_map_eq_ok h
      simp only [Prod.mk.injEq] at he
      obtain ⟨rfl, rfl⟩ := he
      refine ⟨by simp, (hpopped.trans (push_moves _ hpush rfl)).trans ?_⟩
      exact Moves.goTo _ ⟨top, by rw [hstack]; exact List.mem_cons_self, rfl⟩

omit [Target] in
/-- `JUMPTO` moves to the line whose address it has. -/
theorem doJumpto_moves (h : doJumpto s toks = .ok (o, s')) :
    o ≠ .run ∧ Moves s s' fun l => s.ram toks = tokNumeric ∧ l = s.ram.word (toks + 1) := by
  unfold doJumpto at h
  split at h
  · simp only [fails, Except.ok.injEq, Prod.mk.injEq] at h
    obtain ⟨rfl, rfl⟩ := h
    exact ⟨by simp, Moves.of_quiet (Quiet.refl s)⟩
  · next hnum =>
    simp only [succeeds, Except.ok.injEq, Prod.mk.injEq] at h
    obtain ⟨rfl, rfl⟩ := h
    exact ⟨by simp, Moves.goTo _ ⟨not_not.1 hnum, rfl⟩⟩

omit [Target] in
/-- `JUMPSUB` moves to the line whose address it has. -/
theorem doJumpsub_moves (h : doJumpsub s toks = .ok (o, s')) :
    o ≠ .run ∧ Moves s s' fun l => s.ram toks = tokNumeric ∧ l = s.ram.word (toks + 1) := by
  unfold doJumpsub at h
  split at h
  · simp only [fails, Except.ok.injEq, Prod.mk.injEq] at h
    obtain ⟨rfl, rfl⟩ := h
    exact ⟨by simp, Moves.of_quiet (Quiet.refl s)⟩
  · next hnum =>
    obtain ⟨s₁, hpush, he⟩ := except_map_eq_ok h
    simp only [Prod.mk.injEq] at he
    obtain ⟨rfl, rfl⟩ := he
    have hm := push_moves (fun l => s.ram toks = tokNumeric ∧ l = s.ram.word (toks + 1)) hpush rfl
    refine ⟨by simp, hm.trans (Moves.goTo _ ⟨not_not.1 hnum, ?_⟩)⟩
    rw [hm.ram]

/-- Where the value of `line` comes from: the entry on top of the stack, if there is one.

**Proof sketch.** By cases on the stack. An empty stack is left empty and the variable is set.
Otherwise the entry on top is popped; its line is the value, and it is pushed again or the variable
is set without it. Setting a variable is quiet (`programSetNumeric_quiet`), and no other entry is
put on the stack. -/
theorem forStep_moves (targets : ℕ → Prop) {start : ℤ} {line : ℕ} {s₁ : State}
    (h : forStep s toks start = .ok (line, s₁)) :
    Moves s s₁ targets ∧
      ((∃ top ∈ s.programReturnStack, line = top.line) ∨
        s.programReturnStack = [] ∧ ∃ e, programSetNumeric s toks start = .ok (e, s₁)) := by
  unfold forStep at h
  split at h
  · next s₀ hpop =>
    simp only [programPopReturn, Prod.mk.injEq, List.head?_eq_none_iff] at hpop
    obtain ⟨hnil, rfl⟩ := hpop
    have hs : s.withStack s.programReturnStack.tail = s := by
      rw [hnil, List.tail_nil, ← hnil]
      rfl
    rw [hs] at h
    obtain ⟨⟨e, s₂⟩, hset, he⟩ := except_map_eq_ok h
    simp only [Prod.mk.injEq] at he
    obtain ⟨rfl, rfl⟩ := he
    exact ⟨Moves.of_quiet (programSetNumeric_quiet hset), .inr ⟨hnil, e, hset⟩⟩
  · next top s₀ hpop =>
    obtain ⟨hstack, rfl⟩ := programPopReturn_eq_some hpop
    have hmem : top ∈ s.programReturnStack := by
      rw [hstack]
      exact List.mem_cons_self
    have hpopped : Moves s (s.withStack s.programReturnStack.tail) targets :=
      Moves.withStack s fun _ he => .inl (List.mem_of_mem_tail he)
    split at h
    · split at h
      · exact absurd h (by simp)
      · obtain ⟨⟨e, s₂⟩, hset, he⟩ := except_map_eq_ok h
        simp only [Prod.mk.injEq] at he
        obtain ⟨rfl, rfl⟩ := he
        exact ⟨hpopped.trans (Moves.of_quiet (programSetNumeric_quiet hset)), .inl ⟨top, hmem, rfl⟩⟩
    · split at h
      · exact absurd h (by simp)
      · next e s₂ hset =>
        obtain ⟨s₃, hpush, he⟩ := except_map_eq_ok h
        simp only [Prod.mk.injEq] at he
        obtain ⟨rfl, rfl⟩ := he
        have hquiet := programSetNumeric_quiet hset
        obtain ⟨-, rfl⟩ := programPushReturn_eq_ok hpush
        refine ⟨?_, .inl ⟨top, hmem, rfl⟩⟩
        have hset' : Moves s s₂ targets := hpopped.trans (Moves.of_quiet hquiet)
        refine ⟨hset'.ram, hset'.programEndPtr, hset'.mode, hset'.programCurrentLine,
          hset'.programLastInsertedLine, hset'.inserted, hset'.next, fun e he => ?_⟩
        cases List.mem_cons.1 he with
        | inl he => exact .inl (he ▸ hmem)
        | inr he => exact hset'.stack e he

/-- Where a `FOR` goes that ends the loop: to the line behind the one on top of the stack. When the
stack is empty it can go anywhere, after the variable has been set to its first value and this is
not below the limit. -/
def ForTarget (s : State) (toks l : ℕ) : Prop :=
  (∃ top ∈ s.programReturnStack, l = progNext s.ram top.line) ∨
    s.programReturnStack = [] ∧ ∃ start limit e s₁ val,
      forLimits s.ram toks = some (start, limit) ∧
        programSetNumeric s toks start = .ok (e, s₁) ∧ forVal s₁ toks = .ok val ∧ limit ≤ val

/-- `FOR` moves to the line behind the matching `NEXT`. -/
theorem doFor_moves (h : doFor s toks = .ok (o, s')) :
    o ≠ .run ∧ Moves s s' (ForTarget s toks) := by
  unfold doFor at h
  split at h
  · simp only [fails, Except.ok.injEq, Prod.mk.injEq] at h
    obtain ⟨rfl, rfl⟩ := h
    exact ⟨by simp, Moves.of_quiet (Quiet.refl s)⟩
  · next start limit hlimits =>
    split at h
    · exact absurd h (by simp)
    · next line s₁ hstep =>
      obtain ⟨hm, hline⟩ := forStep_moves (ForTarget s toks) hstep
      split at h
      · exact absurd h (by simp)
      · next val hval =>
        split at h
        · next hge =>
          simp only [succeeds, Except.ok.injEq, Prod.mk.injEq] at h
          obtain ⟨rfl, rfl⟩ := h
          refine ⟨by simp, hm.trans (Moves.goTo _ ?_)⟩
          rcases hline with ⟨top, htop, rfl⟩ | ⟨hnil, e, hset⟩
          · exact .inl ⟨top, htop, by rw [hm.ram]⟩
          · exact .inr ⟨hnil, start, limit, e, s₁, val, hlimits, hset, hval, hge⟩
        · obtain ⟨s₂, hpush, he⟩ := except_map_eq_ok h
          simp only [Prod.mk.injEq] at he
          obtain ⟨rfl, rfl⟩ := he
          exact ⟨by simp, hm.trans (push_moves _ hpush rfl)⟩

omit [Target] in
/-- The search for a line and the jump to it. -/
theorem programTransferControl_eq_ok {n : ℤ} {line : ℕ} {s₁ : State}
    (h : programTransferControl s n = .ok (line, s₁)) :
    programSearchLineno s n = some line ∧ s₁ = s.goTo line := by
  obtain ⟨line', hline, he⟩ := orFault_map_eq_ok h
  simp only [Prod.mk.injEq] at he
  obtain ⟨rfl, rfl⟩ := he
  exact ⟨hline, rfl⟩

omit [Target] in
/-- The jump to a line, and the rewritten statement. -/
theorem transferRewrite_eq_ok {jump : UInt8} (h : transferRewrite s toks jump = .ok (o, s')) :
    o = .done .noerror ∧ ∃ line, programSearchLineno s (numericGet s.ram toks) = some line ∧
      s' = ((s.goTo line).memcpy (toks - 1) [jump]).memcpy (toks + 1) (bytes16 line) := by
  unfold transferRewrite at h
  split at h
  · exact absurd h (by simp)
  · next line s₁ hsearch =>
    obtain ⟨hline, rfl⟩ := programTransferControl_eq_ok hsearch
    simp only [succeeds, Except.ok.injEq, Prod.mk.injEq] at h
    exact ⟨h.1.symm, line, hline, h.2.symm⟩

omit [Target] in
/-- `GOTO` is rewritten, or ends with an error. -/
theorem doGoto_eq_ok (h : doGoto s toks = .ok (o, s')) :
    (∃ e, o = .done e ∧ s' = s) ∨
      s.ram toks = tokNumeric ∧ transferRewrite s toks keywordJumpto = .ok (o, s') := by
  unfold doGoto at h
  split at h
  · simp only [fails, Except.ok.injEq, Prod.mk.injEq] at h
    exact .inl ⟨_, h.1.symm, h.2.symm⟩
  · next hnum => exact .inr ⟨not_not.1 hnum, h⟩

omit [Target] in
/-- `GOSUB` is rewritten behind a push, or ends with an error. -/
theorem doGosub_eq_ok (h : doGosub s toks = .ok (o, s')) :
    (∃ e, o = .done e ∧ s' = s) ∨
      s.ram toks = tokNumeric ∧ ∃ s₁, programPushReturn s s.programCurrentLine null = .ok s₁ ∧
        transferRewrite s₁ toks keywordJumpsub = .ok (o, s') := by
  unfold doGosub at h
  split at h
  · simp only [fails, Except.ok.injEq, Prod.mk.injEq] at h
    exact .inl ⟨_, h.1.symm, h.2.symm⟩
  · next hnum =>
    split at h
    · exact absurd h (by simp)
    · next s₁ hpush => exact .inr ⟨not_not.1 hnum, s₁, hpush, h⟩

omit [Target] in
/-- A new array is quiet, behind its allocation. -/
theorem programCreateArray_quiet {size : ℕ} {e : Error}
    (h : programCreateArray s toks size = .ok (e, s')) : Quiet (programAlloc s size).2 s' := by
  unfold programCreateArray at h
  simp only at h
  split at h
  · obtain ⟨i, -, he⟩ := orFault_map_eq_ok h
    simp only [Prod.mk.injEq] at he
    exact he.2 ▸ Quiet.setRegister _ i _
  · split at h
    · exact absurd h (by simp)
    · split at h
      · exact absurd h (by simp)
      · simp only [Except.ok.injEq, Prod.mk.injEq] at h
        exact h.2 ▸ Quiet.withContext _ _

omit [Target] in
/-- A `DIM` fails or allocates memory, and changes variables. -/
theorem doDim_eq_ok (h : doDim s toks = .ok (o, s')) :
    (∃ e, o = .done e ∧ s' = s) ∨
      o = .done .noerror ∧ ∃ size, Quiet (programAlloc s size).2 s' := by
  unfold doDim at h
  split at h
  · simp only [fails, Except.ok.injEq, Prod.mk.injEq] at h
    exact .inl ⟨_, h.1.symm, h.2.symm⟩
  · next next hvar =>
    simp only at h
    split at h
    · simp only [fails, Except.ok.injEq, Prod.mk.injEq] at h
      exact .inl ⟨_, h.1.symm, h.2.symm⟩
    · obtain ⟨⟨e, s₁⟩, hcreate, he⟩ := except_map_eq_ok h
      simp only [Prod.mk.injEq] at he
      obtain ⟨rfl, rfl⟩ := he
      exact .inr ⟨rfl, _, programCreateArray_quiet hcreate⟩

end Control

end

end Z80OS.Basic
