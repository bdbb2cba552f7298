import Z80OS.Basic.Courses

set_option relaxedAutoImplicit false
set_option autoImplicit false

/-!
# Transfers of control

Where a statement of a running program can go: to a line of the program, or nowhere.

## Main definitions

* `Z80OS.Basic.NextInside` — the next line is a line of the program, or there is none.
* `Z80OS.Basic.TransfersInside` — the statements that are executed in a step of a session go to
  lines of the program.

## Main results

* `Z80OS.Basic.transfersInside` — control stays inside the program in sessions of tame statements.
-/

namespace Z80OS.Basic

/-- `program_next_line` is `NULL` or the header of a line inserted since the last `NEW`. -/
def NextInside (s : State) : Prop :=
  s.programNextLine = null ∨ ∃ l ∈ s.inserted, l.addr = s.programNextLine

instance (s : State) : Decidable (NextInside s) := by
  unfold NextInside
  infer_instance

section

variable [Target] {s s' : State} {p : List ProgLine} {a : ℕ} {ts : List Token} {o : Outcome}

/-- In a step of a running program, the next line is inside the program when a statement is
executed, and every value that the statement assigns to `program_next_line` is. A statement other
than `IF` has no statement inside, and the statements inside an `IF` are executed in the step,
too. -/
def TransfersInside (s : State) (input : Input) : Prop :=
  ∀ s₁ a, StepExecutes s input s₁ a → s₁.mode ≠ .ready → NextInside s₁ ∧
    ∀ o s₂, statementInterpret 1 s₁ a = .ok (o, s₂) →
      s₂.programNextLine = s₁.programNextLine ∨ NextInside s₂

/-- The next line is one of the program. -/
theorem Control.nextInside (hc : Control s p) (h : Represents s p) : NextInside s := by
  refine hc.next.imp_right ?_
  rintro ⟨l, hl, he⟩
  refine ⟨l.line, ?_, he⟩
  rw [h.inserted]
  exact List.mem_map_of_mem hl

/-- A statement that ends the run leaves the next line as it is.

**Proof sketch.** By cases on the effect of the statement. Those that transfer control leave the
mode as it is, which contradicts the end of the run; the others do not write the pointer to the next
line. -/
theorem next_eq_of_ready (hif : ¬ IsIf s a) (hint : statementInterpret 1 s a = .ok (o, s'))
    (hmode : s.mode ≠ .ready) (hready : s'.mode = .ready) :
    s'.programNextLine = s.programNextLine := by
  have hmoves : ∀ targets : ℕ → Prop, o ≠ .run ∧ Moves s s' targets →
      s'.programNextLine = s.programNextLine :=
    fun _ hm => absurd (hm.2.mode.symm.trans hready) hmode
  cases effect_of_statementInterpret hif hint with
  | quiet hq => exact hq.programNextLine
  | element _ _ hq => exact hq.programNextLine
  | insert _ hins =>
    unfold programInsert at hins
    split at hins
    · simp only [Except.ok.injEq, Prod.mk.injEq] at hins
      rw [← hins.2]
    · obtain ⟨size, -, he⟩ := orFault_map_eq_ok hins
      simp only [Prod.mk.injEq] at he
      rw [← he.2]
      split
      · rfl
      · rfl
  | new _ => rfl
  | run _ => exact absurd hready (by simp [programRunInit])
  | stop _ hend =>
    unfold programEnd at hend
    split at hend
    · simp only [Prod.mk.injEq] at hend
      rw [← hend.2]
    · simp only [Prod.mk.injEq] at hend
      rw [← hend.2]
      rfl
  | goto _ hgoto =>
    rcases doGoto_eq_ok hgoto with ⟨e, -, rfl⟩ | ⟨-, hjump⟩
    · rfl
    · obtain ⟨-, line, -, rfl⟩ := transferRewrite_eq_ok hjump
      exact absurd hready hmode
  | gosub _ hgosub =>
    rcases doGosub_eq_ok hgosub with ⟨e, -, rfl⟩ | ⟨-, s₁, hpush, hjump⟩
    · rfl
    · obtain ⟨-, rfl⟩ := programPushReturn_eq_ok hpush
      obtain ⟨-, line, -, rfl⟩ := transferRewrite_eq_ok hjump
      exact absurd hready hmode
  | jumpto _ hjump => exact hmoves _ (doJumpto_moves hjump)
  | jumpsub _ hjump => exact hmoves _ (doJumpsub_moves hjump)
  | «for» _ hfor => exact hmoves _ (doFor_moves hfor)
  | next _ hnext => exact hmoves _ (doNext_moves hnext)
  | «return» _ hret => exact hmoves _ (doReturn_moves hret)
  | dim _ hdim =>
    rcases doDim_eq_ok hdim with ⟨e, -, rfl⟩ | ⟨-, size, hq⟩
    · rfl
    · exact hq.programNextLine

/-- Control stays inside the program when a statement is executed. -/
theorem Stands.transfer (hs : Stands s p a ts) (h : Represents s p) (htame : Tame s a)
    (hmode : s.mode ≠ .ready) (hint : statementInterpret 1 s a = .ok (o, s')) :
    s'.programNextLine = s.programNextLine ∨ NextInside s' := by
  by_cases hif : IsIf s a
  · -- without a statement inside, only the comparison is evaluated
    rw [statementInterpret_if hif, doIf] at hint
    cases hsub : ifSub s (a + kwSize) with
    | error f => simp [hsub] at hint
    | ok q =>
      obtain ⟨r, s₁⟩ := q
      cases r with
      | error e =>
        simp only [hsub, fails, Except.ok.injEq, Prod.mk.injEq] at hint
        exact .inl (hint.2 ▸ (ifSub_quiet hsub).programNextLine)
      | ok a₁ => simp [hsub, ifThen, statementInterpret_zero] at hint
  · by_cases hready : s'.mode = .ready
    · exact .inl (next_eq_of_ready hif hint hmode hready)
    · cases hs.flows h htame hif hint with
      | failed _ kept => exact .inr ((kept.control hmode).nextInside kept.represents)
      | done hrep goes => exact .inr ((goes hready).2.1.nextInside hrep)
      | run hrep _ _ control _ _ => exact .inr (control.nextInside hrep)

/-- Without an invariant of its own. -/
theorem carries_true : Carries (fun _ _ => True) fun _ => True :=
  ⟨fun _ _ _ _ => trivial, fun _ _ _ _ _ _ _ _ _ _ _ _ _ => trivial⟩

/-- **Control stays inside the program.** In every session whose statements are tame, every value
that a statement of a running program assigns to `program_next_line` is `NULL` or the header of a
line inserted since the last `NEW`, and so is the next line after every step of the program.

**Proof sketch.** Where a statement is executed, memory stands for a program, the next line and the
lines on the return stack are in it, and the statement stands in its current line. A tame statement
keeps this, by the list of what statements can do. -/
theorem transfersInside {s₀ : State} {inputs : List Input}
    (h : Run.Always basicRun (fun s input _ _ => Tamely (fun _ _ => True) s input) (boot s₀)
      inputs) :
    Run.Always basicRun (fun s input _ s' => TransfersInside s input ∧
      (s'.mode ≠ .ready → NextInside s')) (boot s₀) inputs := by
  refine (h.and (Carries.always carries_true trivial h)).mono ?_
  rintro s input e s' ⟨⟨-, htame⟩, ⟨-, p, hrep, hrun⟩, hplaced⟩
  refine ⟨fun s₁ a hex hmode => ?_, fun hmode => ?_⟩
  · obtain ⟨⟨p₁, ts, hrep₁, hs⟩, -⟩ := hplaced s₁ a hex
    exact ⟨(hs.running hmode).1.nextInside hrep₁,
      fun o s₂ hint => hs.transfer hrep₁ (htame s₁ a hex).1 hmode hint⟩
  · cases hm : s'.mode with
    | ready => exact absurd hm hmode
    | running nested again => exact (hrun nested again hm).1.nextInside hrep

end

/-- A loop around a call of a subroutine. -/
def loopSession : List Input :=
  [.line (ascii ['1', '0', ' ', 'F', 'O', 'R', ' ', 'X', '=', '1', ' ', 'T', 'O', ' ', '3']),
   .line (ascii ['2', '0', ' ', 'G', 'O', 'S', 'U', 'B', ' ', '5', '0']),
   .line (ascii ['3', '0', ' ', 'N', 'E', 'X', 'T', ' ', 'X']),
   .line (ascii ['4', '0', ' ', 'E', 'N', 'D']),
   .line (ascii ['5', '0', ' ', 'R', 'E', 'T', 'U', 'R', 'N']),
   .line (ascii ['R', 'U', 'N']), .go, .go, .go, .go, .go, .go, .go, .go, .go, .go]

/-- A program with a loop, entered and run. -/
theorem transfersInside_loopSession :
    letI := Target.small
    Run.Always basicRun (fun s input _ s' => TransfersInside s input ∧
      (s'.mode ≠ .ready → NextInside s')) (boot State.zeroed) loopSession := by
  let _ := Target.small
  exact transfersInside (always_tamely_of_test (c := fun _ _ => true) (fun _ _ _ => trivial)
    (by decide +kernel))

/-- A program with a jump to the address 5. -/
def jumpSession : List Input :=
  [.line (ascii ['1', '0', ' ', 'J', 'U', 'M', 'P', 'T', 'O', ' ', '5']),
   .line (ascii ['R', 'U', 'N'])]

/-- A program with a loop that ends at once. -/
def emptyLoopSession : List Input :=
  [.line (ascii ['1', '0', ' ', 'F', 'O', 'R', ' ', 'X', '=', '5', ' ', 'T', 'O', ' ', '1']),
   .line (ascii ['R', 'U', 'N'])]

/-- The target with `0x8402` in the variable of `do_for` that is not set. -/
@[reducible]
def Target.stale : Target := { Target.small with line := fun _ => 0x8402 }

/-- Control stays inside the program in all sessions. -/
def AlwaysInside [Target] : Prop :=
  ∀ inputs, Typeable (boot State.zeroed) inputs →
    Run.Always basicRun (fun s input _ s' => TransfersInside s input ∧
      (s'.mode ≠ .ready → NextInside s')) (boot State.zeroed) inputs

/-- A `JUMPTO 5` that was typed goes to the address 5, and a loop that ends at once goes to an
address that is read through a variable which has not been set. -/
theorem not_alwaysInside : ¬ @AlwaysInside Target.small ∧ ¬ @AlwaysInside Target.stale := by
  constructor
  · intro h
    let _ := Target.small
    obtain ⟨e, -, hinside⟩ := always_sessionEnd
      (h (jumpSession ++ [.go]) (typeable_of_check (by decide +kernel))) (by decide +kernel)
    exact absurd (hinside (by decide +kernel)) (by decide +kernel)
  · intro h
    let _ := Target.stale
    obtain ⟨e, -, hinside⟩ := always_sessionEnd
      (h (emptyLoopSession ++ [.go]) (typeable_of_check (by decide +kernel))) (by decide +kernel)
    exact absurd (hinside (by decide +kernel)) (by decide +kernel)

end Z80OS.Basic
