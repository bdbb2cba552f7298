import Z80OS.Basic.Statements
import Z80OS.Lib.Run

set_option relaxedAutoImplicit false
set_option autoImplicit false

/-!
# Sessions

The user types lines. A line is tokenized into the buffer for direct statements and interpreted: it
is a line of the program, which is inserted, or a direct statement. The statement `RUN` starts the
program, which is then executed line by line.

## Main definitions

* `Z80OS.Basic.processLine` — a line that the user types.
* `Z80OS.Basic.programTurn`, `Z80OS.Basic.programStep` — one turn of the loop of `program_run`.
* `Z80OS.Basic.Input`, `Z80OS.Basic.basicStep`, `Z80OS.Basic.basicRun` — the steps of a session.
* `Z80OS.Basic.boot` — the interpreter when it starts.
-/

namespace Z80OS.Basic

/-- What happens next: the user types a line, or the program goes on. -/
inductive Input
  | line (text : List UInt8)
  | go
  deriving DecidableEq

/-- How deep statements may be inside each other. -/
def nestingMax : ℕ := ramSize

section

variable [Target]

/-- The text of an error. -/
def errorDisplay (s : State) (e : Error) : List UInt8 :=
  let text := match e with
    | .syntaxError => ascii ['S', 'Y', 'N', 'T', 'A', 'X', '!', '\n']
    | .undefinedKw => ascii ['K', 'E', 'Y', 'W', 'O', 'R', 'D', '?', '\n']
    | .linenum => ascii ['L', 'I', 'N', 'E', 'N', 'U', 'M', '?', '\n']
    | .goto => ascii ['G', 'O', 'T', 'O', ' '] ++ decimal (ofNumeric (programNextLineno s)) ++
        ascii ['?']
    | .notRunning => ascii ['P', 'R', 'O', 'G', 'R', 'A', 'M', ' ', 'N', 'O', 'T', ' ', 'R', 'U',
        'N', 'N', 'I', 'N', 'G', '!', '\n']
    | .range => ascii ['O', 'U', 'T', ' ', 'O', 'F', ' ', 'R', 'A', 'N', 'G', 'E', '!', '\n']
    | _ => ascii ['U', 'N', 'D', 'E', 'F', 'I', 'N', 'E', 'D', ' ', 'E', 'R', 'R', 'O', 'R', '!',
        '\n']
  text ++ ascii ['\r', '\n', '\n']

/-- The report of an error of the tokenizer. -/
def reportTok (s : State) (e : Error) : State :=
  s.print (ascii ['T', 'O', 'K', ':', ' ', 'L'] ++
    decimal (ofNumeric (progLineno s.ram s.programCurrentLine)) ++ 0x20 :: errorDisplay s e)

/-- The report of an error of the interpreter, if there is one. -/
def reportInt (s : State) (e : Error) : State :=
  if e = .noerror then s
  else s.print (ascii ['I', 'N', 'T', ':', ' ', 'L'] ++
    printNumeric (progLineno s.ram s.programCurrentLine) ++ 0x20 :: errorDisplay s e)

/-- The interpretation of a statement. -/
def interpret (s : State) (stmt : ℕ) : Interpreted := statementInterpret nestingMax s stmt

/-- A line that the user types. -/
def processLine (s : State) (text : List UInt8) : Result (Error × State) :=
  match statementTokenize text with
  | none => .error .undefined
  | some (e, stmt) =>
    let s := s.memcpy Target.statement stmt
    if e ≠ .noerror then .ok (e, reportTok s e)
    else
      (interpret s Target.statement).map fun
        | (.done e, s) => (e, reportInt s e)
        | (.run, s) => (.noerror, s)

/-- The program in which sub-statements that were waiting in front of its run wait again. -/
def State.waits (s : State) (nested : Bool) (again : List ℕ) : State :=
  match s.mode with
  | .ready => s
  | .running nested' again' => s.withMode (.running (nested' || nested) (again' ++ again))

/-- The return from a run with an error, to the sub-statements of `IF` that have started it: each of
them is interpreted again as long as there is an error. -/
def programReturn (nested : Bool) : List ℕ → State → Error → Result (Error × State)
  | [], s, e => if nested then .ok (.noerror, s) else .ok (e, reportInt s e)
  | stmt :: again, s, e =>
    if e = .noerror then .ok (e, s)
    else
      match interpret s stmt with
      | .error f => .error f
      | .ok (.done e, s) => programReturn nested again s e
      | .ok (.run, s) => .ok (.noerror, s.waits nested again)

/-- The end of a run. The loop of a program around a nested one then ends without an error. -/
def programFinish (s : State) (e : Error) (nested : Bool) (again : List ℕ) :
    Result (Error × State) :=
  programReturn nested again (s.withMode .ready) e

/-- One turn of the loop of `program_run`: nothing when the loop goes on, and the error with which
the run ends otherwise. -/
def programTurn (s : State) : Result (Option Error × State) :=
  let s := { s with programCurrentLine := s.programNextLine }
  let stmt := progStmt s.programCurrentLine
  if s.ram stmt = tokAlloc then .ok (some .syntaxError, s)
  else if s.ram stmt = tokNumeric then .ok (some .syntaxError, s)
  else
    let s := s.goTo (progNext s.ram s.programCurrentLine)
    match interpret s stmt with
    | .error f => .error f
    | .ok (.run, s) => .ok (none, s)
    | .ok (.done e, s) =>
      if s.mode = .ready then .ok (some .noerror, s)
      else if e ≠ .noerror then .ok (some e, s)
      else if s.programNextLine = null then .ok (some .goto, s)
      else .ok (none, s)

/-- One step of a run of the program. -/
def programStep (s : State) (nested : Bool) (again : List ℕ) : Result (Error × State) :=
  match programTurn s with
  | .error f => .error f
  | .ok (none, s) => .ok (.noerror, s)
  | .ok (some e, s) => programFinish s e nested again

/-- The input can be made: a line, which is a C string, is typed when no program runs. -/
def Input.Possible (s : State) : Input → Prop
  | .line text => s.mode = .ready ∧ 0 ∉ text
  | .go => s.mode ≠ .ready

instance (s : State) (input : Input) : Decidable (input.Possible s) := by
  cases input <;>
    · unfold Input.Possible
      infer_instance

/-- One step of a session. -/
def basicStep (s : State) : Input → Result (Error × State)
  | .line text => processLine s text
  | .go =>
    match s.mode with
    | .ready => .ok (.noerror, s)
    | .running nested again => programStep s nested again

/-- One step of a session that has a result. -/
def basicRun (s : State) (input : Input) : Option (Error × State) := (basicStep s input).toOption

/-- A step of a run is a step of a session. -/
theorem basicRun_eq_some {s s' : State} {input : Input} {e : Error}
    (h : basicRun s input = some (e, s')) : basicStep s input = .ok (e, s') := by
  unfold basicRun at h
  cases hr : basicStep s input with
  | error f => simp [hr, Except.toOption] at h
  | ok q => simpa [hr, Except.toOption] using h

/-- A memory layout of the target: the buffer at `0x8100`, the region of the program from `0x8400`
to `0xf000`. -/
@[reducible]
def Target.small : Target where
  statement := 0x8100
  programStart := 0x8400
  programMax := 0xf000
  statement_pos := by decide
  statement_le := by decide
  start_le := by decide
  max_le := by decide
  line := fun _ => 0
  currentVal := fun _ => 0

/-- The interpreter in front of its start, with memory that is zero. -/
def State.zeroed : State where
  ram := fun _ => 0
  programEndPtr := 0
  mode := .ready
  programRegisters := fun _ => ⟨false, 0⟩
  programContext := []
  programReturnStack := []
  programCurrentLine := 0
  programLastInsertedLine := 0
  programNextLine := 0
  r := 0
  output := []
  inserted := []

/-- The interpreter when it starts. -/
def boot (s : State) : State := programNew { s with r := 1 }

/-- The state after a session of the interpreter that has started with memory that is zero. -/
def sessionEnd (inputs : List Input) : State :=
  ((Run.exec basicRun (boot State.zeroed) inputs).map Prod.snd).getD State.zeroed

/-- What holds along a session holds of its last step. -/
theorem always_sessionEnd {P : State → Input → Error → State → Prop} {inputs : List Input}
    {input : Input}
    (h : Run.Always basicRun P (boot State.zeroed) (inputs ++ [input]))
    (hr : (Run.exec basicRun (boot State.zeroed) (inputs ++ [input])).isSome = true) :
    ∃ e, P (sessionEnd inputs) input e (sessionEnd (inputs ++ [input])) := by
  obtain ⟨⟨es, s⟩, hall⟩ := Option.isSome_iff_exists.1 hr
  cases hfirst : Run.exec basicRun (boot State.zeroed) inputs with
  | none =>
    rw [Run.exec_append_of_none hfirst] at hall
    exact absurd hall (by simp)
  | some r =>
    obtain ⟨es₁, s₁⟩ := r
    have hlast := hall
    rw [Run.exec_append hfirst, Option.map_eq_some_iff] at hlast
    obtain ⟨⟨es₂, s₂⟩, hlast, he⟩ := hlast
    obtain ⟨e, _, s₃, hstep, hnil, -⟩ := Run.exec_cons_eq_some hlast
    have hs : s = s₃ := by
      simp only [Run.exec_nil, Option.some.injEq, Prod.mk.injEq] at hnil he
      rw [← he.2, ← hnil.2]
    have h₁ : sessionEnd inputs = s₁ := by rw [sessionEnd, hfirst]; rfl
    have h₂ : sessionEnd (inputs ++ [input]) = s₃ := by rw [sessionEnd, hall, ← hs]; rfl
    rw [h₁, h₂]
    exact ⟨e, h.last hfirst hstep⟩

/-- The inputs of a session can be made. -/
def Typeable (s : State) (inputs : List Input) : Prop :=
  Run.Always basicRun (fun s input _ _ => input.Possible s) s inputs

/-- The test finds out that every line can be typed. -/
theorem typeable_of_check {s : State} {inputs : List Input}
    (h : Run.check basicRun (fun s input _ _ => decide (input.Possible s)) s inputs = true) :
    Typeable s inputs :=
  Run.Always.of_check (fun _ _ _ _ ht => of_decide_eq_true ht) h

end

end Z80OS.Basic
