import Z80OS.File.Format
import Z80OS.Kernel.Process
import Z80OS.Lib.RingBuffer
import Z80OS.Lib.Run

set_option relaxedAutoImplicit false
set_option autoImplicit false

/-!
# The terminal and the signals

The receive interrupt puts every byte into a ring buffer of 256 slots, from which the running
process reads. When the process is in interactive mode a cancel byte is withheld, and sets a flag in
its descriptor instead. The timer interrupt chooses the next process and then looks whether that
process has a signal to handle. System calls run with interrupts disabled, so the interrupts come
between them.

`char` is unsigned, so a byte is read as a number from 0 to 255.

## Main definitions

* `Z80OS.System` — the kernel with the buffer of the terminal.
* `Z80OS.terminalPut`, `Z80OS.terminalGet`, `Z80OS.terminalSetMode` — the terminal.
* `Z80OS.signalSet`, `Z80OS.signalSethandler`, `Z80OS.signalGetHandler` — the signals.
* `Z80OS.timerHandler` — the timer interrupt.
* `Z80OS.SystemCall`, `Z80OS.systemCall` — interrupts and system calls as a step function.

## Main results

* `Z80OS.systemCall_modes` — which calls change the mode of a process.
* `Z80OS.terminal_fifo` — the bytes that have been put are read in order.
-/

namespace Z80OS

/-! ## Constants -/

/-- The cancel byte. -/
def asciiCancel : UInt8 := 0x18

/-- The flag of a terminal in binary mode. -/
def termstatusModeBinary : UInt8 := 0x01

/-- The flag of a cancel signal that has not been handled. -/
def sigstatCancel : UInt8 := 0x01

/-- The number of the cancel signal. -/
def sigCancel : ℤ := 0

/-- The number of the break signal. -/
def sigBreak : ℤ := 1

/-! ## Bits -/

/-- `BIT_IS_SET` -/
def bitIsSet (var bit : UInt8) : Bool := var &&& bit == bit

/-- `BIT_IS_CLR` -/
def bitIsClr (var bit : UInt8) : Bool := var &&& bit == 0

/-- `BIT_SET` -/
def bitSet (var bit : UInt8) : UInt8 := var ||| bit

/-- `BIT_CLR` -/
def bitClr (var bit : UInt8) : UInt8 := var &&& ~~~bit

/-! ## The state -/

/-- The buffer of the terminal. Its counters have 8 bits. -/
abbrev TerminalBuf : Type := RingBuffer 256 UInt8

/-- The kernel with the buffer of the terminal. -/
structure System where
  kernel : Kernel
  terminalBuf : TerminalBuf

/-- The terminal at startup. -/
def terminalInit (s : System) : System := { s with terminalBuf := s.terminalBuf.clear }

/-- The process that the current-process pointer points to. It points to none before the first
tick. -/
def processCurrent (s : System) : Option (Fin procsMax) :=
  s.kernel.scheduler.processCurrentPtr.bind processIndex?

/-- The descriptor of a process. -/
def System.process (s : System) (i : Fin procsMax) : ProcessDescriptor := s.kernel.processTable i

/-- The system in which a process has another descriptor. -/
def System.setProcess (s : System) (i : Fin procsMax) (p : ProcessDescriptor) : System :=
  { s with kernel := s.kernel.setProcess i p }

/-- The system with another kernel. -/
def System.withKernel (s : System) (k : Kernel) : System := { s with kernel := k }

/-- The system with a byte put into the buffer of the terminal. -/
def System.store (s : System) (c : UInt8) : System :=
  { s with terminalBuf := s.terminalBuf.push c }

/-! ## Signals -/

/-- Sets the flag of a signal for the current process. -/
def signalSet (s : System) (signal : UInt8) : Option System :=
  (processCurrent s).map fun i =>
    s.setProcess i { s.process i with sigstatus := bitSet (s.process i).sigstatus signal }

/-- Registers a handler of the current process. -/
def signalSethandler (s : System) (handler : ℕ) (sig : ℤ) : Option System :=
  (processCurrent s).map fun i =>
    if sig = sigCancel then s.setProcess i { s.process i with cancel := handler }
    else if sig = sigBreak then s.setProcess i { s.process i with brk := handler }
    else s

/-- The handler of the signal that the current process has to handle, or `0`. -/
def signalGetHandler (s : System) : Option (ℕ × System) :=
  (processCurrent s).map fun i =>
    let p := s.process i
    if p.sigstatus = 0 then (0, s)
    else if bitIsSet p.sigstatus sigstatCancel then
      (p.cancel, s.setProcess i { p with sigstatus := bitClr p.sigstatus sigstatCancel })
    else (0, s)

/-! ## The terminal -/

/-- The terminal status of the current process. -/
def terminalStatus (s : System) : Option UInt8 :=
  (processCurrent s).map fun i => (s.process i).termstatus

/-- Sets the terminal mode of the current process: binary when `mode` is not `0`. -/
def terminalSetMode (s : System) (mode : ℤ) : Option System :=
  (processCurrent s).map fun i =>
    let p := s.process i
    if mode ≠ 0 then
      s.setProcess i { p with termstatus := bitSet p.termstatus termstatusModeBinary }
    else s.setProcess i { p with termstatus := bitClr p.termstatus termstatusModeBinary }

/-- Receives a byte. -/
def terminalPut (s : System) (c : UInt8) : Option System :=
  if c = asciiCancel then
    match terminalStatus s with
    | none => none
    | some status =>
      if bitIsClr status termstatusModeBinary then signalSet s sigstatCancel
      else some (s.store c)
  else some (s.store c)

/-- Reads a byte, or `-1` when there is none. -/
def terminalGet (s : System) : ℤ × System :=
  if s.terminalBuf.head = s.terminalBuf.tail then (-1, s)
  else (s.terminalBuf.front.toNat, { s with terminalBuf := s.terminalBuf.drop })

/-! ## Interrupts and system calls -/

/-- The timer interrupt: chooses the next process, and gives the handler of the signal that it has
to handle. An interrupt that comes while the kernel runs does nothing of this. -/
def timerHandler (s : System) : Option (ℕ × System) :=
  match schedulerTick s.kernel with
  | none => none
  | some (_, k) => signalGetHandler (s.withKernel k)

/-- What happens to the system: a byte that is received, `sread`, `smode`, `sighandle`, `pspawn`,
`pblock`, `pexit`, and a timer tick. -/
inductive SystemCall
  | put (c : UInt8)
  | get
  | setMode (mode : ℤ)
  | sethandler (handler : ℕ) (sig : ℤ)
  | spawn (pd : ℤ)
  | block (event : ℤ)
  | exit (code : ℤ)
  | tick
  deriving DecidableEq

/-- The answer to it: the byte that `sread` gives, the result of `pspawn`, or the handler that the
timer interrupt goes on to. -/
inductive SystemAnswer
  | done
  | byte (n : ℤ)
  | spawned (r : ℤ)
  | handler (address : ℕ)
  deriving DecidableEq

/-- Executes an interrupt or a system call. -/
def systemCall (s : System) : SystemCall → Option (SystemAnswer × System)
  | .put c => (terminalPut s c).map fun s => (.done, s)
  | .get => some (.byte (terminalGet s).1, (terminalGet s).2)
  | .setMode mode => (terminalSetMode s mode).map fun s => (.done, s)
  | .sethandler handler sig => (signalSethandler s handler sig).map fun s => (.done, s)
  | .spawn pd => (processSpawn s.kernel pd).map fun r => (.spawned r.1, s.withKernel r.2)
  | .block event =>
    (schedulerBlockCurrent s.kernel.scheduler event).map fun r =>
      (.done, s.withKernel { s.kernel with scheduler := r })
  | .exit code =>
    (processExit s.kernel.scheduler code).map fun r =>
      (.done, s.withKernel { s.kernel with scheduler := r })
  | .tick => (timerHandler s).map fun r => (.handler r.1, r.2)

/-! ## Modes and flags -/

/-- The process is in interactive mode. -/
def Interactive (s : System) (i : Fin procsMax) : Prop :=
  bitIsClr (s.process i).termstatus termstatusModeBinary = true

/-- The process has a cancel signal to handle. -/
def CancelPending (s : System) (i : Fin procsMax) : Prop :=
  bitIsSet (s.process i).sigstatus sigstatCancel = true

/-- The byte is a cancel byte, and the process is the current one and in interactive mode. -/
def Cancels (s : System) (c : UInt8) (i : Fin procsMax) : Prop :=
  c = asciiCancel ∧ processCurrent s = some i ∧ Interactive s i

/-- The byte does not get into the buffer. -/
def Withheld (s : System) (c : UInt8) : Prop := ∃ i, Cancels s c i

instance (s : System) (i : Fin procsMax) : Decidable (Interactive s i) :=
  inferInstanceAs (Decidable (_ = true))

instance (s : System) (i : Fin procsMax) : Decidable (CancelPending s i) :=
  inferInstanceAs (Decidable (_ = true))

instance (s : System) (c : UInt8) (i : Fin procsMax) : Decidable (Cancels s c i) :=
  inferInstanceAs (Decidable (_ ∧ _ ∧ _))

instance (s : System) (c : UInt8) : Decidable (Withheld s c) :=
  inferInstanceAs (Decidable (∃ _, _))

/-! ## What the operations do -/

section

variable {s s' : System} {i j : Fin procsMax} {p : ProcessDescriptor} {k : Kernel} {c : UInt8}
  {mode sig : ℤ} {handler : ℕ} {var bit : UInt8} {a : SystemCall} {r : SystemAnswer}

/-- A bit that has been set is found set. -/
theorem bitSet_and : bitSet var bit &&& bit = bit := by
  apply UInt8.toBitVec_inj.mp
  ext i hi
  simp only [bitSet, UInt8.toBitVec_and, UInt8.toBitVec_or, BitVec.getElem_and, BitVec.getElem_or]
  grind

/-- A bit that has been cleared is found clear. -/
theorem bitClr_and : bitClr var bit &&& bit = 0 := by
  rw [bitClr, UInt8.and_assoc, UInt8.and_comm (~~~bit), UInt8.and_not_self, UInt8.and_zero]

/-- A bit that has been set is set. -/
@[simp] theorem bitIsSet_bitSet : bitIsSet (bitSet var bit) bit = true := by
  rw [bitIsSet, bitSet_and, beq_self_eq_true]

/-- A bit that has been cleared is clear. -/
@[simp] theorem bitIsClr_bitClr : bitIsClr (bitClr var bit) bit = true := by
  rw [bitIsClr, bitClr_and, beq_self_eq_true]

/-- The process table after a descriptor has been changed. -/
theorem process_setProcess :
    (s.setProcess i p).process j = if j = i then p else s.process j := by
  simp only [System.process, System.setProcess, Kernel.setProcess, Function.update_apply]

/-- A change of a descriptor does not change which process runs. -/
@[simp] theorem processCurrent_setProcess : processCurrent (s.setProcess i p) = processCurrent s :=
  rfl

/-- A descriptor depends on the kernel only. -/
theorem process_congr (h : s'.kernel = s.kernel) : s'.process i = s.process i :=
  congrArg (fun k => k.processTable i) h

/-- The ways in which a byte is received. -/
inductive Put (s : System) (c : UInt8) : System → Prop
  | withheld {i : Fin procsMax} (h : Cancels s c i) : Put s c
      (s.setProcess i
        { s.process i with sigstatus := bitSet (s.process i).sigstatus sigstatCancel })
  | stored (h : ¬ Withheld s c) : Put s c (s.store c)

/-- What a byte does: it is stored, or sets a bit of the process that runs. -/
theorem terminalPut_cases (h : terminalPut s c = some s') : Put s c s' := by
  unfold terminalPut terminalStatus signalSet at h
  cases hcur : processCurrent s with
  | none =>
    have hnot : ¬ Withheld s c := by
      rintro ⟨i, -, hi, -⟩
      rw [hcur] at hi
      exact absurd hi (by simp)
    simp only [hcur, Option.map_none] at h
    split_ifs at h with hc
    rw [← Option.some.inj h]
    exact .stored hnot
  | some i =>
    simp only [hcur, Option.map_some] at h
    split_ifs at h with hc hclr
    · rw [← Option.some.inj h]
      exact .withheld ⟨hc, hcur, hclr⟩
    · rw [← Option.some.inj h]
      refine .stored ?_
      rintro ⟨j, -, hj, hint⟩
      rw [hcur, Option.some.injEq] at hj
      exact hclr (hj ▸ hint)
    · rw [← Option.some.inj h]
      exact .stored fun ⟨_, hc', _⟩ => hc hc'

/-- The ways in which the timer interrupt goes on, with `k` the kernel after the choice of the next
process and the switch to its bank. -/
inductive Tick (s : System) : ℕ → System → Prop
  | signal {k : Kernel} {i : Fin procsMax}
      (hbank : schedulerTick s.kernel = some ((s.process i).bank, k))
      (htable : k.processTable = s.kernel.processTable)
      (hcur : processCurrent (s.withKernel k) = some i) (hp : CancelPending s i) :
      Tick s (s.process i).cancel ((s.withKernel k).setProcess i
        { s.process i with sigstatus := bitClr (s.process i).sigstatus sigstatCancel })
  | none {k : Kernel} {i : Fin procsMax}
      (hbank : schedulerTick s.kernel = some ((s.process i).bank, k))
      (htable : k.processTable = s.kernel.processTable)
      (hcur : processCurrent (s.withKernel k) = some i) (hp : ¬ CancelPending s i) :
      Tick s 0 (s.withKernel k)

/-- The choice of the next process changes no descriptor. The current-process pointer then points
into the table, and the bank is the one of the process there. -/
theorem schedulerTick_current {k : Kernel} {bank : UInt8}
    (h : schedulerTick s.kernel = some (bank, k)) :
    k.processTable = s.kernel.processTable ∧
      ∃ i, processCurrent (s.withKernel k) = some i ∧ bank = (s.process i).bank := by
  unfold schedulerTick at h
  cases hnext : schedulerNext s.kernel.scheduler with
  | none => simp [hnext] at h
  | some r =>
    obtain ⟨pid, t⟩ := r
    simp only [hnext, Option.map_eq_some_iff, Prod.mk.injEq] at h
    obtain ⟨i, hi, rfl, rfl⟩ := h
    refine ⟨rfl, i, ?_, rfl⟩
    unfold schedulerNext at hnext
    simp only [Option.map_eq_some_iff, Prod.mk.injEq] at hnext
    obtain ⟨⟨j, u⟩, -, rfl, rfl⟩ := hnext
    exact hi

/-- What a tick does: it chooses a process, and looks for a signal of it. -/
theorem timerHandler_cases (h : timerHandler s = some (handler, s')) : Tick s handler s' := by
  unfold timerHandler at h
  cases htick : schedulerTick s.kernel with
  | none => simp [htick] at h
  | some r =>
    obtain ⟨bank, k⟩ := r
    obtain ⟨htable, i, hcur, rfl⟩ := schedulerTick_current htick
    have hprocess : (s.withKernel k).process i = s.process i := congrFun htable i
    simp only [htick, signalGetHandler, hcur, Option.map_some, Option.some.injEq, hprocess] at h
    split_ifs at h with hzero hset <;> rw [Prod.mk.injEq] at h <;> obtain ⟨rfl, rfl⟩ := h
    · refine .none htick htable hcur ?_
      rw [CancelPending, hzero]
      decide
    · exact .signal htick htable hcur hset
    · exact .none htick htable hcur hset

/-! ## Steps -/

/-- The mode of a process after a call: the current process sets its own. -/
def modeAfter (s : System) (a : SystemCall) (i : Fin procsMax) : Prop :=
  match a with
  | .setMode mode => if processCurrent s = some i then mode = 0 else Interactive s i
  | .put _ | .get | .sethandler _ _ | .spawn _ | .block _ | .exit _ | .tick => Interactive s i

/-- The flag of a process after a call: a cancel byte sets the one of the current process when that
is in interactive mode, and a tick clears the one of the process that it chooses. -/
def flagAfter (s : System) (a : SystemCall) (s' : System) (i : Fin procsMax) : Prop :=
  match a with
  | .put c => CancelPending s i ∨ Cancels s c i
  | .tick => CancelPending s i ∧ processCurrent s' ≠ some i
  | .get | .setMode _ | .sethandler _ _ | .spawn _ | .block _ | .exit _ => CancelPending s i

/-- The descriptor of a process after a call: only the one of the current process changes, which for
a tick is the process that it chooses. -/
def descriptorAfter (s : System) (a : SystemCall) (s' : System) (i : Fin procsMax) :
    ProcessDescriptor :=
  let p := s.process i
  match a with
  | .put c => if Cancels s c i then { p with sigstatus := bitSet p.sigstatus sigstatCancel } else p
  | .setMode mode =>
    if processCurrent s = some i then
      if mode ≠ 0 then { p with termstatus := bitSet p.termstatus termstatusModeBinary }
      else { p with termstatus := bitClr p.termstatus termstatusModeBinary }
    else p
  | .sethandler handler sig =>
    if processCurrent s = some i then
      if sig = sigCancel then { p with cancel := handler }
      else if sig = sigBreak then { p with brk := handler }
      else p
    else p
  | .tick =>
    if processCurrent s' = some i ∧ CancelPending s i then
      { p with sigstatus := bitClr p.sigstatus sigstatCancel }
    else p
  | .get | .spawn _ | .block _ | .exit _ => p

/-- A spawn changes no descriptor. -/
theorem processSpawn_table {k : Kernel} {pd : ℤ} {n : ℤ}
    (h : processSpawn s.kernel pd = some (n, k)) :
    k.processTable = s.kernel.processTable := by
  unfold processSpawn at h
  simp only [Option.map_eq_some_iff, Prod.mk.injEq] at h
  obtain ⟨-, -, -, rfl⟩ := h
  rfl

/-- **One step of the system**, for the descriptors.

**Proof sketch.** By cases on the call. Of the descriptors only the one of the current process is
changed, by a byte that is withheld, by a mode, by a handler or by a tick that chooses it. -/
theorem systemCall_process (h : systemCall s a = some (r, s')) :
    s'.process i = descriptorAfter s a s' i := by
  cases a with
  | put c =>
    simp only [systemCall, Option.map_eq_some_iff, Prod.mk.injEq] at h
    obtain ⟨s₁, hput, -, rfl⟩ := h
    unfold descriptorAfter
    cases terminalPut_cases hput with
    | @withheld j hj =>
      rw [process_setProcess]
      by_cases hi : i = j
      · subst hi
        rw [if_pos rfl]
        exact (if_pos hj).symm
      · rw [if_neg hi]
        exact (if_neg fun hc => hi (Option.some.inj (hc.2.1.symm.trans hj.2.1))).symm
    | stored hnot => exact (if_neg fun hc => hnot ⟨i, hc⟩).symm
  | get =>
    simp only [systemCall, Option.some.injEq, Prod.mk.injEq] at h
    obtain ⟨-, rfl⟩ := h
    have hkernel : (terminalGet s).2.kernel = s.kernel := by
      unfold terminalGet
      split_ifs <;> rfl
    exact process_congr hkernel
  | setMode mode =>
    simp only [systemCall, terminalSetMode, Option.map_map, Option.map_eq_some_iff] at h
    obtain ⟨j, hj, h⟩ := h
    obtain ⟨-, rfl⟩ := Prod.mk.inj h
    simp only [descriptorAfter, hj, Option.some.injEq]
    by_cases hi : i = j
    · subst hi
      rw [if_pos rfl]
      split_ifs <;> rw [process_setProcess, if_pos rfl]
    · rw [if_neg (Ne.symm hi)]
      split_ifs <;> rw [process_setProcess, if_neg hi]
  | sethandler handler sig =>
    simp only [systemCall, signalSethandler, Option.map_map, Option.map_eq_some_iff] at h
    obtain ⟨j, hj, h⟩ := h
    obtain ⟨-, rfl⟩ := Prod.mk.inj h
    simp only [descriptorAfter, hj, Option.some.injEq]
    by_cases hi : i = j
    · subst hi
      rw [if_pos rfl]
      split_ifs <;> first | exact rfl | rw [process_setProcess, if_pos rfl]
    · rw [if_neg (Ne.symm hi)]
      split_ifs <;> first | exact rfl | rw [process_setProcess, if_neg hi]
  | spawn pd =>
    simp only [systemCall, Option.map_eq_some_iff, Prod.mk.injEq] at h
    obtain ⟨⟨n, k⟩, hspawn, -, rfl⟩ := h
    exact congrFun (processSpawn_table hspawn) i
  | tick =>
    simp only [systemCall, Option.map_eq_some_iff, Prod.mk.injEq] at h
    obtain ⟨⟨n, s₁⟩, htick, -, rfl⟩ := h
    unfold descriptorAfter
    cases timerHandler_cases htick with
    | @signal k j _ htable hcur hp =>
      rw [processCurrent_setProcess, hcur, process_setProcess]
      by_cases hi : i = j
      · subst hi
        rw [if_pos rfl]
        exact (if_pos ⟨rfl, hp⟩).symm
      · rw [if_neg hi]
        have hnot : ¬ (some j = some i ∧ CancelPending s i) :=
          fun hc => hi (Option.some.inj hc.1).symm
        exact (congrFun htable i).trans (if_neg hnot).symm
    | @none k j _ htable hcur hp =>
      rw [hcur]
      have hnot : ¬ (some j = some i ∧ CancelPending s i) := by
        rintro ⟨hj, hi⟩
        rw [← Option.some.inj hj] at hi
        exact hp hi
      exact (congrFun htable i).trans (if_neg hnot).symm
  | _ =>
    simp only [systemCall, Option.map_eq_some_iff, Prod.mk.injEq] at h
    obtain ⟨t, -, -, rfl⟩ := h
    rfl

/-- The mode of a process after a step. -/
theorem systemCall_modes (h : systemCall s a = some (r, s')) :
    Interactive s' i ↔ modeAfter s a i := by
  rw [Interactive, systemCall_process h]
  cases a with
  | setMode mode =>
    simp only [descriptorAfter, modeAfter]
    split_ifs with hcur hmode
    · refine iff_of_false (fun hclr => ?_) hmode
      rw [bitIsClr, bitSet_and] at hclr
      exact absurd hclr (by decide)
    · exact iff_of_true bitIsClr_bitClr (not_not.mp hmode)
    · exact Iff.rfl
  | put | sethandler | tick =>
    simp only [descriptorAfter, modeAfter, Interactive]
    split_ifs <;> exact Iff.rfl
  | _ => exact Iff.rfl

/-- The flag of a process after a step. -/
theorem systemCall_flags (h : systemCall s a = some (r, s')) :
    CancelPending s' i ↔ flagAfter s a s' i := by
  rw [CancelPending, systemCall_process h]
  cases a with
  | put c =>
    simp only [descriptorAfter, flagAfter]
    split_ifs with hc
    · exact iff_of_true bitIsSet_bitSet (.inr hc)
    · exact (or_iff_left hc).symm
  | tick =>
    simp only [descriptorAfter, flagAfter]
    split_ifs with hc
    · refine iff_of_false (fun hset => ?_) fun h => h.2 hc.1
      rw [bitIsSet, bitClr_and] at hset
      exact absurd hset (by decide)
    · exact ⟨fun h => ⟨h, fun hcur => hc ⟨hcur, h⟩⟩, And.left⟩
  | setMode | sethandler =>
    simp only [descriptorAfter, flagAfter, CancelPending]
    split_ifs <;> exact Iff.rfl
  | _ => exact Iff.rfl

end

/-! ## The queue of the terminal -/

/-- A byte as `terminal_get` returns it. -/
def byteValue (c : UInt8) : ℤ := c.toNat

/-- The bytes that a call brings into the stream: the one that is received, unless it is
withheld. -/
def arrives (s : System) : SystemCall → List UInt8
  | .put c => if Withheld s c then [] else [c]
  | _ => []

/-- The bytes that an answer takes out of the stream. -/
def departs : SystemAnswer → List ℤ
  | .byte n => if n = -1 then [] else [n]
  | _ => []

/-- The bytes that come into the stream along a run. -/
def received (s : System) : List SystemCall → List UInt8
  | [] => []
  | a :: as =>
    arrives s a ++
      match systemCall s a with
      | none => []
      | some (_, s') => received s' as

/-- The bytes that the answers of a run take out of the stream. -/
def delivered (answers : List SystemAnswer) : List ℤ := answers.flatMap departs

/-- At any time of a run at most `m` bytes of the stream are unread. -/
def UnreadAtMost (m : ℕ) (s : System) (calls : List SystemCall) : Prop :=
  ∀ n answers s', Run.exec systemCall s (calls.take n) = some (answers, s') →
    (received s (calls.take n)).length ≤ (delivered answers).length + m

section

variable {s s' : System} {a : SystemCall} {r : SystemAnswer} {calls : List SystemCall}
  {answers : List SystemAnswer} {q : List UInt8} {m : ℕ}

/-- The value of a byte is not the number for an empty buffer. -/
theorem byteValue_ne {c : UInt8} : byteValue c ≠ -1 := by
  unfold byteValue
  omega

/-- A read answers with the oldest byte, or with `-1` when there is none. -/
theorem terminalGet_eq (h : s.terminalBuf.Holds q) :
    (terminalGet s).1 = (q.map byteValue).headD (-1) ∧
      (terminalGet s).2.terminalBuf.Holds q.tail := by
  unfold terminalGet
  cases q with
  | nil =>
    rw [if_pos (h.empty_iff.mpr rfl)]
    exact ⟨rfl, h⟩
  | cons c q =>
    rw [if_neg fun he => absurd (h.empty_iff.mp he) (by simp)]
    exact ⟨congrArg byteValue h.front, h.drop⟩

/-- **One step of the terminal.** What is unread before a step and what comes into the stream is
what goes out of it and what is unread afterwards.

**Proof sketch.** By cases on the call. A byte is put into the ring if it is not withheld, for which
there is room (`RingBuffer.Holds.push`). A read takes the first one out. The others leave the
ring. -/
theorem systemCall_holds (h : s.terminalBuf.Holds q) (hr : systemCall s a = some (r, s'))
    (hroom : q.length + (arrives s a).length ≤ (departs r).length + 255) :
    ∃ q', s'.terminalBuf.Holds q' ∧
      q.map byteValue ++ (arrives s a).map byteValue = departs r ++ q'.map byteValue := by
  cases a with
  | put c =>
    simp only [systemCall, Option.map_eq_some_iff, Prod.mk.injEq] at hr
    obtain ⟨s₁, hput, rfl, rfl⟩ := hr
    cases terminalPut_cases hput with
    | @withheld i hi =>
      refine ⟨q, h, ?_⟩
      rw [arrives, if_pos ⟨i, hi⟩]
      simp [departs]
    | stored hnot =>
      rw [arrives, if_neg hnot] at hroom ⊢
      exact ⟨q ++ [c], h.push (by simp [departs] at hroom; omega), by simp [departs]⟩
  | get =>
    simp only [systemCall, Option.some.injEq, Prod.mk.injEq] at hr
    obtain ⟨rfl, rfl⟩ := hr
    obtain ⟨hget, hq⟩ := terminalGet_eq h
    refine ⟨q.tail, hq, ?_⟩
    rw [departs, hget]
    cases q with
    | nil => simp [arrives]
    | cons c q => simp [arrives, byteValue_ne]
  | setMode mode =>
    simp only [systemCall, Option.map_eq_some_iff, Prod.mk.injEq] at hr
    obtain ⟨s₁, hmode, rfl, rfl⟩ := hr
    unfold terminalSetMode at hmode
    simp only [Option.map_eq_some_iff] at hmode
    obtain ⟨i, -, rfl⟩ := hmode
    refine ⟨q, ?_, by simp [arrives, departs]⟩
    split_ifs <;> exact h
  | sethandler handler sig =>
    simp only [systemCall, Option.map_eq_some_iff, Prod.mk.injEq] at hr
    obtain ⟨s₁, hset, rfl, rfl⟩ := hr
    unfold signalSethandler at hset
    simp only [Option.map_eq_some_iff] at hset
    obtain ⟨i, -, rfl⟩ := hset
    refine ⟨q, ?_, by simp [arrives, departs]⟩
    split_ifs <;> exact h
  | tick =>
    simp only [systemCall, Option.map_eq_some_iff, Prod.mk.injEq] at hr
    obtain ⟨⟨n, s₁⟩, htick, rfl, rfl⟩ := hr
    refine ⟨q, ?_, by simp [arrives, departs]⟩
    cases timerHandler_cases htick with
    | signal => exact h
    | none => exact h
  | _ =>
    simp only [systemCall, Option.map_eq_some_iff, Prod.mk.injEq] at hr
    obtain ⟨t, -, rfl, rfl⟩ := hr
    exact ⟨q, h, by simp [arrives, departs]⟩

/-- The bytes that arrive in the first call, and in the other ones. -/
theorem received_cons (hr : systemCall s a = some (r, s')) :
    received s (a :: calls) = arrives s a ++ received s' calls := by
  rw [received, hr]

/-- A call brings at most one byte into the stream. -/
theorem received_length : (received s calls).length ≤ calls.length := by
  induction calls generalizing s with
  | nil => exact Nat.le_refl 0
  | cons a calls ih =>
    have harrives : (arrives s a).length ≤ 1 := by
      unfold arrives
      split
      · split_ifs <;> simp
      · simp
    rw [received, List.length_append, List.length_cons, Nat.add_comm]
    apply Nat.add_le_add _ harrives
    split
    · exact Nat.zero_le _
    · exact ih

/-- A short run leaves few bytes unread. -/
theorem UnreadAtMost.of_length (h : calls.length ≤ m) : UnreadAtMost m s calls := by
  intro n answers s' _
  calc (received s (calls.take n)).length ≤ (calls.take n).length := received_length
    _ ≤ calls.length := List.length_take_le' n calls
    _ ≤ (delivered answers).length + m := by omega

/-- The bytes that depart with the first answer, and with the other ones. -/
theorem delivered_cons : delivered (r :: answers) = departs r ++ delivered answers :=
  List.flatMap_cons

/-- **The terminal along a run.** What is unread before a run and what comes into the stream is what
goes out of it and what is unread afterwards.

**Proof sketch.** Induction on the run; a step is `systemCall_holds`. -/
theorem run_holds (h : s.terminalBuf.Holds q)
    (hrun : Run.exec systemCall s calls = some (answers, s'))
    (hroom : ∀ n answers s', Run.exec systemCall s (calls.take n) = some (answers, s') →
      q.length + (received s (calls.take n)).length ≤ (delivered answers).length + 255) :
    ∃ q', s'.terminalBuf.Holds q' ∧
      q.map byteValue ++ (received s calls).map byteValue =
        delivered answers ++ q'.map byteValue := by
  induction calls generalizing s q answers with
  | nil =>
    simp only [Run.exec_nil, Option.some.injEq, Prod.mk.injEq] at hrun
    obtain ⟨rfl, rfl⟩ := hrun
    exact ⟨q, h, by simp [received, delivered]⟩
  | cons a calls ih =>
    obtain ⟨r, answers, s₁, hstep, hrest, rfl⟩ := Run.exec_cons_eq_some hrun
    have hfirst := hroom 1 [r] s₁ (by
      rw [List.take_succ_cons, List.take_zero, Run.exec_cons_of_some hstep]
      rfl)
    rw [List.take_succ_cons, List.take_zero, received_cons hstep, delivered_cons] at hfirst
    simp only [received, delivered, List.append_nil, List.flatMap_nil] at hfirst
    obtain ⟨q₁, hq₁, heq⟩ := systemCall_holds h hstep hfirst
    have hlen := congrArg List.length heq
    simp only [List.length_append, List.length_map] at hlen
    obtain ⟨q', hq', heq'⟩ := ih hq₁ hrest fun n answers' s'' hn => by
      have := hroom (n + 1) (r :: answers') s'' (by
        rw [List.take_succ_cons, Run.exec_cons_of_some hstep, hn]
        rfl)
      rw [List.take_succ_cons, received_cons hstep, delivered_cons, List.length_append,
        List.length_append] at this
      omega
    refine ⟨q', hq', ?_⟩
    rw [received_cons hstep, delivered_cons, List.map_append, ← List.append_assoc, heq,
      List.append_assoc, heq', List.append_assoc]

/-- **The terminal is a queue.** In every run of the kernel in which at most 255 bytes are unread at
any time, the bytes that have been read are the first ones of those that have been received and not
withheld, in this order, and the next read gives the first one of the others, or `-1` when there are
none. Along the run a byte is withheld, and sets the flag of the current process, exactly when it is
a cancel byte and this process is in interactive mode, which only this process changes.

**Proof sketch.** The counters of the ring stand for the bytes that are unread, as long as these are
at most 255 (`run_holds`), and so the next read gives the first of them. The modes and the flags are
those after each single call (`systemCall_modes`, `systemCall_flags`). -/
theorem terminal_fifo (hrun : Run.exec systemCall (terminalInit s) calls = some (answers, s'))
    (hroom : UnreadAtMost 255 (terminalInit s) calls) :
    (∃ unread : List UInt8, (received (terminalInit s) calls).map byteValue =
        delivered answers ++ unread.map byteValue ∧
      (terminalGet s').1 = (unread.map byteValue).headD (-1)) ∧
    Run.Always systemCall (fun t a _ t' => ∀ i, (Interactive t' i ↔ modeAfter t a i) ∧
      (CancelPending t' i ↔ flagAfter t a t' i)) (terminalInit s) calls := by
  constructor
  · obtain ⟨unread, hunread, heq⟩ := run_holds (q := []) RingBuffer.holds_clear hrun
      fun n answers s' hn => by simpa using hroom n answers s' hn
    exact ⟨unread, heq, (terminalGet_eq hunread).1⟩
  · refine Run.Always.of_invariant (I := fun _ => True) (C := fun _ _ => True)
      (fun t a r t' _ _ h => ⟨fun i => ⟨systemCall_modes h, systemCall_flags h⟩, trivial⟩) trivial
      ?_
    exact Run.Always.of_forall fun _ _ _ _ => trivial

end

/-! ## A cancel byte in each mode -/

/-- The system in front of its initialisation, with a process table of zeros. -/
def smallSystem : System where
  kernel :=
    { files := .zeroed (formattedDisk 1 1 1)
      memory := .zeroed
      processTable := fun _ => ⟨0, 0, 0, 0, 0, 0⟩
      scheduler := schedulerInit .zeroed }
  terminalBuf := ⟨fun _ => 0, 0, 0⟩

/-- A process receives a cancel byte in interactive mode, changes to binary mode, and receives
another one. -/
def cancelRun : List SystemCall :=
  [.spawn 0, .tick, .put 0x41, .put asciiCancel, .setMode 1, .put asciiCancel, .get, .get, .get]

/-- The process reads the first byte and the second cancel byte. -/
theorem terminal_fifo_cancelRun :
    ∃ answers s', Run.exec systemCall (terminalInit smallSystem) cancelRun = some (answers, s') ∧
      delivered answers = [0x41, 0x18] ∧
      ∃ unread : List UInt8, (received (terminalInit smallSystem) cancelRun).map byteValue =
        delivered answers ++ unread.map byteValue ∧
        (terminalGet s').1 = (unread.map byteValue).headD (-1) := by
  have htest : ((Run.exec systemCall (terminalInit smallSystem) cancelRun).any fun r =>
      decide (delivered r.1 = [0x41, 0x18])) = true := by decide +kernel
  obtain ⟨⟨answers, s'⟩, hrun, hanswers⟩ := (Option.any_eq_true _ _).mp htest
  exact ⟨answers, s', hrun, of_decide_eq_true hanswers,
    (terminal_fifo hrun (.of_length (by decide))).1⟩

end Z80OS
