import Z80OS.Kernel.FileAccesses
import Z80OS.Kernel.Loading
import Z80OS.Kernel.Resources
import Z80OS.Kernel.Terminal

set_option relaxedAutoImplicit false
set_option autoImplicit false

/-!
# The tables that the kernel indexes

The whole kernel, with every system call and interrupt, and the indices at which its functions
access the five tables. The functions of `terminal.c` and `signal.c` work through the pointer to the
current process and index no table. When a function uses the same index several times in a row it is
listed once.

## Main definitions

* `Z80OS.KernelEvent`, `Z80OS.kernelStep` — what happens to the kernel.
* `Z80OS.systemInit` — the start of the kernel.
* `Z80OS.tableAccesses` — the accesses of a step.
* `Z80OS.initAccesses` — the accesses of the start.
-/

namespace Z80OS

/-! ## The kernel -/

/-- What happens to the kernel: the calls and interrupts of the terminal, the processes and the
scheduler, the calls of the file driver, `pload`, `pstate` and `pexitcode`. -/
inductive KernelEvent
  | system (a : SystemCall)
  | file (a : FileCall)
  | load (filename : List UInt8)
  | state (pid : ℤ)
  | exitcode (pid : ℤ)

/-- The answer to it. -/
inductive KernelAnswer
  | system (r : SystemAnswer)
  | file (r : FileAnswer)
  | load (pd : ℤ)
  | state (t : TaskState)
  | exitcode (code : ℤ)

/-- Executes a system call or an interrupt. -/
def kernelStep [Machine] (header : ℕ) (s : System) : KernelEvent → Option (KernelAnswer × System)
  | .system a => (systemCall s a).map fun r => (.system r.1, r.2)
  | .file a =>
    (call s.kernel.files a).map fun r => (.file r.1, s.withKernel (s.kernel.withFiles r.2))
  | .load filename =>
    (processLoad header s.kernel filename).map fun r => (.load r.1, s.withKernel r.2)
  | .state pid => (schedulerState s.kernel.scheduler pid).map fun t => (.state t, s)
  | .exitcode pid => (schedulerExitcode s.kernel.scheduler pid).map fun n => (.exitcode n, s)

/-- The start of the kernel, with a number of RAM banks that the hardware test has found. -/
def systemInit (s : System) (banks : UInt8) : System :=
  let k := s.kernel.withFiles (filesystemInit s.kernel.files)
  terminalInit (s.withKernel (kernelInit k banks))

/-! ## The scheduler -/

/-- An access to the schedule table. -/
def scheduleAccess (i : ℤ) : Access Table := ⟨.schedule, i⟩

/-- An access to the process table. -/
def processAccess (i : ℤ) : Access Table := ⟨.process, i⟩

/-- `scheduler_allocate`. -/
def allocateAccesses (s : Scheduler) : List (Access Table) :=
  (Accesses.examined (fun i => (s.scheduleTable i).state = .free) (List.finRange maxScheduled)).map
    fun i : Fin maxScheduled => scheduleAccess (i : ℕ)

/-- `scheduler_entry`. -/
def entryAccesses (s : Scheduler) (pid : ℤ) : List (Access Table) :=
  (Accesses.examined (fun i => (s.scheduleTable i).pid = pid) (List.finRange maxScheduled)).map
    fun i : Fin maxScheduled => scheduleAccess (i : ℕ)

/-- The answer of `scheduler_entry`. -/
def entryIndex (s : Scheduler) (pid : ℤ) : ℤ :=
  match schedulerEntry s pid with
  | some i => (i : ℕ)
  | none => -1

/-- `scheduler_broadcast_event`. -/
def broadcastAccesses : List (Access Table) :=
  (List.finRange maxScheduled).map fun i : Fin maxScheduled => scheduleAccess (i : ℕ)

/-- `scheduler_add`. -/
def addAccesses (s : Scheduler) : List (Access Table) :=
  allocateAccesses s ++
    match schedulerAllocate s with
    | none => []
    | some i => [scheduleAccess (i : ℕ)]

/-- `scheduler_state`, which uses the answer of `scheduler_entry` whatever it is. -/
def stateAccesses (s : Scheduler) (pid : ℤ) : List (Access Table) :=
  entryAccesses s pid ++ [scheduleAccess (entryIndex s pid)]

/-- `scheduler_exitcode`. -/
def exitcodeAccesses (s : Scheduler) (pid : ℤ) : List (Access Table) :=
  entryAccesses s pid ++ [scheduleAccess (entryIndex s pid)]

/-- `scheduler_exit`. -/
def exitAccesses (s : Scheduler) (pid : ℤ) : List (Access Table) :=
  entryAccesses s pid ++ scheduleAccess (entryIndex s pid) :: broadcastAccesses

/-- The search for the next task, over at most `k` entries. -/
def nextLoopAccesses : ℕ → Scheduler → List (Access Table)
  | 0, _ => []
  | k + 1, s =>
    scheduleAccess s.advance.currentScheduled ::
      match scheduleIndex? s.advance.currentScheduled with
      | none => []
      | some i =>
        if (s.scheduleTable i).state = .ready then [scheduleAccess (i : ℕ)]
        else nextLoopAccesses k s.advance

/-- `process_set_current` and `process_info`, which take the address of the process that the
scheduler goes on to. -/
def chosenAccesses (s : Scheduler) : List (Access Table) :=
  match schedulerNext s with
  | none => []
  | some (pid, _) => [processAccess pid]

/-- `scheduler_next`, which ends with `process_set_current`. -/
def nextAccesses (s : Scheduler) : List (Access Table) :=
  (if 0 ≤ s.currentScheduled then [scheduleAccess s.currentScheduled] else []) ++
    nextLoopAccesses maxScheduled s.preempt ++ chosenAccesses s

/-- `scheduler_tick`, which goes on with `process_info`. -/
def tickAccesses (s : Scheduler) : List (Access Table) := nextAccesses s ++ chosenAccesses s

/-! ## Memory and processes -/

/-- `memory_allocate`. -/
def memoryAllocateAccesses (m : Memory) : List (Access Table) :=
  (Accesses.examined (fun i => ∃ h : i < pagesMax, m.pageTable ⟨i, h⟩ = .free)
    (List.range m.numPages)).map fun i : ℕ => ⟨.page, i⟩

/-- `process_allocate`. -/
def processAllocateAccesses (k : Kernel) : List (Access Table) :=
  (Accesses.examined (fun i => (k.processTable i).baseAddress = 0) (List.finRange procsMax)).map
    fun i : Fin procsMax => processAccess (i : ℕ)

/-- The answer of `process_allocate`. -/
def slotIndex (k : Kernel) : ℤ :=
  match processAllocate k with
  | some i => (i : ℕ)
  | none => -1

/-- `process_spawn`, which looks up the bank of the process first. -/
def spawnAccesses (k : Kernel) (pd : ℤ) : List (Access Table) :=
  processAccess pd ::
    match processIndex? pd with
    | none => []
    | some _ => addAccesses k.scheduler

section

variable [Machine]

/-- The accesses of some visits of the file driver. -/
def visitAccesses (l : List Visit) : List (Access Table) := l.flatMap Visit.accesses

/-- The part of `process_load` that follows the checks. -/
def loadProgramAccesses (k : Kernel) (fd : ℤ) (baseAddrPage : UInt8) : List (Access Table) :=
  processAllocateAccesses k ++ memoryAllocateAccesses k.memory ++ processAccess (slotIndex k) ::
    match processAllocate k with
    | none => []
    | some pd =>
      visitAccesses (readVisits k.files (baseAddrPage.toNat * 256) programKbLimit fd) ++
        [processAccess (pd : ℕ)]

/-- `process_load`. -/
def loadAccesses (header : ℕ) (k : Kernel) (filename : List UInt8) : List (Access Table) :=
  visitAccesses (openVisits k.files filename fmodeRead) ++
    match fileOpen k.files filename fmodeRead with
    | some (.ok fd, files) =>
      visitAccesses (readVisits files header phdrSize fd) ++
        let r := fileRead files header phdrSize fd
        if r.1.1 ≠ phdrSize then []
        else if r.1.2.getD 0 0 ≠ phdrIdExec then []
        else if (r.1.2.getD 1 0).toNat < userRamStartPage then []
        else loadProgramAccesses (k.withFiles r.2) fd (r.1.2.getD 1 0)
    | _ => []

/-! ## Steps -/

/-- The accesses of a call or an interrupt of the terminal, the processes or the scheduler. -/
def systemAccesses (s : System) : SystemCall → List (Access Table)
  | .put _ | .get | .setMode _ | .sethandler _ _ => []
  | .spawn pd => spawnAccesses s.kernel pd
  | .block _ => [scheduleAccess s.kernel.scheduler.currentScheduled]
  | .exit _ => exitAccesses s.kernel.scheduler s.kernel.scheduler.scheduleCurrentPid
  | .tick => tickAccesses s.kernel.scheduler

/-- The accesses of a step. -/
def tableAccesses (header : ℕ) (s : System) : KernelEvent → List (Access Table)
  | .system a => systemAccesses s a
  | .file a => visitAccesses (fileVisits s.kernel.files a)
  | .load filename => loadAccesses header s.kernel filename
  | .state pid => stateAccesses s.kernel.scheduler pid
  | .exitcode pid => exitcodeAccesses s.kernel.scheduler pid

/-! ## The start -/

/-- `filesystem_init` reads the fields of the boot sector, and clears the descriptors. -/
def filesystemInitVisits (s : FileState) : List Visit :=
  visitBytes 0x0b 2 ++ visitBytes 0x0d 1 ++ visitBytes 0x0e 2 ++ visitBytes 0x16 2 ++
    visitBytes 0x10 1 ++ visitBytes 0x11 2 ++ visitBytes 0x13 2 ++
      (if (s.disk 0).word 0x13 = 0 then visitBytes 0x20 4 else []) ++
        (List.finRange fileLimit).map fun fd : Fin fileLimit => visitFd (fd : ℕ)

/-- `memory_init`. -/
def memoryInitAccesses (pages : ℕ) : List (Access Table) :=
  if pages > pagesMax then []
  else
    (List.range pages).map (fun i : ℕ => ⟨.page, i⟩) ++
      (List.range' pages (pagesMax - pages)).map fun i : ℕ => ⟨.page, i⟩

/-- The accesses at the start of the kernel: those of `filesystem_init`, `memory_init`,
`process_init` and `scheduler_init`. -/
def initAccesses (s : System) (banks : UInt8) : List (Access Table) :=
  visitAccesses (filesystemInitVisits s.kernel.files) ++ memoryInitAccesses banks.toNat ++
    (List.finRange procsMax).map (fun i : Fin procsMax => processAccess (i : ℕ)) ++
      (List.finRange maxScheduled).map fun i : Fin maxScheduled => scheduleAccess (i : ℕ)

end

end Z80OS
