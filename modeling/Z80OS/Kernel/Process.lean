import Z80OS.File.Operations
import Z80OS.Kernel.Memory

set_option relaxedAutoImplicit false
set_option autoImplicit false

/-!
# Processes

The process table has 16 slots. A process is loaded from an executable file, whose header names the
page of its base address: it takes a slot of the table and a page of memory. Loading it into user
memory has no effect on the tables of the kernel, so the contents of user memory are left out.

An access to a table outside of its bounds has no meaning in C. The functions of this file then
give no result.

## Main definitions

* `Z80OS.ProcessDescriptor`, `Z80OS.Kernel` — the global variables of the kernel.
* `Z80OS.kernelInit` — the initialisation at boot.
* `Z80OS.processLoad`, `Z80OS.processSpawn`, `Z80OS.schedulerTick` — its operations.
-/

namespace Z80OS

/-- The number of slots of the process table. -/
def procsMax : ℕ := 16

/-- The size of the header of an executable file. -/
def phdrSize : ℕ := 2

/-- The mark of an executable file, the first byte of its header. -/
def phdrIdExec : UInt8 := 0x0a

/-- The first page of user memory. -/
def userRamStartPage : ℕ := 0x80

/-- The limit of the size of a program. -/
def programKbLimit : ℕ := 28 * 1024

/-- A slot of the process table. It is free when the base address is zero. -/
structure ProcessDescriptor where
  baseAddress : ℕ
  bank : UInt8
  termstatus : UInt8
  sigstatus : UInt8
  /-- The addresses of the signal handlers. -/
  cancel : ℕ
  brk : ℕ
  deriving DecidableEq

/-- The global variables of the kernel. -/
structure Kernel where
  files : FileState
  memory : Memory
  processTable : Fin procsMax → ProcessDescriptor
  scheduler : Scheduler

/-- The slot at an index, when the index is inside the process table. -/
def processIndex? (i : ℤ) : Option (Fin procsMax) :=
  if h : 0 ≤ i ∧ i.toNat < procsMax then some ⟨i.toNat, h.2⟩ else none

/-- The process table at startup. Only the base addresses are initialised. -/
def processInit (k : Kernel) : Kernel :=
  { k with processTable := fun i => { k.processTable i with baseAddress := 0 } }

/-- The kernel at boot, with a number of RAM banks that the hardware test has found. -/
def kernelInit (k : Kernel) (banks : UInt8) : Kernel :=
  let k := { k with memory := (memoryInit k.memory banks.toNat).2 }
  let k := processInit k
  { k with scheduler := schedulerInit k.scheduler }

/-- The first free slot. -/
def processAllocate (k : Kernel) : Option (Fin procsMax) :=
  (List.finRange procsMax).find? fun i => (k.processTable i).baseAddress = 0

/-- The descriptor of a process that has just been loaded. -/
def ProcessDescriptor.loaded (baseAddress : ℕ) (bank : UInt8) : ProcessDescriptor where
  baseAddress := baseAddress
  bank := bank
  termstatus := 0
  sigstatus := 0
  cancel := 0
  brk := 0

/-- The kernel in which a slot has another descriptor. -/
def Kernel.setProcess (k : Kernel) (pd : Fin procsMax) (p : ProcessDescriptor) : Kernel :=
  { k with processTable := Function.update k.processTable pd p }

/-- The kernel with other variables of the file driver. -/
def Kernel.withFiles (k : Kernel) (files : FileState) : Kernel := { k with files := files }

/-- The kernel with other variables of the memory manager. -/
def Kernel.withMemory (k : Kernel) (memory : Memory) : Kernel := { k with memory := memory }

/-- The part of `process_load` that follows the checks: takes a slot and a page for a program whose
file is open, and reads the file. The source stores to the slot whether one has been found or not,
and takes whatever `memory_allocate` answers as the bank. -/
def loadProgram [Machine] (k : Kernel) (fd : ℤ) (baseAddrPage : UInt8) : Option (ℤ × Kernel) :=
  let pd := processAllocate k
  let r := memoryAllocate k.memory
  let bank := UInt8.ofNat (r.1 % 256).toNat
  let k := k.withMemory r.2
  let baseAddr := baseAddrPage.toNat * 256
  match pd with
  | none => none
  | some pd =>
    let k := k.withFiles (fileRead k.files baseAddr programKbLimit fd).2
    some ((pd : ℕ), k.setProcess pd (.loaded baseAddr bank))

/-- Loads a file into user memory. The answer is a process descriptor, or an error. The header of
the file is read to the address `header` of the kernel's stack. -/
def processLoad [Machine] (header : ℕ) (k : Kernel) (filename : List UInt8) :
    Option (ℤ × Kernel) :=
  match fileOpen k.files filename fmodeRead with
  | none => none
  | some (.error e, files) => some (e.code, k.withFiles files)
  | some (.ok fd, files) =>
    let r := fileRead files header phdrSize fd
    let k := k.withFiles r.2
    if r.1.1 ≠ phdrSize then some (FileError.invalidHeader.code, k)
    else if r.1.2.getD 0 0 ≠ phdrIdExec then some (FileError.invalidHeader.code, k)
    else if (r.1.2.getD 1 0).toNat < userRamStartPage then some (FileError.invalidPage.code, k)
    else loadProgram k fd (r.1.2.getD 1 0)

/-- Creates a scheduler entry for a process. The arguments of the process are copied into its
bank, which the source looks up in the process table first. -/
def processSpawn (k : Kernel) (pd : ℤ) : Option (ℤ × Kernel) :=
  (processIndex? pd).map fun _ =>
    let r := schedulerAdd k.scheduler pd
    (r.1, { k with scheduler := r.2 })

/-- One tick of the scheduler. The answer is the bank of the process that runs. -/
def schedulerTick (k : Kernel) : Option (UInt8 × Kernel) :=
  match schedulerNext k.scheduler with
  | none => none
  | some (pid, s) =>
    (processIndex? pid).map fun i => ((k.processTable i).bank, { k with scheduler := s })

end Z80OS
