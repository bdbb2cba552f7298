import Z80OS.Asm.Board

set_option relaxedAutoImplicit false
set_option autoImplicit false

/-!
# The part of the kernel in assembly language

The code behind each label of `status.asm`, `ram.asm`, `disk.asm`, `driver_6850.asm`,
`interrupt.asm` and `syscall.asm`, line by line. Code that runs on into the next label ends with the
code of that label. A function in C is a label too, behind which the function does what it does and
returns. The variables of these modules are kept apart from RAM, no instruction gets at them by a
computed address. A restart leaves the program.

## Main definitions

* `Z80OS.Asm.Label`, `Z80OS.Asm.CFunction` — the labels and the functions in C.
* `Z80OS.Asm.kernelCode` — the code.
* `Z80OS.Asm.syscallTable` — the functions of the system calls.
* `Z80OS.Asm.kernelLayout` — a layout of the code.
-/

namespace Z80OS.Asm

open Z80

/-- The functions in C that the code calls, or that are system calls. -/
inductive CFunction
  | puts | terminalPut | terminalGet | terminalSetMode | signalGetHandler | signalSethandler
  | schedulerTick | schedulerState | schedulerExitcode | schedulerBlockCurrent
  | processSpawn | processLoad | processExit
  | fileOpen | fileRead | fileWrite | fileClose | fileDelete | fileInfo | fileEntries | fileEntry
  deriving DecidableEq

/-- The labels of the code. -/
inductive Label
  -- `status.asm`
  | statusInit | statusClrInt | statusClrKernel | statusClrDisk
  | statusSetInt | statusSetKernel | statusSetDisk | statusIsSetKernel | statusIsSetKernelTrue
  -- `ram.asm`
  | ramCopy | ramCopyLoop | ramCopyDone | ramBankCurrent | ramBankSet
  | ramBankTest | ramBankTestInit | ramBankTestLoop | ramBankTestDone
  -- `disk.asm`
  | diskInit | diskRead | diskWrite | diskInitRead | diskInitWrite | diskReadData | diskWriteData
  | diskSetLba | diskWait | diskWaitData | diskWaitCmd | diskChkerr | chkerrNoerr
  -- `driver_6850.asm`
  | driver6850Tx | driver6850TxLoop | driver6850TxDone
  -- `interrupt.asm`
  | interruptHandler | interruptSkip2 | interruptSkip3 | interruptHandleRet | serialReadHandler
  | timerHandler | timerHandlerRetToHandler | timerHandlerRetToProcess | timerHandlerEnd
  | unknownInterrupt
  -- `syscall.asm`
  | syscallHandler | syscallRet | invalidSyscall | doDinfo | doSysinfo | doPexit | pexitLoop
  -- `reset.asm`
  | resetWarm
  -- functions in C
  | c (f : CFunction)
  deriving DecidableEq

/-- The variables of one byte. -/
inductive ByteVar
  | currentStatus | dstBank | byte | bankCurrent | startupFlags
  deriving DecidableEq

/-- The variables of two bytes. -/
inductive WordVar
  | syscallRetAddress | syscallIx
  deriving DecidableEq

/-- The names of the kernel. -/
abbrev kernelNames : Z80.Names where
  Label := Label
  Native := CFunction
  Byte := ByteVar
  Word := WordVar

/-- The addresses of data that the code has as numbers. -/
structure Symbols where
  syscallTable : Word
  diskInfo : Word
  sysinfo : Word
  diskError : Word

/-- The code of the kernel. -/
abbrev KernelCode := Code kernelNames

/-! ## Instructions -/

section

variable (r r' : Reg8) (q q' : Reg16) (n : UInt8) (d : ℤ) (a : Word) (v : ByteVar) (w : WordVar)

/-- `ld r, r'` -/
def ldReg : Instr kernelNames := .op (.ld (.reg r) (.reg r'))

/-- `ld r, #n` -/
def ldImm : Instr kernelNames := .op (.ld (.reg r) (.imm n))

/-- `ld r, (q)` -/
def ldInd : Instr kernelNames := .op (.ld (.reg r) (.ind q))

/-- `ld r, d(q)` -/
def ldIdx : Instr kernelNames := .op (.ld (.reg r) (.idx q d))

/-- `ld (q), r` -/
def stInd : Instr kernelNames := .op (.ld (.ind q) (.reg r))

/-- `ld A, (v)` -/
def ldVar : Instr kernelNames := .op (.ld (.reg .a) (.var v))

/-- `ld (v), A` -/
def stVar : Instr kernelNames := .op (.ld (.var v) (.reg .a))

/-- `ld A, (a)` -/
def ldAt : Instr kernelNames := .op (.ld (.reg .a) (.at a))

/-- `ld (a), A` -/
def stAt : Instr kernelNames := .op (.ld (.at a) (.reg .a))

/-- `ld q, #a` -/
def ldImm16 : Instr kernelNames := .op (.ld16 (.reg q) (.imm a))

/-- `ld q, (a)` -/
def ldAt16 : Instr kernelNames := .op (.ld16 (.reg q) (.at a))

/-- `ld (a), q` -/
def stAt16 : Instr kernelNames := .op (.ld16 (.at a) (.reg q))

/-- `ld q, (w)` -/
def ldVar16 : Instr kernelNames := .op (.ld16 (.reg q) (.var w))

/-- `ld (w), q` -/
def stVar16 : Instr kernelNames := .op (.ld16 (.var w) (.reg q))

/-- A word is put on the stack. -/
def push : Instr kernelNames := .op (.push q)

/-- A word is taken from the stack. -/
def pop : Instr kernelNames := .op (.pop q)

/-- A register is increased. -/
def inc : Instr kernelNames := .op (.inc r)

/-- A pair of registers is increased. -/
def inc16 : Instr kernelNames := .op (.inc16 q)

/-- A pair of registers is decreased. -/
def dec16 : Instr kernelNames := .op (.dec16 q)

/-- `add HL, q` -/
def addHl : Instr kernelNames := .op (.addHl q)

/-- `and A, #n` -/
def andImm : Instr kernelNames := .op (.alu .and (.imm n))

/-- `or A, #n` -/
def orImm : Instr kernelNames := .op (.alu .or (.imm n))

/-- `or r` -/
def orReg : Instr kernelNames := .op (.alu .or (.reg r))

/-- `xor #n` -/
def xorImm : Instr kernelNames := .op (.alu .xor (.imm n))

/-- `cp #n` -/
def cpImm : Instr kernelNames := .op (.alu .cp (.imm n))

/-- `bit #i, A` -/
def bitA (i : ℕ) : Instr kernelNames := .op (.bit i .a)

/-- The pairs of registers are exchanged for those of the other set. -/
def exx : Instr kernelNames := .op .exx

/-- `ex AF, AF'` -/
def exAf : Instr kernelNames := .op .exAf

/-- Interrupts are disabled. -/
def di : Instr kernelNames := .op .di

/-- Interrupts are enabled. -/
def ei : Instr kernelNames := .op .ei

/-- `in A, (n)` -/
def inA : Instr kernelNames := .op (.inA n)

/-- `out (n), A` -/
def outA : Instr kernelNames := .op (.outA n)

/-- A block is read from a port. -/
def inir : Instr kernelNames := .op .inir

/-- A block is written to a port. -/
def otir : Instr kernelNames := .op .otir

end

/-- `call l` -/
def call (l : Label) : Instr kernelNames := .call l

/-- `jp l` -/
def jp (l : Label) : Instr kernelNames := .jp l

/-- `jp z, l` -/
def jpZ (l : Label) : Instr kernelNames := .jpIf .z l

/-- `jp nz, l` -/
def jpNz (l : Label) : Instr kernelNames := .jpIf .nz l

/-! ## `status.asm` -/

/-- A bit of the status register is set, with which the light goes out. -/
def statusClr (setmask : UInt8) : KernelCode :=
  [push .af, ldVar .currentStatus, orImm setmask, stVar .currentStatus, outA 0x80, pop .af, .ret]

/-- A bit of the status register is cleared, with which the light goes on. -/
def statusSet (clrmask : UInt8) : KernelCode :=
  [push .af, ldVar .currentStatus, andImm clrmask, stVar .currentStatus, outA 0x80, pop .af, .ret]

/-! ## `ram.asm` -/

/-- The end of `_ram_copy`. -/
def ramCopyDone : KernelCode := [pop .ix, .ret]

/-- The loop of `_ram_copy`, and what follows it. -/
def ramCopyLoop : KernelCode :=
  [ldInd .a .de, stVar .byte,
    -- the destination bank
    ldVar .dstBank, outA 0x30,
    ldVar .byte, stInd .a .hl,
    -- the original bank
    ldVar .bankCurrent, outA 0x30,
    inc16 .hl, inc16 .de, dec16 .bc,
    ldReg .a .b, orReg .c, jpNz .ramCopyLoop] ++ ramCopyDone

/-- The parameters are taken from the stack. -/
def ramCopyEntry : KernelCode :=
  [push .ix,
    ldImm16 .hl 4, addHl .sp, push .hl, pop .ix,
    -- the parameters
    ldIdx .c .ix 5, ldIdx .b .ix 6,
    ldIdx .e .ix 3, ldIdx .d .ix 4,
    ldIdx .a .ix 2, stVar .dstBank,
    ldIdx .l .ix 0, ldIdx .h .ix 1]

/-- The whole of `_ram_copy`. -/
def ramCopy : KernelCode := ramCopyEntry ++ ramCopyLoop

/-- The address at which the banks are tested. -/
def bankedMemTest : Word := 0x8000

/-- The second loop of `_ram_bank_test`, and what follows it. -/
def ramBankTestLoop : KernelCode :=
  [ldReg .a .l, outA 0x30, ldAt bankedMemTest, cpImm 0xff, jpNz .ramBankTestDone,
    ldReg .a .l, stAt bankedMemTest,
    inc .l, jpNz .ramBankTestLoop,
    ldReg .a .l, .ret]

/-- The first loop of `_ram_bank_test`, and what follows it. -/
def ramBankTestInit : KernelCode :=
  [ldReg .a .l, outA 0x30, ldImm .a 0xff, stAt bankedMemTest, inc .l, jpNz .ramBankTestInit,
    ldImm .l 0] ++ ramBankTestLoop

/-! ## `disk.asm` -/

/-- The first port of the card. -/
def diskport : UInt8 := 0x18

/-- What follows the test for an error, if there is none. -/
def chkerrNoerr : KernelCode := [.ret]

/-! ## `driver_6850.asm` -/

/-- The end of `_driver_6850_tx`. -/
def driver6850TxDone : KernelCode := [pop .ix, .ret]

/-- The loop of `_driver_6850_tx`, and what follows it. -/
def driver6850TxLoop : KernelCode :=
  [inA 0x00, bitA 1, jpZ .driver6850TxLoop,
    ldInd .a .hl, outA 0x01,
    inc16 .hl, dec16 .de,
    ldReg .a .d, orReg .e, jpNz .driver6850TxLoop] ++ driver6850TxDone

/-! ## `interrupt.asm` -/

/-- The end of the handler, behind the last test. -/
def interruptSkip3 : KernelCode := [jp .unknownInterrupt]

/-- The last test of the handler, and what follows it. -/
def interruptSkip2 : KernelCode :=
  [inA 0x10, cpImm 1, jpNz .interruptSkip3, jp .timerHandler]

/-- The end of the handler of the timer. -/
def timerHandlerEnd : KernelCode := [jp .interruptHandleRet]

/-- No signal: all registers are taken from the stack. -/
def timerHandlerRetToProcess : KernelCode :=
  [ldAt16 .sp 0xfffe,
    pop .iy, pop .ix, pop .bc, pop .de, pop .hl, pop .af,
    exAf, exx] ++ timerHandlerEnd

/-- A signal: the address that is returned to is replaced by that of the handler, and given to the
handler in `HL`. -/
def timerHandlerRetToHandler : KernelCode :=
  [ldAt16 .sp 0xfffe,
    ldImm16 .hl 12, addHl .sp,
    ldInd .c .hl, stInd .e .hl, inc16 .hl, ldInd .b .hl, stInd .d .hl,
    push .bc, pop .hl,
    pop .iy, pop .ix, pop .bc, pop .de, inc16 .sp, inc16 .sp, pop .af,
    exAf, exx,
    jp .timerHandlerEnd]

/-! ## `syscall.asm` -/

/-- The endless loop behind `pexit`. -/
def pexitLoop : KernelCode := [jp .pexitLoop]

/-! ## The code -/

/-- The code behind a label. -/
def kernelCode (sym : Symbols) : Label → KernelCode
  | .statusInit =>
    [push .af, ldImm .a 0xff, stVar .currentStatus, outA 0x80, pop .af, .ret]
  | .statusClrInt => statusClr 0b00000010
  | .statusClrKernel => statusClr 0b00000100
  | .statusClrDisk => statusClr 0b00001000
  | .statusSetInt => statusSet 0b11111101
  | .statusSetKernel => statusSet 0b11111011
  | .statusSetDisk => statusSet 0b11110111
  | .statusIsSetKernel =>
    [ldVar .currentStatus, bitA 2, jpZ .statusIsSetKernelTrue, ldImm .a 0, .ret]
  | .statusIsSetKernelTrue => [ldImm .a 1, .ret]
  | .ramCopy => ramCopy
  | .ramCopyLoop => ramCopyLoop
  | .ramCopyDone => ramCopyDone
  | .ramBankCurrent => [ldVar .bankCurrent, .ret]
  | .ramBankSet => [pop .hl, stVar .bankCurrent, outA 0x30, .jpInd .hl]
  | .ramBankTest => ldImm .l 0 :: ramBankTestInit
  | .ramBankTestInit => ramBankTestInit
  | .ramBankTestLoop => ramBankTestLoop
  | .ramBankTestDone => [ldReg .a .l, .ret]
  | .diskInit =>
    [push .af,
      call .diskWait, ldImm .a 0x04, outA (diskport + 7),
      call .diskWait, ldImm .a 0x01, outA (diskport + 1),
      call .diskWait, ldImm .a 0xef, outA (diskport + 7),
      call .diskChkerr, pop .af, .ret]
  | .diskRead =>
    [pop .iy, pop .bc, pop .de,
      call .statusSetDisk, call .diskWaitCmd, call .diskSetLba, call .diskInitRead,
      call .diskReadData, call .statusClrDisk, .jpInd .iy]
  | .diskWrite =>
    [pop .iy, pop .bc, pop .de,
      call .statusSetDisk, call .diskWaitCmd, call .diskSetLba, call .diskInitWrite,
      call .diskWriteData, call .statusClrDisk, .jpInd .iy]
  | .diskInitRead =>
    [ldImm .a 0x01, outA (diskport + 2), ldImm .a 0x20, outA (diskport + 7), .ret]
  | .diskInitWrite =>
    [ldImm .a 0x01, outA (diskport + 2), ldImm .a 0x30, outA (diskport + 7), .ret]
  | .diskReadData =>
    [call .diskWaitData, call .diskChkerr, ldImm .c diskport, ldImm .b 0, inir, inir, .ret]
  | .diskWriteData =>
    [call .diskWaitData, ldImm .c diskport, ldImm .b 0, otir, otir,
      call .diskWaitCmd, call .diskChkerr, .ret]
  | .diskSetLba =>
    [push .af,
      ldReg .a .c, outA (diskport + 3), ldReg .a .b, outA (diskport + 4),
      ldReg .a .e, outA (diskport + 5),
      ldReg .a .d, andImm 0b00001111, orImm 0b11100000, outA (diskport + 6),
      pop .af, .ret]
  | .diskWait => [inA (diskport + 7), andImm 0b10000000, jpNz .diskWait, .ret]
  | .diskWaitData =>
    [inA (diskport + 7), andImm 0b10001000, xorImm 0b00001000, jpNz .diskWaitData, .ret]
  | .diskWaitCmd =>
    [inA (diskport + 7), andImm 0b11000000, xorImm 0b01000000, jpNz .diskWaitCmd, .ret]
  | .diskChkerr =>
    [inA (diskport + 7), bitA 0, jpZ .chkerrNoerr, ldImm16 .hl sym.diskError, call (.c .puts)] ++
      chkerrNoerr
  | .chkerrNoerr => chkerrNoerr
  | .driver6850Tx => push .ix :: driver6850TxLoop
  | .driver6850TxLoop => driver6850TxLoop
  | .driver6850TxDone => driver6850TxDone
  | .interruptHandler =>
    [di, exx, exAf,
      call .statusSetInt,
      pop .hl, push .hl,
      -- an interrupt of the serial port?
      inA 0x00, bitA 7, jpZ .interruptSkip2,
      -- has a byte been received?
      bitA 0, jpNz .serialReadHandler] ++ interruptSkip2
  | .interruptSkip2 => interruptSkip2
  | .interruptSkip3 => interruptSkip3
  | .interruptHandleRet => [call .statusClrInt, exAf, exx, ei, .reti]
  | .serialReadHandler => [inA 0x01, call (.c .terminalPut), jp .interruptHandleRet]
  | .timerHandler =>
    [call .statusIsSetKernel, cpImm 0, jpNz .timerHandlerEnd,
      exx, exAf,
      push .af, push .hl, push .de, push .bc, push .ix, push .iy,
      stAt16 .sp 0xfffe, ldImm16 .sp 0x7ffe,
      call (.c .schedulerTick), call .ramBankSet,
      call (.c .signalGetHandler),
      ldReg .a .d, orReg .e, jpZ .timerHandlerRetToProcess] ++ timerHandlerRetToHandler
  | .timerHandlerRetToHandler => timerHandlerRetToHandler
  | .timerHandlerRetToProcess => timerHandlerRetToProcess
  | .timerHandlerEnd => timerHandlerEnd
  | .unknownInterrupt => [jp .interruptHandleRet]
  | .syscallHandler =>
    [di,
      stVar16 .ix .syscallIx,
      push .hl, push .de, push .bc,
      -- the address that is returned to
      ldImm16 .hl 6, addHl .sp, ldInd .e .hl, inc16 .hl, ldInd .d .hl,
      stVar16 .de .syscallRetAddress,
      .op (.ld16 (.reg .de) (.label Label.syscallRet)),
      ldImm16 .hl 6, addHl .sp, stInd .e .hl, inc16 .hl, stInd .d .hl,
      bitA 0, jpNz .invalidSyscall,
      push .af, call .statusSetKernel, pop .af,
      -- the entry of the table
      ldImm16 .hl sym.syscallTable, ldImm .d 0, ldReg .e .a, addHl .de,
      ldInd .e .hl, inc16 .hl, ldInd .d .hl, push .de, pop .ix,
      pop .bc, pop .de, pop .hl,
      .jpInd .ix]
  | .syscallRet =>
    [push .af, call .statusClrKernel, pop .af,
      ldVar16 .ix .syscallIx, ldVar16 .hl .syscallRetAddress, ei, .jpInd .hl]
  | .invalidSyscall => [ldImm .a 0x01, stVar .startupFlags, call .resetWarm]
  | .doDinfo => [ldImm16 .de sym.diskInfo, .ret]
  | .doSysinfo => [ldImm16 .de sym.sysinfo, .ret]
  | .doPexit =>
    [call (.c .processExit), push .af, call .statusClrKernel, pop .af, ei] ++ pexitLoop
  | .pexitLoop => pexitLoop
  | .resetWarm => []
  | .c f => [.native f, .ret]

/-- The functions of the system calls, by number. -/
def syscallTable : List Label :=
  [.driver6850Tx, .c .terminalGet,
    .invalidSyscall, .invalidSyscall,
    .c .fileOpen, .c .fileRead, .c .fileWrite, .c .fileClose,
    .doDinfo, .c .fileInfo,
    .c .fileEntries, .c .fileEntry,
    .c .processSpawn,
    .c .signalSethandler,
    .c .fileDelete,
    .c .processLoad,
    .c .terminalSetMode,
    .doSysinfo,
    .c .schedulerState, .doPexit, .c .schedulerExitcode, .c .schedulerBlockCurrent]

/-- The kernel, with what the functions in C do. -/
def kernel {κ : Type} (sym : Symbols)
    (native : CFunction → Cpu kernelNames (Board κ) → Cpu kernelNames (Board κ)) :
    Program kernelNames (Board κ) where
  code := kernelCode sym
  native := native

/-! ## A layout -/

section

variable {κ : Type} {sym : Symbols}
  {native : CFunction → Cpu kernelNames (Board κ) → Cpu kernelNames (Board κ)}

/-- All functions in C. -/
def cFunctions : List CFunction :=
  [.puts, .terminalPut, .terminalGet, .terminalSetMode, .signalGetHandler, .signalSethandler,
    .schedulerTick, .schedulerState, .schedulerExitcode, .schedulerBlockCurrent,
    .processSpawn, .processLoad, .processExit,
    .fileOpen, .fileRead, .fileWrite, .fileClose, .fileDelete, .fileInfo, .fileEntries, .fileEntry]

/-- All labels. -/
def labels : List Label :=
  [.statusInit, .statusClrInt, .statusClrKernel, .statusClrDisk, .statusSetInt, .statusSetKernel,
    .statusSetDisk, .statusIsSetKernel, .statusIsSetKernelTrue,
    .ramCopy, .ramCopyLoop, .ramCopyDone, .ramBankCurrent, .ramBankSet,
    .ramBankTest, .ramBankTestInit, .ramBankTestLoop, .ramBankTestDone,
    .diskInit, .diskRead, .diskWrite, .diskInitRead, .diskInitWrite, .diskReadData, .diskWriteData,
    .diskSetLba, .diskWait, .diskWaitData, .diskWaitCmd, .diskChkerr, .chkerrNoerr,
    .driver6850Tx, .driver6850TxLoop, .driver6850TxDone,
    .interruptHandler, .interruptSkip2, .interruptSkip3, .interruptHandleRet, .serialReadHandler,
    .timerHandler, .timerHandlerRetToHandler, .timerHandlerRetToProcess, .timerHandlerEnd,
    .unknownInterrupt,
    .syscallHandler, .syscallRet, .invalidSyscall, .doDinfo, .doSysinfo, .doPexit, .pexitLoop,
    .resetWarm] ++ cFunctions.map .c

/-- The list of labels has all of them. -/
theorem mem_labels (l : Label) : l ∈ labels := by
  cases l with
  | c f => cases f <;> decide
  | _ => decide

/-- The length of code does not depend on the addresses of data. -/
theorem length_kernelCode {l : Label} :
    (kernelCode sym l).length = (kernelCode ⟨0, 0, 0, 0⟩ l).length := by
  cases l <;> rfl

/-- The code fits in the lower half of the address space. -/
theorem length_places : ((kernel sym native).places labels).length ≤ 0x7fff := by
  have hsum : ((kernel sym native).places labels).length =
      (labels.map fun l => (kernelCode ⟨0, 0, 0, 0⟩ l).length + 1).sum := by
    simp only [Program.places, List.length_flatMap, List.length_tails, kernel, length_kernelCode]
  rw [hsum]
  decide

/-- A layout of the kernel in the lower half of the address space. -/
noncomputable def kernelLayout (sym : Symbols)
    (native : CFunction → Cpu kernelNames (Board κ) → Cpu kernelNames (Board κ)) :
    Layout (kernel sym native) :=
  Layout.ofList ((kernel sym native).places labels) (Nat.le_trans length_places (by omega))
    fun _ => Program.mem_places mem_labels

/-- The upper half is left to processes. -/
theorem kernelLayout_resolve {a : Word} (h : 0x8000#16 ≤ a) :
    (kernelLayout sym native).resolve a = none := by
  refine List.getElem?_eq_none ?_
  have hlen : ((kernel sym native).places labels).length ≤ 0x7fff := length_places
  have := BitVec.le_def.mp h
  simp at this
  omega

end

end Z80OS.Asm
