import Z80OS.Asm.Kernel

set_option relaxedAutoImplicit false
set_option autoImplicit false

/-!
# The status register

The routines of `status.asm`. They change nothing but the register and the variable for it, and the
four bytes below the stack pointer that they are entered with.

## Main definitions

* `Z80OS.Asm.withStatus` — the state after a change of the status.

## Main results

* `Z80OS.Asm.fulfils_statusSet`, `Z80OS.Asm.fulfils_statusClr` — a bit is cleared or set.
* `Z80OS.Asm.fulfils_statusIsSetKernel` — whether the kernel is at work.
-/

namespace Z80OS.Asm

open Z80

attribute [simp] ldReg ldImm ldInd ldIdx stInd ldVar stVar ldAt stAt ldImm16 ldAt16 stAt16 ldVar16
  stVar16 push pop inc inc16 dec16 addHl andImm orImm orReg xorImm cpImm bitA exx exAf
  di ei inA outA
  inir otir call jp jpZ jpNz

/-- The processor with the board of the kernel behind the bus. -/
abbrev KernelCpu (κ : Type) := Cpu kernelNames (Board κ)

/-- Memory with some bytes, and zero elsewhere. -/
def memoryWith (l : List (Cell × UInt8)) (c : Cell) : UInt8 := (l.lookup c).getD 0

/-- A processor on a board with two banks, none of whose devices has something to do. -/
def cpuWith {κ : Type} (vars : κ) (m : Cell → UInt8) (main : Regs) (sp : Word) : KernelCpu κ where
  main := main
  alt := ⟨0, 0, 0, 0⟩
  ix := 0
  iy := 0
  sp := sp
  interrupts := true
  bytes := fun v => if v = .currentStatus then 0xff else 0
  words := fun _ => 0
  bus :=
    { ram := m
      banks := 2
      bank := 0
      status := 0xff
      uart := { sent := [], busy := 0, delays := fun _ => 3, received := none }
      timer := 0
      drive :=
        { disk := fun _ _ => 0, count := 0, lba0 := 0, lba1 := 0, lba2 := 0, device := 0
          transfer := .idle, busy := 0, delays := fun _ => 2, turn := 0 }
      vars := vars }

/-- The same without variables in C. -/
def restingCpu (m : Cell → UInt8) (main : Regs) (sp : Word) : KernelCpu Unit := cpuWith () m main sp

/-- Functions in C that do nothing. -/
def restingC (_ : CFunction) (s : KernelCpu Unit) : KernelCpu Unit := s

/-- A table of the system calls behind the first 2 KiB. -/
def someSymbols : Symbols := ⟨0x0800, 0, 0, 0⟩

variable {κ : Type} {sym : Symbols} {native : CFunction → KernelCpu κ → KernelCpu κ}
  {L : Layout (kernel sym native)} {s : KernelCpu κ} {l : Label} {mask v : UInt8}

/-- The state after a routine has returned that changes the status. It has saved `AF` below the
address that it returns to. -/
def withStatus (s : KernelCpu κ) (v : UInt8) : KernelCpu κ :=
  { s with
    sp := s.sp + 2
    bytes := Function.update s.bytes .currentStatus v
    bus := { Bus.writeWord s.bus (s.sp - 2) s.main.af with status := v } }

/-- The address that a routine returns to is not changed by what it saves below it. -/
theorem readWord_below {b : Board κ} {a w : Word} :
    Bus.readWord (Bus.writeWord b (a - 2#16) w) a = Bus.readWord b a :=
  readWord_writeWord_of_ne (by bv_omega) (by bv_omega) (by bv_omega)

/-- A bit of the status is cleared, with which its light goes on. -/
theorem fulfils_statusSet (hl : (kernel sym native).code l = statusSet mask) :
    Fulfils L l s (withStatus s (s.bytes .currentStatus &&& mask)) := by
  refine Fulfils.of_code hl (Reaches.straight (Reaches.head rfl ?_))
  simp [statusSet, withStatus, readWord_below]
  exact Reaches.refl

/-- A bit of the status is set, with which its light goes out. -/
theorem fulfils_statusClr (hl : (kernel sym native).code l = statusClr mask) :
    Fulfils L l s (withStatus s (s.bytes .currentStatus ||| mask)) := by
  refine Fulfils.of_code hl (Reaches.straight (Reaches.head rfl ?_))
  simp [statusClr, withStatus, readWord_below]
  exact Reaches.refl

/-- The kernel is at work while its light is on. -/
def inKernel (s : KernelCpu κ) : Bool := !flag (s.bytes .currentStatus) 2

/-- `A` says whether the kernel is at work. -/
theorem fulfils_statusIsSetKernel :
    ∃ f, Fulfils L .statusIsSetKernel s
      (s.drop.setAf (word (if inKernel s then 1 else 0) f)) := by
  refine ⟨withFlags (lo s.main.af) (flag (lo s.main.af) 7) (!flag (s.bytes .currentStatus) 2) true
    (flag (lo s.main.af) 2) false (flag (lo s.main.af) 0),
    Fulfils.of_code rfl (Reaches.straight (Reaches.head rfl ?_))⟩
  by_cases h : flag (s.bytes .currentStatus) 2 = true
  · rw [if_neg (by simp [kernel, kernelCode, h])]
    refine Reaches.straight (Reaches.head rfl ?_)
    simp [kernel, kernelCode, inKernel, h]
    exact Reaches.refl
  · rw [if_pos (by simp [kernel, kernelCode, h])]
    refine Reaches.straight (Reaches.head rfl ?_)
    simp [kernel, kernelCode, inKernel, h]
    exact Reaches.refl

end Z80OS.Asm
