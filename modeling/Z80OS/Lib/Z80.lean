import Mathlib.Data.Int.Notation
import Mathlib.Data.List.Infix
import Mathlib.Logic.Relation
import Mathlib.Tactic.Common

set_option relaxedAutoImplicit false
set_option autoImplicit false

/-!
# A part of the Z80

The registers of the processor, the instructions that programs in assembly language are mostly made
of, and what they do. The memory and the devices are behind a bus, which is a parameter. A program
gives the code behind each of its labels up to an unconditional jump. Where the code lies in memory
is left open: a layout gives an address to every place that a call returns to, and finds the place
again.

Instructions change the documented flags as the processor does; the bits 3 and 5 of `F` stay as they
are.

## Main definitions

* `Z80.Cpu` — the registers, the variables of a program, and what is behind the bus.
* `Z80.Op`, `Z80.Instr` — instructions without and with jumps.
* `Z80.Program`, `Z80.Layout` — a program, and where its code lies.
* `Z80.step` — one instruction.
-/

namespace Z80

/-! ## Words -/

/-- The words of the processor. -/
abbrev Word := BitVec 16

/-- The high byte of a word. -/
def hi (w : Word) : UInt8 := ⟨w.extractLsb' 8 8⟩

/-- The low byte of a word. -/
def lo (w : Word) : UInt8 := ⟨w.extractLsb' 0 8⟩

/-- The word with the given high and low bytes. -/
def word (h l : UInt8) : Word := h.toBitVec ++ l.toBitVec

/-! ## Registers -/

/-- The registers of one byte. -/
inductive Reg8
  | a | b | c | d | e | h | l
  deriving DecidableEq

/-- The registers of one word. -/
inductive Reg16
  | af | bc | de | hl | ix | iy | sp
  deriving DecidableEq

/-- One of the two sets of general registers. -/
structure Regs where
  af : Word
  bc : Word
  de : Word
  hl : Word
  deriving DecidableEq

/-- What a program consists of beside instructions: labels, functions that are written in another
language, and variables of one and of two bytes. -/
structure Names where
  Label : Type
  Native : Type
  Byte : Type
  Word : Type

/-- The state: the set of registers in use and the other one, the index registers, the stack
pointer, whether interrupts are enabled, the variables, and what is behind the bus. -/
structure Cpu (N : Names) (σ : Type) where
  main : Regs
  alt : Regs
  ix : Word
  iy : Word
  sp : Word
  interrupts : Bool
  bytes : N.Byte → UInt8
  words : N.Word → Word
  bus : σ

/-- What is behind the bus: memory that is read and written, and ports. -/
class Bus (σ : Type) where
  read : σ → Word → UInt8
  write : σ → Word → UInt8 → σ
  inp : σ → UInt8 → UInt8 × σ
  out : σ → UInt8 → UInt8 → σ

/-- The word at an address, the low byte first. -/
def Bus.readWord {σ : Type} [Bus σ] (b : σ) (a : Word) : Word := word (read b (a + 1)) (read b a)

/-- Writes a word, the low byte first. -/
def Bus.writeWord {σ : Type} [Bus σ] (b : σ) (a w : Word) : σ :=
  write (write b a (lo w)) (a + 1) (hi w)

/-- Memory keeps what is written to it. -/
class LawfulBus (σ : Type) [Bus σ] : Prop where
  read_write : ∀ (b : σ) (a a' : Word) (v : UInt8),
    Bus.read (Bus.write b a v) a' = if a' = a then v else Bus.read b a'

/-! ## Instructions -/

/-- An operand of one byte: a register, a number, the memory that a register or an index register
with a displacement points to, the memory at an address, or a variable. -/
inductive Arg8 (N : Names)
  | reg (r : Reg8)
  | imm (n : UInt8)
  | ind (r : Reg16)
  | idx (r : Reg16) (d : ℤ)
  | at (a : Word)
  | var (v : N.Byte)

/-- An operand of one word: a register, a number, the memory at an address, a variable, or the
address of a label. -/
inductive Arg16 (N : Names)
  | reg (r : Reg16)
  | imm (n : Word)
  | at (a : Word)
  | var (v : N.Word)
  | label (l : N.Label)

/-- The logical operations and comparisons of `A` with an operand. -/
inductive Alu
  | and | or | xor | cp
  deriving DecidableEq

/-- The conditions of jumps. -/
inductive Cond
  | z | nz
  deriving DecidableEq

/-- The instructions after which the next one follows. -/
inductive Op (N : Names)
  | ld (dst src : Arg8 N)
  | ld16 (dst src : Arg16 N)
  | push (r : Reg16)
  | pop (r : Reg16)
  | inc (r : Reg8)
  | inc16 (r : Reg16)
  | dec16 (r : Reg16)
  | addHl (r : Reg16)
  | alu (o : Alu) (src : Arg8 N)
  | bit (n : ℕ) (r : Reg8)
  | exx
  | exAf
  | di
  | ei
  | inA (port : UInt8)
  | outA (port : UInt8)
  | inir
  | otir

/-- The instructions. -/
inductive Instr (N : Names)
  | op (o : Op N)
  | jp (l : N.Label)
  | jpIf (c : Cond) (l : N.Label)
  | jpInd (r : Reg16)
  | call (l : N.Label)
  | ret
  | reti
  | native (f : N.Native)

/-- The code from some place on. -/
abbrev Code (N : Names) := List (Instr N)

/-! ## Flags -/

/-- The register `F`, with new values of the flags for the sign, zero, half carry, parity or
overflow, subtraction and carry. -/
def withFlags (f : UInt8) (s z h p n c : Bool) : UInt8 :=
  (f &&& 0x28) ||| (if s then 0x80 else 0) ||| (if z then 0x40 else 0) |||
  (if h then 0x10 else 0) |||
    (if p then 0x04 else 0) ||| (if n then 0x02 else 0) ||| (if c then 0x01 else 0)

/-- One of the flags. -/
def flag (f : UInt8) (i : ℕ) : Bool := f.toBitVec.getLsbD i

/-- An even number of bits is set. -/
def parity (v : UInt8) : Bool := (List.range 8).countP (fun i => v.toBitVec.getLsbD i) % 2 == 0

/-- The zero flag. -/
def zeroFlag (af : Word) : Bool := flag (lo af) 6

/-- The condition holds. -/
def Cond.holds (af : Word) : Cond → Bool
  | .z => zeroFlag af
  | .nz => !zeroFlag af

/-- `A` and the flags after an operation. -/
def Alu.apply (o : Alu) (af : Word) (v : UInt8) : Word :=
  let a := hi af
  let logical (r : UInt8) (h : Bool) :=
    word r (withFlags (lo af) (flag r 7) (r == 0) h (parity r) false false)
  match o with
  | .and => logical (a &&& v) true
  | .or => logical (a ||| v) false
  | .xor => logical (a ^^^ v) false
  | .cp =>
    let r := a - v
    word a (withFlags (lo af) (flag r 7) (r == 0) (a &&& 0x0f < v &&& 0x0f)
      (flag ((a ^^^ v) &&& (a ^^^ r)) 7) true (a < v))

namespace Cpu

variable {N : Names} {σ : Type} [Bus σ]

/-! ## Operands -/

/-- The registers in use with another `A` and `F`. -/
def setAf (s : Cpu N σ) (w : Word) : Cpu N σ := { s with main := { s.main with af := w } }

/-- The state with another word in `BC`. -/
def setBc (s : Cpu N σ) (w : Word) : Cpu N σ := { s with main := { s.main with bc := w } }

/-- The state with another word in `DE`. -/
def setDe (s : Cpu N σ) (w : Word) : Cpu N σ := { s with main := { s.main with de := w } }

/-- The state with another word in `HL`. -/
def setHl (s : Cpu N σ) (w : Word) : Cpu N σ := { s with main := { s.main with hl := w } }

/-- The state with another word in `IX`. -/
def setIx (s : Cpu N σ) (w : Word) : Cpu N σ := { s with ix := w }

/-- The state with another word in `IY`. -/
def setIy (s : Cpu N σ) (w : Word) : Cpu N σ := { s with iy := w }

/-- The state with another stack pointer. -/
def setSp (s : Cpu N σ) (w : Word) : Cpu N σ := { s with sp := w }

/-- The state with another bus. -/
def setBus (s : Cpu N σ) (b : σ) : Cpu N σ := { s with bus := b }

/-- The byte at an address. -/
def read (s : Cpu N σ) (a : Word) : UInt8 := Bus.read s.bus a

/-- Writes a byte. -/
def write (s : Cpu N σ) (a : Word) (v : UInt8) : Cpu N σ := s.setBus (Bus.write s.bus a v)

/-- The word at an address. -/
def readWord (s : Cpu N σ) (a : Word) : Word := Bus.readWord s.bus a

/-- Writes a word. -/
def writeWord (s : Cpu N σ) (a w : Word) : Cpu N σ := s.setBus (Bus.writeWord s.bus a w)

/-- The contents of a register of one word. -/
def getReg (s : Cpu N σ) : Reg16 → Word
  | .af => s.main.af
  | .bc => s.main.bc
  | .de => s.main.de
  | .hl => s.main.hl
  | .ix => s.ix
  | .iy => s.iy
  | .sp => s.sp

/-- Loads a register of one word. -/
def setReg (s : Cpu N σ) (r : Reg16) (w : Word) : Cpu N σ :=
  match r with
  | .af => s.setAf w
  | .bc => s.setBc w
  | .de => s.setDe w
  | .hl => s.setHl w
  | .ix => s.setIx w
  | .iy => s.setIy w
  | .sp => s.setSp w

/-- The contents of a register of one byte. -/
def getReg8 (s : Cpu N σ) : Reg8 → UInt8
  | .a => hi s.main.af
  | .b => hi s.main.bc
  | .c => lo s.main.bc
  | .d => hi s.main.de
  | .e => lo s.main.de
  | .h => hi s.main.hl
  | .l => lo s.main.hl

/-- Loads a register of one byte. -/
def setReg8 (s : Cpu N σ) (r : Reg8) (v : UInt8) : Cpu N σ :=
  match r with
  | .a => s.setAf (word v (lo s.main.af))
  | .b => s.setBc (word v (lo s.main.bc))
  | .c => s.setBc (word (hi s.main.bc) v)
  | .d => s.setDe (word v (lo s.main.de))
  | .e => s.setDe (word (hi s.main.de) v)
  | .h => s.setHl (word v (lo s.main.hl))
  | .l => s.setHl (word (hi s.main.hl) v)

/-- The address that an index register with a displacement points to. -/
def index (s : Cpu N σ) (r : Reg16) (d : ℤ) : Word := s.getReg r + BitVec.ofInt 16 d

/-- The value of an operand of one byte. -/
def get8 (s : Cpu N σ) : Arg8 N → UInt8
  | .reg r => s.getReg8 r
  | .imm n => n
  | .ind r => s.read (s.getReg r)
  | .idx r d => s.read (s.index r d)
  | .at a => s.read a
  | .var v => s.bytes v

/-- The value of an operand of one word. -/
def get16 (addr : N.Label → Word) (s : Cpu N σ) : Arg16 N → Word
  | .reg r => s.getReg r
  | .imm n => n
  | .at a => s.readWord a
  | .var v => s.words v
  | .label l => addr l

/-- Puts a word on the stack. -/
def pushWord (s : Cpu N σ) (w : Word) : Cpu N σ := (s.setSp (s.sp - 2)).writeWord (s.sp - 2) w

/-- The word on the top of the stack. -/
def top (s : Cpu N σ) : Word := s.readWord s.sp

/-- Removes the word on the top of the stack. -/
def drop (s : Cpu N σ) : Cpu N σ := s.setSp (s.sp + 2)

variable [DecidableEq N.Byte] [DecidableEq N.Word]

/-- Stores to an operand of one byte. A number is none. -/
def set8 (s : Cpu N σ) (dst : Arg8 N) (v : UInt8) : Cpu N σ :=
  match dst with
  | .reg r => s.setReg8 r v
  | .imm _ => s
  | .ind r => s.write (s.getReg r) v
  | .idx r d => s.write (s.index r d) v
  | .at a => s.write a v
  | .var x => { s with bytes := Function.update s.bytes x v }

/-- Stores to an operand of one word. Numbers and labels are none. -/
def set16 (s : Cpu N σ) (dst : Arg16 N) (w : Word) : Cpu N σ :=
  match dst with
  | .reg r => s.setReg r w
  | .at a => s.writeWord a w
  | .var x => { s with words := Function.update s.words x w }
  | _ => s

/-! ## Instructions -/

/-- Bytes from the port in `C` to where `HL` points, as many as `n`. -/
def inBlock (s : Cpu N σ) : ℕ → Cpu N σ
  | 0 => s
  | n + 1 =>
    let r := Bus.inp s.bus (lo s.main.bc)
    inBlock (((s.setBus r.2).write s.main.hl r.1).setHl (s.main.hl + 1)) n

/-- Bytes from where `HL` points to the port in `C`, as many as `n`. -/
def outBlock (s : Cpu N σ) : ℕ → Cpu N σ
  | 0 => s
  | n + 1 =>
    outBlock ((s.setBus (Bus.out s.bus (lo s.main.bc) (s.read s.main.hl))).setHl (s.main.hl + 1)) n

/-- The number of bytes of a block, for which zero stands for 256. -/
def blockSize (s : Cpu N σ) : ℕ := if hi s.main.bc = 0 then 256 else (hi s.main.bc).toNat

/-- `B` is zero, and so are the flags that say so. -/
def endBlock (s : Cpu N σ) : Cpu N σ :=
  let f := lo s.main.af
  (s.setBc (word 0 (lo s.main.bc))).setAf
    (word (hi s.main.af) (withFlags f (flag f 7) true (flag f 4) (flag f 2) true (flag f 0)))

/-- What an instruction does. The addresses of the labels are given. -/
def run (addr : N.Label → Word) (s : Cpu N σ) : Op N → Cpu N σ
  | .ld dst src => s.set8 dst (s.get8 src)
  | .ld16 dst src => s.set16 dst (s.get16 addr src)
  | .push r => s.pushWord (s.getReg r)
  | .pop r => s.drop.setReg r s.top
  | .inc r =>
    let v := s.getReg8 r + 1
    let f := lo s.main.af
    let s := s.setReg8 r v
    s.setAf (word (hi s.main.af)
      (withFlags f (flag v 7) (v == 0) (v &&& 0x0f == 0) (v == 0x80) false (flag f 0)))
  | .inc16 r => s.setReg r (s.getReg r + 1)
  | .dec16 r => s.setReg r (s.getReg r - 1)
  | .addHl r =>
    let f := lo s.main.af
    let v := s.getReg r
    (s.setHl (s.main.hl + v)).setAf (word (hi s.main.af)
      (withFlags f (flag f 7) (flag f 6) ((s.main.hl &&& 0x0fff) + (v &&& 0x0fff) > 0x0fff)
        (flag f 2) false (s.main.hl.toNat + v.toNat > 0xffff)))
  | .alu o src => s.setAf (o.apply s.main.af (s.get8 src))
  | .bit n r =>
    let f := lo s.main.af
    s.setAf (word (hi s.main.af)
      (withFlags f (flag f 7) (!flag (s.getReg8 r) n) true (flag f 2) false (flag f 0)))
  | .exx =>
    { s with
      main := { s.alt with af := s.main.af }
      alt := { s.main with af := s.alt.af } }
  | .exAf =>
    { s with
      main := { s.main with af := s.alt.af }
      alt := { s.alt with af := s.main.af } }
  | .di => { s with interrupts := false }
  | .ei => { s with interrupts := true }
  | .inA port =>
    let r := Bus.inp s.bus port
    (s.setBus r.2).setAf (word r.1 (lo s.main.af))
  | .outA port => s.setBus (Bus.out s.bus port (hi s.main.af))
  | .inir => (s.inBlock s.blockSize).endBlock
  | .otir => (s.outBlock s.blockSize).endBlock

end Cpu

/-! ## Programs -/

/-- A program: the code behind each label, and what the functions in another language do. -/
structure Program (N : Names) (σ : Type) where
  code : N.Label → Code N
  native : N.Native → Cpu N σ → Cpu N σ

/-- The places with an address: those behind a label and those behind a call. -/
def Program.Entry {N : Names} {σ : Type} (P : Program N σ) (c : Code N) : Prop :=
  (∃ l, P.code l = c) ∨ ∃ l l', .call l :: c <:+ P.code l'

/-- Where the code of a program lies. -/
structure Layout {N : Names} {σ : Type} (P : Program N σ) where
  addr : Code N → Word
  resolve : Word → Option (Code N)
  resolve_addr : ∀ c, P.Entry c → resolve (addr c) = some c

open Classical in
/-- A layout of a program all of whose places are in a list. The address of a place is its index. -/
noncomputable def Layout.ofList {N : Names} {σ : Type} {P : Program N σ} (places : List (Code N))
    (hlen : places.length ≤ 65536) (hall : ∀ c, P.Entry c → c ∈ places) : Layout P where
  addr c := BitVec.ofNat 16 (places.idxOf c)
  resolve a := places[a.toNat]?
  resolve_addr c hc := by
    have hlt : places.idxOf c < places.length := List.idxOf_lt_length_iff.mpr (hall c hc)
    rw [BitVec.toNat_ofNat, Nat.mod_eq_of_lt (by omega), List.getElem?_eq_getElem hlt,
      List.getElem_idxOf]

/-- All places of a program with the given labels. -/
def Program.places {N : Names} {σ : Type} (P : Program N σ) (labels : List N.Label) :
    List (Code N) :=
  labels.flatMap fun l => (P.code l).tails

/-- A list of all labels leads to all places of the program. -/
theorem Program.mem_places {N : Names} {σ : Type} {P : Program N σ} {labels : List N.Label}
    (hall : ∀ l, l ∈ labels) {c : Code N} (hc : P.Entry c) : c ∈ P.places labels := by
  obtain ⟨l, hl⟩ | ⟨l, l', hsuffix⟩ := hc
  · exact List.mem_flatMap.mpr ⟨l, hall l, hl ▸ (List.mem_tails _ _).mpr (List.suffix_refl _)⟩
  · exact List.mem_flatMap.mpr
      ⟨l', hall l', (List.mem_tails _ _).mpr ((List.suffix_cons _ c).trans hsuffix)⟩

/-- A place: one in the code of the program, or an address outside of it. -/
inductive Place (N : Names)
  | code (c : Code N)
  | outside (a : Word)

section

variable {N : Names} {σ : Type} [Bus σ] [DecidableEq N.Byte] [DecidableEq N.Word]
  {P : Program N σ} (L : Layout P)

/-- The place with an address. -/
def Layout.place (a : Word) : Place N :=
  match L.resolve a with
  | some c => .code c
  | none => .outside a

/-- The address of a label. -/
def Layout.label (l : N.Label) : Word := L.addr (P.code l)

/-- One instruction of the program. -/
def step : Place N × Cpu N σ → Option (Place N × Cpu N σ)
  | (.outside _, _) => none
  | (.code [], _) => none
  | (.code (i :: c), s) =>
    match i with
    | .op o => some (.code c, s.run L.label o)
    | .jp l => some (.code (P.code l), s)
    | .jpIf cc l => some (.code (if cc.holds s.main.af then P.code l else c), s)
    | .jpInd r => some (L.place (s.getReg r), s)
    | .call l => some (.code (P.code l), s.pushWord (L.addr c))
    | .ret | .reti => some (L.place s.top, s.drop)
    | .native f => some (.code c, P.native f s)

end

end Z80
