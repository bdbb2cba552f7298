import Z80OS.Asm.Scratch
import Z80OS.Kernel.Arguments

set_option relaxedAutoImplicit false
set_option autoImplicit false

/-!
# Copies between banks

`ram_copy` copies bytes from the bank that is selected to any other one. The banks are switched
twice for each byte, and while the other bank is selected the stack may be out of reach.

## Main definitions

* `Z80OS.Asm.CopyArgs` — the parameters on the stack.
* `Z80OS.Asm.RamCopied` — what has changed when the routine returns.

## Main results

* `Z80OS.Asm.ramCopyLoop_reaches` — the loop.
* `Z80OS.Asm.fulfils_ramCopy` — the routine.
-/

namespace Z80OS.Asm

open Z80

/-- RAM after some bytes have been copied one after the other, from the bank `c` to the bank `d`. -/
def copyRam (banks : ℕ) (d c : UInt8) : ℕ → Word → Word → (Cell → UInt8) → Cell → UInt8
  | 0, _, _, m => m
  | k + 1, dst, src, m =>
    copyRam banks d c k (dst + 1) (src + 1)
      (Function.update m (cellIn banks d dst) (m (cellIn banks c src)))

section

variable {banks : ℕ} {d c : UInt8} {k i : ℕ} {dst src : Word} {m : Cell → UInt8} {x : Cell}

/-- Nothing but the destination is changed. -/
theorem copyRam_of_ne (h : ∀ i < k, x ≠ cellIn banks d (dst + BitVec.ofNat 16 i)) :
    copyRam banks d c k dst src m x = m x := by
  induction k generalizing dst src m with
  | zero => rfl
  | succ k ih =>
    have h0 : x ≠ cellIn banks d dst := by simpa using h 0 (by omega)
    rw [copyRam, ih fun i hi => ?_, Function.update_of_ne h0]
    rw [add_ofNat_succ]
    exact h (i + 1) (by omega)

/-- The destination gets what the source has, as long as they are apart. -/
theorem copyRam_apply (hk : k ≤ 65536) (hi : i < k)
    (h : ∀ i < k, ∀ j < k, cellIn banks c (src + BitVec.ofNat 16 j) ≠
      cellIn banks d (dst + BitVec.ofNat 16 i)) :
    copyRam banks d c k dst src m (cellIn banks d (dst + BitVec.ofNat 16 i)) =
      m (cellIn banks c (src + BitVec.ofNat 16 i)) := by
  induction k generalizing dst src m i with
  | zero => omega
  | succ k ih =>
    cases i with
    | zero =>
      rw [copyRam, copyRam_of_ne fun i hi heq => ?_]
      · simp
      · have hadd := cellIn_inj heq
        rw [add_ofNat_succ, BitVec.add_right_inj] at hadd
        have := congrArg BitVec.toNat hadd
        simp only [BitVec.toNat_ofNat] at this
        omega
    | succ i =>
      have hne : cellIn banks c (src + BitVec.ofNat 16 (i + 1)) ≠ cellIn banks d dst := by
        simpa using h 0 (by omega) (i + 1) hi
      rw [copyRam, ← add_ofNat_succ, ih (by omega) (by omega) fun i hi j hj => ?_, add_ofNat_succ,
        Function.update_of_ne hne]
      rw [add_ofNat_succ, add_ofNat_succ]
      exact h (i + 1) (by omega) (j + 1) (by omega)

end

variable {κ : Type} {sym : Symbols} {native : CFunction → KernelCpu κ → KernelCpu κ}
  {L : Layout (kernel sym native)} {s t : KernelCpu κ} {k : ℕ}
  {z : Place kernelNames × KernelCpu κ}

/-- What the loop changes in `n` turns. -/
structure LoopCopied (n : ℕ) (s t : KernelCpu κ) : Prop where
  keeps : Keeps s t
  iy : t.iy = s.iy
  sp : t.sp = s.sp
  bytes : ∀ v, v ≠ .byte → t.bytes v = s.bytes v
  bus : t.bus = { s.bus with
    ram := copyRam s.bus.banks (s.bytes .dstBank) s.bus.bank n s.main.hl s.main.de s.bus.ram }

/-- One turn of the loop. -/
def copyTurn (s : KernelCpu κ) : KernelCpu κ :=
  let c := Bus.read s.bus s.main.de
  let bc := s.main.bc - 1
  { s with
    main := {
      af := Alu.or.apply (word (hi bc) (lo s.main.af)) (lo bc)
      bc := bc
      de := s.main.de + 1
      hl := s.main.hl + 1 }
    bytes := Function.update s.bytes .byte c
    bus := { s.bus with
      ram := Function.update s.bus.ram (cellIn s.bus.banks (s.bytes .dstBank) s.main.hl) c
      bank := s.bytes .bankCurrent } }

/-- A turn of the loop leaves all variables of one byte but the one that it copies. -/
theorem copyTurn_bytes {v : ByteVar} (hv : v ≠ .byte) : (copyTurn s).bytes v = s.bytes v :=
  Function.update_of_ne hv ..

/-- A turn of the loop copies one byte to the other bank, and selects the bank again that was
selected. -/
theorem copyTurn_bus (hbank : s.bytes .bankCurrent = s.bus.bank) :
    (copyTurn s).bus = { s.bus with
      ram := copyRam s.bus.banks (s.bytes .dstBank) s.bus.bank 1 s.main.hl s.main.de
        s.bus.ram } := by
  rw [copyTurn, hbank]
  rfl

/-- The loop goes on until `BC` is zero. -/
theorem ramCopyLoop_turn (h : Reaches L (.code (if s.main.bc - 1#16 = 0#16 then ramCopyDone
    else ramCopyLoop), copyTurn s) z) : Reaches L (.code ramCopyLoop, s) z := by
  refine Reaches.straight (Reaches.head rfl ?_)
  have hturn : s.runs L.label (straight ramCopyLoop) = copyTurn s := by
    simp [ramCopyLoop, copyTurn, Board.write_eq, Board.cell]
  have hzero : zeroFlag (copyTurn s).main.af = (s.main.bc - 1#16 == 0#16) := by
    rw [Bool.eq_iff_iff]
    simp [copyTurn]
  rw [hturn]
  by_cases hbc : s.main.bc - 1#16 = 0#16
  · rw [if_neg (by simpa [hzero] using hbc)]
    rwa [if_pos hbc] at h
  · rw [if_pos (by simpa [hzero] using hbc)]
    rwa [if_neg hbc] at h

/-- **The loop** copies the number of bytes in `BC`, for which zero stands for 65536.

**Proof sketch.** Induction on the turns behind the next one. A turn copies one byte and selects the
bank again that was selected (`copyTurn_bus`), so that the next one starts from a state of the same
kind. -/
theorem ramCopyLoop_reaches (hk : k < 65536) (hbc : s.main.bc - 1#16 = BitVec.ofNat 16 k)
    (hbank : s.bytes .bankCurrent = s.bus.bank) :
    ∃ t, Reaches L (.code ramCopyLoop, s) (.code ramCopyDone, t) ∧ LoopCopied (k + 1) s t := by
  induction k generalizing s with
  | zero =>
    refine ⟨copyTurn s, ramCopyLoop_turn ?_, ⟨⟨rfl, rfl, rfl⟩, rfl, rfl,
      fun _ => copyTurn_bytes, copyTurn_bus hbank⟩⟩
    rw [if_pos hbc]
    exact Reaches.refl
  | succ k ih =>
    have hrest : (copyTurn s).main.bc - 1#16 = BitVec.ofNat 16 k := by
      rw [show (copyTurn s).main.bc = BitVec.ofNat 16 (k + 1) from hbc]
      bv_omega
    have hbank' : (copyTurn s).bytes .bankCurrent = (copyTurn s).bus.bank := by
      rw [copyTurn_bytes (by decide), copyTurn_bus hbank, hbank]
    obtain ⟨t, hreach, hdone⟩ := ih (by omega) hrest hbank'
    refine ⟨t, ramCopyLoop_turn ?_, ⟨⟨hdone.keeps.alt, hdone.keeps.interrupts, hdone.keeps.words⟩,
      hdone.iy, hdone.sp, fun v hv => (hdone.bytes v hv).trans (copyTurn_bytes hv), ?_⟩⟩
    · rwa [if_neg (hbc ▸ ofNat_ne_zero (by omega) hk)]
    · rw [hdone.bus, copyTurn_bus hbank, copyTurn_bytes (by decide)]
      rfl

/-! ## The routine -/

/-- The parameters: the destination with its bank, the source, and the number of bytes. -/
structure CopyArgs where
  dst : Word
  bank : UInt8
  src : Word
  count : Word

/-- The number of bytes that are copied. -/
def CopyArgs.size (x : CopyArgs) : ℕ := (x.count - 1#16).toNat + 1

/-- The parameters lie on the stack, behind the address that the routine returns to. -/
structure CopyArgs.Passed (x : CopyArgs) (s : KernelCpu κ) : Prop where
  dst : Bus.readWord s.bus (s.sp + 2#16) = x.dst
  bank : Bus.read s.bus (s.sp + 4#16) = x.bank
  src : Bus.readWord s.bus (s.sp + 5#16) = x.src
  count : Bus.readWord s.bus (s.sp + 7#16) = x.count

/-- A byte of the destination. -/
def CopyArgs.target (x : CopyArgs) (b : Board κ) (i : ℕ) : Cell :=
  cellIn b.banks x.bank (x.dst + BitVec.ofNat 16 i)

/-- The destination is apart from the source, and from `IX` and the address that the routine returns
to. The source is not below the stack pointer. -/
structure CopyArgs.Apart (x : CopyArgs) (s : KernelCpu κ) : Prop where
  source : ∀ i < x.size, ∀ j < x.size,
    s.bus.cell (x.src + BitVec.ofNat 16 j) ≠ x.target s.bus i
  stack : ∀ i < x.size, ∀ j < 4, s.bus.cell (s.sp - 2#16 + BitVec.ofNat 16 j) ≠ x.target s.bus i
  below : ∀ i < x.size, ∀ j < 4, x.src + BitVec.ofNat 16 i ≠ s.sp - 4#16 + BitVec.ofNat 16 j

/-- The destination has got the bytes of the source. Nothing else has changed in RAM but the four
bytes below the stack pointer. -/
structure RamCopied (x : CopyArgs) (s t : KernelCpu κ) : Prop where
  keeps : Keeps s t
  ix : t.ix = s.ix
  iy : t.iy = s.iy
  sp : t.sp = s.sp + 2
  bytes : ∀ v, v ≠ .byte → v ≠ .dstBank → t.bytes v = s.bytes v
  board : t.bus = { s.bus with ram := t.bus.ram }
  copied : ∀ i < x.size,
    t.bus.ram (x.target s.bus i) = s.bus.ram (s.bus.cell (x.src + BitVec.ofNat 16 i))
  frame : ∀ c, (∀ i < x.size, c ≠ x.target s.bus i) →
    (∀ j < 4, c ≠ s.bus.cell (s.sp - 4#16 + BitVec.ofNat 16 j)) → t.bus.ram c = s.bus.ram c

/-- The state at the start of the loop. -/
def copyStart (x : CopyArgs) (s : KernelCpu κ) (af : Word) : KernelCpu κ :=
  { s with
    main := { af := af, bc := x.count, de := x.src, hl := x.dst }
    ix := s.sp + 2#16
    sp := s.sp - 2#16
    bytes := Function.update s.bytes .dstBank x.bank
    bus := Bus.writeWord (Bus.writeWord s.bus (s.sp - 2#16) s.ix) (s.sp - 4#16) (s.sp + 2#16) }

/-- What lies on the stack is not changed by what is put on it. -/
theorem read_above {b : Board κ} {a w v : Word} {i : ℕ} (hi : i < 0xfffc) :
    Bus.read (Bus.writeWord (Bus.writeWord b (a - 2#16) w) (a - 4#16) v) (a + BitVec.ofNat 16 i) =
      Bus.read b (a + BitVec.ofNat 16 i) := by
  rw [read_writeWord_of_ne (by bv_omega) (by bv_omega),
    read_writeWord_of_ne (by bv_omega) (by bv_omega)]

/-- The instructions in front of the loop take the parameters into registers, and save `IX`. -/
theorem ramCopyEntry_runs {x : CopyArgs} (h : x.Passed s) :
    ∃ af, s.runs L.label (straight ramCopyEntry) = copyStart x s af := by
  obtain ⟨hdst, hbank, hsrc, hcount⟩ := h
  have hix : 4#16 + (s.sp - 2#16) = s.sp + 2#16 := by bv_omega
  have hsp : s.sp - 2#16 - 2#16 = s.sp - 4#16 := by bv_omega
  have hsp' : s.sp - 4#16 + 2#16 = s.sp - 2#16 := by bv_omega
  simp only [Bus.readWord, BitVec.ofNat_eq_ofNat, BitVec.add_assoc, BitVec.reduceAdd]
    at hdst hsrc hcount
  refine ⟨(s.runs L.label (straight ramCopyEntry)).main.af, ?_⟩
  simp [ramCopyEntry, copyStart, hix, hsp, hsp', BitVec.add_assoc, read_above, hdst, hbank, hsrc,
    hcount]

/-- The entry changes the four bytes below the stack pointer. -/
theorem copyStart_ram {x : CopyArgs} {af : Word} {c : Cell}
    (hc : ∀ j < 4, c ≠ s.bus.cell (s.sp - 4#16 + BitVec.ofNat 16 j)) :
    (copyStart x s af).bus.ram c = s.bus.ram c := by
  have h0 : s.sp - 4#16 + BitVec.ofNat 16 0 = s.sp - 4#16 := by bv_omega
  have h2 : s.sp - 4#16 + BitVec.ofNat 16 2 = s.sp - 2#16 := by bv_omega
  have h3 : s.sp - 4#16 + BitVec.ofNat 16 3 = s.sp - 2#16 + 1 := by bv_omega
  have hc0 := hc 0 (by omega)
  have hc1 := hc 1 (by omega)
  have hc2 := hc 2 (by omega)
  have hc3 := hc 3 (by omega)
  rw [h0] at hc0
  rw [h2] at hc2
  rw [h3] at hc3
  exact (Board.writeWord_ram (b := Bus.writeWord s.bus (s.sp - 2#16) s.ix) hc0 hc1).trans
    (Board.writeWord_ram hc2 hc3)

/-- The loop changes the destination. -/
theorem LoopCopied.ram {x : CopyArgs} {af : Word} {c : Cell}
    (h : LoopCopied x.size (copyStart x s af) t) (hc : ∀ i < x.size, c ≠ x.target s.bus i) :
    t.bus.ram c = (copyStart x s af).bus.ram c := by
  rw [h.bus]
  exact copyRam_of_ne hc

/-- It leaves `IX` and the address that the routine returns to on the stack. -/
theorem LoopCopied.stacked {x : CopyArgs} {af : Word}
    (h : LoopCopied x.size (copyStart x s af) t) (hapart : x.Apart s) :
    Bus.readWord t.bus (s.sp - 2#16) = s.ix ∧ Bus.readWord t.bus s.sp = s.top := by
  have hstack : ∀ j < 4, Bus.read t.bus (s.sp - 2#16 + BitVec.ofNat 16 j) =
      Bus.read (copyStart x s af).bus (s.sp - 2#16 + BitVec.ofNat 16 j) := by
    intro j hj
    have hcell : t.bus.cell = s.bus.cell := by rw [h.bus]; rfl
    rw [Board.read_eq, hcell]
    exact h.ram fun i hi => hapart.stack i hi j hj
  have hbelow : Bus.readWord (copyStart x s af).bus (s.sp - 2#16) = s.ix := by
    rw [copyStart, readWord_writeWord_of_ne (by bv_omega) (by bv_omega) (by bv_omega),
      readWord_writeWord_self]
  constructor
  · rw [← hbelow]
    exact readWord_congr fun i hi => hstack i (by omega)
  · refine readWord_congr fun i hi => ?_
    have hadd : s.sp + BitVec.ofNat 16 i = s.sp - 2#16 + BitVec.ofNat 16 (i + 2) := by bv_omega
    rw [← read_above (b := s.bus) (w := s.ix) (v := s.sp + 2#16) (by omega), hadd]
    exact hstack (i + 2) (by omega)

/-- The state behind the loop when the stack is as it was.

**Proof sketch.** The source is not below the stack pointer, so that it is the one in front of the
saved `IX`, and the destination is apart from it. Elsewhere RAM is as the pushed words have left
it. -/
theorem LoopCopied.ramCopied {x : CopyArgs} {af : Word}
    (h : LoopCopied x.size (copyStart x s af) t) (hapart : x.Apart s) :
    RamCopied x s (t.drop.drop.setIx s.ix) := by
  constructor
  case keeps => exact ⟨h.keeps.alt, h.keeps.interrupts, h.keeps.words⟩
  case ix => rfl
  case iy => exact h.iy
  case sp =>
    have hsp := h.sp
    simp [hsp, copyStart]
  case bytes =>
    intro v hv hv'
    exact (h.bytes v hv).trans (Function.update_of_ne hv' ..)
  case board =>
    show t.bus = { s.bus with ram := t.bus.ram }
    rw [h.bus]
    rfl
  case copied =>
    intro i hi
    have hsrc : (copyStart x s af).bus.ram (s.bus.cell (x.src + BitVec.ofNat 16 i)) =
        s.bus.ram (s.bus.cell (x.src + BitVec.ofNat 16 i)) :=
      copyStart_ram fun j hj heq => hapart.below i hi j hj (Board.cell_inj.mp heq)
    rw [← hsrc]
    show t.bus.ram _ = _
    rw [h.bus]
    exact copyRam_apply (BitVec.isLt _) hi fun i hi j hj => hapart.source i hi j hj
  case frame =>
    intro c hc hc'
    exact (h.ram hc).trans (copyStart_ram hc')

/-- **`ram_copy`** copies to the given bank, and comes back with the bank selected that was selected
before, when that is the one that the kernel has noted, the destination is apart from the source and
from what is on the stack, and the source is not below the stack pointer.

**Proof sketch.** The parameters are taken from the stack and `IX` is saved (`ramCopyEntry_runs`),
and the loop copies as many bytes as there are (`ramCopyLoop_reaches`). The destination is apart
from the saved `IX` and the return address, so that both are there in the end
(`LoopCopied.stacked`). -/
theorem fulfils_ramCopy {x : CopyArgs} (hargs : x.Passed s) (hapart : x.Apart s)
    (hbank : s.bytes .bankCurrent = s.bus.bank) :
    ∃ t, Fulfils L .ramCopy s t ∧ RamCopied x s t := by
  obtain ⟨af, hstart⟩ := ramCopyEntry_runs (L := L) hargs
  obtain ⟨t, hreach, hdone⟩ := ramCopyLoop_reaches (L := L) (s := copyStart x s af)
    (k := (x.count - 1#16).toNat) (BitVec.isLt _)
    (by rw [BitVec.ofNat_toNat, BitVec.setWidth_eq]; rfl)
    hbank
  obtain ⟨hix, htop⟩ := LoopCopied.stacked (x := x) hdone hapart
  refine ⟨t.drop.drop.setIx s.ix, ?_, LoopCopied.ramCopied hdone hapart⟩
  refine Fulfils.of_code rfl (Reaches.through rfl hstart ?_)
  refine hreach.trans (Reaches.straight (Reaches.head rfl ?_))
  have hsp := hdone.sp
  simp [ramCopyDone, hsp, copyStart, hix, htop]
  exact Reaches.refl

/-- The parameters of a copy of two bytes from the first bank to the second one, on the stack. -/
def twoBytesCall : KernelCpu Unit :=
  restingCpu (memoryWith [(.low 0x7003, 0x90), (.low 0x7004, 1), (.low 0x7006, 0x80),
    (.low 0x7007, 2), (.bank 0 0x8000, 65), (.bank 0 0x8001, 66)]) ⟨0, 0, 0, 0⟩ 0x7000

/-- Two bytes are copied from the first bank to the second one. -/
theorem fulfils_ramCopy_twoBytes : ∃ t,
    Fulfils (kernelLayout someSymbols restingC) .ramCopy twoBytesCall t ∧
      RamCopied ⟨0x9000, 1, 0x8000, 2⟩ twoBytesCall t :=
  fulfils_ramCopy ⟨by decide, by decide, by decide, by decide⟩
    ⟨by decide, by decide, by decide⟩ rfl

end Z80OS.Asm
