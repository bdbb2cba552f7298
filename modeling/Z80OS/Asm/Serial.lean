import Z80OS.Asm.Disk

set_option relaxedAutoImplicit false
set_option autoImplicit false

/-!
# The driver for the serial port

`driver_6850_tx` sends bytes from memory. Before each one it waits until the port can take it. The
number of bytes is looked at behind the first one, so that zero stands for 65536.

## Main definitions

* `Z80OS.Asm.transmitted` — the state after some bytes have been sent.

## Main results

* `Z80OS.Asm.fulfils_driver6850Tx` — the routine.
-/

namespace Z80OS.Asm

open Z80

variable {κ : Type} {sym : Symbols} {native : CFunction → KernelCpu κ → KernelCpu κ}
  {L : Layout (kernel sym native)} {s : KernelCpu κ} {z : Place kernelNames × KernelCpu κ}

/-- The status of the serial port is read, which takes a part of the time for which it is busy. -/
@[simp] theorem Board.inp_control {b : Board κ} :
    Bus.inp b 0x00 = (b.uart.status, { b with uart := { b.uart with busy := b.uart.busy - 1 } }) :=
  rfl

/-- A byte is put into the serial port. -/
@[simp] theorem Board.out_uart {b : Board κ} {v : UInt8} :
    Bus.out b 0x01 v = { b with uart := b.uart.outData v } := rfl

/-- Memory has what it has whatever the port does. -/
@[simp] theorem Board.readWord_uart {b : Board κ} {u : Uart} {a : Word} :
    Bus.readWord { b with uart := u } a = Bus.readWord b a := rfl

/-- The part of the loop behind the wait for the port. -/
def txByte : KernelCode :=
  [ldInd .a .hl, outA 0x01, inc16 .hl, dec16 .de, ldReg .a .d, orReg .e]

/-- The state with other contents of `A` and `F`, and another port. -/
def withUart (s : KernelCpu κ) (af : Word) (u : Uart) : KernelCpu κ :=
  { s with
    main := { s.main with af := af }
    bus := { s.bus with uart := u } }

/-- The status says whether a byte can be taken. -/
theorem Uart.flag_status {u : Uart} : flag u.status 1 = decide (u.busy = 0) := by
  by_cases h : u.busy = 0 <;> cases hr : u.received <;> simp [Uart.status, h, hr] <;> rfl

/-- **It is waited** until the port can take a byte. -/
theorem txWait_reaches : ∃ af, Reaches L (.code driver6850TxLoop, s)
    (.code (txByte ++ jpNz .driver6850TxLoop :: driver6850TxDone),
      withUart s af { s.bus.uart with busy := 0 }) := by
  induction hn : s.bus.uart.busy generalizing s with
  | zero =>
    obtain ⟨af, hruns, hzero⟩ : ∃ af, s.runs L.label (straight driver6850TxLoop) =
        withUart s af { s.bus.uart with busy := 0 } ∧ Cond.z.holds af = false := by
      refine ⟨(s.runs L.label (straight driver6850TxLoop)).main.af, ?_, ?_⟩ <;>
        simp [driver6850TxLoop, withUart, hn, Uart.flag_status]
    exact ⟨af, Reaches.branch rfl hruns hzero Reaches.refl⟩
  | succ n ih =>
    obtain ⟨af, hruns, hzero⟩ : ∃ af, s.runs L.label (straight driver6850TxLoop) =
        withUart s af { s.bus.uart with busy := n } ∧ Cond.z.holds af = true := by
      refine ⟨(s.runs L.label (straight driver6850TxLoop)).main.af, ?_, ?_⟩ <;>
        simp [driver6850TxLoop, withUart, hn, Uart.flag_status]
    obtain ⟨af', hreach⟩ := ih (s := withUart s af { s.bus.uart with busy := n }) rfl
    exact ⟨af', Reaches.branch rfl hruns hzero hreach⟩

/-- The state after `n` bytes from memory have been sent. -/
def transmitted (s : KernelCpu κ) (af de : Word) (n : ℕ) : KernelCpu κ :=
  { s with
    main := { s.main with af := af, de := de, hl := s.main.hl + BitVec.ofNat 16 n }
    bus := { s.bus with
      uart := (bytesFrom s.bus s.main.hl n).foldl Uart.outData s.bus.uart } }

/-- A byte is sent. The loop goes on until `DE` is zero. -/
theorem driver6850TxLoop_turn : ∃ af, Reaches L (.code driver6850TxLoop, s)
    (.code (if s.main.de - 1#16 = 0#16 then driver6850TxDone else driver6850TxLoop),
      transmitted s af (s.main.de - 1#16) 1) := by
  obtain ⟨af, hwait⟩ := txWait_reaches (L := L) (s := s)
  obtain ⟨af', hruns, hzero⟩ : ∃ af', (withUart s af { s.bus.uart with busy := 0 }).runs L.label
      (straight txByte) = transmitted s af' (s.main.de - 1#16) 1 ∧
        Cond.nz.holds af' = decide (s.main.de - 1#16 ≠ 0#16) := by
    refine ⟨((withUart s af { s.bus.uart with busy := 0 }).runs L.label
      (straight txByte)).main.af, ?_, ?_⟩
    · simp [txByte, withUart, transmitted, bytesFrom]
      rfl
    · rw [Bool.eq_iff_iff]
      simp [txByte, withUart]
  refine ⟨af', hwait.trans (Reaches.branch rfl hruns hzero ?_)⟩
  by_cases h : s.main.de - 1#16 = 0#16
  · rw [if_pos h, if_neg (by simpa using h)]
    exact Reaches.refl
  · rw [if_neg h, if_pos (by simpa using h)]
    exact Reaches.refl

/-- More bytes are sent behind the first ones. -/
theorem transmitted_transmitted {af af' de de' : Word} {j k : ℕ} :
    transmitted (transmitted s af de j) af' de' k = transmitted s af' de' (j + k) := by
  simp only [transmitted, bytesFrom_add, List.foldl_append, BitVec.ofNat_add, BitVec.add_assoc]
  rfl

/-- **The loop** sends the number of bytes in `DE`, for which zero stands for 65536.

**Proof sketch.** Induction on the turns behind the next one. A turn sends a byte, however long the
port takes (`driver6850TxLoop_turn`), and the loop ends when the count has come to zero. -/
theorem driver6850TxLoop_reaches {n : ℕ} (hn : n < 65536)
    (hde : s.main.de - 1#16 = BitVec.ofNat 16 n) :
    ∃ af, Reaches L (.code driver6850TxLoop, s)
      (.code driver6850TxDone, transmitted s af 0#16 (n + 1)) := by
  induction n generalizing s with
  | zero =>
    obtain ⟨af, h⟩ := driver6850TxLoop_turn (L := L) (s := s)
    rw [if_pos hde, hde] at h
    exact ⟨af, h⟩
  | succ n ih =>
    obtain ⟨af, h⟩ := driver6850TxLoop_turn (L := L) (s := s)
    rw [if_neg (hde ▸ ofNat_ne_zero (by omega) hn)] at h
    have hrest : (transmitted s af (s.main.de - 1#16) 1).main.de - 1#16 = BitVec.ofNat 16 n := by
      show s.main.de - 1#16 - 1#16 = _
      rw [hde]
      bv_omega
    obtain ⟨af', h'⟩ := ih (by omega) hrest
    rw [transmitted_transmitted, Nat.add_comm 1] at h'
    exact ⟨af', h.trans h'⟩

/-- The number of bytes that are sent. -/
def txCount (s : KernelCpu κ) : ℕ := (s.main.de - 1#16).toNat + 1

/-- The bytes have been sent, and only the two bytes below the stack pointer have changed in RAM. -/
structure Transmitted (s t : KernelCpu κ) : Prop where
  keeps : Keeps s t
  ix : t.ix = s.ix
  iy : t.iy = s.iy
  bc : t.main.bc = s.main.bc
  sp : t.sp = s.sp + 2
  bytes : t.bytes = s.bytes
  sent : t.bus.uart.sent = s.bus.uart.sent ++ bytesFrom s.bus s.main.hl (txCount s)
  received : t.bus.uart.received = s.bus.uart.received
  board : t.bus = { s.bus with ram := t.bus.ram, uart := t.bus.uart }
  frame : OffStack s.bus s.sp 2 t.bus.ram

/-- The serial port has sent the bytes in order, and keeps the one that it has received. -/
theorem foldl_outData {u : Uart} {l : List UInt8} :
    (l.foldl Uart.outData u).sent = u.sent ++ l ∧
      (l.foldl Uart.outData u).received = u.received := by
  induction l generalizing u with
  | nil => simp
  | cons c l ih =>
    obtain ⟨hsent, hreceived⟩ := ih (u := u.outData c)
    rw [List.foldl_cons, hsent, hreceived]
    simp [Uart.outData]

/-- **`driver_6850_tx`** sends the bytes that `HL` points to, in order, when they are apart from the
two bytes below the stack pointer.

**Proof sketch.** The loop sends as many bytes as there are (`driver6850TxLoop_reaches`). The buffer
is apart from the saved `IX`, so that they are the bytes that were there when the routine was
called. -/
theorem fulfils_driver6850Tx (hapart : ∀ i < txCount s, ∀ j < 2,
      s.main.hl + BitVec.ofNat 16 i ≠ s.sp - 2#16 + BitVec.ofNat 16 j) :
    ∃ t, Fulfils L .driver6850Tx s t ∧ Transmitted s t := by
  let u := s.pushWord s.ix
  obtain ⟨af, hloop⟩ := driver6850TxLoop_reaches (L := L) (s := u) (n := (s.main.de - 1#16).toNat)
    (BitVec.isLt _) (by rw [BitVec.ofNat_toNat, BitVec.setWidth_eq]; rfl)
  have hpush : OffStack s.bus s.sp 2 u.bus.ram := OffStack.push
  have hread : bytesFrom u.bus s.main.hl (txCount s) = bytesFrom s.bus s.main.hl (txCount s) := by
    refine List.map_congr_left fun i hi => hpush _ fun j hj heq => ?_
    have hadd : s.sp - BitVec.ofNat 16 (j + 1) = s.sp - 2#16 + BitVec.ofNat 16 (1 - j) := by
      bv_omega
    exact hapart i (List.mem_range.mp hi) (1 - j) (by omega) ((Board.cell_inj.mp heq).trans hadd)
  refine ⟨{ transmitted u af 0#16 (txCount s) with ix := s.ix, sp := s.sp + 2 }, ?_, ?_⟩
  · refine Fulfils.of_code rfl (Reaches.through (p := [push .ix]) rfl rfl (hloop.trans ?_))
    refine Reaches.straight (Reaches.head rfl ?_)
    simp [driver6850TxDone, transmitted, u, txCount, readWord_below]
    exact Reaches.refl
  · constructor
    case keeps => exact ⟨rfl, rfl, rfl⟩
    case ix => rfl
    case iy => rfl
    case bc => rfl
    case sp => rfl
    case bytes => rfl
    case sent =>
      rw [← hread]
      exact foldl_outData.1
    case received => exact foldl_outData.2
    case board => rfl
    case frame => exact hpush

end Z80OS.Asm
