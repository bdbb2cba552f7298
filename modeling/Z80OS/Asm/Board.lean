import Z80OS.File.Sector
import Z80OS.Lib.Z80Rules

set_option relaxedAutoImplicit false
set_option autoImplicit false

/-!
# The board

What the kernel has behind the bus: RAM whose upper half is one of several banks, the latch that
selects the bank, the status register, the serial port, the timer and the card that sectors are read
from and written to. A bank number is taken modulo the number of banks, and the timer is reset when
it is read, as in the board that the tests emulate. The card follows the documentation of such cards
in their mode with addresses of 28 bits, and has no faults. The card and the serial port are not
ready for some time after a command or a byte. How long is left open, but the time is counted in the
reads of their status that say so, and is finite.

## Main definitions

* `Z80OS.Asm.Cell` — the bytes of RAM.
* `Z80OS.Asm.Drive`, `Z80OS.Asm.Uart` — the card and the serial port.
* `Z80OS.Asm.Board` — the board, with the variables of the part of the kernel that is written in C.

## Main results

* `Z80OS.Asm.cellIn_inj` — different addresses are different bytes.
-/

namespace Z80OS.Asm

open Z80

/-! ## The card -/

/-- What the card does: nothing, a transfer of the sector from an address on, of which a number of
bytes has been read, or one to an address, of which some bytes have been written. -/
inductive Transfer
  | idle
  | reading (lba n : ℕ)
  | writing (lba : ℕ) (bytes : List UInt8)

/-- The card: its sectors, the registers for the sector count and the address, what it does, for how
many reads of its status it is busy, and how long it will be busy the next times. -/
structure Drive where
  disk : Disk
  count : UInt8
  lba0 : UInt8
  lba1 : UInt8
  lba2 : UInt8
  device : UInt8
  transfer : Transfer
  busy : ℕ
  delays : ℕ → ℕ
  turn : ℕ

namespace Drive

/-- The address of 28 bits in the registers. -/
def lba (d : Drive) : ℕ :=
  d.lba0.toNat + 256 * d.lba1.toNat + 65536 * d.lba2.toNat + 16777216 * (d.device &&& 0x0f).toNat

/-- The number of bytes of a transfer, for whose sectors a count of zero stands for 256. -/
def size (d : Drive) : ℕ := 512 * if d.count = 0 then 256 else d.count.toNat

/-- The card is busy for some time. -/
def wait (d : Drive) : Drive := { d with busy := d.delays d.turn, turn := d.turn + 1 }

/-- The status: `BSY`, or `DRDY` with `DRQ` during a transfer. -/
def status (d : Drive) : UInt8 :=
  if d.busy ≠ 0 then 0x80
  else
    match d.transfer with
    | .idle => 0x40
    | _ => 0x48

/-- A command is given: one sector or more are read or written, or something else is done. -/
def command (d : Drive) (c : UInt8) : Drive :=
  let d := d.wait
  if c = 0x20 then { d with transfer := .reading d.lba 0 }
  else if c = 0x30 then { d with transfer := .writing d.lba [] }
  else { d with transfer := .idle }

/-- The next byte of a transfer is read. -/
def readData (d : Drive) : UInt8 × Drive :=
  match d.transfer with
  | .reading lba n =>
    ((d.disk (lba + n / 512)).get (n % 512),
      { d with transfer := if n + 1 = d.size then .idle else .reading lba (n + 1) })
  | _ => (0xff, d)

/-- The next byte of a transfer is written. With its last byte a sector is stored. -/
def writeData (d : Drive) (c : UInt8) : Drive :=
  match d.transfer with
  | .writing lba bytes =>
    let bytes := bytes ++ [c]
    let d :=
      if bytes.length % 512 = 0 then
        let n := bytes.length / 512 - 1
        let sector : Sector := fun i => bytes.getD (512 * n + i) 0
        { d with disk := Function.update d.disk (lba + n) sector }.wait
      else d
    { d with transfer := if bytes.length = d.size then .idle else .writing lba bytes }
  | _ => d

/-- A register is read. -/
def inp (d : Drive) (r : ℕ) : UInt8 × Drive :=
  if r = 0 then d.readData
  else if r = 7 then (d.status, { d with busy := d.busy - 1 })
  else (0xff, d)

/-- A register is written. -/
def out (d : Drive) (r : ℕ) (v : UInt8) : Drive :=
  match r with
  | 0 => d.writeData v
  | 2 => { d with count := v }
  | 3 => { d with lba0 := v }
  | 4 => { d with lba1 := v }
  | 5 => { d with lba2 := v }
  | 6 => { d with device := v }
  | 7 => d.command v
  | _ => d

end Drive

/-! ## The serial port -/

/-- The serial port: the bytes that have been sent, for how many reads of its status it cannot take
a byte, how long it will be busy the next times, and a byte that has been received. -/
structure Uart where
  sent : List UInt8
  busy : ℕ
  delays : ℕ → ℕ
  received : Option UInt8

namespace Uart

/-- The status: an interrupt because of a byte that has been received, and whether a byte can be
taken. -/
def status (u : Uart) : UInt8 :=
  (if u.received.isSome then 0x81 else 0) ||| (if u.busy = 0 then 0x02 else 0)

/-- The status is read. -/
def inpStatus (u : Uart) : UInt8 × Uart := (u.status, { u with busy := u.busy - 1 })

/-- The byte that has been received is read. -/
def inpData (u : Uart) : UInt8 × Uart := (u.received.getD 0, { u with received := none })

/-- A byte is sent. -/
def outData (u : Uart) (c : UInt8) : Uart :=
  { u with sent := u.sent ++ [c], busy := u.delays u.sent.length }

end Uart

/-! ## The board -/

/-- The bytes of RAM: those of the lower half of the address space, and those of the banks. -/
inductive Cell
  | low (a : Word)
  | bank (k : ℕ) (a : Word)
  deriving DecidableEq

/-- The byte of RAM with an address while a bank is selected, on a board with a number of banks. -/
def cellIn (banks : ℕ) (bank : UInt8) (a : Word) : Cell :=
  if a < 0x8000#16 then .low a else .bank (bank.toNat % banks) a

/-- The board: RAM, the number of banks and the bank that is selected, the status register, the
serial port, whether the timer asks for an interrupt, the card, and the variables of C. -/
structure Board (κ : Type) where
  ram : Cell → UInt8
  banks : ℕ
  bank : UInt8
  status : UInt8
  uart : Uart
  timer : UInt8
  drive : Drive
  vars : κ

namespace Board

variable {κ : Type}

/-- The byte of RAM with an address. -/
def cell (b : Board κ) (a : Word) : Cell := cellIn b.banks b.bank a

/-- The byte at an address. -/
def read (b : Board κ) (a : Word) : UInt8 := b.ram (b.cell a)

/-- Writes a byte. -/
def write (b : Board κ) (a : Word) (v : UInt8) : Board κ :=
  { b with ram := Function.update b.ram (b.cell a) v }

/-- Reads a port. -/
def inp (b : Board κ) (port : UInt8) : UInt8 × Board κ :=
  if port = 0x00 then (b.uart.inpStatus.1, { b with uart := b.uart.inpStatus.2 })
  else if port = 0x01 then (b.uart.inpData.1, { b with uart := b.uart.inpData.2 })
  else if port = 0x10 then (b.timer, { b with timer := 0 })
  else if 0x18 ≤ port ∧ port < 0x20 then
    let r := b.drive.inp (port.toNat - 0x18)
    (r.1, { b with drive := r.2 })
  else (0xff, b)

/-- Writes a port. -/
def out (b : Board κ) (port v : UInt8) : Board κ :=
  if port = 0x01 then { b with uart := b.uart.outData v }
  else if port = 0x30 then { b with bank := v }
  else if port = 0x80 then { b with status := v }
  else if 0x18 ≤ port ∧ port < 0x20 then { b with drive := b.drive.out (port.toNat - 0x18) v }
  else b

instance : Bus (Board κ) where
  read := read
  write := write
  inp := inp
  out := out

end Board

namespace Board

variable {κ : Type} {b : Board κ} {m m' : Cell → UInt8} {a w : Word}

/-- The board with other RAM. -/
def withRam (b : Board κ) (m : Cell → UInt8) : Board κ := { b with ram := m }

/-- A board with the RAM that it has. -/
@[simp] theorem withRam_ram : b.withRam b.ram = b := rfl

/-- The RAM of a board with other RAM. -/
@[simp] theorem ram_withRam : (b.withRam m).ram = m := rfl

/-- Other RAM leaves the number of banks. -/
@[simp] theorem banks_withRam : (b.withRam m).banks = b.banks := rfl

/-- Other RAM leaves the selected bank. -/
@[simp] theorem bank_withRam : (b.withRam m).bank = b.bank := rfl

/-- Other RAM leaves the register of the status. -/
@[simp] theorem status_withRam : (b.withRam m).status = b.status := rfl

/-- Other RAM leaves the serial port. -/
@[simp] theorem uart_withRam : (b.withRam m).uart = b.uart := rfl

/-- Other RAM leaves the timer. -/
@[simp] theorem timer_withRam : (b.withRam m).timer = b.timer := rfl

/-- Other RAM leaves the card. -/
@[simp] theorem drive_withRam : (b.withRam m).drive = b.drive := rfl

/-- Other RAM leaves the variables of the kernel. -/
@[simp] theorem vars_withRam : (b.withRam m).vars = b.vars := rfl

/-- Of two changes of RAM the last one counts. -/
@[simp] theorem withRam_withRam : (b.withRam m).withRam m' = b.withRam m' := rfl

/-- A word that is written changes nothing but RAM. -/
@[simp] theorem withRam_writeWord : b.withRam (Bus.writeWord b a w).ram = Bus.writeWord b a w := rfl

/-- What has been stored does not count when all RAM is replaced. -/
@[simp] theorem writeWord_withRam : (Bus.writeWord b a w).withRam m = b.withRam m := rfl

end Board

/-- Different addresses are different bytes. -/
theorem cellIn_inj {banks : ℕ} {bank bank' : UInt8} {a a' : Word}
    (h : cellIn banks bank a = cellIn banks bank' a') : a = a' := by
  unfold cellIn at h
  split_ifs at h
  · exact Cell.low.inj h
  · exact (Cell.bank.inj h).2

/-- An address below `0x8000` is the same byte of RAM whatever bank is selected. -/
theorem cellIn_low {banks : ℕ} {bank : UInt8} {a : Word} (h : a < 0x8000#16) :
    cellIn banks bank a = .low a := if_pos h

/-- An address from `0x8000` on is a byte of the selected bank. -/
theorem cellIn_high {banks : ℕ} {bank : UInt8} {a : Word} (h : ¬ a < 0x8000#16) :
    cellIn banks bank a = .bank (bank.toNat % banks) a := if_neg h

namespace Board

variable {κ : Type} {b : Board κ} {a a' : Word} {v : UInt8}

/-- Different addresses are different bytes of RAM. -/
theorem cell_inj : b.cell a = b.cell a' ↔ a = a' := ⟨cellIn_inj, fun h => h ▸ rfl⟩

/-- The processor reads the byte of RAM that has the address. -/
theorem read_eq : Bus.read b a = b.ram (b.cell a) := rfl

/-- The processor stores to the byte of RAM that has the address. -/
theorem write_eq : Bus.write b a v = { b with ram := Function.update b.ram (b.cell a) v } := rfl

/-- A word that is written changes two bytes of RAM. -/
theorem writeWord_ram {w : Word} {x : Cell} (h0 : x ≠ b.cell a) (h1 : x ≠ b.cell (a + 1)) :
    (Bus.writeWord b a w).ram x = b.ram x :=
  (Function.update_of_ne h1 ..).trans (Function.update_of_ne h0 ..)

instance : LawfulBus (Board κ) where
  read_write b a a' v := by
    show Function.update b.ram (b.cell a) v (b.cell a') = _
    rw [Function.update_apply]
    simp only [cell_inj]
    rfl

/-! ## Ports -/

/-- A write to the port of the banks selects one. -/
@[simp] theorem out_bank : Bus.out b 0x30 v = { b with bank := v } := rfl

/-- A write to the port of the status sets the lights. -/
@[simp] theorem out_status : Bus.out b 0x80 v = { b with status := v } := rfl

/-- Memory has what it has whatever is in the status register. -/
@[simp] theorem read_status : Bus.read { b with status := v } a = Bus.read b a := rfl

/-- Memory has what it has whatever the lights are. -/
@[simp] theorem readWord_status : Bus.readWord { b with status := v } a = Bus.readWord b a := rfl

end Board

end Z80OS.Asm
