import Z80OS.Asm.Board
import Z80OS.Asm.Disk
import Z80OS.Asm.DiskTransfers
import Z80OS.Asm.Interrupt
import Z80OS.Asm.Preemption
import Z80OS.Asm.RamBanks
import Z80OS.Asm.RamCopy
import Z80OS.Asm.Scheduling
import Z80OS.Asm.Serial
import Z80OS.Asm.Starting
import Z80OS.Asm.Syscall
import Z80OS.Basic.Capacity
import Z80OS.Basic.Confinement
import Z80OS.Basic.Dependence
import Z80OS.Basic.Entered
import Z80OS.Basic.Faithful
import Z80OS.Basic.Halting
import Z80OS.Basic.Jumps
import Z80OS.Basic.Lexemes
import Z80OS.Basic.LineSearch
import Z80OS.Basic.Overruns
import Z80OS.Basic.Retries
import Z80OS.Basic.StackSafety
import Z80OS.Basic.Transfers
import Z80OS.Basic.Transparency
import Z80OS.Basic.VariableStore
import Z80OS.Basic.Walkers
import Z80OS.File.Accounting
import Z80OS.File.Cases
import Z80OS.File.Creation
import Z80OS.File.Cycles
import Z80OS.File.Entries
import Z80OS.File.RoundTrip
import Z80OS.File.Search
import Z80OS.File.Splitting
import Z80OS.File.WriteSplitting
import Z80OS.Kernel.Exit
import Z80OS.Kernel.Pages
import Z80OS.Kernel.Resources
import Z80OS.Kernel.RoundRobin
import Z80OS.Kernel.Signals
import Z80OS.Kernel.TableBounds
import Z80OS.Kernel.Ticks
import Z80OS.Kernel.UserRam
import Z80OS.Lib.Chain
import Z80OS.Lib.Run
import Z80OS.Loader.Agreement
