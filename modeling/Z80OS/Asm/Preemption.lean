import Z80OS.Asm.Timer
import Z80OS.Lib.Traces

set_option relaxedAutoImplicit false
set_option autoImplicit false

/-!
# Processes that are interrupted

A machine on which each process has registers and memory of its own, and one of them runs, is what
the interrupt handler makes of the processor and its banks. A process that does not run keeps what
it had. Interrupts change what is below the stack of the process that runs, and the last two bytes
of its bank.

What the functions in C do to the variables of the kernel is given by two functions: one for a byte
that has been received, and one that chooses a process and a handler in a tick.

## Main definitions

* `Z80OS.Asm.Machine`, `Z80OS.Asm.Machine.Step` — processes with registers and memory of their own.
* `Z80OS.Asm.CpuStep` — what the processor does between and in interrupts.
* `Z80OS.Asm.Represents` — a state of the processor stands for one of the machine.

## Main results

* `Z80OS.Asm.Represents.step` — the machine follows each step of the processor.
* `Z80OS.Asm.Represents.exists_receive`, `Z80OS.Asm.Represents.exists_tick` — an interrupt that
  arrives is handled to its end.
* `Z80OS.Asm.represents_of_trace` — it does so whatever the order of the steps is.
* `Z80OS.Asm.waiting_resumes` — a process that waits keeps its registers and its memory.
-/

namespace Z80OS.Asm

open Z80

/-! ## The machine -/

/-- A process: its registers, and the memory of its bank. -/
structure Task where
  context : Context
  memory : Word → UInt8

/-- What an interrupt leaves of a process: all but `n` bytes below its stack, and the last two bytes
of its bank. -/
structure Task.Clobbered (n : ℕ) (x x' : Task) : Prop where
  context : x'.context = x.context
  memory : ∀ a, 0x8000#16 ≤ a → (∀ j < n, a ≠ x.context.sp - BitVec.ofNat 16 (j + 1)) →
    a ≠ 0xfffe#16 → a ≠ 0xffff#16 → x'.memory a = x.memory a

/-- The processes, the one that runs, and the variables of the kernel. -/
structure Machine (ι κ : Type) where
  tasks : ι → Task
  current : ι
  vars : κ

/-- What happens: the process that runs does something, a byte is received, or a tick makes another
process run. -/
inductive Event (ι : Type)
  | run
  | receive (c : UInt8)
  | tick (i : ι)

section

variable {ι κ : Type} [DecidableEq ι] (put : κ → UInt8 → Option κ)
  (choice : κ → Option (ι × Word × κ)) (depth : ℕ)

/-- The machine: a process that runs changes its own registers and memory only. -/
inductive Machine.Step : Machine ι κ → Event ι → Machine ι κ → Prop
  | run {m : Machine ι κ} (x : Task) :
    Step m .run { m with tasks := Function.update m.tasks m.current x }
  | receive {m : Machine ι κ} {c : UInt8} {v : κ} {x : Task} (hput : put m.vars c = some v)
    (hx : (m.tasks m.current).Clobbered (depth + 6) x) :
    Step m (.receive c) { m with tasks := Function.update m.tasks m.current x, vars := v }
  | tick {m : Machine ι κ} {i : ι} {handler : Word} {v : κ} {x y : Task}
    (hchoice : choice m.vars = some (i, handler, v))
    (hx : (m.tasks m.current).Clobbered 16 x)
    (hy : (Function.update m.tasks m.current x i).Clobbered 16 y) :
    Step m (.tick i)
      { tasks := Function.update (Function.update m.tasks m.current x) i
          { y with context := y.context.resumed handler }
        current := i
        vars := v }

variable {put choice depth} {m m' : Machine ι κ} {i : ι} {es : List (Event ι)} {e : Event ι}

/-- A step leaves a process alone that neither runs before it nor after it. -/
theorem Machine.Step.waiting (h : Machine.Step put choice depth m e m') (hi : i ≠ m.current)
    (he : e ≠ .tick i) : i ≠ m'.current ∧ m'.tasks i = m.tasks i := by
  cases h with
  | run x => exact ⟨hi, Function.update_of_ne hi ..⟩
  | receive => exact ⟨hi, Function.update_of_ne hi ..⟩
  | @tick j =>
    have hne : i ≠ j := fun h => he (h ▸ rfl)
    exact ⟨hne, (Function.update_of_ne hne ..).trans (Function.update_of_ne hi ..)⟩

/-- **A process that waits** keeps its registers and its memory, whatever the others do. -/
theorem Machine.waiting_of_trace (h : Trace (Machine.Step put choice depth) m es m')
    (hi : i ≠ m.current) (hes : .tick i ∉ es) : i ≠ m'.current ∧ m'.tasks i = m.tasks i := by
  have hnot : ∀ e ∈ es, e ≠ .tick i := fun e he heq => hes (heq ▸ he)
  refine Trace.invariant (I := fun n => i ≠ n.current ∧ n.tasks i = m.tasks i) ?_ ⟨hi, rfl⟩ hnot h
  intro n e n' hn he hstep
  obtain ⟨hcur, htask⟩ := hstep.waiting hn.1 he
  exact ⟨hcur, htask.trans hn.2⟩

end

/-! ## The processor -/

section

variable {κ : Type}

/-- The process whose code the processor is at. -/
def processOf (s : KernelCpu κ) (pc : Word) : Context where
  main := s.main
  ix := s.ix
  iy := s.iy
  sp := s.sp
  pc := pc

/-- What a process does: it changes registers, and memory in its bank. -/
structure ProcessStep (s s' : KernelCpu κ) : Prop where
  words : s'.words = s.words
  bytes : s'.bytes = s.bytes
  board : s'.bus = { s.bus with ram := s'.bus.ram }
  ram : ∀ x, (∀ a, 0x8000#16 ≤ a → x ≠ s.bus.cell a) → s'.bus.ram x = s.bus.ram x

/-- The processor puts the address on the stack when an interrupt arrives. The timer and the serial
port are in the given states. -/
def arrived (s : KernelCpu κ) (pc : Word) (timer : UInt8) (byte : Option UInt8) : KernelCpu κ :=
  Cpu.pushWord { s with
    interrupts := false
    bus := { s.bus with timer := timer, uart := { s.bus.uart with received := byte } } } pc

variable {sym : Symbols} {native : CFunction → KernelCpu κ → KernelCpu κ}
  (L : Layout (kernel sym native)) {ι : Type} (put : κ → UInt8 → Option κ)
  (choice : κ → Option (ι × Word × κ))

/-- What the processor does: a process runs, or an interrupt arrives and is handled. A process that
is interrupted has room on its stack, and its code and handlers are not in the kernel. -/
inductive CpuStep : KernelCpu κ × Word → Event ι → KernelCpu κ × Word → Prop
  | run {s s' : KernelCpu κ} {pc pc' : Word} (h : ProcessStep s s') (hpc : L.resolve pc' = none) :
    CpuStep (s, pc) .run (s', pc')
  | receive {s t : KernelCpu κ} {pc pc' : Word} {c : UInt8} {v : κ}
    (hroom : (processOf s pc).Room) (hput : put s.bus.vars c = some v)
    (h : Reaches L (.code (kernelCode sym .interruptHandler), arrived s pc s.bus.timer (some c))
      (.outside pc', t)) :
    CpuStep (s, pc) (.receive c) (t, pc')
  | tick {s t : KernelCpu κ} {pc pc' handler : Word} {i : ι} {v : κ}
    (hroom : (processOf s pc).Room) (hchoice : choice s.bus.vars = some (i, handler, v))
    (hhandler : handler = 0#16 ∨ L.resolve handler = none)
    (h : Reaches L (.code (kernelCode sym .interruptHandler), arrived s pc 1 none)
      (.outside pc', t)) :
    CpuStep (s, pc) (.tick i) (t, pc')

/-! ## The processor as the machine -/

/-- A state of the processor stands for one of the machine: the process that runs has its registers,
the other ones are in their banks. -/
structure Represents (bankOf : ι → UInt8) (z : KernelCpu κ × Word) (m : Machine ι κ) : Prop where
  context : (m.tasks m.current).context = processOf z.1 z.2
  memory : ∀ i a, 0x8000#16 ≤ a →
    z.1.bus.ram (.bank ((bankOf i).toNat % z.1.bus.banks) a) = (m.tasks i).memory a
  bank : z.1.bus.bank = bankOf m.current
  banks : ∀ i j, (bankOf i).toNat % z.1.bus.banks = (bankOf j).toNat % z.1.bus.banks → i = j
  waiting : ∀ i ≠ m.current, Saved { z.1.bus with bank := bankOf i } (m.tasks i).context ∧
    (m.tasks i).context.Room
  outside : ∀ i, L.resolve (m.tasks i).context.pc = none
  vars : z.1.bus.vars = m.vars
  user : inKernel z.1 = false

variable {L put choice} {limit : Word} {depth : ℕ} {bankOf : ι → UInt8}
  {s s' t : KernelCpu κ} {pc pc' : Word} {m : Machine ι κ} {c : UInt8} {i : ι}

/-- The byte of RAM of a process in its bank. -/
theorem Represents.cell (h : Represents L bankOf (s, pc) m) {a : Word} (ha : 0x8000#16 ≤ a) :
    s.bus.cell a = .bank ((bankOf m.current).toNat % s.bus.banks) a := by
  rw [← h.bank]
  exact cellIn_high (by bv_omega)

/-- Another process has other bytes. -/
theorem Represents.cell_ne (h : Represents L bankOf (s, pc) m) (hi : i ≠ m.current) {a a' : Word}
    (ha : 0x8000#16 ≤ a') :
    Cell.bank ((bankOf i).toNat % s.bus.banks) a ≠ s.bus.cell a' := by
  rw [h.cell ha]
  intro heq
  exact hi (h.banks _ _ (Cell.bank.inj heq).1)

/-- A process that waits does so on another board with the same bank. -/
theorem Represents.waiting_congr (h : Represents L bankOf (s, pc) m) (hi : i ≠ m.current)
    {b : Board κ} (hbanks : b.banks = s.bus.banks)
    (hram : ∀ a, 0x8000#16 ≤ a → b.ram (.bank ((bankOf i).toNat % s.bus.banks) a) =
      s.bus.ram (.bank ((bankOf i).toNat % s.bus.banks) a)) :
    Saved { b with bank := bankOf i } (m.tasks i).context := by
  obtain ⟨hsaved, hroom⟩ := h.waiting i hi
  refine hsaved.congr hroom fun a ha => ?_
  have hcell : Board.cell { s.bus with bank := bankOf i } a =
      .bank ((bankOf i).toNat % s.bus.banks) a := cellIn_high (by bv_omega)
  have hcell' : Board.cell { b with bank := bankOf i } a =
      .bank ((bankOf i).toNat % s.bus.banks) a := by
    rw [← hbanks]
    exact cellIn_high (by bv_omega)
  rw [Board.read_eq, Board.read_eq, hcell, hcell']
  exact hram a ha

/-- The memory of a bank. -/
def memoryOf (s : KernelCpu κ) (bank : UInt8) (a : Word) : UInt8 :=
  s.bus.ram (.bank (bank.toNat % s.bus.banks) a)

/-- The process that the processor is at, with the memory of a bank. -/
def taskOf (s : KernelCpu κ) (pc : Word) (bank : UInt8) : Task where
  context := processOf s pc
  memory := memoryOf s bank

variable [DecidableEq ι]

/-- The process that runs goes on, and nothing has changed in the other banks.

**Proof sketch.** The process that runs is replaced by what the processor and the bank have. Of the
other ones nothing has changed, as their banks are different ones. -/
theorem Represents.goesOn {v : κ} (h : Represents L bankOf (s, pc) m)
    (hbanks : t.bus.banks = s.bus.banks) (hbank : t.bus.bank = s.bus.bank)
    (hother : ∀ i ≠ m.current, ∀ a, t.bus.ram (.bank ((bankOf i).toNat % s.bus.banks) a) =
      s.bus.ram (.bank ((bankOf i).toNat % s.bus.banks) a))
    (hpc : L.resolve pc' = none) (hvars : t.bus.vars = v) (huser : inKernel t = false) :
    Represents L bankOf (t, pc') { m with
      tasks := Function.update m.tasks m.current (taskOf t pc' (bankOf m.current))
      vars := v } := by
  constructor
  case context => simp [taskOf]
  case memory =>
    intro i a ha
    show t.bus.ram (.bank ((bankOf i).toNat % t.bus.banks) a) = _
    by_cases hi : i = m.current
    · subst hi
      simp [taskOf, memoryOf]
    · simp only [Function.update_of_ne hi]
      rw [hbanks, hother i hi, h.memory i a ha]
  case bank => exact hbank.trans h.bank
  case banks =>
    show ∀ i j, (bankOf i).toNat % t.bus.banks = (bankOf j).toNat % t.bus.banks → i = j
    rw [hbanks]
    exact h.banks
  case waiting =>
    intro i hi
    simp only [Function.update_of_ne hi]
    exact ⟨h.waiting_congr hi hbanks fun a _ => hother i hi a, (h.waiting i hi).2⟩
  case outside =>
    intro i
    by_cases hi : i = m.current
    · subst hi
      simpa [taskOf, processOf] using hpc
    · simpa [Function.update_of_ne hi] using h.outside i
  case vars => exact hvars
  case user => exact huser

/-- The process that runs does something. -/
theorem Represents.run (h : Represents L bankOf (s, pc) m) (hs : ProcessStep s t)
    (hpc : L.resolve pc' = none) : Represents L bankOf (t, pc') { m with
      tasks := Function.update m.tasks m.current (taskOf t pc' (bankOf m.current)) } := by
  have huser : inKernel t = false := by
    rw [← h.user]
    simp [inKernel, hs.bytes]
  exact h.goesOn (by rw [hs.board]) (by rw [hs.board])
    (fun i hi a => hs.ram _ fun a' ha' => h.cell_ne hi ha') hpc
    (by rw [hs.board]; exact h.vars) huser

/-- An address outside of the kernel. -/
theorem place_outside {a : Word} (h : L.resolve a = none) : L.place a = .outside a := by
  rw [Layout.place, h]

/-- The state when an interrupt has arrived is that of the process, but for the address on the
stack. -/
theorem interrupted_arrived {timer : UInt8} {byte : Option UInt8} :
    interrupted (arrived s pc timer byte) = processOf s pc := by
  have hsp : s.sp - 2#16 + 2#16 = s.sp := by bv_omega
  have htop : (arrived s pc timer byte).top = pc := Cpu.top_pushWord
  rw [interrupted, htop]
  simp [processOf, arrived]

/-- The address that is put on the stack is the only thing that changes in RAM when an interrupt
arrives. -/
theorem arrived_ram {timer : UInt8} {byte : Option UInt8} :
    OffStack s.bus s.sp 2 (arrived s pc timer byte).bus.ram := OffStack.push

omit [DecidableEq ι] in
/-- What an interrupt leaves of the process that runs, when it goes on. -/
theorem Represents.clobbered {n : ℕ} (h : Represents L bankOf (s, pc) m)
    (hctx : processOf t pc' = processOf s pc) (hbanks : t.bus.banks = s.bus.banks)
    (hram : ∀ a, (∀ j < n, a ≠ s.sp - BitVec.ofNat 16 (j + 1)) →
      t.bus.ram (.bank ((bankOf m.current).toNat % s.bus.banks) a) =
        s.bus.ram (.bank ((bankOf m.current).toNat % s.bus.banks) a)) :
    (m.tasks m.current).Clobbered n (taskOf t pc' (bankOf m.current)) := by
  constructor
  case context => exact hctx.trans h.context.symm
  case memory =>
    intro a ha hoff _ _
    show t.bus.ram (.bank ((bankOf m.current).toNat % t.bus.banks) a) = _
    rw [hbanks, ← h.memory m.current a ha]
    refine hram a fun j hj => ?_
    have := hoff j hj
    rwa [h.context] at this

omit [DecidableEq ι] in
/-- The process that runs is not in the kernel. -/
theorem Represents.outside_current (h : Represents L bankOf (s, pc) m) : L.resolve pc = none := by
  have hout := h.outside m.current
  rwa [h.context] at hout

omit [DecidableEq ι] in
/-- The handler of a byte comes to its end, back at the process that runs. -/
theorem Represents.receive_reaches {v : κ} (h : Represents L bankOf (s, pc) m)
    (hroom : (processOf s pc).Room) (hdepth : depth ≤ 0x7000)
    (hput : ∀ u : KernelCpu κ, hi u.main.af = c → u.bus.vars = s.bus.vars →
      Returns limit depth u (native .terminalPut u) ∧ (native .terminalPut u).iy = u.iy ∧
        (native .terminalPut u).bus.vars = v) :
    ∃ t, Reaches L (.code (kernelCode sym .interruptHandler), arrived s pc s.bus.timer (some c))
        (.outside pc, t) ∧ Resumed (arrived s pc s.bus.timer (some c)) t ∧
      Disturbed limit (arrived s pc s.bus.timer (some c)).bus (s.sp - 2#16) (depth + 4) t.bus.ram ∧
        t.bus.vars = v := by
  let a := arrived s pc s.bus.timer (some c)
  obtain ⟨hlow, hhigh⟩ := hroom
  have hlow' : 0x8010#16 ≤ s.sp := hlow
  have hhigh' : s.sp ≤ 0xfffe#16 := hhigh
  -- the stack of a process is in its bank, where the functions in C have nothing
  have hkept : ∀ i < 4, Kept limit (a.bus.cell (a.sp - 2#16 + BitVec.ofNat 16 i)) := by
    intro i hi x hx
    have hsp : a.sp = s.sp - 2#16 := rfl
    have hcell : a.bus.cell (a.sp - 2#16 + BitVec.ofNat 16 i) = _ := h.cell (by bv_omega)
    rw [hcell] at hx
    cases hx
  obtain ⟨t, hreach, hres, hdist, hvars, -⟩ := interrupt_serial (L := L) (s := a) rfl
    (by omega) hput hkept
  have htop : a.top = pc := Cpu.top_pushWord
  rw [htop, place_outside h.outside_current] at hreach
  exact ⟨t, hreach, hres, hdist, hvars⟩

omit [DecidableEq ι] in
/-- The process that runs has its registers again behind the handler of a byte. -/
theorem Resumed.processOf_arrived {timer : UInt8} {byte : Option UInt8}
    (h : Resumed (arrived s pc timer byte) t) : processOf t pc = processOf s pc := by
  have hsp : s.sp - 2#16 + 2 = s.sp := BitVec.sub_add_cancel ..
  have hsp' : (arrived s pc timer byte).sp + 2 = s.sp := hsp
  rw [processOf, h.main, h.ix, h.iy, h.sp, hsp']
  rfl

/-- **A byte is received** while a process runs.

**Proof sketch.** The handler comes back to the process, and to no other end. It stores to the bank
of the process only, below its stack, so that the processes that wait keep what they had. -/
theorem Represents.receive {v : κ} (h : Represents L bankOf (s, pc) m)
    (hroom : (processOf s pc).Room) (hdepth : depth ≤ 0x7000)
    (hput : ∀ u : KernelCpu κ, hi u.main.af = c → u.bus.vars = s.bus.vars →
      Returns limit depth u (native .terminalPut u) ∧ (native .terminalPut u).iy = u.iy ∧
        (native .terminalPut u).bus.vars = v)
    (hreach : Reaches L (.code (kernelCode sym .interruptHandler),
      arrived s pc s.bus.timer (some c)) (.outside pc', t)) :
    (m.tasks m.current).Clobbered (depth + 6) (taskOf t pc' (bankOf m.current)) ∧
      Represents L bankOf (t, pc') { m with
        tasks := Function.update m.tasks m.current (taskOf t pc' (bankOf m.current))
        vars := v } := by
  let a := arrived s pc s.bus.timer (some c)
  obtain ⟨t₀, hreach₀, hres, hdist, hvars⟩ := h.receive_reaches hroom hdepth hput
  -- the handler comes to no other end
  obtain ⟨rfl, rfl⟩ := hreach.outside_unique hreach₀
  have hram : ∀ k w, (k = (bankOf m.current).toNat % s.bus.banks →
      ∀ j < depth + 6, w ≠ s.sp - BitVec.ofNat 16 (j + 1)) →
        t.bus.ram (.bank k w) = s.bus.ram (.bank k w) := by
    intro k w hkw
    rw [← h.bank] at hkw
    refine (hdist _ (fun _ hx => by cases hx) fun j hj => bank_ne_cellIn fun hk => ?_).trans
      (arrived_ram _ fun j hj => bank_ne_cellIn fun hk => hkw hk j (by omega))
    have hsub : s.sp - 2#16 - BitVec.ofNat 16 (j + 1) = s.sp - BitVec.ofNat 16 (j + 2 + 1) := by
      bv_omega
    rw [hsub]
    exact hkw hk (j + 2) (by omega)
  have huser : inKernel t = false := by
    have hstatus : t.bytes .currentStatus = s.bytes .currentStatus &&& 0b11111101 ||| 0b00000010 :=
      hres.status
    rw [← h.user]
    simp [inKernel, hstatus, flag]
  refine ⟨h.clobbered hres.processOf_arrived hres.banks fun w hw => hram _ w fun _ => hw, ?_⟩
  exact h.goesOn hres.banks hres.bank (fun i hi w => hram _ w fun hk => absurd (h.banks _ _ hk) hi)
    h.outside_current hvars huser

/-- The bank of the process that the machine goes on with has its registers. -/
theorem Represents.next (h : Represents L bankOf (s, pc) m) {timer : UInt8} {byte : Option UInt8} :
    Next (arrived s pc timer byte) (bankOf i) (m.tasks i).context := by
  have hcur : (arrived s pc timer byte).bus.bank = bankOf m.current := h.bank
  unfold Next
  rw [hcur]
  by_cases hi : i = m.current
  · rw [if_pos (by rw [hi]), hi, h.context, interrupted_arrived]
  · have hne : ¬ (bankOf i).toNat % (arrived s pc timer byte).bus.banks =
        (bankOf m.current).toNat % (arrived s pc timer byte).bus.banks :=
      fun heq => hi (h.banks _ _ heq)
    rw [if_neg hne]
    refine ⟨h.waiting_congr hi rfl fun a _ => ?_, (h.waiting i hi).2⟩
    exact arrived_ram _ fun j _ => bank_ne_cellIn fun hk => by
      rw [h.bank] at hk
      exact absurd (h.banks _ _ hk) hi

omit [DecidableEq ι] in
/-- A process that goes on, or a handler of it, is outside of the kernel. -/
theorem Represents.outside_resumed {handler : Word} (h : Represents L bankOf (s, pc) m)
    (hhandler : handler = 0#16 ∨ L.resolve handler = none) :
    L.resolve ((m.tasks i).context.resumed handler).pc = none := by
  unfold Context.resumed
  split_ifs with h0
  · exact h.outside i
  · exact hhandler.resolve_left h0

/-- The handler of a tick comes to its end, at the process that the tick chooses. -/
theorem Represents.tick_reaches {v : κ} {handler : Word} (h : Represents L bankOf (s, pc) m)
    (hroom : (processOf s pc).Room) (hdepth : depth ≤ 0x7000) (hlimit : limit ≤ 0x7ffc#16)
    (hchooses : Chooses native limit depth s.bus.vars (bankOf i) handler v)
    (hhandler : handler = 0#16 ∨ L.resolve handler = none) :
    ∃ t, Reaches L (.code (kernelCode sym .interruptHandler), arrived s pc 1 none)
        (.outside ((m.tasks i).context.resumed handler).pc, t) ∧
      Switched limit depth (arrived s pc 1 none) t (bankOf i)
        ((m.tasks i).context.resumed handler) v := by
  have huser : inKernel (arrived s pc 1 none) = false := h.user
  obtain ⟨t, hreach, hswitch⟩ := interrupt_tick (L := L) (s := arrived s pc 1 none) rfl rfl huser
    (by rw [interrupted_arrived]; exact hroom) hchooses (h.next (i := i)) hdepth hlimit
  rw [place_outside (h.outside_resumed hhandler)] at hreach
  exact ⟨t, hreach, hswitch⟩

/-- The handler of a tick comes to no other end. -/
theorem Represents.tick_switched {v : κ} {handler : Word} (h : Represents L bankOf (s, pc) m)
    (hroom : (processOf s pc).Room) (hdepth : depth ≤ 0x7000) (hlimit : limit ≤ 0x7ffc#16)
    (hchooses : Chooses native limit depth s.bus.vars (bankOf i) handler v)
    (hhandler : handler = 0#16 ∨ L.resolve handler = none)
    (hreach : Reaches L (.code (kernelCode sym .interruptHandler), arrived s pc 1 none)
      (.outside pc', t)) :
    pc' = ((m.tasks i).context.resumed handler).pc ∧
      Switched limit depth (arrived s pc 1 none) t (bankOf i)
        ((m.tasks i).context.resumed handler) v := by
  obtain ⟨t₀, hreach₀, hswitch⟩ := h.tick_reaches hroom hdepth hlimit hchooses hhandler
  obtain ⟨rfl, rfl⟩ := hreach.outside_unique hreach₀
  exact ⟨rfl, hswitch⟩

/-- A process with the memory that its bank has. -/
def Task.inBank (x : Task) (t : KernelCpu κ) (bank : UInt8) : Task where
  context := x.context
  memory := memoryOf t bank

omit [DecidableEq ι] in
/-- A tick changes a bank below the stack of its process only, and at the end of the bank that it
leaves. -/
theorem Represents.tick_ram {v : κ} {handler : Word} (h : Represents L bankOf (s, pc) m)
    (hswitch : Switched limit depth (arrived s pc 1 none) t (bankOf i)
      ((m.tasks i).context.resumed handler) v) {k : ι} {a : Word}
    (hoff : k = m.current ∨ k = i → ∀ j < 16,
      a ≠ (m.tasks k).context.sp - BitVec.ofNat 16 (j + 1))
    (hend : k = m.current → a ≠ 0xfffe#16 ∧ a ≠ 0xffff#16) :
    memoryOf t (bankOf k) a = s.bus.ram (.bank ((bankOf k).toNat % s.bus.banks) a) := by
  have hbanks : t.bus.banks = s.bus.banks := hswitch.banks
  have harrived : (arrived s pc 1 none).bus.bank = bankOf m.current := h.bank
  rw [memoryOf, hbanks]
  refine (hswitch.ram_bank ?_ ?_).trans (arrived_ram _ fun j hj => bank_ne_cellIn fun hk => ?_)
  · intro hk
    rw [harrived] at hk
    obtain rfl : k = m.current := h.banks _ _ hk
    rw [interrupted_arrived, ← h.context]
    exact ⟨hoff (.inl rfl), hend rfl⟩
  · intro hk
    obtain rfl : k = i := h.banks _ _ hk
    rw [Context.resumed_sp]
    exact hoff (.inr rfl)
  · rw [h.bank] at hk
    obtain rfl : k = m.current := h.banks _ _ hk
    have := hoff (.inl rfl) j (by omega)
    rwa [h.context] at this

omit [DecidableEq ι] in
/-- What a tick leaves of the process that has been running. -/
theorem Represents.tick_left {v : κ} {handler : Word} (h : Represents L bankOf (s, pc) m)
    (hswitch : Switched limit depth (arrived s pc 1 none) t (bankOf i)
      ((m.tasks i).context.resumed handler) v) :
    (m.tasks m.current).Clobbered 16 ((m.tasks m.current).inBank t (bankOf m.current)) := by
  constructor
  case context => rfl
  case memory =>
    intro a ha hoff h0 h1
    rw [← h.memory m.current a ha]
    exact h.tick_ram hswitch (fun _ => hoff) fun _ => ⟨h0, h1⟩

/-- What it leaves of the process that goes on. -/
theorem Represents.tick_entered {v : κ} {handler : Word} (h : Represents L bankOf (s, pc) m)
    (hswitch : Switched limit depth (arrived s pc 1 none) t (bankOf i)
      ((m.tasks i).context.resumed handler) v) :
    (Function.update m.tasks m.current
      ((m.tasks m.current).inBank t (bankOf m.current)) i).Clobbered
      16 ((m.tasks i).inBank t (bankOf i)) := by
  by_cases hi : i = m.current
  · subst hi
    rw [Function.update_self]
    exact ⟨rfl, fun _ _ _ _ _ => rfl⟩
  · rw [Function.update_of_ne hi]
    constructor
    case context => rfl
    case memory =>
      intro a ha hoff _ _
      rw [← h.memory i a ha]
      exact h.tick_ram hswitch (fun _ => hoff) fun hcur => absurd hcur hi

/-- The bank of a process that does not go on has its registers, also if it has just been left. -/
theorem Represents.tick_waiting {v : κ} {handler : Word} (h : Represents L bankOf (s, pc) m)
    (hroom : (processOf s pc).Room)
    (hswitch : Switched limit depth (arrived s pc 1 none) t (bankOf i)
      ((m.tasks i).context.resumed handler) v) {k : ι} (hk : k ≠ i) :
    Saved { t.bus with bank := bankOf k } (m.tasks k).context ∧ (m.tasks k).context.Room := by
  have hbanks : t.bus.banks = s.bus.banks := hswitch.banks
  have harrived : (arrived s pc 1 none).bus.bank = bankOf m.current := h.bank
  by_cases hk' : k = m.current
  · subst hk'
    have hne : (bankOf i).toNat % (arrived s pc 1 none).bus.banks ≠
        (arrived s pc 1 none).bus.bank.toNat % (arrived s pc 1 none).bus.banks := by
      intro heq
      rw [harrived] at heq
      exact hk (h.banks _ _ heq).symm
    have hsaved := hswitch.saved hne
    rw [interrupted_arrived, ← h.context, harrived] at hsaved
    exact ⟨hsaved, h.context ▸ hroom⟩
  · refine ⟨h.waiting_congr hk' hbanks fun a _ => ?_, (h.waiting k hk').2⟩
    rw [← h.tick_ram hswitch (fun hor => absurd hor (by simp [hk, hk'])) fun hc => absurd hc hk',
      memoryOf, hbanks]

/-- The processes after a tick.

**Proof sketch.** A process is the one that goes on, the one that has been interrupted, or another
one. The first has its registers in the processor, the second on its stack, where they have just
been saved, and the third in its bank, which the tick does not change
(`Represents.tick_waiting`). -/
theorem Represents.switched {v : κ} {handler : Word} (h : Represents L bankOf (s, pc) m)
    (hroom : (processOf s pc).Room) (hhandler : handler = 0#16 ∨ L.resolve handler = none)
    (hswitch : Switched limit depth (arrived s pc 1 none) t (bankOf i)
      ((m.tasks i).context.resumed handler) v) :
    Represents L bankOf (t, ((m.tasks i).context.resumed handler).pc)
      { tasks := Function.update
          (Function.update m.tasks m.current ((m.tasks m.current).inBank t (bankOf m.current))) i
          { (m.tasks i).inBank t (bankOf i) with context := (m.tasks i).context.resumed handler }
        current := i
        vars := v } := by
  constructor
  case context =>
    simp only [Function.update_self]
    rw [processOf, hswitch.main, hswitch.ix, hswitch.iy, hswitch.sp]
  case memory =>
    intro k a ha
    by_cases hk : k = i
    · subst hk
      simp [Task.inBank, memoryOf]
    · simp only [Function.update_of_ne hk]
      by_cases hk' : k = m.current
      · subst hk'
        simp [Task.inBank, memoryOf]
      · rw [Function.update_of_ne hk', ← h.memory k a ha]
        exact h.tick_ram hswitch (fun hor => absurd hor (by simp [hk, hk'])) fun hc => absurd hc hk'
  case bank => exact hswitch.selected
  case banks =>
    show ∀ i j, (bankOf i).toNat % t.bus.banks = (bankOf j).toNat % t.bus.banks → i = j
    rw [show t.bus.banks = s.bus.banks from hswitch.banks]
    exact h.banks
  case waiting =>
    intro k hk
    simp only [Function.update_of_ne hk]
    by_cases hk' : k = m.current
    · subst hk'
      rw [Function.update_self]
      exact h.tick_waiting hroom hswitch hk
    · rw [Function.update_of_ne hk']
      exact h.tick_waiting hroom hswitch hk
  case outside =>
    intro k
    by_cases hk : k = i
    · subst hk
      simpa using h.outside_resumed hhandler
    · simp only [Function.update_of_ne hk]
      by_cases hk' : k = m.current
      · subst hk'
        simpa [Task.inBank] using h.outside m.current
      · simpa [Function.update_of_ne hk'] using h.outside k
  case vars => exact hswitch.vars
  case user =>
    have hstatus : t.bytes .currentStatus =
        s.bytes .currentStatus &&& 0b11111101 ||| 0b00000010 := hswitch.status
    rw [← h.user]
    simp [inKernel, hstatus, flag]

/-- **A tick** while a process runs. -/
theorem Represents.tick {v : κ} {handler : Word} (h : Represents L bankOf (s, pc) m)
    (hroom : (processOf s pc).Room) (hdepth : depth ≤ 0x7000) (hlimit : limit ≤ 0x7ffc#16)
    (hchooses : Chooses native limit depth s.bus.vars (bankOf i) handler v)
    (hhandler : handler = 0#16 ∨ L.resolve handler = none)
    (hreach : Reaches L (.code (kernelCode sym .interruptHandler), arrived s pc 1 none)
      (.outside pc', t)) :
    ∃ x y, (m.tasks m.current).Clobbered 16 x ∧
      (Function.update m.tasks m.current x i).Clobbered 16 y ∧
        Represents L bankOf (t, pc')
          { tasks := Function.update (Function.update m.tasks m.current x) i
              { y with context := y.context.resumed handler }
            current := i
            vars := v } := by
  obtain ⟨rfl, hswitch⟩ := h.tick_switched hroom hdepth hlimit hchooses hhandler hreach
  exact ⟨_, _, h.tick_left hswitch, h.tick_entered hswitch, h.switched hroom hhandler hswitch⟩

/-- The functions in C do to the variables of the kernel what the given functions say. -/
structure Implements (native : CFunction → KernelCpu κ → KernelCpu κ) (limit : Word) (depth : ℕ)
    (bankOf : ι → UInt8) (put : κ → UInt8 → Option κ) (choice : κ → Option (ι × Word × κ)) :
    Prop where
  put : ∀ (v : κ) (c : UInt8) (v' : κ), put v c = some v' →
    ∀ u : KernelCpu κ, hi u.main.af = c → u.bus.vars = v →
      Returns limit depth u (native .terminalPut u) ∧ (native .terminalPut u).iy = u.iy ∧
        (native .terminalPut u).bus.vars = v'
  choose : ∀ (v : κ) (i : ι) (handler : Word) (v' : κ), choice v = some (i, handler, v') →
    Chooses native limit depth v (bankOf i) handler v'

variable {z z' : KernelCpu κ × Word} {e : Event ι} {es : List (Event ι)}

/-- **The machine follows each step of the processor.** -/
theorem Represents.step (h : Represents L bankOf z m)
    (hn : Implements native limit depth bankOf put choice) (hdepth : depth ≤ 0x7000)
    (hlimit : limit ≤ 0x7ffc#16) (hs : CpuStep L put choice z e z') :
    ∃ m', Machine.Step put choice depth m e m' ∧ Represents L bankOf z' m' := by
  cases hs with
  | run hs hpc => exact ⟨_, .run _, h.run hs hpc⟩
  | receive hroom hput hreach =>
    obtain ⟨hclobbered, hrep⟩ := h.receive hroom hdepth (hn.put _ _ _ hput) hreach
    exact ⟨_, .receive (h.vars ▸ hput) hclobbered, hrep⟩
  | tick hroom hchoice hhandler hreach =>
    obtain ⟨x, y, hx, hy, hrep⟩ := h.tick hroom hdepth hlimit (hn.choose _ _ _ _ hchoice) hhandler
      hreach
    exact ⟨_, .tick (h.vars ▸ hchoice) hx hy, hrep⟩

omit [DecidableEq ι] in
/-- **A byte that arrives is handled**: the processor gets back to the process that runs. -/
theorem Represents.exists_receive {v : κ} (h : Represents L bankOf (s, pc) m)
    (hn : Implements native limit depth bankOf put choice) (hdepth : depth ≤ 0x7000)
    (hroom : (processOf s pc).Room) (hput : put s.bus.vars c = some v) :
    ∃ t, CpuStep L put choice (s, pc) (.receive c) (t, pc) ∧ processOf t pc = processOf s pc ∧
      t.bus.vars = v := by
  obtain ⟨t, hreach, hres, -, hvars⟩ := h.receive_reaches hroom hdepth (hn.put _ _ _ hput)
  exact ⟨t, .receive hroom hput hreach, hres.processOf_arrived, hvars⟩

/-- **A tick that arrives is handled**: the processor gets to the process that is chosen, or to its
handler. -/
theorem Represents.exists_tick {v : κ} {handler : Word} (h : Represents L bankOf (s, pc) m)
    (hn : Implements native limit depth bankOf put choice) (hdepth : depth ≤ 0x7000)
    (hlimit : limit ≤ 0x7ffc#16) (hroom : (processOf s pc).Room)
    (hchoice : choice s.bus.vars = some (i, handler, v))
    (hhandler : handler = 0#16 ∨ L.resolve handler = none) :
    ∃ t, CpuStep L put choice (s, pc) (.tick i) (t, ((m.tasks i).context.resumed handler).pc) := by
  obtain ⟨t, hreach, -⟩ := h.tick_reaches hroom hdepth hlimit (hn.choose _ _ _ _ hchoice) hhandler
  exact ⟨t, .tick hroom hchoice hhandler hreach⟩

/-- **The machine follows the processor**, in whatever order processes run and interrupts arrive.

**Proof sketch.** Each step of the processor is one of the machine (`Represents.step`), and so are
all of them. -/
theorem represents_of_trace (h : Represents L bankOf z m)
    (hn : Implements native limit depth bankOf put choice) (hdepth : depth ≤ 0x7000)
    (hlimit : limit ≤ 0x7ffc#16) (htrace : Trace (CpuStep L put choice) z es z') :
    ∃ m', Trace (Machine.Step put choice depth) m es m' ∧ Represents L bankOf z' m' :=
  htrace.simulate (fun _ _ _ _ hR hs => hR.step hn hdepth hlimit hs) h

/-! ## Two processes -/

/-- The bank of each of two processes. -/
def bankOfTwo (second : Bool) : UInt8 := if second then 1 else 0

/-- The second of two processes, when it waits. -/
def waitingContext : Context where
  main := ⟨0, 0, 0, 0⟩
  ix := 0
  iy := 0
  sp := 0xf00e
  pc := 0x9000

/-- Functions in C that always choose the second process. -/
def secondC (f : CFunction) (s : KernelCpu Unit) : KernelCpu Unit :=
  match f with
  | .schedulerTick => s.setAf 0x0100
  | .signalGetHandler => s.setDe 0
  | _ => s

/-- The first process runs, and the second one waits. -/
def firstRuns : KernelCpu Unit :=
  restingCpu (memoryWith [(.bank 1 0xffff, 0xf0), (.bank 1 0xf00d, 0x90)]) ⟨1, 2, 3, 4⟩ 0xe000

/-- The machine that it stands for. -/
def firstRunsMachine : Machine Bool Unit where
  tasks second :=
    if second then ⟨waitingContext, memoryOf firstRuns 1⟩ else taskOf firstRuns 0x8000 0
  current := false
  vars := ()

/-- The state of the processor stands for the machine in which the first process runs. -/
theorem represents_firstRuns : Represents (kernelLayout someSymbols secondC) bankOfTwo
    (firstRuns, 0x8000) firstRunsMachine := by
  constructor
  case context => rfl
  case memory =>
    intro second a _
    cases second <;> rfl
  case bank => rfl
  case banks => decide
  case waiting =>
    intro second h
    cases second with
    | false => exact absurd rfl h
    | true => exact ⟨⟨by decide, by decide, by decide, by decide, by decide, by decide, by decide,
        by decide, trivial⟩, by decide, by decide⟩
  case outside =>
    intro second
    cases second <;> exact kernelLayout_resolve (by decide)
  case vars => rfl
  case user => rfl

/-- The functions always choose the second process, and nothing is done with bytes. -/
theorem implements_secondC : Implements secondC 0x7000 0 bankOfTwo (fun _ _ => some ())
    (fun _ => some (true, 0, ())) where
  put := fun _ _ _ _ u _ _ =>
    ⟨⟨rfl, rfl, rfl, rfl, rfl, rfl, rfl, fun _ _ _ => rfl⟩, rfl, rfl⟩
  choose := by
    rintro _ second handler _ h
    obtain ⟨rfl, rfl⟩ : true = second ∧ 0#16 = handler := by simpa using h
    have htick : hi (0x0100#16 : Word) = bankOfTwo true := by decide
    exact ⟨(), fun u _ => ⟨⟨rfl, rfl, rfl, rfl, rfl, rfl, rfl, fun _ _ _ => rfl⟩, htick, rfl⟩,
      fun u _ => ⟨⟨rfl, rfl, rfl, rfl, rfl, rfl, rfl, fun _ _ _ => rfl⟩, rfl, rfl⟩⟩

/-- The first process has done something. -/
def firstWent : KernelCpu Unit := { firstRuns with main := ⟨9, 2, 3, 4⟩ }

/-- The first process changes a register and goes on. -/
theorem firstRuns_step : CpuStep (kernelLayout someSymbols secondC) (fun _ _ => some ())
    (fun _ => some (true, 0, ())) (firstRuns, 0x8000) .run (firstWent, 0x8002) :=
  .run ⟨rfl, rfl, rfl, fun _ _ => rfl⟩ (kernelLayout_resolve (a := 0x8002) (by decide))

/-- The first process goes on, is interrupted by a byte and then by a tick, which makes the second
process run. -/
theorem firstRuns_interrupted : ∃ z z', Trace (CpuStep (kernelLayout someSymbols secondC)
    (fun _ _ => some ()) (fun _ => some (true, 0, ()))) (firstRuns, 0x8000) [.run, .receive 65] z ∧
      CpuStep (kernelLayout someSymbols secondC) (fun _ _ => some ())
        (fun _ => some (true, 0, ())) z (.tick true) z' := by
  have hroom : (processOf firstWent 0x8002).Room :=
    ⟨show 0x8010#16 ≤ 0xe000#16 by decide, show 0xe000#16 ≤ 0xfffe#16 by decide⟩
  obtain ⟨m₁, -, hrep₁⟩ := represents_firstRuns.step implements_secondC (Nat.zero_le _) (by decide)
    firstRuns_step
  obtain ⟨t, hreceive, hctx, -⟩ := hrep₁.exists_receive (c := 65) implements_secondC (Nat.zero_le _)
    hroom rfl
  obtain ⟨m₂, -, hrep₂⟩ := hrep₁.step implements_secondC (Nat.zero_le _) (by decide) hreceive
  obtain ⟨t', htick⟩ := hrep₂.exists_tick implements_secondC (Nat.zero_le _) (by decide)
    (hctx ▸ hroom) rfl (.inl rfl)
  exact ⟨_, _, .cons firstRuns_step (.cons hreceive .nil), htick⟩

/-- The machine follows the processor while the first process runs and a byte and a tick arrive. -/
theorem represents_of_trace_firstRuns : ∃ z', Trace (CpuStep (kernelLayout someSymbols secondC)
    (fun _ _ => some ()) (fun _ => some (true, 0, ()))) (firstRuns, 0x8000)
      [.run, .receive 65, .tick true] z' ∧
    ∃ m', Trace (Machine.Step (fun _ _ => some ()) (fun _ => some (true, 0, ())) 0) firstRunsMachine
        [.run, .receive 65, .tick true] m' ∧
      Represents (kernelLayout someSymbols secondC) bankOfTwo z' m' := by
  obtain ⟨z, z', htrace, htick⟩ := firstRuns_interrupted
  have htrace' := htrace.append (.cons htick .nil)
  exact ⟨z', htrace', represents_of_trace represents_firstRuns implements_secondC (Nat.zero_le _)
    (by decide) htrace'⟩

/-- **A process that waits** keeps its memory and its registers until a tick makes it run. Then it
goes on where it was, or at a handler.

**Proof sketch.** The machine follows the processor along the run, and there the process has not
changed (`Machine.waiting_of_trace`). Its memory is the one of its bank. A tick for it is one of the
machine as well, and the processor has the registers of the process that the machine goes on
with. -/
theorem waiting_resumes (h : Represents L bankOf z m)
    (hn : Implements native limit depth bankOf put choice) (hdepth : depth ≤ 0x7000)
    (hlimit : limit ≤ 0x7ffc#16) (hi : i ≠ m.current)
    (htrace : Trace (CpuStep L put choice) z es z') (hes : .tick i ∉ es) :
    (∀ a, 0x8000#16 ≤ a → memoryOf z'.1 (bankOf i) a = memoryOf z.1 (bankOf i) a) ∧
      ∀ z'', CpuStep L put choice z' (.tick i) z'' → ∃ handler,
        processOf z''.1 z''.2 = (m.tasks i).context.resumed handler ∧
          (m.tasks i).Clobbered 16
            { context := (m.tasks i).context, memory := memoryOf z''.1 (bankOf i) } := by
  obtain ⟨m', hm', hrep⟩ : ∃ m', Trace (Machine.Step put choice depth) m es m' ∧
      Represents L bankOf z' m' :=
        htrace.simulate (fun _ _ _ _ hR hs => hR.step hn hdepth hlimit hs) h
  obtain ⟨hcur, htask⟩ := Machine.waiting_of_trace hm' hi hes
  refine ⟨fun a ha => ?_, fun z'' hs => ?_⟩
  · rw [memoryOf, memoryOf, hrep.memory i a ha, h.memory i a ha, htask]
  · obtain ⟨m'', hm'', hrep'⟩ := hrep.step hn hdepth hlimit hs
    cases hm'' with
    | @tick _ handler v x y hchoice hx hy =>
      rw [Function.update_of_ne hcur, htask] at hy
      have hctx := hrep'.context
      simp only [Function.update_self, hy.context] at hctx
      refine ⟨handler, hctx.symm, rfl, fun a ha hoff h0 h1 => ?_⟩
      have hmem := hrep'.memory i a ha
      simp only [Function.update_self] at hmem
      exact hmem.trans (hy.memory a ha hoff h0 h1)

/-- The second process waits while the first one runs and a byte arrives, and the tick that follows
makes it run. -/
theorem waiting_resumes_second : ∃ z z', Trace (CpuStep (kernelLayout someSymbols secondC)
    (fun _ _ => some ()) (fun _ => some (true, 0, ()))) (firstRuns, 0x8000) [.run, .receive 65] z ∧
    CpuStep (kernelLayout someSymbols secondC) (fun _ _ => some ())
      (fun _ => some (true, 0, ())) z (.tick true) z' ∧
    (∀ a, 0x8000#16 ≤ a → memoryOf z.1 1 a = memoryOf firstRuns 1 a) ∧
      ∃ handler, processOf z'.1 z'.2 = waitingContext.resumed handler ∧
        Task.Clobbered 16 ⟨waitingContext, memoryOf firstRuns 1⟩
          { context := waitingContext, memory := memoryOf z'.1 1 } := by
  obtain ⟨z, z', htrace, htick⟩ := firstRuns_interrupted
  obtain ⟨hmemory, hresumes⟩ := waiting_resumes (i := true) represents_firstRuns implements_secondC
    (Nat.zero_le _) (by decide) (by decide) htrace (by simp)
  exact ⟨z, z', htrace, htick, hmemory, hresumes z' htick⟩

end

end Z80OS.Asm
