import Z80OS.Asm.Preemption
import Z80OS.Kernel.Signals
import Z80OS.Lib.Run

set_option relaxedAutoImplicit false
set_option autoImplicit false

/-!
# The kernel behind the interrupt handler

The variables of the functions in C are those of the kernel, and the functions do to them what the
model of the kernel says. Then what happens to the kernel, while processes run and interrupts arrive
in any order, is a run of the calls for the bytes and the ticks. The process that the processor is
at is always the one that the kernel takes for the current one.

## Main definitions

* `Z80OS.Asm.Compiled` — the functions in C do what the kernel does.
* `Z80OS.Asm.systemChoice` — the process and the handler that a tick chooses.

## Main results

* `Z80OS.Asm.Compiled.implements` — these functions do what the interrupt handler relies on.
* `Z80OS.Asm.system_of_trace` — the kernel and the processor stay in step.
-/

namespace Z80OS.Asm

open Z80

/-- The functions in C do to the variables of the kernel what its model says. They may use some
bytes below their stack, and the one for received bytes must not use `IY`. -/
structure Compiled (native : CFunction → KernelCpu System → KernelCpu System) (limit : Word)
    (depth : ℕ) : Prop where
  put : ∀ (v : System) (c : UInt8) (v' : System), terminalPut v c = some v' →
    ∀ u : KernelCpu System, hi u.main.af = c → u.bus.vars = v →
      Returns limit depth u (native .terminalPut u) ∧ (native .terminalPut u).iy = u.iy ∧
        (native .terminalPut u).bus.vars = v'
  tick : ∀ (v : System) (bank : UInt8) (k : Kernel), schedulerTick v.kernel = some (bank, k) →
    ∀ u : KernelCpu System, u.bus.vars = v →
      Returns limit depth u (native .schedulerTick u) ∧
        hi (native .schedulerTick u).main.af = bank ∧
          (native .schedulerTick u).bus.vars = v.withKernel k
  signal : ∀ (v : System) (handler : ℕ) (v' : System), signalGetHandler v = some (handler, v') →
    ∀ u : KernelCpu System, u.bus.vars = v →
      Returns limit depth u (native .signalGetHandler u) ∧
        (native .signalGetHandler u).main.de = BitVec.ofNat 16 handler ∧
          (native .signalGetHandler u).bus.vars = v'

/-! ## The choice of a process -/

/-- The processes that are loaded. -/
abbrev Live (live : Fin procsMax → Bool) := { i : Fin procsMax // live i = true }

variable {live : Fin procsMax → Bool} {bankOf : Fin procsMax → UInt8} {v v' : System} {n depth : ℕ}
  {limit handler : Word} {i : Fin procsMax} {c : UInt8}

/-- The process table has the given banks. -/
def Banked (bankOf : Fin procsMax → UInt8) (v : System) : Prop := ∀ i, (v.process i).bank = bankOf i

instance : Decidable (Banked bankOf v) := inferInstanceAs (Decidable (∀ _, _))

/-- What a tick chooses: one of the processes that are loaded, and a handler of it or zero. The
process table has the given banks as long as no process is loaded. -/
def systemChoice (live : Fin procsMax → Bool) (bankOf : Fin procsMax → UInt8) (v : System) :
    Option (Live live × Word × System) :=
  (timerHandler v).bind fun r => (processCurrent r.2).bind fun i =>
    if h : live i = true ∧ Banked bankOf v then some (⟨i, h.1⟩, BitVec.ofNat 16 r.1, r.2) else none

/-- A look for a signal leaves the current process, and the banks. -/
theorem signalGetHandler_current (h : signalGetHandler v = some (n, v')) :
    processCurrent v' = processCurrent v ∧ ∀ i, (v'.process i).bank = (v.process i).bank := by
  unfold signalGetHandler at h
  simp only [Option.map_eq_some_iff] at h
  obtain ⟨i, -, h⟩ := h
  split_ifs at h <;> rw [Prod.mk.injEq] at h <;> obtain ⟨-, rfl⟩ := h
  · exact ⟨rfl, fun _ => rfl⟩
  · refine ⟨rfl, fun j => ?_⟩
    rw [process_setProcess]
    split_ifs with hj
    · rw [hj]
    · rfl
  · exact ⟨rfl, fun _ => rfl⟩

/-- A tick chooses a process, and then looks for a signal. -/
theorem timerHandler_parts (h : timerHandler v = some (n, v')) : ∃ k i,
    schedulerTick v.kernel = some ((v.process i).bank, k) ∧
      signalGetHandler (v.withKernel k) = some (n, v') ∧ processCurrent v' = some i ∧
        ∀ j, (v'.process j).bank = (v.process j).bank := by
  unfold timerHandler at h
  cases htick : schedulerTick v.kernel with
  | none => simp [htick] at h
  | some r =>
    obtain ⟨bank, k⟩ := r
    obtain ⟨htable, i, hcur, rfl⟩ := schedulerTick_current htick
    simp only [htick] at h
    obtain ⟨hcur', hbank⟩ := signalGetHandler_current h
    refine ⟨k, i, rfl, h, hcur'.trans hcur, fun j => (hbank j).trans ?_⟩
    show (k.processTable j).bank = _
    rw [htable]
    rfl

/-- A byte leaves the current process, and the banks. -/
theorem terminalPut_current (h : terminalPut v c = some v') :
    processCurrent v' = processCurrent v ∧ ∀ i, (v'.process i).bank = (v.process i).bank := by
  cases terminalPut_cases h with
  | stored => exact ⟨rfl, fun _ => rfl⟩
  | @withheld i =>
    refine ⟨rfl, fun j => ?_⟩
    rw [process_setProcess]
    split_ifs with hj
    · rw [hj]
    · rfl

/-- What a tick chooses is what the model of the kernel says, and is the current process then. -/
theorem systemChoice_eq {x : Live live} (h : systemChoice live bankOf v = some (x, handler, v')) :
    ∃ n, timerHandler v = some (n, v') ∧ handler = BitVec.ofNat 16 n ∧
      processCurrent v' = some x.1 ∧ Banked bankOf v := by
  unfold systemChoice at h
  simp only [Option.bind_eq_some_iff] at h
  obtain ⟨⟨n, v''⟩, htick, i, hcur, h⟩ := h
  split_ifs at h with hlive
  simp only [Option.some.injEq, Prod.mk.injEq] at h
  obtain ⟨rfl, rfl, rfl⟩ := h
  exact ⟨n, htick, rfl, hcur, hlive.2⟩

variable {native : CFunction → KernelCpu System → KernelCpu System}

/-- **The functions in C** do what the interrupt handler relies on. -/
theorem Compiled.implements (h : Compiled native limit depth) :
    Implements native limit depth (fun x : Live live => bankOf x.1) terminalPut
      (systemChoice live bankOf) where
  put := h.put
  choose := by
    intro v x handler v' hchoice
    obtain ⟨n, htick, rfl, hcur, hbanked⟩ := systemChoice_eq hchoice
    obtain ⟨k, i, hbank, hsignal, hcur', -⟩ := timerHandler_parts htick
    obtain rfl : i = x.1 := Option.some.inj (hcur'.symm.trans hcur)
    rw [hbanked] at hbank
    exact ⟨v.withKernel k, fun u hu => h.tick v _ k hbank u hu,
      fun u hu => h.signal _ n v' hsignal u hu⟩

/-! ## The kernel and the processor -/

/-- The call of the kernel that something that happens is. -/
def Event.systemCall? {ι : Type} : Event ι → Option SystemCall
  | .run => none
  | .receive c => some (.put c)
  | .tick _ => some .tick

/-- The kernel's variables after a step of the machine. -/
theorem Machine.Step.systemCall {m m' : Machine (Live live) System} {e : Event (Live live)}
    (h : Machine.Step terminalPut (systemChoice live bankOf) depth m e m')
    (hcur : processCurrent m.vars = some m.current.1) (hbanked : Banked bankOf m.vars) :
    (match e.systemCall? with
      | none => m'.vars = m.vars
      | some a => ∃ r, Z80OS.systemCall m.vars a = some (r, m'.vars)) ∧
      processCurrent m'.vars = some m'.current.1 ∧ Banked bankOf m'.vars := by
  cases h with
  | run => exact ⟨rfl, hcur, hbanked⟩
  | receive hput =>
    obtain ⟨hcur', hbank⟩ := terminalPut_current hput
    refine ⟨⟨.done, ?_⟩, hcur'.trans hcur, fun j => (hbank j).trans (hbanked j)⟩
    simp [Z80OS.systemCall, hput]
  | tick hchoice =>
    obtain ⟨n, htick, -, hcur', -⟩ := systemChoice_eq hchoice
    obtain ⟨k, i, -, -, -, hbank⟩ := timerHandler_parts htick
    refine ⟨⟨.handler n, ?_⟩, hcur', fun j => (hbank j).trans (hbanked j)⟩
    simp [Z80OS.systemCall, htick]

/-- **The kernel's variables after a trace** are those after the calls in it. -/
theorem Machine.systemCalls {m m' : Machine (Live live) System} {es : List (Event (Live live))}
    (h : Trace (Machine.Step terminalPut (systemChoice live bankOf) depth) m es m')
    (hcur : processCurrent m.vars = some m.current.1) (hbanked : Banked bankOf m.vars) :
    (∃ answers, Run.exec Z80OS.systemCall m.vars (es.filterMap Event.systemCall?) =
      some (answers, m'.vars)) ∧ processCurrent m'.vars = some m'.current.1 ∧
        Banked bankOf m'.vars := by
  induction h with
  | nil => exact ⟨⟨[], rfl⟩, hcur, hbanked⟩
  | @cons m m₁ m' e es hstep _ ih =>
    obtain ⟨hcall, hcur₁, hbanked₁⟩ := hstep.systemCall hcur hbanked
    obtain ⟨⟨answers, hrun⟩, hend⟩ := ih hcur₁ hbanked₁
    refine ⟨?_, hend⟩
    cases he : e.systemCall? with
    | none =>
      rw [he] at hcall
      rw [List.filterMap_cons_none he, ← hcall]
      exact ⟨answers, hrun⟩
    | some a =>
      rw [he] at hcall
      obtain ⟨r, hr⟩ := hcall
      rw [List.filterMap_cons_some he]
      exact ⟨r :: answers, by simp [Run.exec, hr, hrun]⟩

variable {sym : Symbols} {L : Layout (kernel sym native)} {z z' : KernelCpu System × Word}
  {m : Machine (Live live) System} {es : List (Event (Live live))}

/-- **The kernel and the processor stay in step**, in whatever order processes run, bytes are
received and ticks come. The kernel's variables are those after a run of the calls for the bytes and
the ticks, and the processor is at the process, and has its bank selected, that is the current one
for the kernel.

**Proof sketch.** The machine follows the processor (`Represents.step`), with the compiled functions
for what happens to its variables. A trace of the machine is a run of the calls for its events, and
these keep the current process in step with the one that runs (`Machine.systemCalls`). -/
theorem system_of_trace (h : Represents L (fun x : Live live => bankOf x.1) z m)
    (hn : Compiled native limit depth) (hdepth : depth ≤ 0x7000) (hlimit : limit ≤ 0x7ffc#16)
    (hcur : processCurrent z.1.bus.vars = some m.current.1) (hbanked : Banked bankOf z.1.bus.vars)
    (htrace : Trace (CpuStep L terminalPut (systemChoice live bankOf)) z es z') :
    (∃ answers, Run.exec Z80OS.systemCall z.1.bus.vars (es.filterMap Event.systemCall?) =
      some (answers, z'.1.bus.vars)) ∧
    ∃ m', Represents L (fun x : Live live => bankOf x.1) z' m' ∧
      processCurrent z'.1.bus.vars = some m'.current.1 ∧
        (z'.1.bus.vars.process m'.current.1).bank = z'.1.bus.bank := by
  obtain ⟨m', hm', hrep⟩ : ∃ m', Trace (Machine.Step terminalPut (systemChoice live bankOf) depth)
      m es m' ∧ Represents L (fun x : Live live => bankOf x.1) z' m' :=
    htrace.simulate (fun _ _ _ _ hR hs => hR.step hn.implements hdepth hlimit hs) h
  rw [h.vars] at hcur hbanked ⊢
  obtain ⟨hrun, hcur', hbanked'⟩ := Machine.systemCalls hm' hcur hbanked
  rw [hrep.vars]
  exact ⟨hrun, m', hrep, hcur', (hbanked' _).trans hrep.bank.symm⟩

/-! ## Functions that are what the kernel says -/

/-- Functions in C that do what the model of the kernel says, and nothing else. -/
def modelledC (f : CFunction) (s : KernelCpu System) : KernelCpu System :=
  match f with
  | .terminalPut =>
    { s with bus := { s.bus with
      vars := (terminalPut s.bus.vars (hi s.main.af)).getD s.bus.vars } }
  | .schedulerTick =>
    match schedulerTick s.bus.vars.kernel with
    | some (bank, k) =>
      { s with
        main := { s.main with af := word bank 0 }
        bus := { s.bus with vars := s.bus.vars.withKernel k } }
    | none => s
  | .signalGetHandler =>
    match signalGetHandler s.bus.vars with
    | some (handler, v) =>
      { s with
        main := { s.main with de := BitVec.ofNat 16 handler }
        bus := { s.bus with vars := v } }
    | none => s
  | _ => s

/-- They leave what a function in C is to leave. -/
theorem compiled_modelledC : Compiled modelledC 0x7000 0 := by
  constructor
  case put =>
    rintro v c v' h u rfl rfl
    have heq : modelledC .terminalPut u = { u with bus := { u.bus with vars := v' } } := by
      simp [modelledC, h]
    rw [heq]
    exact ⟨⟨rfl, rfl, rfl, rfl, rfl, rfl, rfl, fun _ _ _ => rfl⟩, rfl, rfl⟩
  case tick =>
    rintro v bank k h u rfl
    have heq : modelledC .schedulerTick u = { u with
        main := { u.main with af := word bank 0 }
        bus := { u.bus with vars := u.bus.vars.withKernel k } } := by
      simp [modelledC, h]
    rw [heq]
    exact ⟨⟨rfl, rfl, rfl, rfl, rfl, rfl, rfl, fun _ _ _ => rfl⟩, hi_word, rfl⟩
  case signal =>
    rintro v n v' h u rfl
    have heq : modelledC .signalGetHandler u = { u with
        main := { u.main with de := BitVec.ofNat 16 n }
        bus := { u.bus with vars := v' } } := by
      simp [modelledC, h]
    rw [heq]
    exact ⟨⟨rfl, rfl, rfl, rfl, rfl, rfl, rfl, fun _ _ _ => rfl⟩, rfl, rfl⟩

/-- A process table with a bank for each process. -/
def bankedSystem : System :=
  { smallSystem with kernel := { smallSystem.kernel with
    processTable := fun i => ⟨0x8000, UInt8.ofNat i, 0, 0, 0, 0⟩ } }

/-- Two processes have been started, and the first one runs. -/
def startedSystem : System :=
  ((Run.exec Z80OS.systemCall bankedSystem [.spawn 0, .spawn 1, .tick]).map Prod.snd).getD
    bankedSystem

/-- The process in the first slot. -/
def firstProcess : Fin procsMax := ⟨0, Nat.succ_pos 15⟩

/-- The process in the second slot. -/
def secondProcess : Fin procsMax := ⟨1, Nat.succ_lt_succ (Nat.succ_pos 14)⟩

/-- Each process has the bank with its number. -/
def ownBank (i : Fin procsMax) : UInt8 := UInt8.ofNat i

/-- The two processes. -/
def twoLive (i : Fin procsMax) : Bool := i.1 < 2

/-- The first process of the two, with the kernel in RAM. -/
def startedCpu : KernelCpu System :=
  cpuWith startedSystem (memoryWith [(.bank 1 0xffff, 0xf0), (.bank 1 0xf00d, 0x90)]) ⟨1, 2, 3, 4⟩
    0xe000

/-- The machine that it stands for. -/
def startedMachine : Machine (Live twoLive) System where
  tasks x :=
    if x.1 = firstProcess then taskOf startedCpu 0x8000 0
    else ⟨waitingContext, memoryOf startedCpu 1⟩
  current := ⟨firstProcess, rfl⟩
  vars := startedSystem

/-- A process of the two is one of them. -/
theorem live_cases (x : Live twoLive) : x = ⟨firstProcess, rfl⟩ ∨ x = ⟨secondProcess, rfl⟩ := by
  obtain ⟨⟨i, hi⟩, hx⟩ := x
  have hlt : i < 2 := of_decide_eq_true hx
  obtain rfl | rfl : i = 0 ∨ i = 1 := by omega
  · exact .inl rfl
  · exact .inr rfl

/-- The state of the processor stands for the machine in which the first process runs.

**Proof sketch.** There are two live processes. The first one runs, and the second one lies in its
bank as it has been loaded. -/
theorem represents_startedCpu : Represents (kernelLayout someSymbols modelledC)
      (fun x : Live twoLive => ownBank x.1) (startedCpu, 0x8000) startedMachine := by
  constructor
  case context => rfl
  case memory =>
    intro x a _
    obtain rfl | rfl := live_cases x <;> rfl
  case bank => rfl
  case banks =>
    intro x y h
    obtain rfl | rfl := live_cases x <;> obtain rfl | rfl := live_cases y
    · rfl
    · exact absurd h (by decide)
    · exact absurd h (by decide)
    · rfl
  case waiting =>
    intro x hx
    obtain rfl | rfl := live_cases x
    · exact absurd rfl hx
    · exact ⟨⟨rfl, rfl, rfl, rfl, rfl, rfl, rfl, rfl, trivial⟩,
        show 0x8010#16 ≤ 0xf00e#16 by decide, show 0xf00e#16 ≤ 0xfffe#16 by decide⟩
  case outside =>
    intro x
    obtain rfl | rfl := live_cases x
    · exact kernelLayout_resolve (a := 0x8000) (by decide)
    · exact kernelLayout_resolve (a := 0x9000) (by decide)
  case vars => rfl
  case user => rfl

/-- The first process has done something. -/
def startedWent : KernelCpu System := { startedCpu with main := ⟨9, 2, 3, 4⟩ }

/-- The first process changes a register and goes on. -/
theorem startedCpu_step : CpuStep (kernelLayout someSymbols modelledC) terminalPut
    (systemChoice twoLive ownBank) (startedCpu, 0x8000) .run (startedWent, 0x8002) :=
  .run ⟨rfl, rfl, rfl, fun _ _ => rfl⟩ (kernelLayout_resolve (a := 0x8002) (by decide))

/-- The second process. -/
def secondLive : Live twoLive := ⟨secondProcess, rfl⟩

/-- After a byte, a tick chooses the second process, which has no handler to go on at. -/
theorem startedSystem_chooses : ∃ v v', terminalPut startedSystem 65 = some v ∧
    systemChoice twoLive ownBank v = some (secondLive, 0, v') := by
  have hput : (terminalPut startedSystem 65).isSome = true := by decide +kernel
  obtain ⟨v, hv⟩ := Option.isSome_iff_exists.mp hput
  have hchosen : ((terminalPut startedSystem 65).bind (systemChoice twoLive ownBank)).map
      (fun r => (r.1, r.2.1)) = some (secondLive, 0) := by decide +kernel
  rw [hv, Option.bind_some] at hchosen
  obtain ⟨⟨x, handler, v'⟩, hchoice, heq⟩ := Option.map_eq_some_iff.mp hchosen
  obtain ⟨rfl, rfl⟩ : x = secondLive ∧ handler = 0 := Prod.mk.inj heq
  exact ⟨v, v', hv, hchoice⟩

/-- The first process goes on, a byte is received, and a tick makes the second process run. -/
theorem startedCpu_trace : ∃ z, Trace (CpuStep (kernelLayout someSymbols modelledC) terminalPut
    (systemChoice twoLive ownBank)) (startedCpu, 0x8000)
    [.run, .receive 65, .tick secondLive] z := by
  have hn : Implements modelledC 0x7000 0 (fun x : Live twoLive => ownBank x.1) terminalPut
      (systemChoice twoLive ownBank) := compiled_modelledC.implements
  have hroom : (processOf startedWent 0x8002).Room :=
    ⟨show 0x8010#16 ≤ 0xe000#16 by decide, show 0xe000#16 ≤ 0xfffe#16 by decide⟩
  obtain ⟨v, v', hput, hchoice⟩ := startedSystem_chooses
  obtain ⟨m₁, -, hrep₁⟩ := represents_startedCpu.step hn (Nat.zero_le _) (by decide) startedCpu_step
  obtain ⟨t, hreceive, hctx, hvars⟩ := hrep₁.exists_receive hn (Nat.zero_le _) hroom hput
  obtain ⟨m₂, -, hrep₂⟩ := hrep₁.step hn (Nat.zero_le _) (by decide) hreceive
  obtain ⟨t', htick⟩ := hrep₂.exists_tick hn (Nat.zero_le _) (by decide) (hctx ▸ hroom)
    (hvars ▸ hchoice) (.inl rfl)
  exact ⟨_, .cons startedCpu_step (.cons hreceive (.cons htick .nil))⟩

/-- The kernel and the processor stay in step while the first process runs and a byte and a tick
arrive. -/
theorem system_of_trace_startedCpu : ∃ z', Trace (CpuStep (kernelLayout someSymbols modelledC)
    terminalPut (systemChoice twoLive ownBank)) (startedCpu, 0x8000)
      [.run, .receive 65, .tick secondLive] z' ∧
    (∃ answers, Run.exec Z80OS.systemCall startedSystem [.put 65, .tick] =
      some (answers, z'.1.bus.vars)) ∧
    ∃ m', Represents (kernelLayout someSymbols modelledC)
      (fun x : Live twoLive => ownBank x.1) z' m' ∧
      processCurrent z'.1.bus.vars = some m'.current.1 ∧
        (z'.1.bus.vars.process m'.current.1).bank = z'.1.bus.bank := by
  obtain ⟨z', htrace⟩ := startedCpu_trace
  exact ⟨z', htrace, system_of_trace represents_startedCpu compiled_modelledC
    (by decide) (by decide)
    (show processCurrent startedSystem = some firstProcess by decide +kernel)
    (show Banked ownBank startedSystem by decide +kernel) htrace⟩

end Z80OS.Asm
