import Z80OS.Asm.Interrupt
import Z80OS.Asm.RamBanks

set_option relaxedAutoImplicit false
set_option autoImplicit false

/-!
# The switch between processes

A tick of the timer puts the registers of the process that runs on its stack, and leaves its stack
pointer in the last two bytes of its bank. It asks the scheduler for a process, selects its bank and
takes its registers from there. With a signal to handle, the process goes on at the handler, which
finds in `HL` where it was.

## Main definitions

* `Z80OS.Asm.Context` — a process that has been interrupted.
* `Z80OS.Asm.Saved` — what its bank has then.

## Main results

* `Z80OS.Asm.timerSave_reaches` — the registers are saved.
* `Z80OS.Asm.retToProcess_reaches`, `Z80OS.Asm.retToHandler_reaches` — a process goes on.
-/

namespace Z80OS.Asm

open Z80

/-- A process that has been interrupted: its registers, and the address that it goes on at. -/
structure Context where
  main : Regs
  ix : Word
  iy : Word
  sp : Word
  pc : Word

/-- The words on the stack of a process that has been interrupted. -/
def Context.frame (x : Context) : List Word :=
  [x.iy, x.ix, x.main.bc, x.main.de, x.main.hl, x.main.af, x.pc]

/-- There is room on the stack of the process for its registers, and the stack lies in its bank. -/
def Context.Room (x : Context) : Prop := 0x8010#16 ≤ x.sp ∧ x.sp ≤ 0xfffe#16

variable {κ : Type}

/-- The registers lie on the stack of the process, and its stack pointer at the end of its bank. -/
structure Saved (b : Board κ) (x : Context) : Prop where
  pointer : Bus.readWord b 0xfffe#16 = x.sp - 14#16
  frame : Stacked b (x.sp - 14#16) x.frame

variable {sym : Symbols} {native : CFunction → KernelCpu κ → KernelCpu κ}
  {L : Layout (kernel sym native)} {s t u : KernelCpu κ} {c : KernelCode}
  {z : Place kernelNames × KernelCpu κ} {m : Cell → UInt8} {x y : Context} {b b' : Board κ}

/-- The registers lie there on another board that has the same bytes in the selected bank. -/
theorem Saved.congr (h : Saved b x) (hroom : x.Room)
    (heq : ∀ a, 0x8000#16 ≤ a → Bus.read b' a = Bus.read b a) : Saved b' x := by
  obtain ⟨hlow, hhigh⟩ := hroom
  constructor
  case pointer =>
    rw [← h.pointer]
    exact readWord_congr fun i hi => heq _ (by bv_omega)
  case frame =>
    refine h.frame.congr fun i hi => heq _ ?_
    have hlen : i < 14 := hi
    bv_omega

/-! ## The registers are saved -/

/-- The bytes that change when a process is interrupted: those below its stack, and the last two of
its bank. -/
def OffContext (b : Board κ) (a : Word) (m : Cell → UInt8) : Prop :=
  ∀ x, (∀ j < 16, x ≠ b.cell (a - BitVec.ofNat 16 (j + 1))) → x ≠ b.cell 0xfffe#16 →
    x ≠ b.cell 0xffff#16 → m x = b.ram x

/-- The part of the handler that saves the registers. -/
def timerSave : KernelCode :=
  [exx, exAf, push .af, push .hl, push .de, push .bc, push .ix, push .iy, stAt16 .sp 0xfffe,
    ldImm16 .sp 0x7ffe]

/-- The part that chooses a process. -/
def timerChoose : KernelCode :=
  [call (.c .schedulerTick), call .ramBankSet, call (.c .signalGetHandler),
    ldReg .a .d, orReg .e, jpZ .timerHandlerRetToProcess] ++ timerHandlerRetToHandler

/-- The state in front of the choice. -/
def saved (s : KernelCpu κ) (m : Cell → UInt8) : KernelCpu κ :=
  { s with
    main := s.alt
    alt := s.main
    sp := 0x7ffe#16
    bus := s.bus.withRam m }

/-- **The registers are saved.**

**Proof sketch.** Six words are pushed on the address that the interrupt has left there, and the
pointer to them goes to the end of the bank. There is room on the stack, so that the pointer is not
stored over what has been pushed. -/
theorem timerSave_runs (hroom : x.Room) (hmain : s.alt = x.main) (hix : s.ix = x.ix)
    (hiy : s.iy = x.iy) (hsp : s.sp = x.sp - 2#16) (hpc : s.top = x.pc) :
    ∃ m, s.runs L.label (straight timerSave) = saved s m ∧ Saved (s.bus.withRam m) x ∧
      OffContext s.bus x.sp m := by
  let ws := [x.main.af, x.main.hl, x.main.de, x.main.bc, x.ix, x.iy]
  let b := pushAll s.bus s.sp ws
  have hframe : s.sp - 12#16 = x.sp - 14#16 := by rw [hsp]; bv_omega
  have hstacked : Stacked b (x.sp - 14#16) x.frame := by
    rw [← hframe]
    exact Stacked.pushAll ws (show Stacked s.bus s.sp [x.pc] from ⟨hpc, trivial⟩) (by simp [ws])
  have hoff : OffStack s.bus s.sp 12 b.ram := OffStack.pushAll ws
  obtain ⟨hlow, hhigh⟩ := hroom
  refine ⟨(Bus.writeWord b 0xfffe#16 (x.sp - 14#16)).ram, ?_, ?_, ?_⟩
  · have hsub : s.sp - 2#16 - 2#16 - 2#16 - 2#16 - 2#16 - 2#16 = x.sp - 14#16 := by
      rw [hsp]
      bv_omega
    simp [timerSave, saved, hmain, hix, hiy, hsub, b, ws, pushAll]
    rfl
  · constructor
    case pointer => exact readWord_writeWord_self
    case frame =>
      refine hstacked.congr fun i hi => read_writeWord_of_ne ?_ ?_
      · have hlen : i < 14 := hi
        bv_omega
      · have hlen : i < 14 := hi
        bv_omega
  · intro c hc h0 h1
    refine (Board.writeWord_ram (b := b) h0 h1).trans (hoff c fun j hj => ?_)
    have hsub : s.sp - BitVec.ofNat 16 (j + 1) = x.sp - BitVec.ofNat 16 (j + 2 + 1) := by
      rw [hsp]
      bv_omega
    rw [hsub]
    exact hc (j + 2) (by omega)

/-! ## A process goes on -/

/-- The stack pointer that is kept in the bank. -/
def keptSp (b : Board κ) : Word := Bus.readWord b 0xfffe#16

/-- The words on the stack, one by one. -/
structure Saved.Words (b : Board κ) (x : Context) : Prop where
  iy : Bus.readWord b (keptSp b) = x.iy
  ix : Bus.readWord b (keptSp b + 2#16) = x.ix
  bc : Bus.readWord b (keptSp b + 4#16) = x.main.bc
  de : Bus.readWord b (keptSp b + 6#16) = x.main.de
  hl : Bus.readWord b (keptSp b + 8#16) = x.main.hl
  af : Bus.readWord b (keptSp b + 10#16) = x.main.af
  pc : Bus.readWord b (keptSp b + 12#16) = x.pc
  top : keptSp b + 12#16 = x.sp - 2#16

/-- The registers of a process that are saved in its bank, as the words on its stack. -/
theorem Saved.words (h : Saved b x) : Saved.Words b x := by
  have hsp : keptSp b = x.sp - 14#16 := h.pointer
  obtain ⟨h₀, h₁, h₂, h₃, h₄, h₅, h₆, -⟩ := h.frame
  simp only [← hsp, BitVec.ofNat_eq_ofNat, BitVec.add_assoc, BitVec.reduceAdd]
    at h₀ h₁ h₂ h₃ h₄ h₅ h₆
  exact ⟨h₀, h₁, h₂, h₃, h₄, h₅, h₆, by rw [hsp]; bv_omega⟩

/-- The state of a process that goes on. -/
def continued (s : KernelCpu κ) (x : Context) (m : Cell → UInt8) : KernelCpu κ :=
  { statusIs s (intOff s) m with
    main := x.main
    ix := x.ix
    iy := x.iy
    sp := x.sp
    interrupts := true }

/-- **A process goes on** where it has been interrupted.

**Proof sketch.** The words are taken from the stack in turn, and the end of the handler
(`handleRet_reaches`) goes to the address on top. -/
theorem retToProcess_reaches (h : Saved s.bus x) : ∃ m, OffStack s.bus x.sp 16 m ∧
    Reaches L (.code timerHandlerRetToProcess, s) (L.place x.pc, continued s x m) := by
  have hw := h.words
  let u : KernelCpu κ := { s with
    main := s.alt
    alt := x.main
    ix := x.ix
    iy := x.iy
    sp := x.sp - 2#16 }
  have hruns : s.runs L.label (straight timerHandlerRetToProcess) = u := by
    have hkept : Bus.readWord s.bus 0xfffe#16 = keptSp s.bus := rfl
    simp [timerHandlerRetToProcess, timerHandlerEnd, u, hkept, hw.iy, hw.ix, hw.bc, hw.de, hw.hl,
      hw.af, hw.top, BitVec.add_assoc]
  obtain ⟨m, hm, hret⟩ := handleRet_reaches (L := L) (s := u)
  have htop : u.top = x.pc := by
    rw [← hw.pc, hw.top]
    rfl
  refine ⟨m, OffStack.mono (OffStack.below (k := 2) hm) (by omega), ?_⟩
  refine Reaches.straight ?_
  rw [hruns]
  refine Reaches.head rfl ?_
  have hstate : handled u m = continued s x m := by
    simp [handled, continued, statusIs, intOff, u]
  rwa [htop, hstate] at hret

/-- A process that goes on at the handler of a signal, with the address where it was in `HL`. -/
def Context.signalled (x : Context) (handler : Word) : Context :=
  { x with
    main := { x.main with hl := x.pc }
    pc := handler }

/-- **A process goes on at a handler**, with the address where it has been interrupted in `HL`.

**Proof sketch.** The code replaces the address on the stack by the one of the handler and keeps the
old one in `HL`, so that two words in RAM change. The other words on the stack are read as before.
From there on it is the end of the handler (`handleRet_reaches`), which goes to the address on
top. -/
theorem retToHandler_reaches (h : Saved s.bus x) : ∃ m, OffStack s.bus x.sp 16 m ∧
    Reaches L (.code timerHandlerRetToHandler, s)
      (L.place s.main.de, continued s (x.signalled s.main.de) m) := by
  have hw := h.words
  -- RAM with the address of the handler, and with the other address below the stack
  let b₁ := Bus.writeWord s.bus (keptSp s.bus + 12#16) s.main.de
  let b₂ := Bus.writeWord b₁ (keptSp s.bus - 2#16) x.pc
  let u : KernelCpu κ := { s with
    main := s.alt
    alt := { x.main with hl := x.pc }
    ix := x.ix
    iy := x.iy
    sp := x.sp - 2#16
    bus := b₂ }
  have hread : ∀ n < 11, Bus.readWord b₂ (keptSp s.bus + BitVec.ofNat 16 n) =
      Bus.readWord s.bus (keptSp s.bus + BitVec.ofNat 16 n) := by
    intro n hn
    rw [readWord_writeWord_of_ne (by bv_omega) (by bv_omega) (by bv_omega),
      readWord_writeWord_of_ne (by bv_omega) (by bv_omega) (by bv_omega)]
  have hruns : s.runs L.label (straight timerHandlerRetToHandler) = u := by
    have hkept : Bus.readWord s.bus 0xfffe#16 = keptSp s.bus := rfl
    have hcomm : 12#16 + keptSp s.bus = keptSp s.bus + 12#16 := BitVec.add_comm ..
    have hpc : word (Bus.read (Bus.write s.bus (keptSp s.bus + 12#16) (lo s.main.de))
        (keptSp s.bus + 13#16)) (Bus.read s.bus (keptSp s.bus + 12#16)) = x.pc := by
      rw [read_write_of_ne (by bv_omega), ← hw.pc, Bus.readWord, BitVec.add_assoc]
      rfl
    have hb : Bus.writeWord (Bus.write (Bus.write s.bus (keptSp s.bus + 12#16) (lo s.main.de))
        (keptSp s.bus + 13#16) (hi s.main.de)) (keptSp s.bus - 2#16) x.pc = b₂ := by
      simp only [b₂, b₁, Bus.writeWord, BitVec.add_assoc]
      rfl
    have hiy := (hread 0 (by omega)).trans (by simpa using hw.iy)
    have hix := (hread 2 (by omega)).trans hw.ix
    have hbc := (hread 4 (by omega)).trans hw.bc
    have hde := (hread 6 (by omega)).trans hw.de
    have haf := (hread 10 (by omega)).trans hw.af
    simp only [BitVec.add_zero] at hiy
    simp [timerHandlerRetToHandler, u, hkept, hcomm, BitVec.add_assoc, hpc, hb, hiy, hix, hbc, hde,
      haf]
    exact ⟨readWord_writeWord_self, hw.top⟩
  obtain ⟨m, hm, hret⟩ := handleRet_reaches (L := L) (s := u)
  have htop : u.top = s.main.de := by
    show Bus.readWord b₂ (x.sp - 2#16) = _
    rw [← hw.top, readWord_writeWord_of_ne (by bv_omega) (by bv_omega) (by bv_omega),
      readWord_writeWord_self]
  have hstate : handled u m = continued s (x.signalled s.main.de) m := by
    simp [handled, continued, statusIs, intOff, u, Context.signalled]
    exact ⟨rfl, rfl, rfl, rfl, rfl, rfl⟩
  have hoff : OffStack s.bus x.sp 16 b₂.ram := by
    have hkept : keptSp s.bus - 2#16 = x.sp - 16#16 := by
      have := hw.top
      bv_omega
    simp only [b₂, b₁, hw.top, hkept]
    exact (OffStack.push.mono (by omega)).trans (OffStack.store (n := 16) (by omega))
  refine ⟨m, ?_, ?_⟩
  · exact hoff.trans (OffStack.mono (OffStack.below (k := 2) hm) (by omega))
  · refine Reaches.straight ?_
    rw [hruns]
    refine Reaches.head rfl (Reaches.head rfl ?_)
    rwa [htop, hstate] at hret

/-! ## The choice of a process -/

/-- What the functions in C do in a tick: the scheduler answers a bank, and then there is a handler
for a signal, or zero. -/
structure Chooses (native : CFunction → KernelCpu κ → KernelCpu κ) (limit : Word) (depth : ℕ)
    (v : κ) (bank : UInt8) (handler : Word) (v' : κ) : Prop where
  tick : ∃ v₁, (∀ u : KernelCpu κ, u.bus.vars = v →
      Returns limit depth u (native .schedulerTick u) ∧
        hi (native .schedulerTick u).main.af = bank ∧ (native .schedulerTick u).bus.vars = v₁) ∧
    ∀ u : KernelCpu κ, u.bus.vars = v₁ →
      Returns limit depth u (native .signalGetHandler u) ∧
        (native .signalGetHandler u).main.de = handler ∧
          (native .signalGetHandler u).bus.vars = v'

/-- RAM that differs from that of a board in variables of the kernel and on its stack at most. -/
def OffKernel (limit : Word) (depth : ℕ) (b : Board κ) (m : Cell → UInt8) : Prop :=
  ∀ x, Kept limit x → (∀ j < depth, x ≠ .low (0x7ffe#16 - BitVec.ofNat 16 (j + 1))) → m x = b.ram x

/-- What a function in C changes on the stack of the kernel is off the banks. -/
theorem Disturbed.offKernel {limit : Word} {n : ℕ} (h : Disturbed limit b 0x7ffe#16 n m)
    (hn : n ≤ 0x7002) : OffKernel limit n b m := by
  intro x hkept hx
  refine h x hkept fun j hj => ?_
  have hlow : 0x7ffe#16 - BitVec.ofNat 16 (j + 1) < 0x8000#16 := by bv_omega
  rw [Board.cell, cellIn_low hlow]
  exact hx j hj

/-- Two changes one after the other. -/
theorem OffKernel.trans {limit : Word} {n : ℕ} {m' : Cell → UInt8} (h : OffKernel limit n b m)
    (h' : OffKernel limit n b' m') (hb : b'.ram = m) : OffKernel limit n b m' := by
  intro x hkept hx
  rw [h' x hkept hx, hb, h x hkept hx]

/-- The top of the kernel's stack is no variable of the kernel. -/
theorem kept_kernelStack {limit : Word} {i : ℕ} (hlimit : limit ≤ 0x7ffc#16) (hi : i < 2) :
    Kept limit (b.cell (0x7ffe#16 - 2#16 + BitVec.ofNat 16 i)) := by
  intro a ha
  have hlow : 0x7ffe#16 - 2#16 + BitVec.ofNat 16 i < 0x8000#16 := by bv_omega
  rw [Board.cell, cellIn_low hlow, Cell.low.injEq] at ha
  bv_omega

/-- What the choice of a process leaves. -/
structure Chosen (limit : Word) (depth : ℕ) (s t : KernelCpu κ) (bank : UInt8) (handler : Word)
    (v : κ) : Prop where
  de : t.main.de = handler
  words : t.words = s.words
  bytes : t.bytes = Function.update s.bytes .bankCurrent bank
  board : t.bus = { s.bus with ram := t.bus.ram, bank := bank, vars := v }
  ram : OffKernel limit (depth + 2) s.bus t.bus.ram

variable {limit handler : Word} {depth : ℕ} {v v' : κ} {bank : UInt8}

/-- **A process is chosen**, and its bank selected.

**Proof sketch.** Three calls one after the other: the scheduler, the choice of its bank, and the
look for a signal. Each leaves the stack pointer at the top of the kernel's stack, and RAM but for
that stack and the variables of the kernel. Where the handler is tested, `DE` is what the last one
has answered. -/
theorem timerChoose_reaches (h : Chooses native limit depth s.bus.vars bank handler v)
    (hsp : s.sp = 0x7ffe#16) (hdepth : depth ≤ 0x7000) (hlimit : limit ≤ 0x7ffc#16) :
    ∃ t, Chosen limit depth s t bank handler v ∧
      Reaches L (.code timerChoose, s)
        (.code (if handler = 0#16 then timerHandlerRetToProcess else timerHandlerRetToHandler),
          t) := by
  obtain ⟨v₁, htick, hsignal⟩ := h.tick
  let w₁ := L.addr (timerChoose.drop 1)
  let w₂ := L.addr (timerChoose.drop 2)
  let w₃ := L.addr (timerChoose.drop 3)
  -- the state behind each of the calls
  obtain ⟨hr₁, hbank, hv₁⟩ := htick (s.pushWord w₁) rfl
  let s₁ := (native .schedulerTick (s.pushWord w₁)).drop
  let s₂ := withBank (s₁.pushWord w₂) bank
  obtain ⟨hr₂, hde, hv⟩ := hsignal (s₂.pushWord w₃) hv₁
  let s₃ := (native .signalGetHandler (s₂.pushWord w₃)).drop
  have hsp₁ : s₁.sp = 0x7ffe#16 := by
    show (native .schedulerTick (s.pushWord w₁)).sp + 2 = _
    rw [hr₁.sp, ← hsp]
    exact BitVec.sub_add_cancel ..
  have hsp₂ : s₂.sp = 0x7ffe#16 := by
    rw [← hsp₁]
    exact BitVec.sub_add_cancel ..
  have hram₁ : OffKernel limit (depth + 2) s.bus s₁.bus.ram :=
    Disturbed.offKernel (hsp ▸ hr₁.disturbed) (by omega)
  have hram₂ : OffKernel limit (depth + 2) s₁.bus s₂.bus.ram := by
    have hpush : OffStack s₁.bus s₁.sp 2 s₂.bus.ram := OffStack.push
    rw [hsp₁] at hpush
    exact Disturbed.offKernel ((Disturbed.of_offStack hpush).mono (by omega)) (by omega)
  have hram₃ : OffKernel limit (depth + 2) s₂.bus s₃.bus.ram :=
    Disturbed.offKernel (hsp₂ ▸ hr₂.disturbed) (by omega)
  have hbus₁ : s₁.bus = { s.bus with ram := s₁.bus.ram, vars := v₁ } := by
    rw [← hv₁]
    exact hr₁.board
  have hbus₃ : s₃.bus = { s.bus with ram := s₃.bus.ram, bank := bank, vars := v } := by
    have h₃ : s₃.bus = { s₁.bus with ram := s₃.bus.ram, bank := bank, vars := s₃.bus.vars } :=
      hr₂.board
    rw [hbus₁] at h₃
    rw [← hv]
    exact h₃
  obtain ⟨af, hruns, hzero⟩ : ∃ af, s₃.runs L.label (straight [ldReg .a .d, orReg .e]) =
      s₃.setAf af ∧ Cond.z.holds af = decide (handler = 0#16) := by
    refine ⟨(s₃.runs L.label (straight [ldReg .a .d, orReg .e])).main.af, by simp, ?_⟩
    have hde' : s₃.main.de = handler := hde
    rw [Bool.eq_iff_iff]
    simp [hde']
  refine ⟨s₃.setAf af, ?_, ?_⟩
  · constructor
    case de => exact hde
    case words => exact hr₂.words.trans hr₁.words
    case bytes =>
      have h₃ : s₃.bytes = Function.update s₁.bytes .bankCurrent bank := hr₂.bytes
      have h₁ : s₁.bytes = s.bytes := hr₁.bytes
      rw [← h₁]
      exact h₃
    case board => exact hbus₃
    case ram => exact (hram₁.trans hram₂ rfl).trans hram₃ rfl
  · refine call_native (Program.entry_drop .timerHandler 13 rfl) hr₁ (by omega)
      (fun i hi => hsp ▸ kept_kernelStack hlimit hi) ?_
    have hset : Fulfils L .ramBankSet (s₁.pushWord w₂) s₂ := by
      have h := fulfils_ramBankSet (L := L) (s := s₁.pushWord w₂)
      rwa [show hi (s₁.pushWord w₂).main.af = bank from hbank] at h
    refine hset.call (Program.entry_drop .timerHandler 14 rfl) ?_
    refine call_native (Program.entry_drop .timerHandler 15 rfl) hr₂ (by omega)
      (fun i hi => hsp₂ ▸ kept_kernelStack hlimit hi) ?_
    refine Reaches.branch rfl hruns hzero ?_
    by_cases h : handler = 0#16
    · rw [if_pos h, if_pos (by simpa using h)]
      exact Reaches.refl
    · rw [if_neg h, if_neg (by simpa using h)]
      exact Reaches.refl

/-! ## A tick -/

/-- The process that has been interrupted when the handler is entered. -/
def interrupted (s : KernelCpu κ) : Context where
  main := s.main
  ix := s.ix
  iy := s.iy
  sp := s.sp + 2#16
  pc := s.top

/-- What a call changes below the saved registers is below the stack of the process. -/
theorem OffContext.of_offStack {n : ℕ} (h : OffStack b (x.sp - 2#16) n m) (hn : n ≤ 14) :
    OffContext b x.sp m :=
  fun c hc _ _ => OffStack.mono (OffStack.below (k := 2) h) (by omega) c hc

/-- Two changes one after the other. -/
theorem OffContext.trans {a : Word} {m' : Cell → UInt8} (h : OffContext b a m)
    (h' : OffContext (b.withRam m) a m') : OffContext b a m' :=
  fun c hc h0 h1 => (h' c hc h0 h1).trans (h c hc h0 h1)

/-- A state of the handler in which the registers of the process have been saved. -/
structure HasSaved (s w : KernelCpu κ) : Prop where
  sp : w.sp = 0x7ffe#16
  words : w.words = s.words
  bytes : w.bytes = Function.update s.bytes .currentStatus (s.bytes .currentStatus &&& 0b11111101)
  banks : w.bus.banks = s.bus.banks
  bank : w.bus.bank = s.bus.bank
  vars : w.bus.vars = s.bus.vars
  saved : Saved w.bus (interrupted s)
  ram : OffContext s.bus (interrupted s).sp w.bus.ram

/-- The first part of a tick.

**Proof sketch.** The handler asks the serial port, which has no byte, and the timer, which has
ticked. The kernel is not at work, so it saves the registers (`timerSave_runs`). What the calls up
to there have pushed lies below the stack of the process. -/
theorem tick_save (hbyte : s.bus.uart.received = none) (htimer : s.bus.timer = 1)
    (huser : inKernel s = false) (hroom : (interrupted s).Room) :
    ∃ w, HasSaved s w ∧ ∀ z, Reaches L (.code timerChoose, w) z →
      Reaches L (.code (kernelCode sym .interruptHandler), s) z := by
  obtain ⟨m, af, hm, henter⟩ := interruptHandler_reaches (L := L) (s := s)
  obtain ⟨af', htick⟩ := interruptSkip2_reaches (L := L) (s := entered s af m)
  rw [hbyte] at henter
  rw [if_pos (show (entered s af m).bus.timer = 1 from htimer)] at htick
  obtain ⟨m', af'', hm', hhandle⟩ :=
    timerHandler_reaches (L := L) (s := ticked (entered s af m) af')
  have hin : inKernel (ticked (entered s af m) af') = false := by
    rw [← huser]
    simp [inKernel, ticked, entered, statusIs, flag]
  rw [hin] at hhandle
  let u : KernelCpu κ := { ticked (entered s af m) af' with
    main := { (entered s af m).main with af := af'' }
    bus := (ticked (entered s af m) af').bus.withRam m' }
  have hoff : OffStack s.bus s.sp 4 m' := hm.trans (OffStack.mono hm' (by omega))
  have hsp : (interrupted s).sp - 2#16 = s.sp := BitVec.add_sub_cancel ..
  obtain ⟨m₃, hruns, hsaved, hram⟩ := timerSave_runs (L := L) (s := u) hroom rfl rfl rfl hsp.symm
    (hoff.readWord (by omega))
  refine ⟨saved u m₃, ?_, fun z hz => henter z (htick z (hhandle z ?_))⟩
  · constructor
    case sp => rfl
    case words => rfl
    case bytes => rfl
    case banks => rfl
    case bank => rfl
    case vars => rfl
    case saved => exact hsaved
    case ram => exact (OffContext.of_offStack (hsp ▸ hoff) (by omega)).trans hram
  · exact Reaches.through (p := timerSave) rfl hruns hz

/-- The process that is to go on in a bank: one that has been interrupted there before, or the one
that has just been. -/
def Next (s : KernelCpu κ) (bank : UInt8) (y : Context) : Prop :=
  if bank.toNat % s.bus.banks = s.bus.bank.toNat % s.bus.banks then y = interrupted s
  else Saved { s.bus with bank := bank } y ∧ y.Room

/-- The process as it goes on: at a handler, if there is one. -/
def Context.resumed (y : Context) (handler : Word) : Context :=
  if handler = 0#16 then y else y.signalled handler

/-- A handler has the stack of the process. -/
@[simp]
theorem Context.resumed_sp {y : Context} {handler : Word} : (y.resumed handler).sp = y.sp := by
  unfold Context.resumed
  split_ifs <;> rfl

/-- What a tick has changed when a process goes on. -/
structure Switched (limit : Word) (depth : ℕ) (s t : KernelCpu κ) (bank : UInt8) (y : Context)
    (v : κ) : Prop where
  main : t.main = y.main
  ix : t.ix = y.ix
  iy : t.iy = y.iy
  sp : t.sp = y.sp
  interrupts : t.interrupts = true
  words : t.words = s.words
  bytes : ∀ w, w ≠ .currentStatus → w ≠ .bankCurrent → t.bytes w = s.bytes w
  bankCurrent : t.bytes .bankCurrent = bank
  status : t.bytes .currentStatus = s.bytes .currentStatus &&& 0b11111101 ||| 0b00000010
  banks : t.bus.banks = s.bus.banks
  selected : t.bus.bank = bank
  vars : t.bus.vars = v
  saved : bank.toNat % s.bus.banks ≠ s.bus.bank.toNat % s.bus.banks →
    Saved { t.bus with bank := s.bus.bank } (interrupted s)
  ram : ∀ c, Kept limit c →
    (∀ j < depth + 2, c ≠ .low (0x7ffe#16 - BitVec.ofNat 16 (j + 1))) →
    (∀ j < 16, c ≠ s.bus.cell ((interrupted s).sp - BitVec.ofNat 16 (j + 1))) →
    c ≠ s.bus.cell 0xfffe#16 → c ≠ s.bus.cell 0xffff#16 →
    (∀ j < 16, c ≠ cellIn s.bus.banks bank (y.sp - BitVec.ofNat 16 (j + 1))) →
    t.bus.ram c = s.bus.ram c

/-- A byte of a bank is not one with another address or in another bank. -/
theorem bank_ne_cellIn {banks k : ℕ} {a a' : Word} (h : k = bank.toNat % banks → a ≠ a') :
    Cell.bank k a ≠ cellIn banks bank a' := by
  unfold cellIn
  split_ifs
  · exact fun heq => by cases heq
  · intro heq
    obtain ⟨hk, ha⟩ := Cell.bank.inj heq
    exact h hk ha

/-- What a tick leaves of a bank. -/
theorem Switched.ram_bank {k : ℕ} {a : Word} (h : Switched limit depth s t bank y v)
    (hold : k = s.bus.bank.toNat % s.bus.banks →
      (∀ j < 16, a ≠ (interrupted s).sp - BitVec.ofNat 16 (j + 1)) ∧ a ≠ 0xfffe#16 ∧ a ≠ 0xffff#16)
    (hnew : k = bank.toNat % s.bus.banks → ∀ j < 16, a ≠ y.sp - BitVec.ofNat 16 (j + 1)) :
    t.bus.ram (.bank k a) = s.bus.ram (.bank k a) :=
  h.ram _ (fun _ hlow => by cases hlow) (fun _ _ hlow => by cases hlow)
    (fun j hj => bank_ne_cellIn fun hk => (hold hk).1 j hj) (bank_ne_cellIn fun hk => (hold hk).2.1)
    (bank_ne_cellIn fun hk => (hold hk).2.2) fun j hj => bank_ne_cellIn fun hk => hnew hk j hj

/-- A bank keeps what it has while a process is chosen. -/
theorem Chosen.read {w : KernelCpu κ} (h : Chosen limit depth w t bank handler v) {a : Word}
    (ha : 0x8000#16 ≤ a) : Bus.read t.bus a = w.bus.ram (.bank (bank.toNat % w.bus.banks) a) := by
  have hcell : t.bus.cell a = .bank (bank.toNat % w.bus.banks) a := by
    rw [h.board]
    exact cellIn_high (by bv_omega)
  rw [Board.read_eq, hcell]
  exact h.ram _ (fun _ hlow => by cases hlow) fun _ _ hlow => by cases hlow

/-- The registers of the process that is to go on are in its bank. -/
theorem Chosen.saved {w : KernelCpu κ} (h : Chosen limit depth w t bank handler v)
    (hw : HasSaved s w) (hroom : (interrupted s).Room) (hnext : Next s bank y) : Saved t.bus y := by
  unfold Next at hnext
  by_cases hbank : bank.toNat % s.bus.banks = s.bus.bank.toNat % s.bus.banks
  · rw [if_pos hbank] at hnext
    subst hnext
    refine hw.saved.congr hroom fun a ha => ?_
    have hcell : w.bus.cell a = .bank (w.bus.bank.toNat % w.bus.banks) a :=
      cellIn_high (by bv_omega)
    rw [h.read ha, Board.read_eq, hcell, hw.banks, hw.bank, hbank]
  · rw [if_neg hbank] at hnext
    refine hnext.1.congr hnext.2 fun a ha => ?_
    have hcell : Board.cell { s.bus with bank := bank } a = .bank (bank.toNat % s.bus.banks) a :=
      cellIn_high (by bv_omega)
    rw [h.read ha, Board.read_eq, hcell, hw.banks]
    -- what has been saved is in another bank
    have hne : ∀ a' : Word, 0x8000#16 ≤ a' →
        Cell.bank (bank.toNat % s.bus.banks) a ≠ s.bus.cell a' := by
      intro a' ha' heq
      rw [Board.cell, cellIn_high (by bv_omega)] at heq
      exact hbank (Cell.bank.inj heq).1
    obtain ⟨hlow, hhigh⟩ := hroom
    exact hw.ram _ (fun j hj => hne _ (by bv_omega)) (hne _ (by bv_omega)) (hne _ (by bv_omega))

/-- The process goes on, at a handler if there is one. -/
theorem resumed_reaches (h : Saved s.bus y) : ∃ m, OffStack s.bus y.sp 16 m ∧
    Reaches L (.code (if s.main.de = 0#16 then timerHandlerRetToProcess
      else timerHandlerRetToHandler), s)
      (L.place (y.resumed s.main.de).pc, continued s (y.resumed s.main.de) m) := by
  unfold Context.resumed
  by_cases hde : s.main.de = 0#16
  · simp only [if_pos hde]
    exact retToProcess_reaches h
  · simp only [if_neg hde]
    exact retToHandler_reaches h

/-- What has changed when a process goes on after a tick.

**Proof sketch.** The state is written out, so that its parts are those of the state with the
choice. The bank that has been left has what was saved in it, because only the selected bank gets
stores from then on. A byte of RAM outside of all three places is the same in each of the three
parts. -/
theorem Chosen.switched {w u : KernelCpu κ} (hu : Chosen limit depth w u bank handler v)
    (hw : HasSaved s w) (hroom : (interrupted s).Room) (hm : OffStack u.bus y.sp 16 m) :
    Switched limit depth s (continued u (y.resumed handler) m) bank (y.resumed handler) v := by
  have hcell : ∀ a, u.bus.cell a = cellIn s.bus.banks bank a := by
    intro a
    rw [hu.board, ← hw.banks]
    rfl
  constructor
  case main => rfl
  case ix => rfl
  case iy => rfl
  case sp => rfl
  case interrupts => rfl
  case words => exact hu.words.trans hw.words
  case bytes =>
    intro b hb hb'
    simp [continued, statusIs, hu.bytes, hw.bytes, hb, hb']
  case bankCurrent =>
    simp [continued, statusIs, hu.bytes]
  case status =>
    simp [continued, statusIs, intOff, hu.bytes, hw.bytes]
  case banks =>
    show u.bus.banks = s.bus.banks
    rw [hu.board]
    exact hw.banks
  case selected =>
    show u.bus.bank = bank
    rw [hu.board]
  case vars =>
    show u.bus.vars = v
    rw [hu.board]
  case saved =>
    intro hne
    refine hw.saved.congr hroom fun a ha => ?_
    -- nothing is written to the bank that has been left
    have hold : ∀ a', w.bus.cell a ≠ u.bus.cell a' := by
      intro a' heq
      rw [hcell, Board.cell, cellIn_high (by bv_omega), hw.banks, hw.bank, cellIn] at heq
      split_ifs at heq
      exact hne (Cell.bank.inj heq).1.symm
    have hbank : Board.cell { u.bus with ram := m, bank := s.bus.bank } a = w.bus.cell a := by
      rw [hu.board, ← hw.bank]
      rfl
    show m (Board.cell { u.bus with ram := m, bank := s.bus.bank } a) = w.bus.ram (w.bus.cell a)
    rw [hbank]
    refine (hm _ fun j hj => hold _).trans ?_
    rw [Board.cell, cellIn_high (by bv_omega)]
    exact hu.ram _ (fun _ hlow => by cases hlow) fun _ _ hlow => by cases hlow
  case ram =>
    intro c hkept hstack hoff h0 h1 hnew
    calc m c
      _ = u.bus.ram c := hm c fun j hj => by rw [hcell, ← Context.resumed_sp]; exact hnew j hj
      _ = w.bus.ram c := hu.ram c hkept hstack
      _ = s.bus.ram c := hw.ram c hoff h0 h1

/-- **A tick of the timer** while a process runs: the registers are saved, and the process that the
scheduler has chosen goes on with those that it had. -/
theorem interrupt_tick (hbyte : s.bus.uart.received = none) (htimer : s.bus.timer = 1)
    (huser : inKernel s = false) (hroom : (interrupted s).Room)
    (hchooses : Chooses native limit depth s.bus.vars bank handler v) (hnext : Next s bank y)
    (hdepth : depth ≤ 0x7000) (hlimit : limit ≤ 0x7ffc#16) :
    ∃ t, Reaches L (.code (kernelCode sym .interruptHandler), s)
      (L.place (y.resumed handler).pc, t) ∧
        Switched limit depth s t bank (y.resumed handler) v := by
  obtain ⟨w, hw, hsave⟩ := tick_save (L := L) hbyte htimer huser hroom
  rw [← hw.vars] at hchooses
  obtain ⟨u, hu, hchoose⟩ := timerChoose_reaches (L := L) hchooses hw.sp hdepth hlimit
  have hsaved := hu.saved hw hroom hnext
  obtain ⟨m, hm, hret⟩ := resumed_reaches (L := L) hsaved
  rw [hu.de] at hret
  exact ⟨_, hsave _ (hchoose.trans hret), hu.switched hw hroom hm⟩

end Z80OS.Asm
