import Z80OS.Asm.Serial

set_option relaxedAutoImplicit false
set_option autoImplicit false

/-!
# Interrupts

The handler works with the other set of registers, asks the serial port and the timer for the
reason, and goes back to what has been interrupted. A function in C that it calls may change the
variables below a limit, and what is below its stack.

## Main definitions

* `Z80OS.Asm.Returns` — what a function in C leaves as it is.
* `Z80OS.Asm.Resumed` — what has been interrupted goes on.

## Main results

* `Z80OS.Asm.interrupt_unknown` — an interrupt for no known reason.
* `Z80OS.Asm.interrupt_kernel` — a tick of the timer while the kernel is at work.
* `Z80OS.Asm.interrupt_serial` — a byte that has been received.
-/

namespace Z80OS.Asm

open Z80

variable {κ : Type} {sym : Symbols} {native : CFunction → KernelCpu κ → KernelCpu κ}
  {L : Layout (kernel sym native)} {s t u : KernelCpu κ} {c : KernelCode}
  {z : Place kernelNames × KernelCpu κ} {m : Cell → UInt8}

/-! ## Ports -/

section

variable {b : Board κ}

/-- The byte that has been received is read from the serial port. -/
@[simp] theorem Board.inp_uart :
    Bus.inp b 0x01 = (b.uart.inpData.1, { b with uart := b.uart.inpData.2 }) := rfl

/-- The timer says whether it has ticked, and forgets it. -/
@[simp] theorem Board.inp_timer : Bus.inp b 0x10 = (b.timer, { b with timer := 0 }) := rfl

end

/-! ## The way back -/

/-- The status with the light of the interrupts off. -/
def intOff (s : KernelCpu κ) : UInt8 := s.bytes .currentStatus ||| 0b00000010

/-- The state after the handler has gone back. -/
def handled (s : KernelCpu κ) (m : Cell → UInt8) : KernelCpu κ :=
  { statusIs s (intOff s) m with
    main := s.alt
    alt := s.main
    sp := s.sp + 2
    interrupts := true }

/-- The handler goes back to the address on the stack. -/
theorem handleRet_reaches : ∃ m, OffStack s.bus s.sp 4 m ∧
    Reaches L (.code (kernelCode sym .interruptHandleRet), s) (L.place s.top, handled s m) := by
  obtain ⟨m, hm, hstatus⟩ := call_statusClr (L := L) (s := s) (l := .statusClrInt) rfl
    (Program.entry_drop .interruptHandleRet 0 rfl)
  have htop : Bus.readWord (s.bus.withRam m) s.sp = s.top := hm.readWord (by omega)
  refine ⟨m, hm, hstatus _ (Reaches.straight (Reaches.head rfl ?_))⟩
  show Reaches L (L.place (Bus.readWord (s.bus.withRam m) s.sp), _) _
  rw [htop]
  exact Reaches.refl

/-! ## The way in -/

/-- The port after its status has been read. -/
def Uart.polled (u : Uart) : Uart := { u with busy := u.busy - 1 }

/-- The state after the handler has asked the serial port. -/
def entered (s : KernelCpu κ) (af : Word) (m : Cell → UInt8) : KernelCpu κ :=
  let s' := statusIs s (s.bytes .currentStatus &&& 0b11111101) m
  { s' with
    main := { s.alt with af := af, hl := s.top }
    alt := s.main
    interrupts := false
    bus := { s'.bus with uart := s.bus.uart.polled } }

/-- A word that is read from the stack and put back. -/
theorem writeWord_readWord {b : Board κ} {a : Word} :
    Bus.writeWord b a (Bus.readWord b a) = b := by
  rw [Bus.writeWord, Bus.readWord, lo_word, hi_word, Board.write_eq, Board.write_eq]
  simp [Board.read_eq, Board.cell]

/-- A word that is taken from the stack and put back is in `HL` then. -/
theorem pop_push_runs {addr : Label → Word} :
    s.runs addr (straight [pop .hl, push .hl]) = s.setHl s.top := by
  have hsp : s.sp + 2#16 - 2#16 = s.sp := by bv_omega
  simp [hsp, writeWord_readWord]

/-- The status of the port tells of a byte. -/
theorem Uart.flag_received {u : Uart} : flag u.status 7 = u.received.isSome := by
  by_cases h : u.busy = 0 <;> cases hr : u.received <;> simp [Uart.status, h, hr] <;> rfl

/-- The status of the serial port says whether a byte has been received. -/
theorem Uart.flag_interrupt {u : Uart} : flag u.status 0 = u.received.isSome := by
  by_cases h : u.busy = 0 <;> cases hr : u.received <;> simp [Uart.status, h, hr] <;> rfl

/-- The handler asks the serial port whether it has a byte.

**Proof sketch.** Behind the exchange of the registers and the light, the address of the process is
taken from the stack and put back. The handler tests the same status twice, and the two bits of it
tell the same, so that its second test does not lead it away. -/
theorem interruptHandler_reaches : ∃ m af, OffStack s.bus s.sp 4 m ∧ ∀ z,
    Reaches L (.code (if s.bus.uart.received.isSome then kernelCode sym .serialReadHandler
      else kernelCode sym .interruptSkip2), entered s af m) z →
    Reaches L (.code (kernelCode sym .interruptHandler), s) z := by
  let u : KernelCpu κ := { s with main := s.alt, alt := s.main, interrupts := false }
  obtain ⟨m, hm, hstatus⟩ := call_statusSet (L := L) (s := u) (l := .statusSetInt) rfl
    (Program.entry_drop .interruptHandler 3 rfl)
  have htop : (statusIs u (s.bytes .currentStatus &&& 0b11111101) m).top = s.top :=
    hm.readWord (by omega)
  -- the state in front of the question
  let v := { statusIs u (s.bytes .currentStatus &&& 0b11111101) m with
    main := { s.alt with hl := s.top } }
  have hpop : (statusIs u (s.bytes .currentStatus &&& 0b11111101) m).runs L.label
      (straight [pop .hl, push .hl]) = v := by
    rw [pop_push_runs, htop]
    rfl
  obtain ⟨af, hruns, hzero, haf⟩ : ∃ af, v.runs L.label (straight [inA 0x00, bitA 7]) =
      entered s af m ∧ Cond.z.holds af = (!s.bus.uart.received.isSome) ∧
        hi af = s.bus.uart.status := by
    refine ⟨(v.runs L.label (straight [inA 0x00, bitA 7])).main.af, ?_, ?_, ?_⟩
    · simp [v, u, statusIs, entered, Uart.polled]
    · simp [v, u, statusIs, Uart.flag_received]
    · simp [v, u, statusIs]
  -- the second question has the same answer as the first one
  by_cases hbyte : s.bus.uart.received.isSome = true
  · obtain ⟨af', hruns', hzero'⟩ : ∃ af', (entered s af m).runs L.label (straight [bitA 0]) =
        entered s af' m ∧ Cond.nz.holds af' = true := by
      refine ⟨((entered s af m).runs L.label (straight [bitA 0])).main.af, ?_, ?_⟩
      · simp [entered]
      · simp [entered, haf, Uart.flag_interrupt, hbyte]
    refine ⟨m, af', hm, fun z hz => ?_⟩
    rw [if_pos hbyte] at hz
    refine Reaches.through (p := [di, exx, exAf]) rfl rfl (hstatus z ?_)
    refine Reaches.through (p := [pop .hl, push .hl]) rfl hpop ?_
    refine Reaches.branch rfl hruns (q := false) (by rw [← Bool.not_true, ← hbyte]; exact hzero) ?_
    exact Reaches.branch rfl hruns' hzero' hz
  · refine ⟨m, af, hm, fun z hz => ?_⟩
    rw [if_neg hbyte] at hz
    refine Reaches.through (p := [di, exx, exAf]) rfl rfl (hstatus z ?_)
    refine Reaches.through (p := [pop .hl, push .hl]) rfl hpop ?_
    exact Reaches.branch rfl hruns (q := true) (hzero.trans (by simpa using hbyte)) hz

/-! ## What goes on behind it -/

/-- What has been interrupted goes on. Nothing has changed but the other set of registers, the
status, what is below the stack, and the devices that have been asked. -/
structure Resumed (s t : KernelCpu κ) : Prop where
  main : t.main = s.main
  ix : t.ix = s.ix
  iy : t.iy = s.iy
  sp : t.sp = s.sp + 2
  interrupts : t.interrupts = true
  words : t.words = s.words
  banks : t.bus.banks = s.bus.banks
  bank : t.bus.bank = s.bus.bank
  bytes : ∀ v, v ≠ .currentStatus → t.bytes v = s.bytes v
  status : t.bytes .currentStatus = s.bytes .currentStatus &&& 0b11111101 ||| 0b00000010

/-- The state after the timer has been asked. -/
def ticked (s : KernelCpu κ) (af : Word) : KernelCpu κ :=
  { s with
    main := { s.main with af := af }
    bus := { s.bus with timer := 0 } }

/-- The handler asks the timer. -/
theorem interruptSkip2_reaches : ∃ af, ∀ z,
    Reaches L (.code (if s.bus.timer = 1 then kernelCode sym .timerHandler
      else kernelCode sym .interruptHandleRet), ticked s af) z →
    Reaches L (.code (kernelCode sym .interruptSkip2), s) z := by
  obtain ⟨af, hruns, hzero⟩ : ∃ af, s.runs L.label (straight interruptSkip2) = ticked s af ∧
      Cond.nz.holds af = decide (s.bus.timer ≠ 1) := by
    refine ⟨(s.runs L.label (straight interruptSkip2)).main.af, ?_, ?_⟩
    · simp [interruptSkip2, ticked]
    · rw [Bool.eq_iff_iff]
      simp [interruptSkip2]
  refine ⟨af, fun z hz => Reaches.branch rfl hruns hzero ?_⟩
  by_cases h : s.bus.timer = 1
  · rw [if_pos h] at hz
    rw [if_neg (by simpa using h)]
    exact Reaches.head rfl hz
  · rw [if_neg h] at hz
    rw [if_pos (by simpa using h)]
    exact Reaches.head rfl (Reaches.head rfl hz)

/-- A state of the handler from which it can go back. -/
structure Handling (s u : KernelCpu κ) : Prop where
  alt : u.alt = s.main
  ix : u.ix = s.ix
  iy : u.iy = s.iy
  sp : u.sp = s.sp
  words : u.words = s.words
  bytes : u.bytes = Function.update s.bytes .currentStatus (s.bytes .currentStatus &&& 0b11111101)
  banks : u.bus.banks = s.bus.banks
  bank : u.bus.bank = s.bus.bank
  top : u.top = s.top

/-- The state behind the start of the handler is one in which an interrupt is handled. -/
theorem Handling.entered (af : Word) (hm : OffStack s.bus s.sp 4 m) :
    Handling s (entered s af m) where
  alt := rfl
  ix := rfl
  iy := rfl
  sp := rfl
  words := rfl
  bytes := rfl
  banks := rfl
  bank := rfl
  top := hm.readWord (by omega)

/-- The handler goes back from there. -/
theorem Handling.resumed (h : Handling s u) : ∃ m, OffStack u.bus s.sp 4 m ∧
    Reaches L (.code (kernelCode sym .interruptHandleRet), u) (L.place s.top, handled u m) ∧
      Resumed s (handled u m) := by
  obtain ⟨m, hm, hret⟩ := handleRet_reaches (L := L) (s := u)
  rw [h.top] at hret
  rw [h.sp] at hm
  refine ⟨m, hm, hret, ?_⟩
  constructor
  case main => exact h.alt
  case ix => exact h.ix
  case iy => exact h.iy
  case sp => exact congrArg (· + 2) h.sp
  case interrupts => rfl
  case words => exact h.words
  case banks => exact h.banks
  case bank => exact h.bank
  case bytes =>
    intro v hv
    simp [handled, statusIs, h.bytes, hv]
  case status =>
    simp [handled, statusIs, intOff, h.bytes]

/-- **An interrupt for no known reason** leaves everything as it is. -/
theorem interrupt_unknown (hbyte : s.bus.uart.received = none) (htimer : s.bus.timer ≠ 1) :
    ∃ t, Reaches L (.code (kernelCode sym .interruptHandler), s) (L.place s.top, t) ∧ Resumed s t ∧
      OffStack s.bus s.sp 4 t.bus.ram ∧ t.bus.vars = s.bus.vars := by
  obtain ⟨m, af, hm, henter⟩ := interruptHandler_reaches (L := L) (s := s)
  obtain ⟨af', htick⟩ := interruptSkip2_reaches (L := L) (s := entered s af m)
  have hhandling : Handling s (ticked (entered s af m) af') :=
    { Handling.entered af hm with top := hm.readWord (by omega) }
  obtain ⟨m', hm', hret, hres⟩ := hhandling.resumed (L := L)
  rw [hbyte] at henter
  rw [if_neg (show (entered s af m).bus.timer ≠ 1 from htimer)] at htick
  exact ⟨_, henter _ (htick _ hret), hres, hm.trans hm', rfl⟩

/-- What follows when a process has been interrupted by the timer. -/
def timerSwitch (sym : Symbols) : KernelCode := (kernelCode sym .timerHandler).drop 3

/-- The handler of the timer asks whether the kernel is at work.

**Proof sketch.** The call answers whether the light of the kernel is on, and the comparison has the
answer as its flag. -/
theorem timerHandler_reaches : ∃ m af, OffStack s.bus s.sp 2 m ∧ ∀ z,
    Reaches L (.code (if inKernel s then kernelCode sym .interruptHandleRet else timerSwitch sym),
      { s with main := { s.main with af := af }, bus := s.bus.withRam m }) z →
    Reaches L (.code (kernelCode sym .timerHandler), s) z := by
  have hentry := Program.entry_drop (P := kernel sym native) .timerHandler 0 rfl
  let w := L.addr ((kernelCode sym .timerHandler).drop 1)
  obtain ⟨f, hf⟩ := fulfils_statusIsSetKernel (L := L)
    (s := s.pushWord w)
  -- the state with the answer, and after the comparison
  let v : KernelCpu κ := { s with
    main := { s.main with af := word (if inKernel s then 1 else 0) f }
    bus := (s.pushWord w).bus }
  have hv : (s.pushWord w).drop.setAf
      (word (if inKernel s then 1 else 0) f) = v := by
    simp [v]
  have hin : inKernel (s.pushWord w) = inKernel s := rfl
  rw [hin, hv] at hf
  obtain ⟨af, hruns, hzero⟩ : ∃ af, v.runs L.label (straight [cpImm 0]) =
      { v with main := { v.main with af := af } } ∧ Cond.nz.holds af = inKernel s := by
    refine ⟨(v.runs L.label (straight [cpImm 0])).main.af, by simp, ?_⟩
    cases h : inKernel s <;> simp [v, h]
  refine ⟨(s.pushWord w).bus.ram, af, OffStack.push,
    fun z hz => hf.call hentry (Reaches.branch rfl hruns hzero ?_)⟩
  cases h : inKernel s with
  | false =>
    rw [h] at hz
    exact hz
  | true =>
    rw [h] at hz
    exact Reaches.head rfl hz

/-- **A tick of the timer while the kernel is at work** leaves everything as it is.

**Proof sketch.** The handler asks the serial port, the timer and the light of the kernel in turn,
and goes back (`Handling.resumed`). The calls in between push below the address that it goes back
to. -/
theorem interrupt_kernel (hbyte : s.bus.uart.received = none) (htimer : s.bus.timer = 1)
    (hkernel : inKernel s = true) :
    ∃ t, Reaches L (.code (kernelCode sym .interruptHandler), s) (L.place s.top, t) ∧ Resumed s t ∧
      OffStack s.bus s.sp 4 t.bus.ram ∧ t.bus.vars = s.bus.vars := by
  obtain ⟨m, af, hm, henter⟩ := interruptHandler_reaches (L := L) (s := s)
  obtain ⟨af', htick⟩ := interruptSkip2_reaches (L := L) (s := entered s af m)
  rw [hbyte] at henter
  rw [if_pos (show (entered s af m).bus.timer = 1 from htimer)] at htick
  obtain ⟨m', af'', hm', hhandle⟩ :=
    timerHandler_reaches (L := L) (s := ticked (entered s af m) af')
  have hin : inKernel (ticked (entered s af m) af') = true := by
    rw [← hkernel]
    simp [inKernel, ticked, entered, statusIs, flag]
  rw [hin] at hhandle
  have hoff : OffStack s.bus s.sp 4 m' := hm.trans (OffStack.mono hm' (by omega))
  have hhandling : Handling s { ticked (entered s af m) af' with
      main := { (entered s af m).main with af := af'' }
      bus := (ticked (entered s af m) af').bus.withRam m' } :=
    { Handling.entered af hm with top := hoff.readWord (by omega) }
  obtain ⟨m'', hm'', hret, hres⟩ := hhandling.resumed (L := L)
  exact ⟨_, henter _ (htick _ (hhandle _ hret)), hres, hoff.trans hm'', rfl⟩

/-- The kernel is at work, and the timer asks for an interrupt. -/
def kernelTicked : KernelCpu Unit :=
  { restingCpu (memoryWith [(.low 0x7000, 0x34)]) ⟨1, 2, 3, 4⟩ 0x7000 with
    bytes := fun _ => 0
    bus := { (restingCpu (memoryWith [(.low 0x7000, 0x34)]) ⟨1, 2, 3, 4⟩ 0x7000).bus with
      timer := 1 } }

/-- A tick while the light of the kernel is on, from a state in the kernel. -/
theorem interrupt_kernel_ticked : ∃ t,
    Reaches (kernelLayout someSymbols restingC)
      (.code (kernelCode someSymbols .interruptHandler), kernelTicked)
      ((kernelLayout someSymbols restingC).place kernelTicked.top, t) ∧ Resumed kernelTicked t ∧
        OffStack kernelTicked.bus kernelTicked.sp 4 t.bus.ram ∧
          t.bus.vars = kernelTicked.bus.vars :=
  interrupt_kernel rfl rfl (by decide)

/-! ## Functions in C -/

/-- A byte of RAM that is not a variable of the kernel: these are below a limit. -/
def Kept (limit : Word) (x : Cell) : Prop := ∀ a, x = .low a → limit ≤ a

/-- RAM that differs from that of a board in variables of the kernel, and in `n` bytes below an
address at most. -/
def Disturbed (limit : Word) (b : Board κ) (a : Word) (n : ℕ) (m : Cell → UInt8) : Prop :=
  ∀ x, Kept limit x → (∀ j < n, x ≠ b.cell (a - BitVec.ofNat 16 (j + 1))) → m x = b.ram x

/-- What a function in C leaves as it is. It may use some bytes below its stack. -/
structure Returns (limit : Word) (depth : ℕ) (s t : KernelCpu κ) : Prop where
  alt : t.alt = s.alt
  ix : t.ix = s.ix
  sp : t.sp = s.sp
  interrupts : t.interrupts = s.interrupts
  words : t.words = s.words
  bytes : t.bytes = s.bytes
  board : t.bus = { s.bus with ram := t.bus.ram, vars := t.bus.vars }
  ram : Disturbed limit s.bus s.sp depth t.bus.ram

section

variable {limit a w : Word} {depth n k : ℕ} {b : Board κ} {m' : Cell → UInt8} {f : CFunction}

namespace Disturbed

/-- What changes below the stack only is a change that the functions in C may make. -/
theorem of_offStack (h : OffStack b a n m) : Disturbed limit b a n m := fun x _ hx => h x hx

/-- More bytes below the stack may have changed. -/
theorem mono (h : Disturbed limit b a n m) (hn : n ≤ k) : Disturbed limit b a k m :=
  fun x hkept hx => h x hkept fun j hj => hx j (by omega)

/-- Two changes one after the other. -/
theorem trans (h : Disturbed limit b a n m) (h' : Disturbed limit (b.withRam m) a n m') :
    Disturbed limit b a n m' :=
  fun x hkept hx => (h' x hkept hx).trans (h x hkept hx)

/-- What changes below an address changes below one above it, too. -/
theorem below (h : Disturbed limit b (a - BitVec.ofNat 16 k) n m) :
    Disturbed limit b a (n + k) m := by
  intro x hkept hx
  refine h x hkept fun j hj => ?_
  have hsub :
      a - BitVec.ofNat 16 k - BitVec.ofNat 16 (j + 1) = a - BitVec.ofNat 16 (j + k + 1) := by
    bv_omega
  rw [hsub]
  exact hx (j + k) (by omega)

/-- A word on the stack is still there. -/
theorem readWord (h : Disturbed limit b a n m) (hn : n ≤ 0xfffe)
    (hkept : ∀ i < 2, Kept limit (b.cell (a + BitVec.ofNat 16 i))) :
    Bus.readWord (b.withRam m) a = Bus.readWord b a := by
  refine readWord_congr fun i hi => h _ (hkept i hi) fun j hj heq => ?_
  have hadd := Board.cell_inj.mp heq
  bv_omega

end Disturbed

/-- The address that the function returns to is still there. -/
theorem Returns.top (h : Returns limit depth s t) (hdepth : depth ≤ 0xfffe)
    (hkept : ∀ i < 2, Kept limit (s.bus.cell (s.sp + BitVec.ofNat 16 i))) : t.top = s.top := by
  show Bus.readWord t.bus t.sp = Bus.readWord s.bus s.sp
  rw [h.sp, h.board]
  exact h.ram.readWord hdepth hkept

/-- RAM after a call of the function, with the address that it returned to. -/
theorem Returns.disturbed (h : Returns limit depth (s.pushWord w) t) :
    Disturbed limit s.bus s.sp (depth + 2) t.bus.ram := by
  have hpush : OffStack s.bus s.sp 2 (s.pushWord w).bus.ram := OffStack.push
  exact ((Disturbed.of_offStack hpush).mono (by omega)).trans (Disturbed.below (k := 2) h.ram)

/-- A call of a function in C. -/
theorem call_native (hc : (kernel sym native).Entry c)
    (hr : Returns limit depth (s.pushWord (L.addr c)) (native f (s.pushWord (L.addr c))))
    (hdepth : depth ≤ 0xfffe)
    (hkept : ∀ i < 2, Kept limit (s.bus.cell (s.sp - 2#16 + BitVec.ofNat 16 i)))
    (hz : Reaches L (.code c, (native f (s.pushWord (L.addr c))).drop) z) :
    Reaches L (.code (call (.c f) :: c), s) z := by
  have htop : (native f (s.pushWord (L.addr c))).top = L.addr c :=
    (hr.top hdepth hkept).trans Cpu.top_pushWord
  refine Reaches.head rfl (Reaches.head rfl (Reaches.head rfl ?_))
  show Reaches L (L.place (native f (s.pushWord (L.addr c))).top, _) z
  rw [htop, Layout.place_addr hc]
  exact hz

end

/-- **A byte that has been received** is given to the terminal. The function for it must not use
`IY`, which is not saved.

**Proof sketch.** The port has a byte (`interruptHandler_reaches`). It is read and is in `A` when
the function in C is called, which comes back with the stack as it was (`Returns`). Its frame does
not reach the address on the stack, so that the handler goes back there (`Handling.resumed`). -/
theorem interrupt_serial {limit : Word} {depth : ℕ} {v : UInt8} {vars : κ}
    (hbyte : s.bus.uart.received = some v) (hdepth : depth ≤ 0x7ff0)
    (hput : ∀ u : KernelCpu κ, hi u.main.af = v → u.bus.vars = s.bus.vars →
      Returns limit depth u (native .terminalPut u) ∧ (native .terminalPut u).iy = u.iy ∧
        (native .terminalPut u).bus.vars = vars)
    (hkept : ∀ i < 4, Kept limit (s.bus.cell (s.sp - 2#16 + BitVec.ofNat 16 i))) :
    ∃ t, Reaches L (.code (kernelCode sym .interruptHandler), s) (L.place s.top, t) ∧ Resumed s t ∧
      Disturbed limit s.bus s.sp (depth + 4) t.bus.ram ∧ t.bus.vars = vars ∧
        t.bus.uart.received = none := by
  obtain ⟨m, af, hm, henter⟩ := interruptHandler_reaches (L := L) (s := s)
  rw [hbyte] at henter
  -- the byte is read, and the function called
  let u : KernelCpu κ := { entered s af m with
    main := { (entered s af m).main with af := word v (lo af) }
    bus := { (entered s af m).bus with uart := { s.bus.uart.polled with received := none } } }
  let w := L.addr ((kernelCode sym .serialReadHandler).drop 2)
  obtain ⟨hr, hiy, hvars⟩ := hput (u.pushWord w) hi_word rfl
  have hdist :
      Disturbed limit s.bus s.sp (depth + 4) (native .terminalPut (u.pushWord w)).bus.ram :=
    Disturbed.trans ((Disturbed.of_offStack hm).mono (by omega))
      (Disturbed.mono (n := depth + 2) hr.disturbed (by omega))
  have hsp : (native .terminalPut (u.pushWord w)).sp + 2 = s.sp := by
    rw [hr.sp]
    exact BitVec.sub_add_cancel ..
  have hboard : (native .terminalPut (u.pushWord w)).bus = { u.bus with
      ram := (native .terminalPut (u.pushWord w)).bus.ram, vars := vars } := by
    rw [← hvars]
    exact hr.board
  have htop : (native .terminalPut (u.pushWord w)).drop.top = s.top := by
    show Bus.readWord (native .terminalPut (u.pushWord w)).bus
      ((native .terminalPut (u.pushWord w)).sp + 2) = _
    rw [hsp, hboard]
    refine hdist.readWord (by omega) fun i hi => ?_
    have hadd : s.sp + BitVec.ofNat 16 i = s.sp - 2#16 + BitVec.ofNat 16 (i + 2) := by bv_omega
    rw [hadd]
    exact hkept (i + 2) (by omega)
  have hbanks : (native .terminalPut (u.pushWord w)).bus.banks = s.bus.banks := by rw [hboard]; rfl
  have hbank : (native .terminalPut (u.pushWord w)).bus.bank = s.bus.bank := by rw [hboard]; rfl
  have hhandling : Handling s (native .terminalPut (u.pushWord w)).drop :=
    ⟨hr.alt, hr.ix, hiy, hsp, hr.words, hr.bytes, hbanks, hbank, htop⟩
  obtain ⟨m', hm', hret, hres⟩ := hhandling.resumed (L := L)
  refine ⟨_, henter _ (Reaches.through (p := [inA 0x01]) rfl (t := u) ?_ ?_), hres, ?_, hvars, ?_⟩
  · simp [entered, u, Uart.inpData, Uart.polled, hbyte]
  · refine call_native (Program.entry_drop .serialReadHandler 1 rfl) hr (by omega)
      (fun i hi => hkept i (by omega)) (Reaches.head rfl hret)
  · have hoff : OffStack (native .terminalPut (u.pushWord w)).bus s.sp 4 m' := hm'
    rw [hboard] at hoff
    exact hdist.trans ((Disturbed.of_offStack hoff).mono (by omega))
  · show (native .terminalPut (u.pushWord w)).bus.uart.received = none
    rw [hboard]

end Z80OS.Asm
