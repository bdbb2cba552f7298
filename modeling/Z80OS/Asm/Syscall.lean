import Z80OS.Asm.Interrupt

set_option relaxedAutoImplicit false
set_option autoImplicit false

/-!
# System calls

A process calls the handler with the number of a call in `A`, twice the index in the table. The
handler puts the code that ends the call in place of the address that it is to return to, and jumps
through the table, with the arguments in the registers as they were. An odd number restarts the
kernel. Even numbers are not compared with the length of the table.

## Main definitions

* `Z80OS.Asm.Dispatched` — the state in front of the routine of a call.
* `Z80OS.Asm.Answered` — what the process finds when the call has returned.
* `Z80OS.Asm.TableIn` — the table is in RAM.

## Main results

* `Z80OS.Asm.syscallHandler_reaches` — the routine of a call is found in the table.
* `Z80OS.Asm.syscall_returns` — a call returns to the process when its routine does.
* `Z80OS.Asm.syscall_dispatches` — each number of the table calls the routine there.
* `Z80OS.Asm.syscall_native` — a call that a function in C serves returns to the process.
* `Z80OS.Asm.syscall_invalid` — an odd number restarts the kernel.
* `Z80OS.Asm.syscall_swrite`, `Z80OS.Asm.syscall_pexit` — two of the calls.
-/

namespace Z80OS.Asm

open Z80

variable {κ : Type} {sym : Symbols} {native : CFunction → KernelCpu κ → KernelCpu κ}
  {L : Layout (kernel sym native)} {s t u : KernelCpu κ} {l : Label}
  {z : Place kernelNames × KernelCpu κ} {m : Cell → UInt8}

/-! ## The way in -/

/-- The address of the entry for the number in `A`. -/
def tableEntry (sym : Symbols) (s : KernelCpu κ) : Word := sym.syscallTable + word 0 (hi s.main.af)

/-- The part of the handler in front of the test of the number. -/
def syscallSave : KernelCode :=
  [di, stVar16 .ix .syscallIx, push .hl, push .de, push .bc,
    ldImm16 .hl 6, addHl .sp, ldInd .e .hl, inc16 .hl, ldInd .d .hl,
    stVar16 .de .syscallRetAddress, .op (.ld16 (.reg .de) (.label Label.syscallRet)),
    ldImm16 .hl 6, addHl .sp, stInd .e .hl, inc16 .hl, stInd .d .hl]

/-- The part that finds the routine. -/
def syscallJump (sym : Symbols) : KernelCode :=
  [ldImm16 .hl sym.syscallTable, ldImm .d 0, ldReg .e .a, addHl .de,
    ldInd .e .hl, inc16 .hl, ldInd .d .hl, push .de, pop .ix,
    pop .bc, pop .de, pop .hl, .jpInd .ix]

/-- The handler of system calls saves registers, tests the number and jumps through the table. -/
theorem syscallHandler_eq : kernelCode sym .syscallHandler =
    syscallSave ++ bitA 0 :: jpNz .invalidSyscall :: push .af :: call .statusSetKernel ::
      pop .af :: syscallJump sym := rfl

/-- RAM when the arguments have been saved, and the address on the stack is the given one. -/
def argumentsSaved (s : KernelCpu κ) (ret : Word) : Board κ :=
  Bus.writeWord (pushAll s.bus s.sp [s.main.hl, s.main.de, s.main.bc]) s.sp ret

/-- The state in front of the test of the number. -/
def savedCall (s : KernelCpu κ) (af hl ret : Word) : KernelCpu κ :=
  { s with
    main := { s.main with af := af, de := ret, hl := hl }
    sp := s.sp - 6#16
    interrupts := false
    words := Function.update (Function.update s.words .syscallIx s.ix) .syscallRetAddress s.top
    bus := argumentsSaved s ret }

/-- **The arguments are saved**, and the address that the call returns to. -/
theorem syscallSave_runs : ∃ af hl, hi af = hi s.main.af ∧
    s.runs L.label (straight syscallSave) = savedCall s af hl (L.label .syscallRet) := by
  have hadd : 6#16 + (s.sp - 6#16) = s.sp := by bv_omega
  have hsub : s.sp - 2#16 - 2#16 - 2#16 = s.sp - 6#16 := by bv_omega
  have hoff : OffStack s.bus s.sp 6 (pushAll s.bus s.sp [s.main.hl, s.main.de, s.main.bc]).ram :=
    OffStack.pushAll [s.main.hl, s.main.de, s.main.bc]
  have htop : Bus.readWord (pushAll s.bus s.sp [s.main.hl, s.main.de, s.main.bc]) s.sp =
      Bus.readWord s.bus s.sp := hoff.readWord (by omega)
  refine ⟨(s.runs L.label (straight syscallSave)).main.af,
    (s.runs L.label (straight syscallSave)).main.hl, by simp [syscallSave], ?_⟩
  rw [pushAll, pushAll, pushAll, pushAll, hsub] at htop
  simp [syscallSave, savedCall, argumentsSaved, pushAll, hsub, hadd]
  exact ⟨congrArg (Function.update _ _) htop, rfl⟩

/-- An even number is looked up, an odd one is not. -/
theorem syscallHandler_branch : ∃ af hl, hi af = hi s.main.af ∧ ∀ z,
    Reaches L (.code (if flag (hi s.main.af) 0 then kernelCode sym .invalidSyscall
      else push .af :: call .statusSetKernel :: pop .af :: syscallJump sym),
        savedCall s af hl (L.label .syscallRet)) z →
    Reaches L (.code (kernelCode sym .syscallHandler), s) z := by
  obtain ⟨af, hl, haf, hsave⟩ := syscallSave_runs (L := L) (s := s)
  obtain ⟨af', hruns, hzero, haf'⟩ : ∃ af', (savedCall s af hl (L.label .syscallRet)).runs L.label
      (straight [bitA 0]) = savedCall s af' hl (L.label .syscallRet) ∧
        Cond.nz.holds af' = flag (hi s.main.af) 0 ∧ hi af' = hi s.main.af := by
    refine ⟨((savedCall s af hl (L.label .syscallRet)).runs L.label (straight [bitA 0])).main.af,
      ?_, ?_, ?_⟩ <;> simp [savedCall, haf]
  refine ⟨af', hl, haf', fun z hz => ?_⟩
  rw [syscallHandler_eq]
  exact Reaches.through rfl hsave (Reaches.branch rfl hruns hzero hz)

/-- The state in front of the routine of a call: the arguments are in the registers, interrupts are
off, and the light of the kernel is on. -/
structure Dispatched (ret target : Word) (s u : KernelCpu κ) : Prop where
  a : hi u.main.af = hi s.main.af
  bc : u.main.bc = s.main.bc
  de : u.main.de = s.main.de
  hl : u.main.hl = s.main.hl
  alt : u.alt = s.alt
  ix : u.ix = target
  iy : u.iy = s.iy
  sp : u.sp = s.sp
  interrupts : u.interrupts = false
  words : u.words =
    Function.update (Function.update s.words .syscallIx s.ix) .syscallRetAddress s.top
  bytes : u.bytes = Function.update s.bytes .currentStatus (s.bytes .currentStatus &&& 0b11111011)
  board : u.bus = { s.bus with ram := u.bus.ram, status := s.bytes .currentStatus &&& 0b11111011 }
  ram : OffStack (Bus.writeWord s.bus s.sp ret) s.sp 12 u.bus.ram

/-- The entry of the table is not on the stack. -/
def TableApart (sym : Symbols) (s : KernelCpu κ) : Prop :=
  ∀ i < 2, ∀ j < 14, tableEntry sym s + BitVec.ofNat 16 i ≠ s.sp + 2#16 - BitVec.ofNat 16 (j + 1)

/-- The arguments are below the address that the call returns to. -/
theorem argumentsSaved_ram {ret : Word} :
    OffStack (Bus.writeWord s.bus s.sp ret) s.sp 6 (argumentsSaved s ret).ram :=
  (OffStack.pushAll [s.main.hl, s.main.de, s.main.bc]).writeWord

/-- The arguments lie on the stack. -/
theorem argumentsSaved_stacked {ret : Word} :
    Stacked (argumentsSaved s ret) (s.sp - 6#16) [s.main.bc, s.main.de, s.main.hl] := by
  have hpush : Stacked (pushAll s.bus s.sp [s.main.hl, s.main.de, s.main.bc]) (s.sp - 6#16)
      [s.main.bc, s.main.de, s.main.hl] :=
    Stacked.pushAll [s.main.hl, s.main.de, s.main.bc] (show Stacked s.bus s.sp [] from trivial)
      (by simp)
  refine hpush.congr fun i hi => ?_
  have hlen : i < 6 := hi
  exact read_writeWord_of_ne (by bv_omega) (by bv_omega)

/-- **The jump** to a routine, with the arguments from the stack. -/
theorem syscallJump_reaches {bc de hl target : Word} (hs : Stacked s.bus s.sp [bc, de, hl])
    (htarget : Bus.readWord s.bus (tableEntry sym s) = target) :
    ∃ af, hi af = hi s.main.af ∧ Reaches L (.code (syscallJump sym), s)
      (L.place target, { s with
        main := { af := af, bc := bc, de := de, hl := hl }
        ix := target
        sp := s.sp + 6#16
        bus := Bus.writeWord s.bus (s.sp - 2#16) target }) := by
  have hdrop : Stacked (Bus.writeWord s.bus (s.sp - 2#16) target) s.sp [bc, de, hl] :=
    OffStack.push.stacked hs (by simp)
  obtain ⟨hbc, hde, hhl, -⟩ := hdrop
  simp only [BitVec.ofNat_eq_ofNat, BitVec.add_assoc, BitVec.reduceAdd] at hde hhl
  have hentry : word (Bus.read s.bus (sym.syscallTable + (word 0 (hi s.main.af) + 1#16)))
      (Bus.read s.bus (sym.syscallTable + word 0 (hi s.main.af))) = target := by
    rw [← htarget, ← BitVec.add_assoc]
    rfl
  refine ⟨(s.runs L.label (straight (syscallJump sym))).main.af, by simp [syscallJump], ?_⟩
  refine Reaches.straight (Reaches.head rfl ?_)
  simp [syscallJump, hentry, hbc, hde, hhl, BitVec.add_assoc]
  exact Reaches.refl

/-- The table is still there when the arguments have been saved. -/
theorem TableApart.readWord {ret : Word} (h : TableApart sym s)
    (hm : OffStack (Bus.writeWord s.bus s.sp ret) s.sp 12 m) :
    Bus.readWord (s.bus.withRam m) (tableEntry sym s) = Bus.readWord s.bus (tableEntry sym s) := by
  refine readWord_congr fun i hi => ?_
  have hwrite : Bus.read (Bus.writeWord s.bus s.sp ret) (tableEntry sym s + BitVec.ofNat 16 i) =
      Bus.read s.bus (tableEntry sym s + BitVec.ofNat 16 i) := by
    have h0 := h i hi 0 (by omega)
    have h1 := h i hi 1 (by omega)
    exact read_writeWord_of_ne (by bv_omega) (by bv_omega)
  refine (hm _ fun j hj heq => ?_).trans hwrite
  have hadd := Board.cell_inj.mp heq
  have hne := h i hi (j + 2) (by omega)
  bv_omega

/-- **The routine of a call** is found in the table.

**Proof sketch.** The handler saves the arguments and the number is even (`syscallHandler_branch`).
The light of the kernel is switched on with `AF` kept (`call_keepAf`). The stack does not reach the
table, so that the entry is read as it was, and the arguments are taken from the stack again
(`syscallJump_reaches`). -/
theorem syscallHandler_reaches (heven : flag (hi s.main.af) 0 = false)
    (hapart : TableApart sym s) :
    ∃ u, Dispatched (L.label .syscallRet) (Bus.readWord s.bus (tableEntry sym s)) s u ∧
      Reaches L (.code (kernelCode sym .syscallHandler), s)
        (L.place (Bus.readWord s.bus (tableEntry sym s)), u) := by
  obtain ⟨af, hl, haf, hbranch⟩ := syscallHandler_branch (L := L) (s := s)
  let v := savedCall s af hl (L.label .syscallRet)
  obtain ⟨m, hm, hkeep⟩ := call_keepAf (L := L) (s := v) (l := .statusSetKernel)
    (v := s.bytes .currentStatus &&& 0b11111011)
    (fun u hu => by
      have hstatus : u.bytes .currentStatus = s.bytes .currentStatus := by rw [hu]; rfl
      rw [← hstatus]
      exact fulfils_statusSet rfl)
    (Program.entry_drop .syscallHandler 20 rfl)
  have hoff : OffStack (Bus.writeWord s.bus s.sp (L.label .syscallRet)) s.sp 12 m :=
    (argumentsSaved_ram.mono (by omega)).trans (OffStack.below (k := 6) (n := 6) hm)
  let w := statusIs v (s.bytes .currentStatus &&& 0b11111011) m
  have hstacked : Stacked w.bus w.sp [s.main.bc, s.main.de, s.main.hl] :=
    OffStack.stacked (b := argumentsSaved s (L.label .syscallRet)) (n := 6) hm
    argumentsSaved_stacked
      (by simp)
  have htarget : Bus.readWord w.bus (tableEntry sym w) =
      Bus.readWord s.bus (tableEntry sym s) := by
    have hentry : tableEntry sym w = tableEntry sym s := by
      show sym.syscallTable + word 0 (hi af) = _
      rw [haf]
      rfl
    rw [hentry]
    exact hapart.readWord hoff
  obtain ⟨af', haf', hjump⟩ := syscallJump_reaches (L := L) (s := w) hstacked htarget
  rw [heven] at hbranch
  refine ⟨_, ?_, hbranch _ (hkeep _ hjump)⟩
  constructor
  case a => exact haf'.trans haf
  case sp =>
    show s.sp - 6#16 + 6#16 = s.sp
    bv_omega
  case ram =>
    have hpush : OffStack w.bus (s.sp - 6#16) 2 (Bus.writeWord w.bus (w.sp - 2#16)
        (Bus.readWord s.bus (tableEntry sym s))).ram := OffStack.push
    exact hoff.trans ((OffStack.below (k := 6) hpush).mono (by omega))
  all_goals rfl

/-- The address that a routine is to return to is on the stack. -/
theorem Dispatched.top {ret target : Word} (h : Dispatched ret target s u) : u.top = ret := by
  have hread : Bus.readWord ((Bus.writeWord s.bus s.sp ret).withRam u.bus.ram) s.sp =
      Bus.readWord (Bus.writeWord s.bus s.sp ret) s.sp := h.ram.readWord (by omega)
  show Bus.readWord u.bus u.sp = _
  rw [h.sp, h.board]
  exact hread.trans readWord_writeWord_self

/-- A call that has been dispatched has the bank of the caller selected. -/
theorem Dispatched.cell {ret target : Word} (h : Dispatched ret target s u) :
    u.bus.cell = s.bus.cell := by
  rw [h.board]
  rfl

/-- RAM has changed only where the address is that the call returns to, and below. -/
theorem Dispatched.offStack {ret target : Word} (h : Dispatched ret target s u) :
    OffStack s.bus (s.sp + 2) 14 u.bus.ram := by
  have hsp : s.sp + 2 - BitVec.ofNat 16 2 = s.sp := BitVec.add_sub_cancel ..
  have hret : OffStack s.bus (s.sp + 2) 2 (Bus.writeWord s.bus s.sp ret).ram := by
    have hpush := OffStack.push (b := s.bus) (a := s.sp + 2) (w := ret)
    rwa [show s.sp + 2 - 2#16 = s.sp from hsp] at hpush
  have hsaved : OffStack (Bus.writeWord s.bus s.sp ret) (s.sp + 2) 14 u.bus.ram :=
    OffStack.below (k := 2) (hsp.symm ▸ h.ram)
  exact (hret.mono (by omega)).trans hsaved

/-- A byte that is not there is as it was. -/
theorem Dispatched.read {ret target a : Word} (h : Dispatched ret target s u)
    (ha : ∀ j < 14, a ≠ s.sp + 2#16 - BitVec.ofNat 16 (j + 1)) :
    Bus.read u.bus a = Bus.read s.bus a := by
  rw [Board.read_eq, h.cell]
  exact h.offStack _ fun j hj heq => ha j hj (Board.cell_inj.mp heq)

/-! ## The way back -/

/-- **The end of a call** goes to the address that has been kept. -/
theorem syscallRet_reaches : ∃ m, OffStack s.bus s.sp 6 m ∧
    Reaches L (.code (kernelCode sym .syscallRet), s)
      (L.place (s.words .syscallRetAddress),
        { statusIs s (s.bytes .currentStatus ||| 0b00000100) m with
          main := { s.main with hl := s.words .syscallRetAddress }
          ix := s.words .syscallIx
          interrupts := true }) := by
  obtain ⟨m, hm, hkeep⟩ := call_keepAf (L := L) (s := s) (l := .statusClrKernel)
    (v := s.bytes .currentStatus ||| 0b00000100)
    (fun u hu => by
      have hstatus : u.bytes .currentStatus = s.bytes .currentStatus := by rw [hu]
      rw [← hstatus]
      exact fulfils_statusClr rfl)
    (Program.entry_drop .syscallRet 1 rfl)
  refine ⟨m, hm, hkeep _ (Reaches.straight (Reaches.head rfl ?_))⟩
  exact Reaches.refl

/-- What a process finds when a call has returned: what the routine has left, but for `HL`, which
has the address, `IX`, which is as it was, the light of the kernel, and what is below the stack. -/
structure Answered (s t t' : KernelCpu κ) : Prop where
  af : t'.main.af = t.main.af
  bc : t'.main.bc = t.main.bc
  de : t'.main.de = t.main.de
  hl : t'.main.hl = s.top
  alt : t'.alt = t.alt
  ix : t'.ix = s.ix
  iy : t'.iy = t.iy
  sp : t'.sp = s.sp + 2
  interrupts : t'.interrupts = true
  bytes : t'.bytes =
    Function.update t.bytes .currentStatus (t.bytes .currentStatus ||| 0b00000100)
  board : t'.bus = { t.bus with
    ram := t'.bus.ram, status := t.bytes .currentStatus ||| 0b00000100 }
  ram : OffStack t.bus (s.sp + 2) 6 t'.bus.ram

/-- **A call returns** to the process when its routine does. The routine may do what it likes, but
for the variables of the handler.

**Proof sketch.** The jump leads to the routine (`syscallHandler_reaches`), whose return address is
the end of the handler. This one goes to the address that has been kept when the call came in
(`syscallRet_reaches`), because the routine does not touch the variables of the handler. -/
theorem syscall_returns {R : KernelCpu κ → KernelCpu κ → Prop}
    (heven : flag (hi s.main.af) 0 = false) (hapart : TableApart sym s)
    (hl : Bus.readWord s.bus (tableEntry sym s) = L.label l)
    (hroutine : ∀ u, Dispatched (L.label .syscallRet) (L.label l) s u →
      ∃ t, Fulfils L l u t ∧ t.sp = u.sp + 2 ∧ t.words = u.words ∧ R u t) :
    ∃ u t t', Dispatched (L.label .syscallRet) (L.label l) s u ∧ R u t ∧ Answered s t t' ∧
      Reaches L (.code (kernelCode sym .syscallHandler), s) (L.place s.top, t') := by
  obtain ⟨u, hu, hjump⟩ := syscallHandler_reaches (L := L) heven hapart
  rw [hl] at hu hjump
  obtain ⟨t, ht, hsp, hwords, hR⟩ := hroutine u hu
  have hentry : (kernel sym native).Entry (kernelCode sym l) := .inl ⟨l, rfl⟩
  have hret : (kernel sym native).Entry (kernelCode sym .syscallRet) := .inl ⟨.syscallRet, rfl⟩
  have hplace : L.place (L.label l) = .code (kernelCode sym l) := Layout.place_addr hentry
  have hplace' : L.place u.top = .code (kernelCode sym .syscallRet) := by
    rw [hu.top]
    exact Layout.place_addr hret
  have hback : Reaches L (.code (kernelCode sym l), u) (L.place u.top, t) := ht
  rw [hplace] at hjump
  rw [hplace'] at hback
  obtain ⟨m, hm, hend⟩ := syscallRet_reaches (L := L) (s := t)
  have hsp' : t.sp = s.sp + 2 := by rw [hsp, hu.sp]
  have haddress : t.words .syscallRetAddress = s.top := by
    rw [hwords, hu.words, Function.update_self]
  have hix : t.words .syscallIx = s.ix := by
    rw [hwords, hu.words]
    simp
  rw [haddress, hix] at hend
  refine ⟨u, t, _, hu, hR, ?_, hjump.trans (hback.trans hend)⟩
  constructor
  case sp => exact hsp'
  case ram =>
    rw [hsp'] at hm
    exact hm
  all_goals rfl

/-! ## The table -/

/-- The table of the system calls is in RAM. -/
def TableIn (L : Layout (kernel sym native)) (s : KernelCpu κ) : Prop :=
  ∀ n (h : n < syscallTable.length),
    Bus.readWord s.bus (sym.syscallTable + BitVec.ofNat 16 (2 * n)) = L.label syscallTable[n]

/-- A number that is twice an index is even, and the offset of the entry. -/
theorem number_eq {v : UInt8} {n : ℕ} (h : v.toNat = 2 * n) :
    word 0 v = BitVec.ofNat 16 (2 * n) ∧ flag v 0 = false := by
  have hlo : (lo (word 0 v)).toNat + 256 * (hi (word 0 v)).toNat = (word 0 v).toNat := lo_add_hi
  rw [hi_word, lo_word, h] at hlo
  have hlt : v.toNat < 256 := v.toNat_lt
  constructor
  · apply BitVec.eq_of_toNat_eq
    rw [← hlo, BitVec.toNat_ofNat]
    show 2 * n + 256 * 0 = _
    omega
  · have hbit : flag v 0 = decide (v.toNat % 2 = 1) := by
      simp [flag, BitVec.getLsbD, Nat.testBit_zero]
    rw [hbit, h]
    simp

/-- **Each number** of the table is a call of the routine that the table has for it.

**Proof sketch.** A number that is twice an index is even and is the offset of the entry
(`number_eq`), and the handler jumps to what the entry has (`syscallHandler_reaches`). -/
theorem syscall_dispatches {n : ℕ} (htable : TableIn L s) (hapart : TableApart sym s)
    (hn : n < syscallTable.length) (ha : (hi s.main.af).toNat = 2 * n) :
    ∃ u, Dispatched (L.label .syscallRet) (L.label syscallTable[n]) s u ∧
      Reaches L (.code (kernelCode sym .syscallHandler), s)
        (.code (kernelCode sym syscallTable[n]), u) := by
  obtain ⟨hentry, heven⟩ := number_eq ha
  have htarget : Bus.readWord s.bus (tableEntry sym s) = L.label syscallTable[n] := by
    rw [tableEntry, hentry]
    exact htable n hn
  obtain ⟨u, hu, hjump⟩ := syscallHandler_reaches (L := L) heven hapart
  rw [htarget] at hu hjump
  have hcode : (kernel sym native).Entry (kernelCode sym syscallTable[n]) := .inl ⟨_, rfl⟩
  have hplace : L.place (L.label syscallTable[n]) = .code (kernelCode sym syscallTable[n]) :=
    Layout.place_addr hcode
  rw [hplace] at hjump
  exact ⟨u, hu, hjump⟩

/-- RAM with the table of the system calls. -/
noncomputable def tableMemory (x : Cell) : UInt8 :=
  match x with
  | .low a =>
    let k := (a - 0x0800#16).toNat
    match syscallTable[k / 2]? with
    | some l =>
      if k % 2 = 0 then lo ((kernelLayout someSymbols restingC).label l)
      else hi ((kernelLayout someSymbols restingC).label l)
    | none => 0
  | .bank .. => 0

/-- A call with a number. -/
noncomputable def numberedCall (n : UInt8) : KernelCpu Unit :=
  restingCpu tableMemory ⟨word n 0, 0, 0, 0⟩ 0xf000

/-- The calls of the example have the table in RAM.

**Proof sketch.** Each of the two bytes of an entry is looked up in the example's RAM by its place
in the table. -/
theorem tableIn_numberedCall {n : UInt8} :
    TableIn (kernelLayout someSymbols restingC) (numberedCall n) := by
  intro i hlen
  have hlt : i < 22 := hlen
  have hget : syscallTable[i]? = some syscallTable[i] := List.getElem?_eq_getElem hlen
  -- a byte of the table, by its place in the entry
  have hbyte : ∀ j < 2, Bus.read (numberedCall n).bus (0x0800#16 + BitVec.ofNat 16 (2 * i + j)) =
      if j = 0 then lo ((kernelLayout someSymbols restingC).label syscallTable[i])
      else hi ((kernelLayout someSymbols restingC).label syscallTable[i]) := by
    intro j hj
    have hk : (0x0800#16 + BitVec.ofNat 16 (2 * i + j) - 0x0800#16).toNat = 2 * i + j := by bv_omega
    have hdiv : (2 * i + j) / 2 = i := by omega
    have hmod : (2 * i + j) % 2 = j := by omega
    rw [Board.read_eq, Board.cell, cellIn_low (by bv_omega)]
    show tableMemory (.low (0x0800#16 + BitVec.ofNat 16 (2 * i + j))) = _
    simp only [tableMemory, hk, hdiv, hmod, hget]
  have hadd : 0x0800#16 + BitVec.ofNat 16 (2 * i) + 1 =
      0x0800#16 + BitVec.ofNat 16 (2 * i + 1) := by bv_omega
  have h0 := hbyte 0 (by omega)
  have h1 := hbyte 1 (by omega)
  rw [Nat.add_zero, if_pos rfl] at h0
  rw [if_neg (by omega)] at h1
  calc Bus.readWord (numberedCall n).bus (0x0800#16 + BitVec.ofNat 16 (2 * i))
    _ = word (hi ((kernelLayout someSymbols restingC).label syscallTable[i]))
        (lo ((kernelLayout someSymbols restingC).label syscallTable[i])) := by
      rw [Bus.readWord, hadd, h1, h0]
    _ = _ := word_hi_lo

/-- The table is apart from the stack of the caller. -/
theorem tableApart_numberedCall {n : UInt8} : TableApart someSymbols (numberedCall n) := by
  intro i hlt j hj
  have hword := lo_add_hi (w := word 0 n)
  rw [hi_word, lo_word] at hword
  have := n.toNat_lt
  have hsmall : (word 0 n).toNat < 256 := by
    rw [← hword]
    show n.toNat + 256 * 0 < 256
    omega
  show 0x0800#16 + word 0 (hi (word n 0)) + BitVec.ofNat 16 i ≠
    0xf000#16 + 2#16 - BitVec.ofNat 16 (j + 1)
  rw [hi_word]
  bv_omega

/-- The call with the number 8 comes to `file_open`. -/
theorem syscall_dispatches_eight : ∃ u,
    Dispatched ((kernelLayout someSymbols restingC).label .syscallRet)
      ((kernelLayout someSymbols restingC).label (.c .fileOpen)) (numberedCall 8) u ∧
      Reaches (kernelLayout someSymbols restingC)
        (.code (kernelCode someSymbols .syscallHandler), numberedCall 8)
        (.code (kernelCode someSymbols (.c .fileOpen)), u) :=
  syscall_dispatches (n := 4) tableIn_numberedCall tableApart_numberedCall (by decide) rfl

/-- What the handler relies on in a function in C: it leaves the stack pointer and the address that
it returns to, and the handler's variables. -/
structure ServesCall (u t : KernelCpu κ) : Prop where
  sp : t.sp = u.sp
  top : t.top = u.top
  words : t.words = u.words

/-- **A call that a function in C serves** returns to the process with what the function has left.

**Proof sketch.** The entry of the table is the code that calls the function. This one returns to
the end of the handler, which goes back to the process (`syscall_returns`). -/
theorem syscall_native {f : CFunction} {n : ℕ} (htable : TableIn L s) (hapart : TableApart sym s)
    (hn : syscallTable[n]? = some (.c f)) (ha : (hi s.main.af).toNat = 2 * n)
    (hf : ∀ u, Dispatched (L.label .syscallRet) (L.label (.c f)) s u → ServesCall u (native f u)) :
    ∃ u t, Dispatched (L.label .syscallRet) (L.label (.c f)) s u ∧
      Answered s (native f u).drop t ∧
        Reaches L (.code (kernelCode sym .syscallHandler), s) (L.place s.top, t) := by
  obtain ⟨hlt, hlabel⟩ := List.getElem?_eq_some_iff.mp hn
  obtain ⟨hentry, heven⟩ := number_eq ha
  have htarget : Bus.readWord s.bus (tableEntry sym s) = L.label (.c f) := by
    rw [tableEntry, hentry, htable n hlt, hlabel]
  obtain ⟨u, w, t, hu, rfl, hanswer, hreach⟩ := syscall_returns (L := L)
    (R := fun u w => w = (native f u).drop) heven hapart htarget (fun u hu => by
      have hserves := hf u hu
      refine ⟨(native f u).drop, ?_, congrArg (· + 2) hserves.sp, hserves.words, rfl⟩
      refine Fulfils.of_code rfl (Reaches.head rfl (Reaches.head rfl ?_))
      show Reaches L (L.place (native f u).top, _) _
      rw [hserves.top]
      exact Reaches.refl)
  exact ⟨u, t, hu, hanswer, hreach⟩

/-- The call with the number 2 comes to `terminal_get` and back to its caller. -/
theorem syscall_native_two : ∃ u t,
    Dispatched ((kernelLayout someSymbols restingC).label .syscallRet)
      ((kernelLayout someSymbols restingC).label (.c .terminalGet)) (numberedCall 2) u ∧
      Answered (numberedCall 2) (restingC .terminalGet u).drop t ∧
        Reaches (kernelLayout someSymbols restingC)
          (.code (kernelCode someSymbols .syscallHandler), numberedCall 2)
          ((kernelLayout someSymbols restingC).place (numberedCall 2).top, t) :=
  syscall_native (n := 1) tableIn_numberedCall tableApart_numberedCall rfl rfl
    fun _ _ => ⟨rfl, rfl, rfl⟩

/-! ## Some calls -/

/-- **An odd number** restarts the kernel, with the flag for a warm start.

**Proof sketch.** The handler tests the lowest bit of the number (`syscallHandler_branch`). The
other branch sets the flag and calls the warm start. -/
theorem syscall_invalid (hodd : flag (hi s.main.af) 0 = true) :
    ∃ t, Reaches L (.code (kernelCode sym .syscallHandler), s)
      (.code (kernelCode sym .resetWarm), t) ∧ t.bytes .startupFlags = 1 ∧
      t.interrupts = false := by
  obtain ⟨af, hl, haf, hbranch⟩ := syscallHandler_branch (L := L) (s := s)
  rw [hodd] at hbranch
  let v := savedCall s af hl (L.label .syscallRet)
  let u := v.runs L.label (straight (kernelCode sym .invalidSyscall))
  have hreach : Reaches L (.code (kernelCode sym .invalidSyscall), v)
      (.code (kernelCode sym .resetWarm), u.pushWord (L.addr [])) :=
    Reaches.straight (Reaches.head rfl Reaches.refl)
  refine ⟨_, hbranch _ hreach, ?_, ?_⟩ <;> simp [u, v, kernelCode, savedCall]

/-- The call with the number 1 restarts the kernel. -/
theorem syscall_invalid_one : ∃ t, Reaches (kernelLayout someSymbols restingC)
    (.code (kernelCode someSymbols .syscallHandler),
      restingCpu (memoryWith []) ⟨0x0100, 0, 0, 0⟩ 0xf000)
    (.code (kernelCode someSymbols .resetWarm), t) ∧ t.bytes .startupFlags = 1 ∧
      t.interrupts = false :=
  syscall_invalid (by decide)

/-- **`swrite`** sends the bytes that `HL` points to, and returns to the process, when none of them is
below the process's stack where the call writes.

**Proof sketch.** The routine is called with the arguments of the process (`syscall_returns`) and
sends its bytes (`fulfils_driver6850Tx`). The buffer is apart from what the handler and the routine
push, so that its bytes are those that the process had. -/
theorem syscall_swrite (heven : flag (hi s.main.af) 0 = false) (hapart : TableApart sym s)
    (hl : Bus.readWord s.bus (tableEntry sym s) = L.label .driver6850Tx)
    (hbuffer : ∀ i < txCount s, ∀ j < 14,
      s.main.hl + BitVec.ofNat 16 i ≠ s.sp + 2#16 - BitVec.ofNat 16 (j + 1)) :
    ∃ t, Reaches L (.code (kernelCode sym .syscallHandler), s) (L.place s.top, t) ∧
      t.bus.uart.sent = s.bus.uart.sent ++ bytesFrom s.bus s.main.hl (txCount s) ∧
        t.main.bc = s.main.bc ∧ t.ix = s.ix ∧ t.iy = s.iy ∧ t.sp = s.sp + 2 ∧ t.alt = s.alt ∧
          t.interrupts = true ∧ OffStack s.bus (s.sp + 2) 14 t.bus.ram := by
  have hcount : ∀ u, Dispatched (L.label .syscallRet) (L.label .driver6850Tx) s u →
      txCount u = txCount s := fun u hu => by rw [txCount, txCount, hu.de]
  obtain ⟨u, t, t', hu, ht, hanswer, hreach⟩ := syscall_returns (R := Transmitted) heven hapart hl
    (fun u hu => by
      obtain ⟨t, hfulfils, ht⟩ := fulfils_driver6850Tx (L := L) (s := u) (by
        intro i hi j hj heq
        rw [hcount u hu] at hi
        rw [hu.hl, hu.sp] at heq
        have hne := hbuffer i hi (3 - j) (by omega)
        bv_omega)
      exact ⟨t, hfulfils, ht.sp, ht.keeps.words, ht⟩)
  have hread : bytesFrom u.bus u.main.hl (txCount u) = bytesFrom s.bus s.main.hl (txCount s) := by
    rw [hcount u hu, hu.hl]
    exact List.map_congr_left fun i hi => hu.read (hbuffer i (List.mem_range.mp hi))
  have huart : u.bus.uart = s.bus.uart := by rw [hu.board]
  refine ⟨t', hreach, ?_, ?_, hanswer.ix, ?_, hanswer.sp, ?_, hanswer.interrupts, ?_⟩
  · rw [hanswer.board]
    exact ht.sent.trans (by rw [hread, huart])
  · exact hanswer.bc.trans (ht.bc.trans hu.bc)
  · exact hanswer.iy.trans (ht.iy.trans hu.iy)
  · exact hanswer.alt.trans (ht.keeps.alt.trans hu.alt)
  · have hsp : s.sp + 2 - BitVec.ofNat 16 2 = s.sp := BitVec.add_sub_cancel ..
    have hframe : OffStack u.bus (s.sp + 2) 4 t.bus.ram :=
      OffStack.below (k := 2) (hsp.symm ▸ hu.sp ▸ ht.frame)
    have hcell : t.bus.cell = s.bus.cell := by rw [ht.board, ← hu.cell]; rfl
    exact (hu.offStack.next (hframe.mono (by omega)) rfl hu.cell).next (hanswer.ram.mono (by omega))
      rfl hcell

/-- A call of a routine that is the first one of the table. -/
noncomputable def firstCall (l : Label) (main : Regs) : KernelCpu Unit :=
  restingCpu (memoryWith
    [(.low 0x0800, lo ((kernelLayout someSymbols restingC).label l)),
      (.low 0x0801, hi ((kernelLayout someSymbols restingC).label l)),
      (.bank 0 0x9000, 72), (.bank 0 0x9001, 105)]) main 0xf000

/-- The first entry of the table leads to the given routine. -/
theorem firstCall_table (l : Label) (main : Regs) (h : hi main.af = 0) :
    Bus.readWord (firstCall l main).bus (tableEntry someSymbols (firstCall l main)) =
      (kernelLayout someSymbols restingC).label l := by
  have hentry : tableEntry someSymbols (firstCall l main) = 0x0800#16 := by
    show 0x0800#16 + word 0 (hi main.af) = _
    rw [h]
    rfl
  rw [hentry, ← word_hi_lo (w := (kernelLayout someSymbols restingC).label l)]
  rfl

/-- The table is apart from the stack of the caller. -/
theorem tableApart_firstCall (l : Label) (main : Regs) (h : hi main.af = 0) :
    TableApart someSymbols (firstCall l main) := by
  have hentry : tableEntry someSymbols (firstCall l main) = 0x0800#16 := by
    show 0x0800#16 + word 0 (hi main.af) = _
    rw [h]
    rfl
  intro i hi j hj
  rw [hentry]
  show 0x0800#16 + BitVec.ofNat 16 i ≠ 0xf000#16 + 2#16 - BitVec.ofNat 16 (j + 1)
  bv_omega

/-- A process sends two bytes. -/
theorem syscall_swrite_two : ∃ t, Reaches (kernelLayout someSymbols restingC)
    (.code (kernelCode someSymbols .syscallHandler), firstCall .driver6850Tx ⟨0, 0, 2, 0x9000⟩)
      ((kernelLayout someSymbols restingC).place
        (firstCall .driver6850Tx ⟨0, 0, 2, 0x9000⟩).top, t) ∧
    t.bus.uart.sent = [] ++ bytesFrom (firstCall .driver6850Tx ⟨0, 0, 2, 0x9000⟩).bus 0x9000 2 ∧
      t.main.bc = 0 ∧ t.ix = 0 ∧ t.iy = 0 ∧ t.sp = 0xf000#16 + 2 ∧ t.alt = ⟨0, 0, 0, 0⟩ ∧
        t.interrupts = true ∧ OffStack (firstCall .driver6850Tx ⟨0, 0, 2, 0x9000⟩).bus
          (0xf000#16 + 2) 14 t.bus.ram :=
  syscall_swrite (s := firstCall .driver6850Tx ⟨0, 0, 2, 0x9000⟩) rfl
    (tableApart_firstCall _ _ rfl) (firstCall_table _ _ rfl) (by
      intro i hi j hj
      have hlt : i < 2 := hi
      show 0x9000#16 + BitVec.ofNat 16 i ≠ 0xf000#16 + 2#16 - BitVec.ofNat 16 (j + 1)
      bv_omega)

/-- **`pexit`** does not return.

**Proof sketch.** The jump leads to the routine, which calls `process_exit` and switches the light
off. Then it is at a jump to itself. A run from a place that is reached goes on to the loop or is in
it (`Reaches.loop`), so that no place outside of the kernel is reached. -/
theorem syscall_pexit {limit : Word} {depth : ℕ} (heven : flag (hi s.main.af) 0 = false)
    (hapart : TableApart sym s)
    (hl : Bus.readWord s.bus (tableEntry sym s) = L.label .doPexit) (hdepth : depth ≤ 0xfffe)
    (hexit : ∀ u : KernelCpu κ, u.main.hl = s.main.hl → u.bus.vars = s.bus.vars →
      Returns limit depth u (native .processExit u))
    (hkept : ∀ i < 2, Kept limit (s.bus.cell (s.sp - 2#16 + BitVec.ofNat 16 i))) :
    ∃ t, Reaches L (.code (kernelCode sym .syscallHandler), s) (.code pexitLoop, t) ∧
      t.interrupts = true ∧ inKernel t = false ∧ ∀ x, Reaches L
        (.code (kernelCode sym .syscallHandler), s) x → ∀ a, x.1 ≠ .outside a := by
  obtain ⟨u, hu, hjump⟩ := syscallHandler_reaches (L := L) heven hapart
  rw [hl] at hu hjump
  have hentry : (kernel sym native).Entry (kernelCode sym .doPexit) := .inl ⟨.doPexit, rfl⟩
  have hplace : L.place (L.label .doPexit) = .code (kernelCode sym .doPexit) :=
    Layout.place_addr hentry
  rw [hplace] at hjump
  have hkeptu : ∀ i < 2, Kept limit (u.bus.cell (u.sp - 2#16 + BitVec.ofNat 16 i)) := by
    rwa [hu.cell, hu.sp]
  let c := (kernelCode sym .doPexit).drop 1
  let v := (native .processExit (u.pushWord (L.addr c))).drop
  have hcall : ∀ x, Reaches L (.code c, v) x →
      Reaches L (.code (kernelCode sym .doPexit), u) x := by
    intro x hx
    have hvars : (u.pushWord (L.addr c)).bus.vars = s.bus.vars := by
      show u.bus.vars = _
      rw [hu.board]
    exact call_native (Program.entry_drop .doPexit 0 rfl) (hexit _ hu.hl hvars) hdepth hkeptu hx
  obtain ⟨m, hm, hkeep⟩ := call_keepAf (L := L) (s := v) (l := .statusClrKernel)
    (v := v.bytes .currentStatus ||| 0b00000100)
    (fun u hu => by
      have hstatus : u.bytes .currentStatus = v.bytes .currentStatus := by rw [hu]
      rw [← hstatus]
      exact fulfils_statusClr rfl)
    (Program.entry_drop .doPexit 2 rfl)
  let t : KernelCpu κ :=
    { statusIs v (v.bytes .currentStatus ||| 0b00000100) m with interrupts := true }
  have hloop : step L (.code pexitLoop, t) = some (.code pexitLoop, t) := rfl
  have hreach : Reaches L (.code (kernelCode sym .syscallHandler), s) (.code pexitLoop, t) :=
    hjump.trans (hcall _ (hkeep _ (Reaches.head rfl Reaches.refl)))
  refine ⟨t, hreach, rfl, ?_, fun x hx a ha => ?_⟩
  · simp [t, inKernel, statusIs, flag]
  · rcases hreach.loop hloop hx with rfl | hback
    · cases ha
    · rcases Relation.ReflTransGen.cases_head hback with rfl | ⟨y, hy, -⟩
      · cases ha
      · obtain ⟨p, w⟩ := x
        cases ha
        cases hy

/-- A process exits with the code 0. -/
theorem syscall_pexit_first : ∃ t, Reaches (kernelLayout someSymbols restingC)
    (.code (kernelCode someSymbols .syscallHandler), firstCall .doPexit ⟨0, 0, 0, 0⟩)
      (.code pexitLoop, t) ∧ t.interrupts = true ∧ inKernel t = false ∧
        ∀ x, Reaches (kernelLayout someSymbols restingC)
          (.code (kernelCode someSymbols .syscallHandler), firstCall .doPexit ⟨0, 0, 0, 0⟩) x →
            ∀ a, x.1 ≠ .outside a :=
  syscall_pexit (s := firstCall .doPexit ⟨0, 0, 0, 0⟩) rfl
    (tableApart_firstCall _ _ rfl) (firstCall_table _ _ rfl) (by omega)
    (fun u _ _ =>
      (⟨rfl, rfl, rfl, rfl, rfl, rfl, rfl, fun _ _ _ => rfl⟩ : Returns 0x7000#16 0 u u))
    (fun i hi x hx => by
      rw [Board.cell, cellIn_high] at hx
      · cases hx
      · show ¬ 0xf000#16 - 2#16 + BitVec.ofNat 16 i < 0x8000#16
        bv_omega)

end Z80OS.Asm
