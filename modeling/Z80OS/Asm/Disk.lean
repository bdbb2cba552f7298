import Z80OS.Asm.Scratch

set_option relaxedAutoImplicit false
set_option autoImplicit false

/-!
# The steps of a transfer

The routines of `disk.asm` that the driver for the card is made of. A loop that waits for the card
reads its status as often as the card is busy. The address of a sector has 28 bits, and its upper
four bits are lost.

## Main definitions

* `Z80OS.Asm.touched` — a state with other flags, RAM and another card.
* `Z80OS.Asm.Filled` — RAM in which some bytes in a row are as given.

## Main results

* `Z80OS.Asm.Polls.fulfils` — the loops that wait.
* `Z80OS.Asm.inBlock_reading`, `Z80OS.Asm.outBlock_drive` — blocks that are read and written.
-/

namespace Z80OS.Asm

open Z80

/-! ## Ports -/

section

variable {κ : Type} {b : Board κ} {v : UInt8}

namespace Board

/-- A byte of a transfer is read from the data register. -/
@[simp] theorem inp_data : Bus.inp b 0x18 =
    (b.drive.readData.1, { b with drive := b.drive.readData.2 }) := rfl

/-- The status is read, which takes a part of the time for which the card is busy. -/
@[simp] theorem inp_status : Bus.inp b 0x1f =
    (b.drive.status, { b with drive := { b.drive with busy := b.drive.busy - 1 } }) := rfl

/-- A byte of a transfer is put into the data register. -/
@[simp] theorem out_data : Bus.out b 0x18 v = { b with drive := b.drive.writeData v } := rfl

/-- The register for the number of sectors. -/
@[simp] theorem out_count : Bus.out b 0x1a v = { b with drive := { b.drive with count := v } } :=
  rfl

/-- The register for the lower 8 bits of a sector. -/
@[simp] theorem out_lba0 : Bus.out b 0x1b v = { b with drive := { b.drive with lba0 := v } } := rfl

/-- The register for the next 8 bits of a sector. -/
@[simp] theorem out_lba1 : Bus.out b 0x1c v = { b with drive := { b.drive with lba1 := v } } := rfl

/-- The register for the 8 bits of a sector behind these. -/
@[simp] theorem out_lba2 : Bus.out b 0x1d v = { b with drive := { b.drive with lba2 := v } } := rfl

/-- The register for the upper 4 bits of a sector, and the drive. -/
@[simp] theorem out_device : Bus.out b 0x1e v = { b with drive := { b.drive with device := v } } :=
  rfl

/-- A command is given. -/
@[simp] theorem out_command : Bus.out b 0x1f v = { b with drive := b.drive.command v } := rfl

/-- Memory has what it has whatever the card does. -/
@[simp] theorem readWord_drive {d : Drive} {a : Word} :
    Bus.readWord { b with drive := d } a = Bus.readWord b a := rfl

end Board

end

variable {κ : Type} {sym : Symbols} {native : CFunction → KernelCpu κ → KernelCpu κ}
  {L : Layout (kernel sym native)} {s t : KernelCpu κ} {l : Label} {c c' : KernelCode}
  {z : Place kernelNames × KernelCpu κ} {d : Drive} {m m' : Cell → UInt8} {b : Board κ}

/-- The state with other contents of `A` and `F`, other RAM, and another card. -/
def touched (s : KernelCpu κ) (af : Word) (m : Cell → UInt8) (d : Drive) : KernelCpu κ :=
  { s with
    main := { s.main with af := af }
    bus := { s.bus.withRam m with drive := d } }

/-- A call after which the next instruction follows, with RAM changed in `n` bytes below the stack
pointer at most, and the card in another state. -/
def Touches (L : Layout (kernel sym native)) (l : Label) (n : ℕ) (s : KernelCpu κ) (d : Drive) :
    Prop :=
  ∀ c, (kernel sym native).Entry c → ∃ af m, OffStack s.bus s.sp n m ∧ ∀ z,
    Reaches L (.code c, touched s af m d) z → Reaches L (.code (call l :: c), s) z

/-- A routine that needs some bytes of the stack. -/
theorem Touches.of_fulfils {n : ℕ} (h : ∀ w, ∃ af m, OffStack (s.pushWord w).bus (s.sp - 2#16) n m ∧
    Fulfils L l (s.pushWord w) (touched (s.pushWord w).drop af m d)) : Touches L l (n + 2) s d := by
  intro c hc
  obtain ⟨af, m, hm, hf⟩ := h (L.addr c)
  have hpush : OffStack s.bus s.sp (n + 2) (s.pushWord (L.addr c)).bus.ram :=
    OffStack.push.mono (by omega)
  refine ⟨af, m, hpush.trans (OffStack.below hm), fun z hz => hf.call hc ?_⟩
  have hstate : touched (s.pushWord (L.addr c)).drop af m d = touched s af m d := by
    simp [touched]
  rw [hstate]
  exact hz

/-- A routine that needs nothing on the stack but the address that it returns to. -/
theorem Touches.of_leaf (h : ∀ w, ∃ af, Fulfils L l (s.pushWord w)
    (touched (s.pushWord w).drop af (s.pushWord w).bus.ram d)) : Touches L l 2 s d := by
  refine Touches.of_fulfils (n := 0) fun w => ?_
  obtain ⟨af, hf⟩ := h w
  exact ⟨af, _, OffStack.refl, hf⟩

/-! ## Loops that wait -/

/-- The card after its status has been read. -/
def Drive.polled (d : Drive) : Drive := { d with busy := d.busy - 1 }

/-- The card when it is not busy any more. -/
def Drive.rested (d : Drive) : Drive := { d with busy := 0 }

/-- The code behind a label reads the status of the card until it passes a test. -/
structure Polls (L : Layout (kernel sym native)) (l : Label) (ready : UInt8 → Bool) : Prop where
  jumps : jumps ((kernel sym native).code l) = [jpNz l, .ret]
  poll : ∀ s : KernelCpu κ, ∃ af,
    s.runs L.label (straight ((kernel sym native).code l)) =
      touched s af s.bus.ram s.bus.drive.polled ∧ zeroFlag af = ready s.bus.drive.status

/-- A card that is busy says so, and nothing else. -/
theorem Drive.status_busy (h : d.busy ≠ 0) : d.status = 0x80 := if_pos h

/-- **A loop that waits** ends when the card is not busy any more, if it passes the test then. -/
theorem Polls.fulfils {ready : UInt8 → Bool} (h : Polls L l ready) (hbusy : ready 0x80 = false)
    (hready : ready s.bus.drive.rested.status = true) :
    ∃ af, Fulfils L l s (touched s.drop af s.bus.ram s.bus.drive.rested) := by
  unfold Fulfils
  generalize hc : (kernel sym native).code l = c
  induction hn : s.bus.drive.busy generalizing s with
  | zero =>
    obtain ⟨af, hruns, hzero⟩ := h.poll s
    have hrest : s.bus.drive.rested = s.bus.drive := by rw [Drive.rested, ← hn]
    have hpoll : s.bus.drive.polled = s.bus.drive := by
      have hbusy : s.bus.drive.busy - 1 = s.bus.drive.busy := by omega
      rw [Drive.polled, hbusy]
    rw [← hrest, hready] at hzero
    refine ⟨af, Reaches.branch (hc ▸ h.jumps) (hc ▸ hruns) (q := false)
      (by simp [touched, hzero]) ?_⟩
    rw [hrest, hpoll]
    exact Reaches.head rfl Reaches.refl
  | succ n ih =>
    obtain ⟨af, hruns, hzero⟩ := h.poll s
    rw [Drive.status_busy (by omega), hbusy] at hzero
    obtain ⟨af', hreach⟩ := ih (s := touched s af s.bus.ram s.bus.drive.polled) hready
      (by simp [touched, Drive.polled, hn])
    refine ⟨af', Reaches.branch (hc ▸ h.jumps) (hc ▸ hruns) (q := true)
      (by simp [touched, hzero]) ?_⟩
    rw [if_pos rfl, hc]
    exact hreach

/-- A call of a loop that waits. -/
theorem Polls.touches {ready : UInt8 → Bool} (h : Polls L l ready) (hbusy : ready 0x80 = false)
    (hready : ready s.bus.drive.rested.status = true) : Touches L l 2 s s.bus.drive.rested :=
  Touches.of_leaf fun _ => h.fulfils hbusy hready

/-- The card is not busy. -/
theorem polls_diskWait : Polls L .diskWait fun v => v &&& 0x80 == 0 where
  jumps := rfl
  poll s := by
    refine ⟨(s.runs L.label (straight (kernelCode sym .diskWait))).main.af, ?_, ?_⟩ <;>
      simp [kernel, kernelCode, diskport, touched, Drive.polled]

/-- The card can take a command. -/
theorem polls_diskWaitCmd : Polls L .diskWaitCmd fun v => (v &&& 0xc0) ^^^ 0x40 == 0 where
  jumps := rfl
  poll s := by
    refine ⟨(s.runs L.label (straight (kernelCode sym .diskWaitCmd))).main.af, ?_, ?_⟩ <;>
      simp [kernel, kernelCode, diskport, touched, Drive.polled]

/-- The card has data or takes some. -/
theorem polls_diskWaitData : Polls L .diskWaitData fun v => (v &&& 0x88) ^^^ 0x08 == 0 where
  jumps := rfl
  poll s := by
    refine ⟨(s.runs L.label (straight (kernelCode sym .diskWaitData))).main.af, ?_, ?_⟩ <;>
      simp [kernel, kernelCode, diskport, touched, Drive.polled]

/-! ## Commands -/

/-- The status never tells of an error. -/
theorem Drive.flag_status : flag d.status 0 = false := by
  unfold Drive.status
  split_ifs
  · rfl
  · cases d.transfer with
    | idle => rfl
    | reading => exact (by decide : flag 0x48 0 = false)
    | writing => exact (by decide : flag 0x48 0 = false)

/-- The test for an error finds none, and reads the status once. -/
theorem touches_diskChkerr : Touches L .diskChkerr 2 s s.bus.drive.polled := by
  refine Touches.of_leaf fun w => ⟨((s.pushWord w).runs L.label
    (straight (kernelCode sym .diskChkerr))).main.af,
    Fulfils.of_code rfl (Reaches.straight (Reaches.head rfl ?_))⟩
  rw [if_pos (by simp [kernel, kernelCode, diskport, Drive.flag_status])]
  refine Reaches.head rfl ?_
  simp [kernel, kernelCode, diskport, touched, Drive.polled]
  exact Reaches.refl

/-- The card with the address of a sector. -/
def Drive.at (d : Drive) (bc de : Word) : Drive :=
  { d with
    lba0 := lo bc
    lba1 := hi bc
    lba2 := lo de
    device := hi de &&& 0x0f ||| 0xe0 }

/-- The four parts of the address of a sector are put into the registers. -/
theorem touches_diskSetLba : Touches L .diskSetLba 4 s (s.bus.drive.at s.main.bc s.main.de) := by
  refine Touches.of_fulfils (n := 2) fun w => ⟨s.main.af, _, OffStack.push (w := s.main.af), ?_⟩
  refine Fulfils.of_code rfl (Reaches.straight (Reaches.head rfl ?_))
  simp [kernel, kernelCode, diskport, touched, Drive.at, readWord_below]
  exact Reaches.refl

/-- The card with a command for one sector. -/
def Drive.commanded (d : Drive) (v : UInt8) : Drive := ({ d with count := 1 } : Drive).command v

/-- The command to read one sector is given. -/
theorem touches_diskInitRead : Touches L .diskInitRead 2 s (s.bus.drive.commanded 0x20) := by
  refine Touches.of_leaf fun w => ⟨((s.pushWord w).runs L.label
    (straight (kernelCode sym .diskInitRead))).main.af,
    Fulfils.of_code rfl (Reaches.straight (Reaches.head rfl ?_))⟩
  simp [kernel, kernelCode, diskport, touched, Drive.commanded]
  exact Reaches.refl

/-- The command to write one sector is given. -/
theorem touches_diskInitWrite : Touches L .diskInitWrite 2 s (s.bus.drive.commanded 0x30) := by
  refine Touches.of_leaf fun w => ⟨((s.pushWord w).runs L.label
    (straight (kernelCode sym .diskInitWrite))).main.af,
    Fulfils.of_code rfl (Reaches.straight (Reaches.head rfl ?_))⟩
  simp [kernel, kernelCode, diskport, touched, Drive.commanded]
  exact Reaches.refl

/-! ## Blocks -/

/-- RAM in which `k` bytes from an address on are as given, and everything else is as on a board. -/
structure Filled (b : Board κ) (a : Word) (k : ℕ) (f : ℕ → UInt8) (m : Cell → UInt8) : Prop where
  bytes : ∀ i < k, m (b.cell (a + BitVec.ofNat 16 i)) = f i
  frame : ∀ x, (∀ i < k, x ≠ b.cell (a + BitVec.ofNat 16 i)) → m x = b.ram x

variable {a : Word} {i j k n : ℕ} {f : ℕ → UInt8} {v : UInt8}

/-- Numbers of 16 bits lead to different bytes of RAM. -/
theorem cell_add_ne (hi : i < 65536) (hj : j < 65536) (hij : i ≠ j) :
    b.cell (a + BitVec.ofNat 16 i) ≠ b.cell (a + BitVec.ofNat 16 j) := by
  intro h
  have hadd := Board.cell_inj.mp h
  rw [BitVec.add_right_inj] at hadd
  have := congrArg BitVec.toNat hadd
  simp only [BitVec.toNat_ofNat] at this
  omega

namespace Filled

/-- No bytes are as given in the RAM of the board. -/
theorem nil : Filled b a 0 f b.ram := ⟨fun _ h => absurd h (by omega), fun _ _ => rfl⟩

/-- One byte is as given when it has been stored. -/
theorem one : Filled b a 1 f (Bus.write b a (f 0)).ram := by
  constructor
  case bytes =>
    intro i hi
    obtain rfl : i = 0 := by omega
    simp [Board.write_eq]
  case frame =>
    intro x hx
    exact Function.update_of_ne (by simpa using hx 0 (by omega)) ..

/-- More bytes behind the first ones. -/
theorem append (h : Filled b a j f m)
    (h' : Filled (b.withRam m) (a + BitVec.ofNat 16 j) k (fun i => f (j + i)) m')
    (hlen : j + k ≤ 65536) : Filled b a (j + k) f m' := by
  have hadd : ∀ i, a + BitVec.ofNat 16 j + BitVec.ofNat 16 i = a + BitVec.ofNat 16 (j + i) := by
    intro i
    rw [BitVec.add_assoc, BitVec.ofNat_add]
  constructor
  case bytes =>
    intro i hi
    rcases Nat.lt_or_ge i j with hij | hij
    · have hm : m' (b.cell (a + BitVec.ofNat 16 i)) = m (b.cell (a + BitVec.ofNat 16 i)) := by
        refine h'.frame _ fun i' hi' => ?_
        rw [hadd]
        exact cell_add_ne (by omega) (by omega) (by omega)
      rw [hm, h.bytes i hij]
    · obtain ⟨i, rfl⟩ := Nat.exists_eq_add_of_le hij
      rw [← hadd]
      exact h'.bytes i (by omega)
  case frame =>
    intro x hx
    refine (h'.frame x fun i hi => ?_).trans (h.frame x fun i hi => hx i (by omega))
    rw [hadd]
    exact hx (j + i) (by omega)

/-- A word that is apart from these bytes. -/
theorem readWord {a' : Word} (h : Filled b a k f m)
    (hne : ∀ i < k, ∀ j < 2, a + BitVec.ofNat 16 i ≠ a' + BitVec.ofNat 16 j) :
    Bus.readWord (b.withRam m) a' = Bus.readWord b a' :=
  readWord_congr fun j hj => h.frame _ fun i hi heq => hne i hi j hj (Board.cell_inj.mp heq.symm)

end Filled

/-- A transfer of a sector from which `n` bytes have been read. -/
def readingFrom (lba n : ℕ) : Transfer := if n = 512 then .idle else .reading lba n

/-- A byte of the sector is read. -/
theorem Drive.readData_eq {lba : ℕ} (ht : d.transfer = readingFrom lba n) (hcount : d.count = 1)
    (hn : n < 512) : d.readData =
      ((d.disk lba).get n, { d with transfer := readingFrom lba (n + 1) }) := by
  have hne : n ≠ 512 := by omega
  have hsize : d.size = 512 := by simp [Drive.size, hcount]
  have hdiv : n / 512 = 0 := by omega
  rw [readingFrom, if_neg hne] at ht
  simp only [Drive.readData, ht, hsize, hdiv, Nat.mod_eq_of_lt hn, Nat.add_zero, readingFrom]

/-- **A block is read** from the card.

**Proof sketch.** Induction on the bytes that are left. The card gives the next byte of the sector
(`Drive.readData_eq`), which goes to the address in `HL`, and the others go behind it
(`Filled.append`). -/
theorem inBlock_reading {lba : ℕ} (hport : lo s.main.bc = 0x18)
    (ht : s.bus.drive.transfer = readingFrom lba n) (hcount : s.bus.drive.count = 1)
    (hk : n + k ≤ 512) :
    ∃ m, Filled s.bus s.main.hl k (fun i => (s.bus.drive.disk lba).get (n + i)) m ∧
      s.inBlock k = { s with
        main := { s.main with hl := s.main.hl + BitVec.ofNat 16 k }
        bus := { s.bus.withRam m with
          drive := { s.bus.drive with transfer := readingFrom lba (n + k) } } } := by
  induction k generalizing s n with
  | zero =>
    refine ⟨s.bus.ram, Filled.nil, ?_⟩
    rw [Nat.add_zero, ← ht]
    simp [Cpu.inBlock]
  | succ k ih =>
    have hdata := Drive.readData_eq ht hcount (by omega)
    let u : KernelCpu κ := { s with
      main := { s.main with hl := s.main.hl + 1 }
      bus := { Bus.write s.bus s.main.hl ((s.bus.drive.disk lba).get n) with
        drive := { s.bus.drive with transfer := readingFrom lba (n + 1) } } }
    have hu : s.inBlock (k + 1) = u.inBlock k := by
      rw [Cpu.inBlock]
      simp [hport, hdata, u]
      rfl
    obtain ⟨m, hm, heq⟩ := ih (s := u) (n := n + 1) hport rfl hcount (by omega)
    have hfun : (fun i => (s.bus.drive.disk lba).get (n + (1 + i))) =
        fun i => (s.bus.drive.disk lba).get (n + 1 + i) := by
      funext i
      rw [Nat.add_assoc]
    refine ⟨m, ?_, ?_⟩
    · rw [Nat.add_comm k]
      refine Filled.append (Filled.one (b := s.bus)) ?_ (by omega)
      rw [hfun]
      exact ⟨hm.bytes, hm.frame⟩
    · have hhl : u.main.hl + BitVec.ofNat 16 k = s.main.hl + BitVec.ofNat 16 (k + 1) :=
        add_ofNat_succ
      have hn : n + 1 + k = n + (k + 1) := by omega
      rw [hu, heq, hhl, hn]
      rfl

/-- An instruction that reads 256 bytes. -/
theorem inir_reading {lba : ℕ} (hbc : s.main.bc = word 0 0x18)
    (ht : s.bus.drive.transfer = readingFrom lba n) (hcount : s.bus.drive.count = 1)
    (hn : n + 256 ≤ 512) :
    ∃ m af, Filled s.bus s.main.hl 256 (fun i => (s.bus.drive.disk lba).get (n + i)) m ∧
      s.run L.label .inir = { s with
        main := { s.main with af := af, hl := s.main.hl + 256#16 }
        bus := { s.bus.withRam m with
          drive := { s.bus.drive with transfer := readingFrom lba (n + 256) } } } := by
  have hport : lo s.main.bc = 0x18 := by rw [hbc, lo_word]
  have hsize : s.blockSize = 256 := by rw [Cpu.blockSize, hbc, hi_word, if_pos rfl]
  obtain ⟨m, hm, heq⟩ := inBlock_reading hport ht hcount hn
  refine ⟨m, (s.run L.label .inir).main.af, hm, ?_⟩
  have hrun : s.run L.label .inir = (s.inBlock 256).endBlock := by rw [← hsize]; rfl
  rw [hrun, heq]
  simp [Cpu.endBlock, hbc]

/-- **A sector is read** by two such instructions. -/
theorem inir_inir {lba : ℕ} (hbc : s.main.bc = word 0 0x18)
    (ht : s.bus.drive.transfer = .reading lba 0) (hcount : s.bus.drive.count = 1) :
    ∃ m af, Filled s.bus s.main.hl 512 (s.bus.drive.disk lba).get m ∧
      (s.run L.label .inir).run L.label .inir = { s with
        main := { s.main with af := af, hl := s.main.hl + 512#16 }
        bus := { s.bus.withRam m with drive := { s.bus.drive with transfer := .idle } } } := by
  obtain ⟨m₁, af₁, hm₁, hrun₁⟩ := inir_reading (L := L) (n := 0) hbc ht hcount (by omega)
  obtain ⟨m₂, af₂, hm₂, hrun₂⟩ := inir_reading (L := L) (s := { s with
    main := { s.main with af := af₁, hl := s.main.hl + 256#16 }
    bus := { s.bus.withRam m₁ with
      drive := { s.bus.drive with transfer := readingFrom lba 256 } } }) (n := 256) hbc rfl hcount
      (by omega)
  have hhl : s.main.hl + 256#16 + 256#16 = s.main.hl + 512#16 := by bv_omega
  simp only [Nat.zero_add] at hm₁ hrun₁
  refine ⟨m₂, af₂, Filled.append (j := 256) hm₁ (k := 256) ⟨hm₂.bytes, hm₂.frame⟩ (by omega), ?_⟩
  rw [hrun₁, hrun₂]
  simp only [hhl]
  rfl

/-- The bytes in memory from an address on. -/
def bytesFrom (b : Board κ) (a : Word) (k : ℕ) : List UInt8 :=
  (List.range k).map fun i => Bus.read b (a + BitVec.ofNat 16 i)

/-- The first byte in front of the other ones. -/
theorem bytesFrom_succ : bytesFrom b a (k + 1) = Bus.read b a :: bytesFrom b (a + 1) k := by
  simp only [bytesFrom, List.range_succ_eq_map, List.map_cons, List.map_map]
  congr 1
  · simp
  · refine List.map_congr_left fun i _ => ?_
    rw [add_ofNat_succ]
    rfl

/-- Bytes in a row are the first ones and those behind them. -/
theorem bytesFrom_add :
    bytesFrom b a (j + k) = bytesFrom b a j ++ bytesFrom b (a + BitVec.ofNat 16 j) k := by
  simp only [bytesFrom, List.range_add, List.map_append, List.map_map]
  congr 1
  refine List.map_congr_left fun i _ => ?_
  rw [Function.comp_apply, BitVec.add_assoc, BitVec.ofNat_add]

/-- The two halves of a sector. -/
theorem bytesFrom_sector :
    bytesFrom b a 512 = bytesFrom b a 256 ++ bytesFrom b (a + 256#16) 256 :=
  bytesFrom_add (j := 256) (k := 256)

/-- Memory has what it has whatever the card does. -/
@[simp] theorem bytesFrom_drive : bytesFrom { b with drive := d } a k = bytesFrom b a k := rfl

/-- As many bytes are taken from memory as are asked for. -/
@[simp] theorem length_bytesFrom : (bytesFrom b a k).length = k := by simp [bytesFrom]

/-- **A block is written** to the card. -/
theorem outBlock_drive (hport : lo s.main.bc = 0x18) : s.outBlock k = { s with
    main := { s.main with hl := s.main.hl + BitVec.ofNat 16 k }
    bus := { s.bus with
      drive := (bytesFrom s.bus s.main.hl k).foldl Drive.writeData s.bus.drive } } := by
  induction k generalizing s with
  | zero => simp [Cpu.outBlock, bytesFrom]
  | succ k ih =>
    rw [Cpu.outBlock, ih (s := (s.setBus (Bus.out s.bus (lo s.main.bc)
      (s.read s.main.hl))).setHl (s.main.hl + 1)) hport, bytesFrom_succ]
    have hhl : s.main.hl + 1 + BitVec.ofNat 16 k = s.main.hl + BitVec.ofNat 16 (k + 1) :=
      add_ofNat_succ
    rw [← hhl]
    simp [hport]

/-- An instruction that writes 256 bytes. -/
theorem otir_drive (hbc : s.main.bc = word 0 0x18) : ∃ af, s.run L.label .otir = { s with
    main := { s.main with af := af, hl := s.main.hl + 256#16 }
    bus := { s.bus with
      drive := (bytesFrom s.bus s.main.hl 256).foldl Drive.writeData s.bus.drive } } := by
  have hport : lo s.main.bc = 0x18 := by rw [hbc, lo_word]
  have hsize : s.blockSize = 256 := by rw [Cpu.blockSize, hbc, hi_word, if_pos rfl]
  refine ⟨(s.run L.label .otir).main.af, ?_⟩
  have hrun : s.run L.label .otir = (s.outBlock 256).endBlock := by rw [← hsize]; rfl
  rw [hrun, outBlock_drive hport]
  simp [Cpu.endBlock, hbc]

/-- **A sector is written** by two such instructions. -/
theorem otir_otir (hbc : s.main.bc = word 0 0x18) :
    ∃ af, (s.run L.label .otir).run L.label .otir = { s with
      main := { s.main with af := af, hl := s.main.hl + 512#16 }
      bus := { s.bus with
        drive := (bytesFrom s.bus s.main.hl 512).foldl Drive.writeData s.bus.drive } } := by
  obtain ⟨af₁, hrun₁⟩ := otir_drive (L := L) hbc
  obtain ⟨af₂, hrun₂⟩ := otir_drive (L := L) (s := { s with
    main := { s.main with af := af₁, hl := s.main.hl + 256#16 }
    bus := { s.bus with
      drive := (bytesFrom s.bus s.main.hl 256).foldl Drive.writeData s.bus.drive } }) hbc
  have hhl : s.main.hl + 256#16 + 256#16 = s.main.hl + 512#16 := by bv_omega
  refine ⟨af₂, ?_⟩
  rw [hrun₁, hrun₂, bytesFrom_sector, List.foldl_append]
  simp only [hhl, bytesFrom_drive]

/-- The sector that is made of some bytes. -/
def sectorOf (l : List UInt8) : Sector := fun i => l.getD i 0

/-- The card after some bytes of a sector have been written. -/
def Drive.taken (d : Drive) (lba : ℕ) (l : List UInt8) : Drive :=
  if l.length = 512 then
    { d with
      disk := Function.update d.disk lba (sectorOf l)
      transfer := .idle
      busy := d.delays d.turn
      turn := d.turn + 1 }
  else { d with transfer := .writing lba l }

/-- The card takes a byte of a sector that is not complete. -/
theorem Drive.writeData_taken {lba : ℕ} {l : List UInt8} (hcount : d.count = 1)
    (hl : l.length < 512) : (d.taken lba l).writeData v = d.taken lba (l ++ [v]) := by
  have hne : l.length ≠ 512 := by omega
  rw [Drive.taken, if_neg hne, Drive.taken]
  by_cases hlast : l.length + 1 = 512
  · have hsector : sectorOf (l ++ [v]) = fun i : Fin 512 => (l ++ [v]).getD i 0 := rfl
    rw [hsector]
    simp [Drive.writeData, hlast, Drive.size, hcount, Drive.wait]
  · have hmod : (l.length + 1) % 512 = l.length + 1 := by omega
    simp [Drive.writeData, hlast, Drive.size, hcount, hmod]

/-- A sector is stored with its last byte. -/
theorem Drive.foldl_writeData {lba : ℕ} {l l' : List UInt8} (hcount : d.count = 1)
    (hl : l.length + l'.length ≤ 512) :
    l'.foldl Drive.writeData (d.taken lba l) = d.taken lba (l ++ l') := by
  induction l' generalizing l with
  | nil => simp
  | cons v l' ih =>
    rw [List.length_cons] at hl
    rw [List.foldl_cons, Drive.writeData_taken hcount (by omega), ih (by simp; omega)]
    simp

/-- **The card gets a sector**, and is idle again. -/
theorem Drive.foldl_sector {lba : ℕ} {l : List UInt8} (ht : d.transfer = .writing lba [])
    (hcount : d.count = 1) (hl : l.length = 512) :
    l.foldl Drive.writeData d = { d with
      disk := Function.update d.disk lba (sectorOf l)
      transfer := .idle
      busy := d.delays d.turn
      turn := d.turn + 1 } := by
  have hstart : d = d.taken lba [] := by
    simp [Drive.taken, ← ht]
  calc l.foldl Drive.writeData d
    _ = l.foldl Drive.writeData (d.taken lba []) := by rw [← hstart]
    _ = d.taken lba l := by rw [Drive.foldl_writeData hcount (by simp [hl]), List.nil_append]
    _ = _ := if_pos hl

end Z80OS.Asm
