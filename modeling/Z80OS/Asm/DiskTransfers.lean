import Z80OS.Asm.Disk

set_option relaxedAutoImplicit false
set_option autoImplicit false

/-!
# The driver for the card

`disk_read` and `disk_write` take the address they return to and the sector from the stack, which is
used up to there again before they return. From a card that does nothing they move one sector,
however long the card takes, and leave it so. The sector is taken modulo `2 ^ 28`.

`disk_init` leaves a card that does nothing, whatever it has been doing.

## Main definitions

* `Z80OS.Asm.CardReset` — what has changed when the card has been initialised.
* `Z80OS.Asm.sectorArg` — the sector that is asked for.
* `Z80OS.Asm.SectorRead`, `Z80OS.Asm.SectorWritten` — what has changed when the routines return.

## Main results

* `Z80OS.Asm.fulfils_diskInit` — the card is initialised.
* `Z80OS.Asm.fulfils_diskRead`, `Z80OS.Asm.fulfils_diskWrite` — the routines.
-/

namespace Z80OS.Asm

open Z80

variable {κ : Type} {sym : Symbols} {native : CFunction → KernelCpu κ → KernelCpu κ}
  {L : Layout (kernel sym native)} {s t : KernelCpu κ} {c : KernelCode} {d : Drive} {lba : ℕ}

/-! ## The start of the card -/

/-- A card that is not busy any more passes the test for it, whatever it does. -/
theorem Drive.rested_ready : (d.rested.status &&& 0x80 == 0) = true := by
  have hidle : d.rested.status = 0x40 ∨ d.rested.status = 0x48 := by
    cases h : d.transfer <;> simp [Drive.rested, Drive.status, h]
  rcases hidle with h | h
  · rw [h]
    rfl
  · rw [h]
    rfl

/-- A command that is none for a transfer leaves the sectors, and no transfer goes on. -/
theorem Drive.command_other {v : UInt8} (hread : v ≠ 0x20) (hwrite : v ≠ 0x30) :
    (d.command v).disk = d.disk ∧ (d.command v).transfer = .idle := by
  unfold Drive.command
  rw [if_neg hread, if_neg hwrite]
  exact ⟨rfl, rfl⟩

/-- A byte is put into a register of the card when the card is not busy any more. -/
theorem waits_out {v p : UInt8} {f : Drive → Drive}
    (hout : ∀ b : Board κ, Bus.out b p v = { b with drive := f b.drive })
    (hd : f s.bus.drive.rested = d) (h : (kernel sym native).Entry (ldImm .a v :: outA p :: c)) :
    ∃ af m, OffStack s.bus s.sp 2 m ∧ ∀ z, Reaches L (.code c, touched s af m d) z →
      Reaches L (.code (call .diskWait :: ldImm .a v :: outA p :: c), s) z := by
  subst hd
  obtain ⟨af, m, hm, hwait⟩ := polls_diskWait.touches (L := L) (s := s) rfl Drive.rested_ready _ h
  refine ⟨word v (lo af), m, hm, fun z hz => hwait z ?_⟩
  refine Reaches.through (p := [ldImm .a v, outA p]) rfl ?_ hz
  simp [touched, hout]

/-- Nothing has changed but the card, which does nothing, and four bytes below the stack pointer. -/
structure CardReset (s t : KernelCpu κ) : Prop where
  keeps : Keeps s t
  main : t.main = s.main
  ix : t.ix = s.ix
  iy : t.iy = s.iy
  sp : t.sp = s.sp + 2
  bytes : t.bytes = s.bytes
  board : t.bus = { s.bus with ram := t.bus.ram, drive := t.bus.drive }
  disk : t.bus.drive.disk = s.bus.drive.disk
  transfer : t.bus.drive.transfer = .idle
  frame : OffStack s.bus s.sp 4 t.bus.ram

/-- **`disk_init`** returns with a card that does nothing, whatever the card has been doing and
however long it has been busy with it.

**Proof sketch.** Each of the three bytes is put into its register when the card has become ready.
The last one is a command that is none for a transfer. All calls use the two bytes below the saved
`AF`, so that it is there in the end. -/
theorem fulfils_diskInit : ∃ t, Fulfils L .diskInit s t ∧ CardReset s t := by
  let u := s.pushWord s.main.af
  obtain ⟨d₁, hd₁⟩ : ∃ d, s.bus.drive.rested.command 0x04 = d := ⟨_, rfl⟩
  obtain ⟨d₂, hd₂⟩ : ∃ d, d₁.rested.rested.command 0xef = d := ⟨_, rfl⟩
  obtain ⟨af₁, m₁, hm₁, hreset⟩ := waits_out (L := L) (s := u) (v := 0x04) (p := 0x1f)
    (f := fun d => d.command 0x04) (c := (kernelCode sym .diskInit).drop 4) (fun _ => rfl) hd₁
    (Program.entry_drop .diskInit 1 rfl)
  obtain ⟨af₂, m₂, hm₂, hfeature⟩ := waits_out (L := L) (s := touched u af₁ m₁ d₁) (v := 0x01)
    (p := 0x19) (f := id) (c := (kernelCode sym .diskInit).drop 7) (fun _ => rfl) rfl
    (Program.entry_drop .diskInit 4 rfl)
  obtain ⟨af₃, m₃, hm₃, hset⟩ := waits_out (L := L) (s := touched u af₂ m₂ d₁.rested) (v := 0xef)
    (p := 0x1f) (f := fun d => d.command 0xef) (c := (kernelCode sym .diskInit).drop 10)
    (fun _ => rfl) hd₂ (Program.entry_drop .diskInit 7 rfl)
  obtain ⟨af₄, m₄, hm₄, hcheck⟩ := touches_diskChkerr (L := L) (s := touched u af₃ m₃ d₂) _
    (Program.entry_drop .diskInit 10 rfl)
  have hoff : OffStack u.bus (s.sp - 2#16) 2 m₄ :=
    ((hm₁.next hm₂ rfl rfl).next hm₃ rfl rfl).next hm₄ rfl rfl
  have hframe : OffStack s.bus s.sp 4 m₄ := (OffStack.push.mono (by omega)).trans hoff.below
  have haf : Bus.readWord (u.bus.withRam m₄) (s.sp - 2#16) = s.main.af :=
    (hoff.readWord (by omega)).trans readWord_writeWord_self
  obtain ⟨hdisk₁, -⟩ := Drive.command_other (d := s.bus.drive.rested) (v := 0x04) (by decide)
    (by decide)
  obtain ⟨hdisk₂, hidle⟩ := Drive.command_other (d := d₁.rested.rested) (v := 0xef) (by decide)
    (by decide)
  rw [hd₁] at hdisk₁
  rw [hd₂] at hdisk₂ hidle
  have htop : Bus.readWord (s.bus.withRam m₄) s.sp = s.top := hframe.readWord (by omega)
  let w : KernelCpu κ := { s with bus := { s.bus.withRam m₄ with drive := d₂.polled } }
  let t : KernelCpu κ := { w with sp := s.sp + 2 }
  refine ⟨t, Fulfils.of_code rfl ?_, ?_⟩
  · refine Reaches.through (p := [push .af]) rfl rfl ?_
    refine hreset _ (hfeature _ (hset _ (hcheck _ ?_)))
    have hpop : (touched u af₄ m₄ d₂.polled).runs L.label [.pop .af] = w := by
      have hsp : s.sp - 2#16 + 2#16 = s.sp := BitVec.sub_add_cancel ..
      simp [touched, u, w, hsp]
      exact congrArg (fun v => { s.main with af := v }) haf
    refine Reaches.through (p := [pop .af]) rfl hpop (Reaches.head rfl ?_)
    have hret : w.top = s.top := htop
    rw [hret]
    exact Reaches.refl
  · exact ⟨⟨rfl, rfl, rfl⟩, rfl, rfl, rfl, rfl, rfl, rfl, hdisk₂.trans hdisk₁, hidle, hframe⟩

/-! ## The address of a sector -/

/-- Only four bits of the upper byte are in the register. -/
theorem lba_at {bc de : Word} : (d.at bc de).lba = (de.toNat * 65536 + bc.toNat) % 0x10000000 := by
  have hmask : ∀ v : UInt8, ((v &&& 0x0f ||| 0xe0) &&& 0x0f).toNat = v.toNat % 16 := by
    intro v
    simp only [UInt8.toNat_and, UInt8.toNat_or, UInt8.reduceToNat, Nat.and_or_distrib_right,
      Nat.and_assoc, Nat.reduceAnd, Nat.or_zero]
    exact Nat.and_two_pow_sub_one_eq_mod _ 4
  have hbc := lo_add_hi (w := bc)
  have hde := lo_add_hi (w := de)
  simp only [Drive.lba, Drive.at, hmask]
  have := (hi de).toNat_lt
  have := (lo de).toNat_lt
  have := bc.isLt
  omega

/-! ## Data -/

/-- A call of the routine that reads a sector, after the card has got the command.

**Proof sketch.** The routine waits for the data and looks for an error, which changes RAM below its
own return address only. The transfer is 512 bytes in a row (`inir_inir`). The buffer is apart from
the return address, so that this is still there and the routine comes back to it. -/
theorem call_diskReadData (hc : (kernel sym native).Entry c)
    (ht : s.bus.drive.transfer = .reading lba 0) (hcount : s.bus.drive.count = 1)
    (hbuf : ∀ i < 512, ∀ j < 2,
      s.main.hl + BitVec.ofNat 16 i ≠ s.sp - 2#16 + BitVec.ofNat 16 j) :
    ∃ m m' af, OffStack s.bus s.sp 4 m ∧
      Filled (s.bus.withRam m) s.main.hl 512 (s.bus.drive.disk lba).get m' ∧
      ∀ z, Reaches L (.code c, { s with
        main := { s.main with af := af, bc := word 0 0x18, hl := s.main.hl + 512#16 }
        bus := { s.bus.withRam m' with
          drive := { s.bus.drive with transfer := .idle, busy := 0 } } }) z →
        Reaches L (.code (call .diskReadData :: c), s) z := by
  have hready : s.bus.drive.rested.status = 0x48 := by
    simp [Drive.rested, Drive.status, ht]
  obtain ⟨af, m, hm, hwait⟩ := polls_diskWaitData.touches (L := L) (s := s.pushWord (L.addr c))
    rfl (by rw [show (s.pushWord (L.addr c)).bus.drive = s.bus.drive from rfl, hready]; rfl)
    _ (Program.entry_drop .diskReadData 0 rfl)
  obtain ⟨af', m', hm', hcheck⟩ := touches_diskChkerr (L := L)
    (s := touched (s.pushWord (L.addr c)) af m s.bus.drive.rested)
    _ (Program.entry_drop .diskReadData 1 rfl)
  have hoff : OffStack (s.pushWord (L.addr c)).bus (s.sp - 2#16) 2 m' := OffStack.trans hm hm'
  -- the state in front of the transfer
  let u : KernelCpu κ := { s with
    main := { s.main with af := af', bc := word 0 0x18 }
    sp := s.sp - 2#16
    bus := { s.bus.withRam m' with drive := { s.bus.drive with busy := 0 } } }
  obtain ⟨m₂, af₂, hfill, hruns⟩ := inir_inir (L := L) (s := u) rfl ht hcount
  have htop : Bus.readWord (u.bus.withRam m₂) (s.sp - 2#16) = L.addr c :=
    calc Bus.readWord (u.bus.withRam m₂) (s.sp - 2#16)
      _ = Bus.readWord u.bus (s.sp - 2#16) := hfill.readWord hbuf
      _ = Bus.readWord (s.pushWord (L.addr c)).bus (s.sp - 2#16) := hoff.readWord (by omega)
      _ = L.addr c := readWord_writeWord_self
  refine ⟨m', m₂, af₂, ?_, ?_, fun z hz => ?_⟩
  · exact (OffStack.push.mono (by omega)).trans hoff.below
  · exact ⟨hfill.bytes, hfill.frame⟩
  · refine Reaches.head rfl (hwait z (hcheck z ?_))
    have hstart : (touched (touched (s.pushWord (L.addr c)) af m s.bus.drive.rested) af' m'
        s.bus.drive.rested.polled).runs L.label (straight [ldImm .c diskport, ldImm .b 0]) = u := by
      simp [touched, u, diskport, Drive.rested, Drive.polled]
    refine Reaches.through (p := [ldImm .c diskport, ldImm .b 0]) rfl hstart ?_
    refine Reaches.through (p := [inir, inir]) rfl hruns (Reaches.head rfl ?_)
    show Reaches L (L.place (Bus.readWord (u.bus.withRam m₂) (s.sp - 2#16)), _) z
    rw [htop, Layout.place_addr hc]
    simpa [u] using hz

/-- A call of the routine that writes a sector, after the card has got the command.

**Proof sketch.** The routine waits for the card, and the transfer puts 512 bytes into it
(`otir_otir`). With the last one the card has the whole sector (`Drive.foldl_sector`) and starts to
write it, for which the routine waits again. RAM changes below the return address only, so that the
bytes sent are those of the buffer and the routine comes back. -/
theorem call_diskWriteData (hc : (kernel sym native).Entry c)
    (ht : s.bus.drive.transfer = .writing lba []) (hcount : s.bus.drive.count = 1)
    (hbuf : ∀ i < 512, ∀ j < 4,
      s.main.hl + BitVec.ofNat 16 i ≠ s.sp - 4#16 + BitVec.ofNat 16 j) :
    ∃ m af turn, OffStack s.bus s.sp 4 m ∧
      ∀ z, Reaches L (.code c, { s with
        main := { s.main with af := af, bc := word 0 0x18, hl := s.main.hl + 512#16 }
        bus := { s.bus.withRam m with
          drive := { s.bus.drive with
            disk := Function.update s.bus.drive.disk lba (sectorOf (bytesFrom s.bus s.main.hl 512))
            transfer := .idle
            busy := 0
            turn := turn } } }) z →
        Reaches L (.code (call .diskWriteData :: c), s) z := by
  have hready : s.bus.drive.rested.status = 0x48 := by
    simp [Drive.rested, Drive.status, ht]
  obtain ⟨af, m, hm, hwait⟩ := polls_diskWaitData.touches (L := L) (s := s.pushWord (L.addr c))
    rfl (by rw [show (s.pushWord (L.addr c)).bus.drive = s.bus.drive from rfl, hready]; rfl)
    _ (Program.entry_drop .diskWriteData 0 rfl)
  -- the state in front of the transfer
  let u : KernelCpu κ := { s with
    main := { s.main with af := af, bc := word 0 0x18 }
    sp := s.sp - 2#16
    bus := { s.bus.withRam m with drive := { s.bus.drive with busy := 0 } } }
  obtain ⟨af₂, hruns⟩ := otir_otir (L := L) (s := u) rfl
  -- what has been written
  have hpush : OffStack s.bus s.sp 4 m :=
    (OffStack.push.mono (by omega)).trans (OffStack.below hm)
  have hread : bytesFrom u.bus s.main.hl 512 = bytesFrom s.bus s.main.hl 512 := by
    refine List.map_congr_left fun i hi => hpush _ fun j hj heq => ?_
    have hadd : s.sp - BitVec.ofNat 16 (j + 1) = s.sp - 4#16 + BitVec.ofNat 16 (3 - j) := by
      bv_omega
    exact hbuf i (List.mem_range.mp hi) (3 - j) (by omega) ((Board.cell_inj.mp heq).trans hadd)
  have hdrive :
      (bytesFrom u.bus u.main.hl 512).foldl Drive.writeData u.bus.drive = { s.bus.drive with
      disk := Function.update s.bus.drive.disk lba (sectorOf (bytesFrom s.bus s.main.hl 512))
      transfer := .idle
      busy := s.bus.drive.delays s.bus.drive.turn
      turn := s.bus.drive.turn + 1 } := by
    rw [← hread]
    exact Drive.foldl_sector ht hcount length_bytesFrom
  let v : KernelCpu κ := { s with
    main := { s.main with af := af₂, bc := word 0 0x18, hl := s.main.hl + 512#16 }
    sp := s.sp - 2#16
    bus := { s.bus.withRam m with drive := { s.bus.drive with
      disk := Function.update s.bus.drive.disk lba (sectorOf (bytesFrom s.bus s.main.hl 512))
      transfer := .idle
      busy := s.bus.drive.delays s.bus.drive.turn
      turn := s.bus.drive.turn + 1 } } }
  have hidle : v.bus.drive.rested.status = 0x40 := by
    simp [v, Drive.rested, Drive.status]
  obtain ⟨af₃, m₃, hm₃, hwait'⟩ := polls_diskWaitCmd.touches (L := L) (s := v) rfl
    (by rw [hidle]; rfl) _ (Program.entry_drop .diskWriteData 5 rfl)
  obtain ⟨af₄, m₄, hm₄, hcheck⟩ := touches_diskChkerr (L := L)
    (s := touched v af₃ m₃ v.bus.drive.rested) _ (Program.entry_drop .diskWriteData 6 rfl)
  have hoff : OffStack (s.pushWord (L.addr c)).bus (s.sp - 2#16) 2 m₄ :=
    (OffStack.trans hm hm₃).trans hm₄
  have htop : Bus.readWord ((s.pushWord (L.addr c)).bus.withRam m₄) (s.sp - 2#16) = L.addr c :=
    (hoff.readWord (by omega)).trans readWord_writeWord_self
  refine ⟨m₄, af₄, s.bus.drive.turn + 1, (OffStack.push.mono (by omega)).trans hoff.below,
    fun z hz => Reaches.head rfl (hwait z ?_)⟩
  have hstart : (touched (s.pushWord (L.addr c)) af m s.bus.drive.rested).runs L.label
      (straight [ldImm .c diskport, ldImm .b 0]) = u := by
    simp [touched, u, diskport, Drive.rested]
  have hv : (u.run L.label .otir).run L.label .otir = v := by
    rw [hruns, hdrive]
  refine Reaches.through (p := [ldImm .c diskport, ldImm .b 0]) rfl hstart ?_
  refine Reaches.through (p := [otir, otir]) rfl hv ?_
  refine hwait' z (hcheck z (Reaches.head rfl ?_))
  show Reaches L
    (L.place (Bus.readWord ((s.pushWord (L.addr c)).bus.withRam m₄) (s.sp - 2#16)), _) z
  rw [htop, Layout.place_addr hc]
  simpa [v, touched, Drive.rested, Drive.polled] using hz

/-! ## The driver -/

/-- The lower and the upper word of the sector that is asked for. -/
def lowerArg (s : KernelCpu κ) : Word := Bus.readWord s.bus (s.sp + 2#16)

/-- The upper word of the sector that is asked for. -/
def upperArg (s : KernelCpu κ) : Word := Bus.readWord s.bus (s.sp + 4#16)

/-- The sector that is asked for, as far as the card can be. -/
def sectorArg (s : KernelCpu κ) : ℕ :=
  ((upperArg s).toNat * 65536 + (lowerArg s).toNat) % 0x10000000

/-- The buffer is apart from the sector on the stack. -/
def BufferApart (s : KernelCpu κ) : Prop :=
  ∀ i < 512, ∀ j < 4, s.main.hl + BitVec.ofNat 16 i ≠ s.sp + 2#16 + BitVec.ofNat 16 j

/-- The parameters are the bytes below the stack pointer when they have been taken. -/
theorem offStack_of_params {x : Cell}
    (h : ∀ j < 4, x ≠ s.bus.cell (s.sp + 2#16 + BitVec.ofNat 16 j)) :
    ∀ j < 4, x ≠ s.bus.cell (s.sp + 6#16 - BitVec.ofNat 16 (j + 1)) := by
  intro j hj
  have hadd : s.sp + 6#16 - BitVec.ofNat 16 (j + 1) = s.sp + 2#16 + BitVec.ofNat 16 (3 - j) := by
    bv_omega
  rw [hadd]
  exact h (3 - j) (by omega)

/-- The buffer is apart from the part of the stack that the calls of the routines use. -/
theorem BufferApart.below (h : BufferApart s) {i j k n : ℕ} (hi : i < 512) (hj : j < n)
    (hk : k + n = 4) :
    s.main.hl + BitVec.ofNat 16 i ≠ s.sp + 6#16 - BitVec.ofNat 16 n + BitVec.ofNat 16 j := by
  have hadd : s.sp + 6#16 - BitVec.ofNat 16 n + BitVec.ofNat 16 j =
      s.sp + 2#16 + BitVec.ofNat 16 (k + j) := by
    bv_omega
  rw [hadd]
  exact h i hi (k + j) (by omega)

/-- No byte of the buffer is one of the four below the stack pointer when the parameters are off. -/
theorem BufferApart.offStack (h : BufferApart s) {i : ℕ} (hi : i < 512) : ∀ j < 4,
    s.bus.cell (s.main.hl + BitVec.ofNat 16 i) ≠
      s.bus.cell (s.sp + 6#16 - BitVec.ofNat 16 (j + 1)) :=
  offStack_of_params fun j hj heq => h i hi j hj (Board.cell_inj.mp heq)

/-- The status after the light of the card has gone on and out. -/
def lightOff (s : KernelCpu κ) : UInt8 := s.bytes .currentStatus &&& 0b11110111 ||| 0b00001000

/-- What both routines leave when they return: the stack without the parameters, and a card that
does nothing. -/
structure Transferred (s t : KernelCpu κ) : Prop where
  keeps : Keeps s t
  ix : t.ix = s.ix
  iy : t.iy = s.top
  sp : t.sp = s.sp + 6
  bytes : t.bytes = Function.update s.bytes .currentStatus (lightOff s)
  board : t.bus = { s.bus with ram := t.bus.ram, status := lightOff s, drive := t.bus.drive }
  transfer : t.bus.drive.transfer = .idle

/-- The buffer has got the sector. -/
structure SectorRead (s t : KernelCpu κ) : Prop where
  transferred : Transferred s t
  disk : t.bus.drive.disk = s.bus.drive.disk
  buffer : ∀ i < 512, t.bus.ram (s.bus.cell (s.main.hl + BitVec.ofNat 16 i)) =
    (s.bus.drive.disk (sectorArg s)).get i
  frame : ∀ x, (∀ i < 512, x ≠ s.bus.cell (s.main.hl + BitVec.ofNat 16 i)) →
    (∀ j < 4, x ≠ s.bus.cell (s.sp + 2#16 + BitVec.ofNat 16 j)) → t.bus.ram x = s.bus.ram x

/-- The state after the parameters have been taken from the stack. -/
def popped (s : KernelCpu κ) : KernelCpu κ :=
  { s with
    main := { s.main with bc := lowerArg s, de := upperArg s }
    iy := s.top
    sp := s.sp + 6#16 }

/-- The first three instructions of both routines take the parameters from the stack. -/
theorem popped_runs : s.runs L.label [.pop .iy, .pop .bc, .pop .de] = popped s := by
  simp [popped, lowerArg, upperArg, BitVec.add_assoc]

/-- The start of both routines, up to the command. The card has got the address. -/
theorem diskStart_reaches (hidle : s.bus.drive.transfer = .idle)
    {c₀ c₁ c₂ : KernelCode} (hc₀ : c₀ = call .diskWaitCmd :: c₁) (hc₁ : c₁ = call .diskSetLba :: c₂)
    (h₀ : (kernel sym native).Entry c₀) (h₁ : (kernel sym native).Entry c₁)
    (h₂ : (kernel sym native).Entry c₂) :
    ∃ m af d, OffStack s.bus (s.sp + 6#16) 4 m ∧ d.disk = s.bus.drive.disk ∧
      d.lba = sectorArg s ∧ ∀ z,
        Reaches L (.code c₂, touched (statusIs (popped s)
          (s.bytes .currentStatus &&& 0b11110111) m) af m d) z →
        Reaches L (.code (pop .iy :: pop .bc :: pop .de :: call .statusSetDisk :: c₀), s) z := by
  subst hc₀ hc₁
  obtain ⟨m, hm, hstatus⟩ := call_statusSet (L := L) (s := popped s) (l := .statusSetDisk) rfl h₀
  have hready : s.bus.drive.rested.status = 0x40 := by
    simp [Drive.rested, Drive.status, hidle]
  obtain ⟨af', m', hm', hwait⟩ := polls_diskWaitCmd.touches (L := L)
    (s := statusIs (popped s) (s.bytes .currentStatus &&& 0b11110111) m) rfl
    (by rw [show (statusIs (popped s) _ m).bus.drive = s.bus.drive from rfl, hready]; rfl) _ h₁
  obtain ⟨af, m'', hm'', hlba⟩ := touches_diskSetLba (L := L) (s := touched (statusIs (popped s)
    (s.bytes .currentStatus &&& 0b11110111) m) af' m' s.bus.drive.rested) _ h₂
  refine ⟨m'', af, s.bus.drive.rested.at (lowerArg s) (upperArg s), ?_, rfl, lba_at, fun z hz => ?_⟩
  · exact (hm.trans (hm'.mono (by omega))).trans hm''
  · refine Reaches.through (p := [pop .iy, pop .bc, pop .de]) rfl popped_runs ?_
    exact hstatus z (hwait z (hlba z hz))

/-- The end of both routines: the light goes out, and they return. -/
theorem diskEnd_reaches {c₀ : KernelCode} (hc₀ : c₀ = [.jpInd .iy])
    (h₀ : (kernel sym native).Entry c₀) : ∃ m, OffStack s.bus s.sp 4 m ∧
      Reaches L (.code (call .statusClrDisk :: c₀), s) (L.place s.iy,
        statusIs s (s.bytes .currentStatus ||| 0b00001000) m) := by
  subst hc₀
  obtain ⟨m, hm, hstatus⟩ := call_statusClr (L := L) (s := s) (l := .statusClrDisk) rfl h₀
  exact ⟨m, hm, hstatus _ (Reaches.head rfl Reaches.refl)⟩

/-- **`disk_read`** reads the sector into the buffer that `HL` points to, from a card that does
nothing and when the buffer is apart from the parameters on the stack.

**Proof sketch.** The pieces are put together: the parameters are taken and the card gets the
address (`diskStart_reaches`), the command, the data (`call_diskReadData`) and the end
(`diskEnd_reaches`). In all of them the calls push below the stack pointer with the parameters off,
which is where these have been, and the buffer is apart from there. -/
theorem fulfils_diskRead (hidle : s.bus.drive.transfer = .idle) (hbuf : BufferApart s) :
    ∃ t, Fulfils L .diskRead s t ∧ SectorRead s t := by
  obtain ⟨m, af, d, hm, hdisk, hlba, hstart⟩ := diskStart_reaches (L := L) hidle rfl rfl
    (Program.entry_drop .diskRead 3 rfl) (Program.entry_drop .diskRead 4 rfl)
    (Program.entry_drop .diskRead 5 rfl)
  let u := touched (statusIs (popped s) (s.bytes .currentStatus &&& 0b11110111) m) af m d
  obtain ⟨af₁, m₁, hm₁, hinit⟩ := touches_diskInitRead (L := L) (s := u)
    _ (Program.entry_drop .diskRead 6 rfl)
  let v := touched u af₁ m₁ (d.commanded 0x20)
  have hcommand : v.bus.drive.transfer = .reading (sectorArg s) 0 := by
    rw [← hlba]
    rfl
  obtain ⟨m₂, m₃, af₂, hm₂, hfill, hdata⟩ := call_diskReadData (L := L) (s := v)
    (Program.entry_drop .diskRead 7 rfl) hcommand rfl fun i hi j hj =>
      hbuf.below (k := 2) hi hj rfl
  let w : KernelCpu κ := { v with
    main := { v.main with af := af₂, bc := word 0 0x18, hl := s.main.hl + 512#16 }
    bus := { v.bus.withRam m₃ with
      drive := { v.bus.drive with transfer := .idle, busy := 0 } } }
  obtain ⟨m₄, hm₄, hend⟩ := diskEnd_reaches (L := L) (s := w) rfl
    (Program.entry_drop .diskRead 8 rfl)
  -- the command leaves RAM outside of the stack
  have hoff : OffStack s.bus (s.sp + 6#16) 4 m₂ :=
    (hm.trans (hm₁.mono (by omega))).trans hm₂
  have hlight : w.bytes .currentStatus ||| 0b00001000 = lightOff s :=
    congrArg (· ||| 0b00001000) (statusIs_currentStatus (s := popped s) (m := m))
  refine ⟨statusIs w (lightOff s) m₄, ?_, ?_⟩
  · refine Fulfils.of_code rfl (hstart _ (hinit _ (hdata _ ?_)))
    rw [← hlight]
    exact hend
  · constructor
    case transferred =>
      constructor
      case keeps => exact ⟨rfl, rfl, rfl⟩
      case ix => rfl
      case iy => rfl
      case sp => rfl
      case bytes => exact Function.update_idem ..
      case board => rfl
      case transfer => rfl
    case disk => exact hdisk
    case buffer =>
      intro i hi
      rw [← hdisk]
      exact (hm₄ _ (hbuf.offStack hi)).trans (hfill.bytes i hi)
    case frame =>
      intro x hx hx'
      have hx'' := offStack_of_params hx'
      exact ((hm₄ x hx'').trans (hfill.frame x hx)).trans (hoff x hx'')

/-- A call for a sector, with a buffer in the bank. -/
def sectorCall : KernelCpu Unit :=
  restingCpu (memoryWith [(.low 0x7002, 5)]) ⟨0, 0, 0, 0x9000⟩ 0x7000

/-- The buffer in the bank is apart from the stack in the lower half of memory. -/
theorem bufferApart_sectorCall : BufferApart sectorCall := by
  intro i hi j hj
  show 0x9000#16 + BitVec.ofNat 16 i ≠ 0x7000#16 + 2#16 + BitVec.ofNat 16 j
  bv_omega

/-- A call for the sector 5 reads it. -/
theorem fulfils_diskRead_five : ∃ t, Fulfils (kernelLayout someSymbols restingC) .diskRead
    sectorCall t ∧ SectorRead sectorCall t :=
  fulfils_diskRead rfl bufferApart_sectorCall

/-- The card has got the sector from the buffer. -/
structure SectorWritten (s t : KernelCpu κ) : Prop where
  transferred : Transferred s t
  disk : t.bus.drive.disk = Function.update s.bus.drive.disk (sectorArg s)
    (sectorOf (bytesFrom s.bus s.main.hl 512))
  frame : ∀ x, (∀ j < 4, x ≠ s.bus.cell (s.sp + 2#16 + BitVec.ofNat 16 j)) →
    t.bus.ram x = s.bus.ram x

/-- **`disk_write`** writes the buffer that `HL` points to to the sector, on a card that does
nothing and when the buffer is apart from the parameters on the stack.

**Proof sketch.** As for `fulfils_diskRead`, with the command to write and the data from the buffer
(`call_diskWriteData`). What is pushed in front of the transfer is apart from the buffer, so that
the sector gets what the buffer had at the start. -/
theorem fulfils_diskWrite (hidle : s.bus.drive.transfer = .idle) (hbuf : BufferApart s) :
    ∃ t, Fulfils L .diskWrite s t ∧ SectorWritten s t := by
  obtain ⟨m, af, d, hm, hdisk, hlba, hstart⟩ := diskStart_reaches (L := L) hidle rfl rfl
    (Program.entry_drop .diskWrite 3 rfl) (Program.entry_drop .diskWrite 4 rfl)
    (Program.entry_drop .diskWrite 5 rfl)
  let u := touched (statusIs (popped s) (s.bytes .currentStatus &&& 0b11110111) m) af m d
  obtain ⟨af₁, m₁, hm₁, hinit⟩ := touches_diskInitWrite (L := L) (s := u)
    _ (Program.entry_drop .diskWrite 6 rfl)
  let v := touched u af₁ m₁ (d.commanded 0x30)
  have hcommand : v.bus.drive.transfer = .writing (sectorArg s) [] := by
    rw [← hlba]
    rfl
  obtain ⟨m₂, af₂, turn, hm₂, hdata⟩ := call_diskWriteData (L := L) (s := v)
    (Program.entry_drop .diskWrite 7 rfl) hcommand rfl fun i hi j hj =>
      hbuf.below (k := 0) hi hj rfl
  let w : KernelCpu κ := { v with
    main := { v.main with af := af₂, bc := word 0 0x18, hl := s.main.hl + 512#16 }
    bus := { v.bus.withRam m₂ with
      drive := { v.bus.drive with
        disk := Function.update v.bus.drive.disk (sectorArg s)
          (sectorOf (bytesFrom v.bus s.main.hl 512))
        transfer := .idle
        busy := 0
        turn := turn } } }
  obtain ⟨m₃, hm₃, hend⟩ := diskEnd_reaches (L := L) (s := w) rfl
    (Program.entry_drop .diskWrite 8 rfl)
  -- the buffer is as it was when the card gets it
  have hoff : OffStack s.bus (s.sp + 6#16) 4 m₁ := hm.trans (hm₁.mono (by omega))
  have hread : bytesFrom v.bus s.main.hl 512 = bytesFrom s.bus s.main.hl 512 :=
    List.map_congr_left fun i hi => hoff _ (hbuf.offStack (List.mem_range.mp hi))
  have hlight : w.bytes .currentStatus ||| 0b00001000 = lightOff s :=
    congrArg (· ||| 0b00001000) (statusIs_currentStatus (s := popped s) (m := m))
  refine ⟨statusIs w (lightOff s) m₃, ?_, ?_⟩
  · refine Fulfils.of_code rfl (hstart _ (hinit _ (hdata _ ?_)))
    rw [← hlight]
    exact hend
  · constructor
    case transferred =>
      constructor
      case keeps => exact ⟨rfl, rfl, rfl⟩
      case ix => rfl
      case iy => rfl
      case sp => rfl
      case bytes => exact Function.update_idem ..
      case board => rfl
      case transfer => rfl
    case disk =>
      rw [← hdisk, ← hread]
      rfl
    case frame =>
      intro x hx
      exact ((hoff.trans hm₂).trans hm₃) x (offStack_of_params hx)

/-- A call for the sector 5 writes it. -/
theorem fulfils_diskWrite_five : ∃ t, Fulfils (kernelLayout someSymbols restingC) .diskWrite
    sectorCall t ∧ SectorWritten sectorCall t :=
  fulfils_diskWrite rfl bufferApart_sectorCall

end Z80OS.Asm
