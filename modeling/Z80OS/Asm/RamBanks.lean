import Z80OS.Asm.Status

set_option relaxedAutoImplicit false
set_option autoImplicit false

/-!
# The banks of RAM

`ram_bank_set` selects a bank and comes back although the stack may have been in the bank that was
selected before. `ram_bank_test` counts the banks: it marks the first byte of each, then numbers
them until it meets one that has a number. The count has eight bits, so that 256 banks are none.

## Main definitions

* `Z80OS.Asm.bankMark` — the byte that is tested in a bank.
* `Z80OS.Asm.BanksCounted` — what has changed when the banks have been counted.

## Main results

* `Z80OS.Asm.fulfils_ramBankSet` — a bank is selected.
* `Z80OS.Asm.fulfils_ramBankTest` — the banks are counted.
-/

namespace Z80OS.Asm

open Z80

variable {κ : Type} {sym : Symbols} {native : CFunction → KernelCpu κ → KernelCpu κ}
  {L : Layout (kernel sym native)} {s t : KernelCpu κ} {z : Place kernelNames × KernelCpu κ}
  {k l n : ℕ}

/-- The state after a bank has been selected: the number is kept in a variable, and `HL` is the
address that the routine returns to. -/
def withBank (s : KernelCpu κ) (bank : UInt8) : KernelCpu κ :=
  { s with
    main := { s.main with hl := s.top }
    sp := s.sp + 2
    bytes := Function.update s.bytes .bankCurrent bank
    bus := { s.bus with bank := bank } }

/-- **`ram_bank_set`** takes the address that it returns to from the stack before it selects the
bank in `A`. -/
theorem fulfils_ramBankSet : Fulfils L .ramBankSet s (withBank s (hi s.main.af)) := by
  refine Fulfils.of_code rfl (Reaches.straight (Reaches.head rfl ?_))
  simp [kernel, kernelCode, withBank]
  exact Reaches.refl

/-! ## The marks -/

/-- The byte that is tested in a bank. -/
def bankMark (k : ℕ) : Cell := .bank k bankedMemTest

/-- The byte that the routine tests, in the selected bank. -/
theorem cellIn_bankMark {banks : ℕ} {bank : UInt8} :
    cellIn banks bank bankedMemTest = bankMark (bank.toNat % banks) := rfl

/-- RAM in which the bytes of the banks below `n` are as given. -/
def marked (m : Cell → UInt8) (n : ℕ) (f : ℕ → UInt8) : Cell → UInt8
  | .low a => m (.low a)
  | .bank k a => if a = bankedMemTest ∧ k < n then f k else m (.bank k a)

/-- The state with other contents of `A` and `F`, another number in `L`, another bank and other
RAM. -/
def testing (s : KernelCpu κ) (af : Word) (l : ℕ) (bank : UInt8) (m : Cell → UInt8) : KernelCpu κ :=
  { s with
    main := { s.main with af := af, hl := word (hi s.main.hl) (UInt8.ofNat l) }
    bus := { s.bus with bank := bank, ram := m } }

/-- The count is zero again behind the last number. -/
theorem ofNat_add_one_eq_zero_iff (hl : l < 256) : UInt8.ofNat l + 1 = 0 ↔ l = 255 := by
  rw [← UInt8.toNat_inj, UInt8.toNat_add, UInt8.toNat_ofNat']
  simp only [UInt8.reduceToNat]
  omega

/-- One turn of the loop that marks the banks. -/
theorem ramBankTestInit_turn (af : Word) (bank : UInt8) {m : Cell → UInt8} (hl : l < 256) :
    ∃ af', Reaches L (.code ramBankTestInit, testing s af l bank m)
      (.code (if l = 255 then ldImm .l 0 :: ramBankTestLoop else ramBankTestInit),
        testing s af' (l + 1) (UInt8.ofNat l)
          (Function.update m (bankMark (l % s.bus.banks)) 0xff)) := by
  obtain ⟨af', hruns, hzero⟩ : ∃ af', (testing s af l bank m).runs L.label
      (straight ramBankTestInit) = testing s af' (l + 1) (UInt8.ofNat l)
        (Function.update m (bankMark (l % s.bus.banks)) 0xff) ∧
      Cond.nz.holds af' = decide (l ≠ 255) := by
    refine ⟨((testing s af l bank m).runs L.label (straight ramBankTestInit)).main.af, ?_, ?_⟩
    · simp [ramBankTestInit, testing, Board.write_eq, Board.cell, cellIn_bankMark,
        Nat.mod_eq_of_lt hl]
    · rw [Bool.eq_iff_iff]
      simp [ramBankTestInit, testing, ofNat_add_one_eq_zero_iff hl]
  refine ⟨af', Reaches.branch rfl hruns hzero ?_⟩
  by_cases h : l = 255
  · rw [if_pos h, if_neg (by simpa using h)]
    exact Reaches.refl
  · rw [if_neg h, if_pos (by simpa using h)]
    exact Reaches.refl

/-- **The banks are marked.**

**Proof sketch.** Induction on the turns that are left. A turn marks the bank with the number modulo
the number of banks, which is a new one as long as there are unmarked banks and a marked one from
then on. -/
theorem ramBankTestInit_reaches (af : Word) (bank : UInt8) {m : Cell → UInt8}
    (hbanks : 0 < s.bus.banks) (hn : n < 256) (hl : l + n = 255) :
    ∃ af', Reaches L
      (.code ramBankTestInit, testing s af l bank (marked m (min l s.bus.banks) fun _ => 0xff))
      (.code (ldImm .l 0 :: ramBankTestLoop),
        testing s af' 256 255 (marked m (min 256 s.bus.banks) fun _ => 0xff)) := by
  have hupdate : ∀ l, Function.update (marked m (min l s.bus.banks) fun _ => 0xff)
      (bankMark (l % s.bus.banks)) 0xff = marked m (min (l + 1) s.bus.banks) fun _ => 0xff := by
    intro l
    funext c
    have hlt := Nat.mod_lt l hbanks
    have hmod : l < s.bus.banks → l % s.bus.banks = l := Nat.mod_eq_of_lt
    rw [Function.update_apply]
    cases c with
    | low a => simp [bankMark, marked]
    | bank k a =>
      by_cases ha : a = bankedMemTest
      · subst ha
        by_cases hk : k = l % s.bus.banks
        · simp [bankMark, marked, hk]
          omega
        · have hiff : k < min l s.bus.banks ↔ k < min (l + 1) s.bus.banks := by
            rw [Nat.lt_min, Nat.lt_min]
            constructor
            · omega
            · rintro ⟨hkl, hkb⟩
              have hne : k ≠ l := fun h => hk (by rw [hmod (h ▸ hkb), h])
              omega
          simp [bankMark, marked, hk, hiff]
      · simp [bankMark, marked, ha]
  induction n generalizing l af bank with
  | zero =>
    obtain ⟨af', h⟩ := ramBankTestInit_turn (L := L) (s := s)
      (m := marked m (min l s.bus.banks) fun _ => 0xff) (l := l) af bank (by omega)
    obtain rfl : l = 255 := by omega
    exact ⟨af', hupdate 255 ▸ h⟩
  | succ n ih =>
    obtain ⟨af', h⟩ := ramBankTestInit_turn (L := L) (s := s)
      (m := marked m (min l s.bus.banks) fun _ => 0xff) (l := l) af bank (by omega)
    rw [if_neg (by omega), hupdate] at h
    obtain ⟨af'', h'⟩ := ih (l := l + 1) af' (UInt8.ofNat l) (by omega) (by omega)
    exact ⟨af'', h.trans h'⟩

/-! ## The count -/

/-- What the byte of a bank is while banks are counted: its number, or that it has none yet. -/
def countMark (l k : ℕ) : UInt8 := if k < l then UInt8.ofNat k else 0xff

/-- One turn of the loop that counts the banks, at a bank that has no number.

**Proof sketch.** The mark says that the bank has no number. So the first jump is not taken, and the
bank gets the number, which is then counted up. -/
theorem ramBankTestLoop_turn (af : Word) (bank : UInt8) {m : Cell → UInt8} (hl : l < 256)
    (hmark : m (bankMark (l % s.bus.banks)) = 0xff) :
    ∃ af', Reaches L (.code ramBankTestLoop, testing s af l bank m)
      (.code (if l = 255 then [ldReg .a .l, .ret] else ramBankTestLoop),
        testing s af' (l + 1) (UInt8.ofNat l)
          (Function.update m (bankMark (l % s.bus.banks)) (UInt8.ofNat l))) := by
  obtain ⟨af', hruns, hzero⟩ : ∃ af', (testing s af l bank m).runs L.label
      (straight ramBankTestLoop) = testing s af' l (UInt8.ofNat l) m ∧
      Cond.nz.holds af' = false := by
    refine ⟨((testing s af l bank m).runs L.label (straight ramBankTestLoop)).main.af, ?_, ?_⟩
    · simp [ramBankTestLoop, testing]
    · simp [ramBankTestLoop, testing, Board.read_eq, Board.cell, cellIn_bankMark,
        Nat.mod_eq_of_lt hl, hmark]
  obtain ⟨af'', hruns', hzero'⟩ : ∃ af'', (testing s af' l (UInt8.ofNat l) m).runs L.label
      [.ld (.reg .a) (.reg .l), .ld (.at bankedMemTest) (.reg .a), .inc .l] =
        testing s af'' (l + 1) (UInt8.ofNat l)
          (Function.update m (bankMark (l % s.bus.banks)) (UInt8.ofNat l)) ∧
      Cond.nz.holds af'' = decide (l ≠ 255) := by
    refine ⟨((testing s af' l (UInt8.ofNat l) m).runs L.label
      [.ld (.reg .a) (.reg .l), .ld (.at bankedMemTest) (.reg .a), .inc .l]).main.af, ?_, ?_⟩
    · simp [testing, Board.write_eq, Board.cell, cellIn_bankMark, Nat.mod_eq_of_lt hl]
    · rw [Bool.eq_iff_iff]
      simp [testing, ofNat_add_one_eq_zero_iff hl]
  refine ⟨af'', Reaches.branch rfl hruns hzero (Reaches.branch rfl hruns' hzero' ?_)⟩
  by_cases h : l = 255
  · rw [if_pos h, if_neg (by simpa using h)]
    exact Reaches.refl
  · rw [if_neg h, if_pos (by simpa using h)]
    exact Reaches.refl

/-- The loop ends at a bank that has a number. -/
theorem ramBankTestLoop_end (af : Word) (bank : UInt8) {m : Cell → UInt8} (hl : l < 256)
    (hmark : m (bankMark (l % s.bus.banks)) ≠ 0xff) :
    ∃ af', Reaches L (.code ramBankTestLoop, testing s af l bank m)
      (.code [ldReg .a .l, .ret], testing s af' l (UInt8.ofNat l) m) := by
  obtain ⟨af', hruns, hzero⟩ : ∃ af', (testing s af l bank m).runs L.label
      (straight ramBankTestLoop) = testing s af' l (UInt8.ofNat l) m ∧
      Cond.nz.holds af' = true := by
    refine ⟨((testing s af l bank m).runs L.label (straight ramBankTestLoop)).main.af, ?_, ?_⟩
    · simp [ramBankTestLoop, testing]
    · simp [ramBankTestLoop, testing, Board.read_eq, Board.cell, cellIn_bankMark,
        Nat.mod_eq_of_lt hl, hmark]
  exact ⟨af', Reaches.branch rfl hruns hzero Reaches.refl⟩

/-- A bank gets its number. -/
theorem update_countMark {m : Cell → UInt8} {banks : ℕ} (hl : l < banks) :
    Function.update (marked m banks (countMark l)) (bankMark (l % banks)) (UInt8.ofNat l) =
      marked m banks (countMark (l + 1)) := by
  funext c
  rw [Function.update_apply, Nat.mod_eq_of_lt hl]
  cases c with
  | low a => simp [bankMark, marked]
  | bank k a =>
    by_cases ha : a = bankedMemTest
    · subst ha
      by_cases hk : k = l
      · simp [bankMark, marked, countMark, hk, hl]
      · have hiff : k < l ↔ k < l + 1 := by omega
        simp [bankMark, marked, countMark, hk, hiff]
    · simp [bankMark, marked, ha]

/-- At the end each bank has its number. -/
theorem marked_countMark {m : Cell → UInt8} {banks : ℕ} :
    marked m banks (countMark banks) = marked m banks UInt8.ofNat := by
  funext c
  cases c with
  | low a => rfl
  | bank k a =>
    by_cases hk : k < banks
    · simp [marked, countMark, hk]
    · simp [marked, hk]

/-- **The banks are counted**, from one on that has no number yet.

**Proof sketch.** Induction on the banks that are left. The next bank has no number yet, so it gets
one (`ramBankTestLoop_turn`). Behind the last one the loop comes to the first bank again, which has
its number, and ends (`ramBankTestLoop_end`), unless the count has become zero in front of that. -/
theorem ramBankTestLoop_reaches (af : Word) (bank : UInt8) {m : Cell → UInt8}
    (hbanks : s.bus.banks ≤ 256) (hn : l + n + 1 = s.bus.banks) :
    ∃ af' bank', Reaches L
      (.code ramBankTestLoop, testing s af l bank (marked m s.bus.banks (countMark l)))
      (.code [ldReg .a .l, .ret],
        testing s af' s.bus.banks bank' (marked m s.bus.banks UInt8.ofNat)) := by
  have hmark : ∀ l k, l ≤ k → k < s.bus.banks →
      marked m s.bus.banks (countMark l) (bankMark (k % s.bus.banks)) = 0xff := by
    intro l k hlk hk
    simp [bankMark, marked, countMark, Nat.mod_eq_of_lt hk, hk, Nat.not_lt.mpr hlk]
  induction n generalizing l af bank with
  | zero =>
    obtain ⟨af', h⟩ := ramBankTestLoop_turn (L := L) (s := s) (l := l) af bank
      (by omega) (hmark l l (Nat.le_refl l) (by omega))
    have hcount : l + 1 = s.bus.banks := hn
    rw [update_countMark (by omega), hcount, marked_countMark] at h
    by_cases h255 : l = 255
    · rw [if_pos h255] at h
      exact ⟨af', _, h⟩
    · rw [if_neg h255] at h
      have hfirst : marked m s.bus.banks UInt8.ofNat
          (bankMark (s.bus.banks % s.bus.banks)) ≠ 0xff := by
        simp [bankMark, marked, show 0 < s.bus.banks by omega]
      obtain ⟨af'', h'⟩ := ramBankTestLoop_end (L := L) (s := s) af'
        (UInt8.ofNat l) (by omega) hfirst
      exact ⟨af'', _, h.trans h'⟩
  | succ n ih =>
    obtain ⟨af', h⟩ := ramBankTestLoop_turn (L := L) (s := s) (l := l) af bank
      (by omega) (hmark l l (Nat.le_refl l) (by omega))
    rw [if_neg (by omega), update_countMark (by omega)] at h
    obtain ⟨af'', bank', h'⟩ := ih (l := l + 1) af' (UInt8.ofNat l) (by omega)
    exact ⟨af'', bank', h.trans h'⟩

/-- What has changed when the banks have been counted. The last bank that was selected has not been
kept in the variable. -/
structure BanksCounted (s t : KernelCpu κ) : Prop where
  count : hi t.main.af = UInt8.ofNat s.bus.banks
  state : ∃ af bank, t = (testing s af s.bus.banks bank
    (marked s.bus.ram s.bus.banks UInt8.ofNat)).drop

/-- **`ram_bank_test`** counts the banks, modulo 256. It has to be called with the stack in the
lower half.

**Proof sketch.** First all banks are marked (`ramBankTestInit_reaches`), then they are counted
(`ramBankTestLoop_reaches`). The marks are in the upper half and the stack in the lower one, so that
the return address is still there. -/
theorem fulfils_ramBankTest (h0 : 0 < s.bus.banks) (hbanks : s.bus.banks ≤ 256)
    (hsp : s.sp < 0x7fff) : ∃ t, Fulfils L .ramBankTest s t ∧ BanksCounted s t := by
  have hnone : marked s.bus.ram (min 0 s.bus.banks) (fun _ => 0xff) = s.bus.ram := by
    funext c
    cases c <;> simp [marked]
  have hall : marked s.bus.ram (min 256 s.bus.banks) (fun _ => 0xff) =
      marked s.bus.ram s.bus.banks (countMark 0) := by
    rw [Nat.min_eq_right hbanks]
    rfl
  obtain ⟨af, hinit⟩ := ramBankTestInit_reaches (L := L) (s := s) (m := s.bus.ram) (n := 255)
    (l := 0) s.main.af s.bus.bank h0 (by omega) (by omega)
  rw [hnone, hall] at hinit
  obtain ⟨af', bank, hloop⟩ := ramBankTestLoop_reaches (L := L) (s := s) (m := s.bus.ram) (l := 0)
    (n := s.bus.banks - 1) af 255 hbanks (by omega)
  -- the address that is returned to is not in a bank
  have htop : Bus.readWord
      { s.bus with bank := bank, ram := marked s.bus.ram s.bus.banks UInt8.ofNat } s.sp =
        Bus.readWord s.bus s.sp := by
    refine readWord_congr fun i hi => ?_
    have hlow : s.sp + BitVec.ofNat 16 i < 0x8000#16 := by bv_omega
    rw [Board.read_eq, Board.read_eq, Board.cell, Board.cell, cellIn_low hlow, cellIn_low hlow]
    rfl
  refine ⟨(testing s (word (UInt8.ofNat s.bus.banks) (lo af')) s.bus.banks bank
    (marked s.bus.ram s.bus.banks UInt8.ofNat)).drop, ?_, ⟨by simp [testing], _, _, rfl⟩⟩
  refine Fulfils.of_code rfl (Reaches.through (p := [ldImm .l 0]) rfl rfl ?_)
  refine Reaches.trans (y := (_, testing s s.main.af 0 s.bus.bank s.bus.ram)) ?_ (hinit.trans ?_)
  · simp [testing]
    exact Reaches.refl
  refine Reaches.through (p := [ldImm .l 0]) rfl rfl ?_
  refine Reaches.trans (y := (_, testing s af 0 255 (marked s.bus.ram s.bus.banks (countMark 0))))
    ?_ (hloop.trans (Reaches.straight (Reaches.head rfl ?_)))
  · simp [testing]
    exact Reaches.refl
  · simp [testing, htop]
    exact Reaches.refl

/-- A board with two banks. -/
theorem fulfils_ramBankTest_two : ∃ t, Fulfils (kernelLayout someSymbols restingC) .ramBankTest
    (restingCpu (memoryWith []) ⟨0, 0, 0, 0⟩ 0x7000) t ∧
      BanksCounted (restingCpu (memoryWith []) ⟨0, 0, 0, 0⟩ 0x7000) t :=
  fulfils_ramBankTest (by decide) (by decide) (by decide)

end Z80OS.Asm
