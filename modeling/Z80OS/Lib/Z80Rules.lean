import Z80OS.Lib.Z80

set_option relaxedAutoImplicit false
set_option autoImplicit false

/-!
# Rules for programs of the Z80

How words are put together, what memory and the stack hold after a write, and how the runs of a
program are put together from those of its routines. A routine is entered with the address that it
returns to on the top of the stack.

## Main definitions

* `Z80.Reaches` — a run of some instructions.
* `Z80.Fulfils` — what a routine does until it returns.
* `Z80.Stacked` — the words that lie on a stack.

## Main results

* `Z80.Fulfils.call` — a call of a routine.
* `Z80.Stacked.push`, `Z80.Stacked.drop` — the stack after a push and a pop.
-/

namespace Z80

/-! ## Words -/

variable {w a a' : Word} {h l : UInt8}

/-- The upper byte of a word from two bytes. -/
@[simp] theorem hi_word : hi (word h l) = h := by
  apply UInt8.toBitVec_inj.mp
  apply BitVec.eq_of_getLsbD_eq
  intro i hi
  simp only [Z80.hi, word, BitVec.getLsbD_extractLsb', BitVec.getLsbD_append]
  simp [hi]

/-- The lower byte of a word from two bytes. -/
@[simp] theorem lo_word : lo (word h l) = l := by
  apply UInt8.toBitVec_inj.mp
  apply BitVec.eq_of_getLsbD_eq
  intro i hi
  simp only [Z80.lo, word, BitVec.getLsbD_extractLsb', BitVec.getLsbD_append]
  simp [hi]

/-- A word is made of its two bytes. -/
@[simp] theorem word_hi_lo : word (hi w) (lo w) = w := by
  apply BitVec.eq_of_getLsbD_eq
  intro i hi
  simp only [word, Z80.hi, Z80.lo, BitVec.getLsbD_append, BitVec.getLsbD_extractLsb']
  rcases Nat.lt_or_ge i 8 with h | h
  · simp [h]
  · have h8 : i - 8 < 8 := by omega
    have hsum : 8 + (i - 8) = i := by omega
    simp [Nat.not_lt.mpr h, h8, hsum]

/-- A word as a number. -/
theorem lo_add_hi : (lo w).toNat + 256 * (hi w).toNat = w.toNat := by
  have hlo : (lo w).toNat = w.toNat % 2 ^ 8 := by
    simp [lo, UInt8.toNat]
  have hhi : (hi w).toNat = w.toNat / 2 ^ 8 % 2 ^ 8 := by
    simp [hi, UInt8.toNat, Nat.shiftRight_eq_div_pow]
  have := w.isLt
  omega

/-- A word is zero when its bytes are. -/
@[simp] theorem hi_lo_eq_zero : hi w = 0 ∧ lo w = 0 ↔ w = 0#16 := by
  constructor
  · rintro ⟨hh, hl⟩
    rw [← word_hi_lo (w := w), hh, hl]
    rfl
  · rintro rfl
    exact ⟨rfl, rfl⟩

/-- Numbers of 16 bits are different words. -/
theorem ofNat_ne_zero {n : ℕ} (h0 : n ≠ 0) (hlt : n < 65536) : BitVec.ofNat 16 n ≠ 0#16 := by
  intro h
  have := congrArg BitVec.toNat h
  simp only [BitVec.toNat_ofNat] at this
  omega

/-- The address of a byte of the rest is one of the whole. -/
theorem add_ofNat_succ {i : ℕ} : a + 1 + BitVec.ofNat 16 i = a + BitVec.ofNat 16 (i + 1) := by
  rw [BitVec.add_assoc, BitVec.ofNat_add, BitVec.add_comm (BitVec.ofNat 16 i)]
  rfl

/-- A comparison finds out whether two bytes are the same. -/
@[simp] theorem sub_eq_zero_iff {v v' : UInt8} : v - v' = 0 ↔ v = v' := by
  rw [UInt8.sub_eq_iff_eq_add, UInt8.zero_add]

/-- The zero flag is what it is set to. -/
theorem flag_withFlags {f : UInt8} {s z c n p v : Bool} :
    flag (withFlags f s z c n p v) 6 = z := by
  have h28 : ∀ f : UInt8, flag (f &&& 0x28) 6 = false := by
    intro f
    simp [flag]
  simp only [flag, withFlags, UInt8.toBitVec_or, BitVec.getLsbD_or] at *
  rw [h28]
  cases s <;> cases z <;> cases c <;> cases n <;> cases p <;> cases v <;> decide

/-- What `and` leaves in `A`. -/
@[simp] theorem hi_and {af : Word} {v : UInt8} : hi (Alu.and.apply af v) = hi af &&& v := hi_word

/-- What `or` leaves in `A`. -/
@[simp] theorem hi_or {af : Word} {v : UInt8} : hi (Alu.or.apply af v) = hi af ||| v := hi_word

/-- What `xor` leaves in `A`. -/
@[simp] theorem hi_xor {af : Word} {v : UInt8} : hi (Alu.xor.apply af v) = hi af ^^^ v := hi_word

/-- A comparison leaves `A`. -/
@[simp] theorem hi_cp {af : Word} {v : UInt8} : hi (Alu.cp.apply af v) = hi af := hi_word

/-- The zero flag among flags that are given one by one. -/
@[simp] theorem zeroFlag_word {v f : UInt8} {s z c n p q : Bool} :
    zeroFlag (word v (withFlags f s z c n p q)) = z := by
  rw [zeroFlag, lo_word, flag_withFlags]

/-- The zero flag after `and`. -/
@[simp] theorem zeroFlag_and {af : Word} {v : UInt8} :
    zeroFlag (Alu.and.apply af v) = (hi af &&& v == 0) := zeroFlag_word

/-- The zero flag after `or`. -/
@[simp] theorem zeroFlag_or {af : Word} {v : UInt8} :
    zeroFlag (Alu.or.apply af v) = (hi af ||| v == 0) := zeroFlag_word

/-- The zero flag after `xor`. -/
@[simp] theorem zeroFlag_xor {af : Word} {v : UInt8} :
    zeroFlag (Alu.xor.apply af v) = (hi af ^^^ v == 0) := zeroFlag_word

/-- The zero flag after a comparison. -/
@[simp] theorem zeroFlag_cp {af : Word} {v : UInt8} :
    zeroFlag (Alu.cp.apply af v) = (hi af - v == 0) := zeroFlag_word

/-! ## Memory -/

section

variable {σ : Type} [Bus σ] [LawfulBus σ] {b : σ} {v : UInt8} {ws : List Word}

/-- A byte that has been stored is read. -/
@[simp] theorem read_write_self : Bus.read (Bus.write b a v) a = v := by
  rw [LawfulBus.read_write, if_pos rfl]

/-- A store to one address leaves the byte at another one. -/
theorem read_write_of_ne (ha : a' ≠ a) : Bus.read (Bus.write b a v) a' = Bus.read b a' := by
  rw [LawfulBus.read_write, if_neg ha]

/-- The store of a word leaves the bytes at other addresses. -/
theorem read_writeWord_of_ne (h0 : a' ≠ a) (h1 : a' ≠ a + 1) :
    Bus.read (Bus.writeWord b a w) a' = Bus.read b a' := by
  rw [Bus.writeWord, read_write_of_ne h1, read_write_of_ne h0]

/-- A word that has been stored is read. -/
@[simp] theorem readWord_writeWord_self : Bus.readWord (Bus.writeWord b a w) a = w := by
  have hne : a ≠ a + 1 := by bv_omega
  rw [Bus.readWord, Bus.writeWord, read_write_self, read_write_of_ne hne, read_write_self,
    word_hi_lo]

/-- A word that is apart from the one that is written. -/
theorem readWord_writeWord_of_ne (h0 : a' ≠ a) (h1 : a' ≠ a + 1) (h2 : a' + 1 ≠ a) :
    Bus.readWord (Bus.writeWord b a w) a' = Bus.readWord b a' := by
  have h3 : a' + 1 ≠ a + 1 := fun h => h0 (by bv_omega)
  rw [Bus.readWord, Bus.readWord, read_writeWord_of_ne h2 h3, read_writeWord_of_ne h0 h1]

omit [LawfulBus σ] in
/-- A word is the same when its two bytes are. -/
theorem readWord_congr {b' : σ}
    (h : ∀ i < 2, Bus.read b' (a + BitVec.ofNat 16 i) = Bus.read b (a + BitVec.ofNat 16 i)) :
    Bus.readWord b' a = Bus.readWord b a := by
  have h0 : Bus.read b' a = Bus.read b a := by simpa using h 0 (by omega)
  have h1 : Bus.read b' (a + 1) = Bus.read b (a + 1) := h 1 (by omega)
  rw [Bus.readWord, Bus.readWord, h0, h1]

/-! ## Stacks -/

/-- The words that lie in memory from an address on. -/
def Stacked (b : σ) (a : Word) : List Word → Prop
  | [] => True
  | w :: ws => Bus.readWord b a = w ∧ Stacked b (a + 2) ws

omit [LawfulBus σ] in
/-- The words lie there in another memory that agrees on these addresses. -/
theorem Stacked.congr {b' : σ} (h : Stacked b a ws)
    (heq : ∀ i < 2 * ws.length,
      Bus.read b' (a + BitVec.ofNat 16 i) = Bus.read b (a + BitVec.ofNat 16 i)) :
    Stacked b' a ws := by
  induction ws generalizing a with
  | nil => trivial
  | cons w ws ih =>
    rw [List.length_cons] at heq
    refine ⟨(readWord_congr fun i hi => heq i (by omega)).trans h.1, ih h.2 fun i hi => ?_⟩
    · have hadd : a + 2 + BitVec.ofNat 16 i = a + BitVec.ofNat 16 (i + 2) := by
        rw [BitVec.add_assoc, Nat.add_comm i 2, BitVec.ofNat_add]
        rfl
      rw [hadd]
      exact heq (i + 2) (by omega)

/-- A push puts a word on the stack, as long as the stack does not reach around the address
space. -/
theorem Stacked.push (h : Stacked b a ws) (hlen : 2 * ws.length ≤ 0xfffe) :
    Stacked (Bus.writeWord b (a - 2) w) (a - 2) (w :: ws) := by
  refine ⟨readWord_writeWord_self, ?_⟩
  rw [BitVec.sub_add_cancel]
  refine h.congr fun i hi => ?_
  have hlt : i < 0xfffe := by omega
  exact read_writeWord_of_ne (by bv_omega) (by bv_omega)

/-- Memory after some words have been put on the stack one after the other. -/
def pushAll (b : σ) (a : Word) : List Word → σ
  | [] => b
  | w :: ws => pushAll (Bus.writeWord b (a - 2#16) w) (a - 2#16) ws

/-- Pushes put words on the stack, the last one on the top. -/
theorem Stacked.pushAll (ws' : List Word) (h : Stacked b a ws)
    (hlen : 2 * (ws'.length + ws.length) ≤ 0xfffe) :
    Stacked (pushAll b a ws') (a - BitVec.ofNat 16 (2 * ws'.length)) (ws'.reverse ++ ws) := by
  induction ws' generalizing b a ws with
  | nil => simpa [Z80.pushAll] using h
  | cons w ws' ih =>
    rw [List.length_cons] at hlen
    have hnext := ih (h.push (w := w) (by omega)) (by rw [List.length_cons]; omega)
    have hsub : a - 2 - BitVec.ofNat 16 (2 * ws'.length) =
        a - BitVec.ofNat 16 (2 * (w :: ws').length) := by
      rw [List.length_cons]
      bv_omega
    rw [hsub] at hnext
    rw [List.reverse_cons, List.append_assoc]
    exact hnext

end

/-! ## Runs -/

section

variable {N : Names} {σ : Type} [Bus σ] [DecidableEq N.Byte] [DecidableEq N.Word]
  {P : Program N σ} (L : Layout P)

/-- The state after some instructions without jumps. -/
def Cpu.runs (addr : N.Label → Word) (s : Cpu N σ) : List (Op N) → Cpu N σ
  | [] => s
  | o :: os => Cpu.runs addr (s.run addr o) os

/-- The instructions in front of the first jump. -/
def straight : Code N → List (Op N)
  | .op o :: c => o :: straight c
  | _ => []

/-- The code from the first jump on. -/
def jumps : Code N → Code N
  | .op _ :: c => jumps c
  | c => c

attribute [simp] Cpu.setAf Cpu.setBc Cpu.setDe Cpu.setHl Cpu.setIx Cpu.setIy Cpu.setSp Cpu.setBus
  Cpu.read Cpu.write Cpu.readWord Cpu.writeWord Cpu.getReg Cpu.setReg Cpu.getReg8 Cpu.setReg8
  Cpu.index Cpu.get8 Cpu.get16 Cpu.pushWord Cpu.top Cpu.drop Cpu.set8 Cpu.set16 Cpu.run Cpu.runs
  straight jumps Cond.holds BitVec.sub_add_cancel

/-- The program gets from one place and state to another one. -/
def Reaches : Place N × Cpu N σ → Place N × Cpu N σ → Prop :=
  Relation.ReflTransGen fun x y => step L x = some y

/-- The routine behind a label returns with a state when it is called with another one. -/
def Fulfils (l : N.Label) (s t : Cpu N σ) : Prop :=
  Reaches L (.code (P.code l), s) (L.place s.top, t)

variable {L} {l : N.Label} {c : Code N} {s t : Cpu N σ} {x y z : Place N × Cpu N σ}

/-- A place is reached from itself. -/
theorem Reaches.refl : Reaches L x x := Relation.ReflTransGen.refl

/-- What is reached behind a step is reached. -/
theorem Reaches.head (h : step L x = some y) (hr : Reaches L y z) : Reaches L x z :=
  Relation.ReflTransGen.head h hr

/-- Two runs one after the other. -/
theorem Reaches.trans (h : Reaches L x y) (h' : Reaches L y z) : Reaches L x z :=
  Relation.ReflTransGen.trans h h'

/-- A run that has come to an end has come to the only one. -/
theorem Reaches.unique (h : Reaches L x y) (h' : Reaches L x z) (hy : step L y = none)
    (hz : step L z = none) : y = z := by
  have hfun : Relator.RightUnique fun x y : Place N × Cpu N σ => step L x = some y :=
    fun _ _ _ h h' => Option.some.inj (h.symm.trans h')
  have hend : ∀ {y z : Place N × Cpu N σ}, step L y = none → Reaches L y z → y = z := by
    intro y z hy h
    rcases Relation.ReflTransGen.cases_head h with rfl | ⟨w, hw, -⟩
    · rfl
    · rw [hy] at hw
      cases hw
  rcases Relation.ReflTransGen.total_of_right_unique hfun h h' with h | h
  · exact hend hy h
  · exact (hend hz h).symm

/-- A run that has left the program has left it in the only way. -/
theorem Reaches.outside_unique {a b : Word} (h : Reaches L x (.outside a, s))
    (h' : Reaches L x (.outside b, t)) : a = b ∧ s = t := by
  have heq := h.unique h' rfl rfl
  rwa [Prod.mk.injEq, Place.outside.injEq] at heq

/-- A run that has come to a loop of one instruction stays there. -/
theorem Reaches.loop (h : Reaches L x y) (hy : step L y = some y) (h' : Reaches L x z) :
    z = y ∨ Reaches L z y := by
  have hfun : Relator.RightUnique fun x y : Place N × Cpu N σ => step L x = some y :=
    fun _ _ _ h h' => Option.some.inj (h.symm.trans h')
  rcases Relation.ReflTransGen.total_of_right_unique hfun h h' with hyz | hzy
  · refine .inl ?_
    induction hyz with
    | refl => rfl
    | tail _ hstep ih =>
      rw [ih (Relation.ReflTransGen.trans h ‹_›), hy] at hstep
      exact (Option.some.inj hstep).symm
  · exact .inr hzy

/-- Code runs up to its first jump. -/
theorem Reaches.straight (h : Reaches L (.code (jumps c), s.runs L.label (Z80.straight c)) z) :
    Reaches L (.code c, s) z := by
  induction c generalizing s with
  | nil => exact h
  | cons i c ih =>
    cases i with
    | op o => exact Reaches.head rfl (ih h)
    | _ => exact h

/-- Code runs up to its first jump, which depends on the zero flag there. -/
theorem Reaches.branch {cc : Cond} {c' : Code N} (hc : jumps c = .jpIf cc l :: c')
    (hs : s.runs L.label (Z80.straight c) = t) {q : Bool} (hq : cc.holds t.main.af = q)
    (h : Reaches L (.code (if q then P.code l else c'), t) z) : Reaches L (.code c, s) z := by
  refine Reaches.straight ?_
  rw [hc, hs]
  exact Reaches.head rfl (hq ▸ h)

/-- Code without jumps runs up to what follows it. -/
theorem Reaches.through {p : Code N} (hp : jumps p = []) (hs : s.runs L.label (Z80.straight p) = t)
    (h : Reaches L (.code c, t) z) : Reaches L (.code (p ++ c), s) z := by
  subst hs
  induction p generalizing s with
  | nil => exact h
  | cons i p ih =>
    cases i with
    | op o => exact Reaches.head rfl (ih hp h)
    | _ => simp at hp

omit [Bus σ] [DecidableEq N.Byte] [DecidableEq N.Word] in
/-- A place with an address is found at its address. -/
theorem Layout.place_addr (h : P.Entry c) : L.place (L.addr c) = .code c := by
  rw [Layout.place, L.resolve_addr c h]

omit [DecidableEq N.Byte] [DecidableEq N.Word] in
/-- The address behind a call is on the top of the stack of the routine. -/
theorem Cpu.top_pushWord [LawfulBus σ] : (s.pushWord w).top = w := readWord_writeWord_self

/-- A routine does what a run of its code does that ends where the routine returns to. -/
theorem Fulfils.of_code (hc : P.code l = c) (h : Reaches L (.code c, s) (L.place s.top, t)) :
    Fulfils L l s t := by
  unfold Fulfils
  rwa [hc]

omit [Bus σ] [DecidableEq N.Byte] [DecidableEq N.Word] in
/-- The code behind a call has an address. -/
theorem Program.entry_drop (l' : N.Label) (n : ℕ) (h : (P.code l').drop n = .call l :: c) :
    P.Entry c := Or.inr ⟨l, l', h ▸ List.drop_suffix n _⟩

/-- **A call** of a routine goes on behind it. -/
theorem Fulfils.call [LawfulBus σ] (h : Fulfils L l (s.pushWord (L.addr c)) t)
    (hc : P.Entry c) (hr : Reaches L (.code c, t) z) : Reaches L (.code (.call l :: c), s) z := by
  rw [Fulfils, Cpu.top_pushWord, Layout.place_addr hc] at h
  exact Reaches.head rfl (h.trans hr)

end

end Z80
