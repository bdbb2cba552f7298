import Z80OS.Asm.Status

set_option relaxedAutoImplicit false
set_option autoImplicit false

/-!
# What calls leave below the stack

A routine that is called leaves the address that it returned to, and what it had on the stack
itself, below the stack pointer. This file says of a call what its routine has done, with RAM
changed there and nowhere else.

## Main definitions

* `Z80OS.Asm.OffStack` — RAM that has changed in some bytes below an address.
* `Z80OS.Asm.statusIs` — a state with another status.

## Main results

* `Z80OS.Asm.call_statusSet`, `Z80OS.Asm.call_statusClr` — calls of the routines for the status.
-/

namespace Z80OS.Asm

open Z80

/-- RAM that differs from that of a board in `n` bytes below an address at most. -/
def OffStack {κ : Type} (b : Board κ) (a : Word) (n : ℕ) (m : Cell → UInt8) : Prop :=
  ∀ c, (∀ j < n, c ≠ b.cell (a - BitVec.ofNat 16 (j + 1))) → m c = b.ram c

/-- What the routines for memory and the card leave alone. -/
structure Keeps {κ : Type} (s t : KernelCpu κ) : Prop where
  alt : t.alt = s.alt
  interrupts : t.interrupts = s.interrupts
  words : t.words = s.words

variable {κ : Type} {b : Board κ} {a w : Word} {n k : ℕ} {m m' : Cell → UInt8}

namespace OffStack

/-- RAM that has not changed. -/
theorem refl : OffStack b a n b.ram := fun _ _ => rfl

/-- More bytes below the stack may have changed. -/
theorem mono (h : OffStack b a n m) (hn : n ≤ k) : OffStack b a k m :=
  fun c hc => h c fun j hj => hc j (by omega)

/-- Two changes one after the other. -/
theorem trans (h : OffStack b a n m) (h' : OffStack (b.withRam m) a n m') : OffStack b a n m' :=
  fun c hc => (h' c hc).trans (h c hc)

/-- RAM that changes on another board with the same bank. -/
theorem next {b' : Board κ} (h : OffStack b a n m) (h' : OffStack b' a n m') (hram : b'.ram = m)
    (hcell : b'.cell = b.cell) : OffStack b a n m' := by
  intro c hc
  rw [← hcell] at hc
  rw [h' c hc, hram]
  exact h c (hcell ▸ hc)

/-- What is below a lower address is below the higher one. -/
theorem below (h : OffStack b (a - BitVec.ofNat 16 k) n m) : OffStack b a (n + k) m := by
  intro c hc
  refine h c fun j hj => ?_
  have hsub :
      a - BitVec.ofNat 16 k - BitVec.ofNat 16 (j + 1) = a - BitVec.ofNat 16 (j + k + 1) := by
    bv_omega
  rw [hsub]
  exact hc (j + k) (by omega)

/-- A word that is written below the address. -/
theorem store (hn : 2 ≤ n) : OffStack b a n (Bus.writeWord b (a - BitVec.ofNat 16 n) w).ram := by
  intro c hc
  have h0 : a - BitVec.ofNat 16 n = a - BitVec.ofNat 16 (n - 1 + 1) := by
    rw [Nat.sub_add_cancel (by omega)]
  have h1 : a - BitVec.ofNat 16 n + 1 = a - BitVec.ofNat 16 (n - 2 + 1) := by bv_omega
  exact Board.writeWord_ram (h0 ▸ hc (n - 1) (by omega)) (h1 ▸ hc (n - 2) (by omega))

/-- A word that is put on the stack. -/
theorem push : OffStack b a 2 (Bus.writeWord b (a - 2#16) w).ram := store (Nat.le_refl 2)

/-- What lies on the stack is still there. -/
theorem readWord (h : OffStack b a n m) (hn : n ≤ 0xfffe) :
    Bus.readWord (b.withRam m) a = Bus.readWord b a := by
  refine readWord_congr fun i hi => h _ fun j hj heq => ?_
  have hadd := Board.cell_inj.mp heq
  bv_omega

/-- Some words that are put on the stack one after the other. -/
theorem pushAll (ws : List Word) : OffStack b a (2 * ws.length) (pushAll b a ws).ram := by
  induction ws generalizing b a with
  | nil => exact refl
  | cons w ws ih =>
    rw [List.length_cons]
    exact (push.mono (by omega)).trans (below (k := 2) ih)

/-- A word that is written somewhere to both. -/
theorem writeWord {a' w : Word} (h : OffStack b a n m) :
    OffStack (Bus.writeWord b a' w) a n (Bus.writeWord (b.withRam m) a' w).ram := by
  intro c hc
  have hram : m c = b.ram c := h c hc
  show Function.update (Function.update m (b.cell a') (lo w)) (b.cell (a' + 1)) (hi w) c =
    Function.update (Function.update b.ram (b.cell a') (lo w)) (b.cell (a' + 1)) (hi w) c
  simp only [Function.update_apply, hram]

/-- What lies above is still there. -/
theorem stacked {ws : List Word} (h : OffStack b a n m) (hs : Stacked b a ws)
    (hn : n + 2 * ws.length ≤ 65536) : Stacked (b.withRam m) a ws := by
  refine hs.congr fun i hi => h _ fun j hj heq => ?_
  have hadd := Board.cell_inj.mp heq
  bv_omega

/-- Two words that are put on the stack. -/
theorem push_push {w' : Word} :
    OffStack b a 4 (Bus.writeWord (Bus.writeWord b (a - 2#16) w) (a - 2#16 - 2#16) w').ram :=
  (push.mono (by omega)).trans (push (a := a - 2#16)).below

end OffStack

variable {sym : Symbols} {native : CFunction → KernelCpu κ → KernelCpu κ}
  {L : Layout (kernel sym native)} {s : KernelCpu κ} {l : Label} {c : KernelCode} {mask : UInt8}

/-- The state with another status. -/
def statusIs (s : KernelCpu κ) (v : UInt8) (m : Cell → UInt8) : KernelCpu κ :=
  { s with
    bytes := Function.update s.bytes .currentStatus v
    bus := { s.bus.withRam m with status := v } }

/-- The variable of the status has the status. -/
theorem statusIs_currentStatus {v : UInt8} : (statusIs s v m).bytes .currentStatus = v := by
  simp [statusIs]

/-- What a call of a routine for the status comes to. -/
theorem withStatus_pushWord {v : UInt8} :
    withStatus (s.pushWord w) v = statusIs s v
      (Bus.writeWord (Bus.writeWord s.bus (s.sp - 2#16) w) (s.sp - 2#16 - 2#16) s.main.af).ram := by
  simp [withStatus, statusIs]
  exact ⟨rfl, rfl, rfl, rfl, rfl, rfl⟩

/-- A call of a routine for the status, with `AF` kept on the stack. -/
theorem call_keepAf {v : UInt8}
    (h : ∀ u : KernelCpu κ, u.bytes = s.bytes → Fulfils L l u (withStatus u v))
    (hc : (kernel sym native).Entry (pop .af :: c)) : ∃ m, OffStack s.bus s.sp 6 m ∧ ∀ z,
      Reaches L (.code c, statusIs s v m) z →
        Reaches L (.code (push .af :: call l :: pop .af :: c), s) z := by
  let u := s.pushWord s.main.af
  let w := L.addr (pop .af :: c)
  let m := (pushAll s.bus s.sp [s.main.af, w, s.main.af]).ram
  have hcall : withStatus (u.pushWord w) v = statusIs u v m := withStatus_pushWord
  have hoff : OffStack u.bus u.sp 4 m := OffStack.push_push
  have htop : (statusIs u v m).top = s.main.af :=
    (hoff.readWord (by omega)).trans readWord_writeWord_self
  have hpop : (statusIs u v m).runs L.label (straight [pop .af]) = statusIs s v m := by
    have hsp : s.sp - 2#16 + 2#16 = s.sp := BitVec.sub_add_cancel ..
    show (statusIs u v m).drop.setAf (statusIs u v m).top = _
    rw [htop]
    simp [statusIs, u]
  refine ⟨m, OffStack.pushAll [s.main.af, w, s.main.af], fun z hz => Reaches.head rfl ?_⟩
  exact (hcall ▸ h (u.pushWord w) rfl).call hc (Reaches.through (p := [pop .af]) rfl hpop hz)

/-- A call that clears a bit of the status. -/
theorem call_statusSet (hl : (kernel sym native).code l = statusSet mask)
    (hc : (kernel sym native).Entry c) : ∃ m, OffStack s.bus s.sp 4 m ∧ ∀ z,
      Reaches L (.code c, statusIs s (s.bytes .currentStatus &&& mask) m) z →
        Reaches L (.code (call l :: c), s) z :=
  ⟨_, OffStack.push_push, fun _ h => (withStatus_pushWord ▸ fulfils_statusSet hl).call hc h⟩

/-- A call that sets a bit of the status. -/
theorem call_statusClr (hl : (kernel sym native).code l = statusClr mask)
    (hc : (kernel sym native).Entry c) : ∃ m, OffStack s.bus s.sp 4 m ∧ ∀ z,
      Reaches L (.code c, statusIs s (s.bytes .currentStatus ||| mask) m) z →
        Reaches L (.code (call l :: c), s) z :=
  ⟨_, OffStack.push_push, fun _ h => (withStatus_pushWord ▸ fulfils_statusClr hl).call hc h⟩

end Z80OS.Asm
