import Mathlib.Data.Nat.Notation

set_option relaxedAutoImplicit false
set_option autoImplicit false

/-!
# Little-endian words

Words of 16 and 32 bits as natural numbers, and their bytes, the least significant one first.

## Main definitions

* `Z80OS.word16`, `Z80OS.bytes16`, `Z80OS.word32`, `Z80OS.bytes32` — words and their bytes.

## Main results

* `Z80OS.word16_ofNat`, `Z80OS.word32_ofNat`, `Z80OS.bytes16_word16`, `Z80OS.bytes32_word32` — the
  two directions are inverse to each other, up to the truncation of the number.
-/

namespace Z80OS

/-- The 16-bit word of two bytes, the low byte first. -/
def word16 (lo hi : UInt8) : ℕ := lo.toNat + 256 * hi.toNat

/-- The 32-bit word of four bytes, the low byte first. -/
def word32 (b₀ b₁ b₂ b₃ : UInt8) : ℕ := word16 b₀ b₁ + 65536 * word16 b₂ b₃

/-- The bytes of a 16-bit word, the low byte first. -/
def bytes16 (w : ℕ) : List UInt8 := [UInt8.ofNat w, UInt8.ofNat (w / 256)]

/-- The bytes of a 32-bit word, the low byte first. -/
def bytes32 (w : ℕ) : List UInt8 := bytes16 w ++ bytes16 (w / 65536)

/-- A word of 16 bits has two bytes. -/
@[simp] theorem length_bytes16 (w : ℕ) : (bytes16 w).length = 2 := rfl

/-- A word of 32 bits has four bytes. -/
@[simp] theorem length_bytes32 (w : ℕ) : (bytes32 w).length = 4 := rfl

/-- A word from two bytes has 16 bits. -/
theorem word16_lt (lo hi : UInt8) : word16 lo hi < 65536 := by
  have := lo.toNat_lt
  have := hi.toNat_lt
  unfold word16
  omega

/-- Writing a word and reading it back truncates it to 16 bits. -/
theorem word16_ofNat (w : ℕ) :
    word16 (UInt8.ofNat w) (UInt8.ofNat (w / 256)) = w % 65536 := by
  simp only [word16, UInt8.toNat_ofNat']
  omega

/-- Writing a word and reading it back truncates it to 32 bits. -/
theorem word32_ofNat (w : ℕ) :
    word32 (UInt8.ofNat w) (UInt8.ofNat (w / 256)) (UInt8.ofNat (w / 65536))
      (UInt8.ofNat (w / 65536 / 256)) = w % 4294967296 := by
  rw [word32, word16_ofNat, word16_ofNat]
  omega

/-- The bytes of the word of two bytes are these bytes. -/
theorem bytes16_word16 (lo hi : UInt8) : bytes16 (word16 lo hi) = [lo, hi] := by
  have h₁ := lo.toNat_lt
  have h₂ := hi.toNat_lt
  simp only [bytes16, word16, List.cons.injEq, and_true]
  constructor <;> (apply UInt8.toNat.inj; rw [UInt8.toNat_ofNat']; omega)

/-- Words with the same bytes. -/
theorem eq_of_bytes16 {w w' : ℕ} (hw : w < 65536) (hw' : w' < 65536)
    (h : bytes16 w = bytes16 w') : w = w' := by
  simp only [bytes16, List.cons.injEq, and_true] at h
  rw [← Nat.mod_eq_of_lt hw, ← Nat.mod_eq_of_lt hw', ← word16_ofNat, ← word16_ofNat, h.1, h.2]

/-- The bytes of the word of four bytes are these bytes. -/
theorem bytes32_word32 (b₀ b₁ b₂ b₃ : UInt8) :
    bytes32 (word32 b₀ b₁ b₂ b₃) = [b₀, b₁, b₂, b₃] := by
  have h := word16_lt b₀ b₁
  have hlo : bytes16 (word32 b₀ b₁ b₂ b₃) = [b₀, b₁] := by
    rw [← bytes16_word16 b₀ b₁]
    simp only [bytes16, word32, List.cons.injEq, and_true]
    constructor <;> (apply UInt8.toNat.inj; simp only [UInt8.toNat_ofNat']; omega)
  have hhi : word32 b₀ b₁ b₂ b₃ / 65536 = word16 b₂ b₃ := by unfold word32; omega
  rw [bytes32, hlo, hhi, bytes16_word16]
  rfl

end Z80OS
