import Mathlib.Logic.Function.Basic
import Mathlib.Data.List.GetD
import Mathlib.Tactic.SplitIfs
import Z80OS.Lib.Words

set_option relaxedAutoImplicit false
set_option autoImplicit false

/-!
# Sectors

A sector is the 512 bytes that `disk_read` and `disk_write` move at a time. The driver looks into
it with byte indices, copies byte strings into it, and reads 16-bit and 32-bit words at arbitrary
offsets, least significant byte first.

## Main definitions

* `Z80OS.Sector`, `Z80OS.Sector.get`, `Z80OS.Sector.slice` — a sector and its bytes.
* `Z80OS.Sector.memcpy` — a sector after a copy into it.
* `Z80OS.Disk` — an array of sectors.
-/

namespace Z80OS

/-! ## Sectors -/

/-- The contents of a sector. -/
def Sector : Type := Fin 512 → UInt8

namespace Sector

/-- The byte at index `i`, for indices inside the sector. -/
def get (t : Sector) (i : ℕ) : UInt8 := if h : i < 512 then t ⟨i, h⟩ else 0

/-- The `n` bytes from index `i` on. -/
def slice (t : Sector) (i n : ℕ) : List UInt8 := (List.range n).map fun j => t.get (i + j)

/-- The sector after `memcpy(t + off, src, n)` with `n` the number of bytes of `src`. -/
def memcpy (t : Sector) (off : ℕ) (src : List UInt8) : Sector := fun i =>
  if off ≤ i ∧ i < off + src.length then src.getD (i - off) 0 else t i

/-- A sector of zeroes. -/
def zero : Sector := fun _ => 0

/-- The 16-bit word at index `i`. -/
def word (t : Sector) (i : ℕ) : ℕ := word16 (t.get i) (t.get (i + 1))

variable {t u : Sector} {i j n off w : ℕ} {src : List UInt8}

/-- Sectors with the same bytes are equal. -/
theorem ext_get (h : ∀ i < 512, t.get i = u.get i) : t = u := by
  funext ⟨i, hi⟩
  have := h i hi
  simpa [get, hi] using this

/-- The bytes after a copy: those of the source inside the copied range, the old ones elsewhere. -/
theorem get_memcpy (hi : i < 512) :
    (t.memcpy off src).get i =
      if off ≤ i ∧ i < off + src.length then src.getD (i - off) 0 else t.get i := by
  simp [get, hi, memcpy]

/-- A copy does not reach the bytes in front of and behind it. -/
theorem get_memcpy_of_not (h : i < off ∨ off + src.length ≤ i) :
    (t.memcpy off src).get i = t.get i := by
  rcases Nat.lt_or_ge i 512 with hi | hi
  · rw [get_memcpy hi, if_neg (by omega)]
  · simp [get, Nat.not_lt.mpr hi]

/-- A slice has the length asked for. -/
@[simp] theorem length_slice : (t.slice i n).length = n := by simp [slice]

/-- A slice that is longer by one ends with the next byte. -/
theorem slice_succ : t.slice i (n + 1) = t.slice i n ++ [t.get (i + n)] := by
  simp [slice, List.range_succ]

/-- The bytes of a slice are those of the sector from its start on. -/
theorem getD_slice (hj : j < n) : (t.slice i n).getD j 0 = t.get (i + j) := by
  rw [List.getD_eq_getElem _ _ (by simpa using hj)]
  simp [slice]

/-- Copying a slice of a sector to where it came from changes nothing. -/
theorem memcpy_slice : t.memcpy off (t.slice off n) = t := by
  refine ext_get fun i hi => ?_
  rw [get_memcpy hi, length_slice]
  split_ifs with h
  · rw [getD_slice (by omega), Nat.add_sub_cancel' h.1]
  · rfl

/-- Copying nothing changes nothing. -/
theorem memcpy_nil : t.memcpy off [] = t := memcpy_slice (n := 0)

/-- Two copies one behind the other are one copy. -/
theorem memcpy_append {src' : List UInt8} :
    (t.memcpy off src).memcpy (off + src.length) src' = t.memcpy off (src ++ src') := by
  refine ext_get fun i hi => ?_
  rw [get_memcpy hi, get_memcpy hi, get_memcpy hi, List.length_append]
  rcases Nat.lt_or_ge i (off + src.length) with hlt | hge
  · rw [if_neg (by omega)]
    by_cases hoff : off ≤ i
    · rw [if_pos ⟨hoff, hlt⟩, if_pos (by omega), List.getD_append _ _ _ _ (by omega)]
    · rw [if_neg (by omega), if_neg (by omega)]
  · by_cases hin : i < off + src.length + src'.length
    · rw [if_pos ⟨hge, hin⟩, if_pos (by omega), List.getD_append_right _ _ _ _ (by omega),
        Nat.sub_sub]
    · rw [if_neg (by omega), if_neg (by omega), if_neg (by omega)]

/-- A word written at an even index is read back there. -/
theorem word_memcpy_self (hi : i + 1 < 512) : (t.memcpy i (bytes16 w)).word i = w % 65536 := by
  rw [word, get_memcpy (by omega), get_memcpy hi, if_pos (by simp), if_pos (by simp)]
  simpa [bytes16] using word16_ofNat w

/-- A copy does not change the words in front of and behind it. -/
theorem word_memcpy_of_not (h : i + 2 ≤ off ∨ off + src.length ≤ i) :
    (t.memcpy off src).word i = t.word i := by
  rw [word, word, get_memcpy_of_not (by omega), get_memcpy_of_not (by omega)]

/-- The empty sector has the byte 0 everywhere. -/
@[simp] theorem get_zero : zero.get i = 0 := by simp [get, zero]

/-- The empty sector has the word 0 everywhere. -/
@[simp] theorem word_zero : zero.word i = 0 := by simp [word, word16]

/-- A word has 16 bits. -/
theorem word_lt : t.word i < 65536 := word16_lt _ _

end Sector

/-- A disk: the contents of its sectors, by sector number. -/
abbrev Disk : Type := ℕ → Sector

end Z80OS
