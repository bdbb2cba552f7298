import Mathlib.Data.List.TakeWhile
import Z80OS.File.Contents

set_option relaxedAutoImplicit false
set_option autoImplicit false

/-!
# Names of files

A name of the 8.3 form is stored in an entry in two fields that are filled up with spaces, and is
put together again from there. For a valid name the driver gets back, in upper case, what it was
given.

## Main definitions

* `Z80OS.ValidName` — the names of the 8.3 form.
* `Z80OS.Parts` — such a name in upper case, in its two parts.
* `Z80OS.Names` — an entry of a file with a given name.

## Main results

* `Z80OS.ValidName.parts` — the name that the driver works with.
* `Z80OS.Parts.names_newEntry` — a new entry has the name it was made for.
-/

namespace Z80OS

/-- A character of a name is not NUL, not a space and not a dot. -/
def NameChar (c : UInt8) : Prop := c ≠ 0 ∧ c ≠ 0x20 ∧ c ≠ 0x2e

/-- The two parts of a name of the 8.3 form. The first character is not the mark of a deleted
entry. -/
structure Parts (base ext : List UInt8) : Prop where
  base_pos : 0 < base.length
  base_le : base.length ≤ 8
  ext_le : ext.length ≤ 3
  base_chars : ∀ c ∈ base, NameChar c
  ext_chars : ∀ c ∈ ext, NameChar c
  not_deleted : base.getD 0 0 ≠ 0xe5

/-- A name of the 8.3 form. -/
def ValidName (name : List UInt8) : Prop :=
  ∃ base ext, Parts base ext ∧ name = base ++ 0x2e :: ext

/-- The entry is one of a file with the given name. -/
structure Names (e : ℕ → UInt8) (name : List UInt8) : Prop where
  used : e 0 ≠ 0
  file : skipsEntry e = false
  name_eq : filesystemFilename e = name

variable {base ext name filename : List UInt8} {c v : UInt8} {e e' : ℕ → UInt8} {n : ℕ}

/-! ## Upper case -/

/-- Upper case neither makes nor removes one of the characters that mean something. -/
theorem toUpper_eq_iff (h : v = 0 ∨ v = 0x20 ∨ v = 0x2e ∨ v = 0xe5) : toUpper c = v ↔ c = v := by
  unfold toUpper
  split_ifs with hc
  · rcases h with rfl | rfl | rfl | rfl <;> grind
  · rfl

/-- In upper case a character of a name is still one. -/
theorem NameChar.toUpper (h : NameChar c) : NameChar (toUpper c) := by
  obtain ⟨h₀, h₁, h₂⟩ := h
  refine ⟨?_, ?_, ?_⟩ <;> rw [ne_eq, toUpper_eq_iff (by simp)] <;> assumption

/-- Upper case keeps the form of a name. -/
theorem Parts.toupper (h : Parts base ext) : Parts (stringToupper base) (stringToupper ext) := by
  refine ⟨by simpa [stringToupper] using h.base_pos, by simpa [stringToupper] using h.base_le,
    by simpa [stringToupper] using h.ext_le, ?_, ?_, ?_⟩
  · intro c hc
    obtain ⟨c', hc', rfl⟩ := List.mem_map.mp hc
    exact (h.base_chars c' hc').toUpper
  · intro c hc
    obtain ⟨c', hc', rfl⟩ := List.mem_map.mp hc
    exact (h.ext_chars c' hc').toUpper
  · have hpos := h.base_pos
    have hnd := h.not_deleted
    rw [List.getD_eq_getElem _ _ hpos] at hnd
    rw [List.getD_eq_getElem _ _ (by simpa [stringToupper] using hpos)]
    simpa [stringToupper, toUpper_eq_iff] using hnd

/-- The name that the driver works with is the given one in upper case. -/
theorem ValidName.parts (h : ValidName (cString filename)) :
    ∃ base ext, Parts base ext ∧ filenameUpper filename = base ++ 0x2e :: ext := by
  obtain ⟨base, ext, hp, hname⟩ := h
  refine ⟨stringToupper base, stringToupper ext, hp.toupper, ?_⟩
  have hlen : (cString filename).length ≤ 12 := by
    have := hp.base_le
    have := hp.ext_le
    rw [hname]
    simp
    omega
  rw [filenameUpper, List.take_of_length_le hlen, hname, stringToupper, List.map_append,
    List.map_cons, toUpper, if_neg (by decide)]
  rfl

/-- A name is split at its dot. -/
theorem Parts.splitName (h : Parts base ext) :
    splitName (base ++ 0x2e :: ext) = some (base, ext) := by
  have hbase : ∀ c ∈ base, (c != 0x2e) = true := fun c hc => by simpa using (h.base_chars c hc).2.2
  rw [Z80OS.splitName, if_pos (by simp)]
  simp only [List.takeWhile_append_of_pos hbase, List.dropWhile_append_of_pos hbase]
  simp

/-! ## The fields of an entry -/

/-- The name of an entry and whether it is passed over depend on its first twelve bytes. -/
theorem filesystemFilename_congr (h : ∀ j < 12, e' j = e j) :
    filesystemFilename e' = filesystemFilename e := by
  have hname : (List.range 8).map e' = (List.range 8).map e :=
    List.map_congr_left fun i hi => h i (by rw [List.mem_range] at hi; omega)
  have hext : ((List.range 3).map fun i => e' (8 + i)) = (List.range 3).map fun i => e (8 + i) :=
    List.map_congr_left fun i hi => h (8 + i) (by rw [List.mem_range] at hi; omega)
  rw [filesystemFilename, filesystemFilename, hname, hext]

/-- Whether an entry is skipped is told by its first twelve bytes. -/
theorem skipsEntry_congr (h : ∀ j < 12, e' j = e j) : skipsEntry e' = skipsEntry e := by
  rw [skipsEntry, skipsEntry, h 0 (by decide), h 11 (by decide)]

/-- The name of an entry is told by its first twelve bytes. -/
theorem Names.congr (h : Names e name) (he : ∀ j < 12, e' j = e j) : Names e' name :=
  ⟨by rw [he 0 (by decide)]; exact h.used, by rw [skipsEntry_congr he]; exact h.file,
    by rw [filesystemFilename_congr he]; exact h.name_eq⟩

/-- Whether a lookup passes over an entry is told by its first twelve bytes. -/
theorem passes_congr (he : ∀ j < 12, e' j = e j) : Passes name e' ↔ Passes name e := by
  rw [Passes, Passes, he 0 (by decide), skipsEntry_congr he, filesystemFilename_congr he]

/-- A lookup does not pass over an entry with the name. -/
theorem Names.not_passes (h : Names e name) : ¬ Passes name e :=
  (not_passes_iff h.used).mpr ⟨h.file, h.name_eq⟩

/-- A field that is filled up with spaces gives back what is in front of them. -/
theorem takeWhile_padded (hlen : base.length ≤ n) (hc : ∀ c ∈ base, c ≠ 0x20) :
    ((List.range n).map fun i => base.getD i 0x20).takeWhile (· != 0x20) = base := by
  have hpad : ((List.range n).map fun i => base.getD i 0x20) =
      base ++ List.replicate (n - base.length) 0x20 := by
    refine List.ext_getElem (by simp; omega) fun i h₁ h₂ => ?_
    rw [List.getElem_map, List.getElem_range]
    rcases Nat.lt_or_ge i base.length with hi | hi
    · rw [List.getD_eq_getElem _ _ hi, List.getElem_append_left hi]
    · rw [List.getD_eq_default _ _ hi, List.getElem_append_right hi, List.getElem_replicate]
  have hpos : ∀ c ∈ base, (c != 0x20) = true := fun c h => by simpa using hc c h
  rw [hpad, List.takeWhile_append_of_pos hpos]
  cases n - base.length with
  | zero => simp
  | succ k => simp [List.replicate_succ]

namespace DirectoryEntry

variable {d : DirectoryEntry} {i : ℕ}

/-- The name of an entry is at its start. -/
theorem toBytes_name (hi : i < 8) : d.toBytes.getD i 0 = d.name[i] := by
  rw [toBytes, List.append_assoc, List.append_assoc, List.append_assoc, List.append_assoc,
    List.append_assoc, List.append_assoc, List.append_assoc, List.append_assoc, List.append_assoc,
    List.getD_append _ _ _ _ (by simpa using hi), List.getD_eq_getElem _ _ (by simpa using hi)]
  simp

/-- The extension of an entry is behind its name. -/
theorem toBytes_ext (hi : i < 3) : d.toBytes.getD (8 + i) 0 = d.ext[i] := by
  rw [toBytes, List.append_assoc, List.append_assoc, List.append_assoc, List.append_assoc,
    List.append_assoc, List.append_assoc, List.append_assoc, List.append_assoc, List.append_assoc,
    List.getD_append_right _ _ _ _ (by simp), List.getD_append _ _ _ _ (by simpa using hi),
    List.getD_eq_getElem _ _ (by simpa using hi)]
  simp

/-- The attributes of an entry are behind its extension. -/
theorem toBytes_attributes : d.toBytes.getD 11 0 = d.attributes := by simp [toBytes]

/-- The first cluster and the size of an entry are read back from its bytes. -/
theorem ofBytes_startingCluster (he : ∀ j < 32, e j = d.toBytes.getD j 0) :
    (ofBytes e).startingCluster = d.startingCluster % 65536 := by
  have h₀ : e 26 = UInt8.ofNat d.startingCluster := by
    rw [he 26 (by decide)]
    simp [toBytes, bytes16]
  have h₁ : e 27 = UInt8.ofNat (d.startingCluster / 256) := by
    rw [he 27 (by decide)]
    simp [toBytes, bytes16]
  rw [ofBytes, h₀, h₁, word16_ofNat]

/-- The size read back from the bytes of an entry is its size, in 32 bits. -/
theorem ofBytes_size (he : ∀ j < 32, e j = d.toBytes.getD j 0) :
    (ofBytes e).size = d.size % 4294967296 := by
  have h₀ : e 28 = UInt8.ofNat d.size := by
    rw [he 28 (by decide)]
    simp [toBytes, bytes16, bytes32]
  have h₁ : e 29 = UInt8.ofNat (d.size / 256) := by
    rw [he 29 (by decide)]
    simp [toBytes, bytes16, bytes32]
  have h₂ : e 30 = UInt8.ofNat (d.size / 65536) := by
    rw [he 30 (by decide)]
    simp [toBytes, bytes16, bytes32]
  have h₃ : e 31 = UInt8.ofNat (d.size / 65536 / 256) := by
    rw [he 31 (by decide)]
    simp [toBytes, bytes16, bytes32]
  rw [ofBytes, h₀, h₁, h₂, h₃, word32_ofNat]

/-- Reading an entry, changing its size and writing it back changes the size only. -/
theorem toBytes_ofBytes_withSize {n : ℕ} (he : ∀ j < 32, e j = d.toBytes.getD j 0) :
    ((ofBytes e).withSize n).toBytes = (d.withSize n).toBytes := by
  have hall : (List.range 32).map e = d.toBytes := by
    refine List.ext_getElem (by simp) fun i h₁ h₂ => ?_
    have hi : i < 32 := by simpa using h₁
    rw [List.getElem_map, List.getElem_range, he i hi, List.getD_eq_getElem _ _ h₂]
  rw [toBytes_withSize (ofBytes e), toBytes_withSize d, toBytes_ofBytes, hall]

end DirectoryEntry

/-- The first two fields of an entry decide its name.

**Proof sketch.** The name field and the extension are padded with blanks, and neither part contains
one, so that reading up to the first blank gives them back (`takeWhile_padded`). The first byte and
the attributes let no search pass over the entry. -/
theorem Parts.names (h : Parts base ext) {d : DirectoryEntry} (hn : d.name = padField 8 base)
    (hx : d.ext = padField 3 ext) (ha : d.attributes = 0)
    (he : ∀ j < 32, e j = d.toBytes.getD j 0) : Names e (base ++ 0x2e :: ext) := by
  have hname : ∀ i < 8, e i = base.getD i 0x20 := fun i hi => by
    rw [he i (by omega), DirectoryEntry.toBytes_name hi]
    simp [hn, padField]
  have hext : ∀ i < 3, e (8 + i) = ext.getD i 0x20 := fun i hi => by
    rw [he _ (by omega), DirectoryEntry.toBytes_ext hi]
    simp [hx, padField]
  have h0 : e 0 = base.getD 0 0 := by
    rw [hname 0 (by decide), List.getD_eq_getElem _ _ h.base_pos,
      List.getD_eq_getElem _ _ h.base_pos]
  have hmem : base.getD 0 0 ∈ base := by
    rw [List.getD_eq_getElem _ _ h.base_pos]
    exact List.getElem_mem h.base_pos
  refine ⟨?_, ?_, ?_⟩
  · rw [h0]
    exact (h.base_chars _ hmem).1
  · have hattr : e 11 = 0 := by
      rw [he 11 (by decide), DirectoryEntry.toBytes_attributes, ha]
    rw [skipsEntry, h0, hattr, Bool.or_eq_false_iff, beq_eq_false_iff_ne]
    exact ⟨h.not_deleted, by decide⟩
  · have hl : (List.range 8).map e = (List.range 8).map fun i => base.getD i 0x20 :=
      List.map_congr_left fun i hi => hname i (List.mem_range.mp hi)
    have hr : ((List.range 3).map fun i => e (8 + i)) =
        (List.range 3).map fun i => ext.getD i 0x20 :=
      List.map_congr_left fun i hi => hext i (List.mem_range.mp hi)
    have hchars : ∀ c ∈ base ++ 0x2e :: ext, (c != 0) = true := by
      intro c hc
      rw [bne_iff_ne]
      rcases List.mem_append.mp hc with hc | hc
      · exact (h.base_chars c hc).1
      · rcases List.mem_cons.mp hc with rfl | hc
        · decide
        · exact (h.ext_chars c hc).1
    rw [filesystemFilename, hl, hr, takeWhile_padded h.base_le fun c hc => (h.base_chars c hc).2.1,
      takeWhile_padded h.ext_le fun c hc => (h.ext_chars c hc).2.1]
    exact List.takeWhile_eq_self_iff.mpr hchars

end Z80OS
