import Z80OS.File.Agreement

set_option relaxedAutoImplicit false
set_option autoImplicit false

/-!
# The listing of the root directory

The `dir` command asks for the number of the files, and then for the name of one file after the
other. The two calls go over the directory on their own. This file says what a directory lists, in
terms of its entries alone, and that both calls agree with it, for every content of the root
directory.

## Main definitions

* `Z80OS.directoryEntries` — the entries in front of the end of the directory.
* `Z80OS.directoryNames` — the names of the files among them.
* `Z80OS.Enumerates` — the two calls give a list of names.

## Main results

* `Z80OS.directory_enumeration` — they give the names of the files.
-/

namespace Z80OS

/-- The entries of the root directory in front of the first end marker, or all of them. -/
def directoryEntries (s : FileState) : List (ℕ → UInt8) :=
  ((List.range (slots s.diskInfo)).map s.rootEntry).takeWhile fun e => e 0 != 0

/-- An entry is that of a file: it has not been deleted, and is neither a volume label nor a
directory. -/
structure FileEntry (e : ℕ → UInt8) : Prop where
  not_deleted : e 0 ≠ 0xe5
  not_volume : e 11 &&& 0x08 = 0
  not_directory : e 11 &&& 0x10 = 0

instance (e : ℕ → UInt8) : Decidable (FileEntry e) :=
  decidable_of_iff (e 0 ≠ 0xe5 ∧ e 11 &&& 0x08 = 0 ∧ e 11 &&& 0x10 = 0)
    ⟨fun h => ⟨h.1, h.2.1, h.2.2⟩, fun h => ⟨h.1, h.2, h.3⟩⟩

/-- The names of the files of the root directory, in the order of their entries. -/
def directoryNames (s : FileState) : List (List UInt8) :=
  ((directoryEntries s).filter fun e => FileEntry e).map filesystemFilename

/-- The two calls of a listing give a list of names: the number of them, each of them by its number,
and an error behind the last one. Neither of them changes more than the cache. -/
structure Enumerates [Machine] (s : FileState) (names : List (List UInt8)) : Prop where
  entries : ∃ j, fileEntries s = some (names.length, s.cached j)
  entry : ∀ n (h : n < names.length), ∃ j, fileEntry s n = some (.ok names[n], s.cached j)
  behind : ∀ n, names.length ≤ n →
    ∃ j, fileEntry s n = some (.error .fileNotFound, s.cached j)

section

variable {M : Machine} {s : FileState} {boot : Sector} {e : ℕ → UInt8} {z : ℕ}

/-- The driver passes over the entries that are not those of files. -/
theorem skipsEntry_eq_false_iff : skipsEntry e = false ↔ FileEntry e := by
  have hbits : ∀ b : BitVec 8, b &&& 0x18#8 = 0#8 ↔ b &&& 0x08#8 = 0#8 ∧ b &&& 0x10#8 = 0#8 := by
    decide
  have hattr : e 11 &&& 0x18 = 0 ↔ e 11 &&& 0x08 = 0 ∧ e 11 &&& 0x10 = 0 := by
    simpa [← UInt8.toBitVec_inj] using hbits (e 11).toBitVec
  rw [skipsEntry, Bool.or_eq_false_iff, beq_eq_false_iff_ne, bne_eq_false_iff_eq, hattr]
  exact ⟨fun h => ⟨h.1, h.2.1, h.2.2⟩, fun h => ⟨h.1, h.2, h.3⟩⟩

/-- The entries that are listed are those in front of the end of the directory. -/
theorem directoryEntries_eq (hz : z ≤ slots s.diskInfo)
    (hend : z < slots s.diskInfo → s.rootEntry z 0 = 0)
    (hbefore : ∀ i < z, s.rootEntry i 0 ≠ 0) :
    directoryEntries s = (List.range z).map s.rootEntry := by
  obtain ⟨k, hk⟩ := Nat.exists_eq_add_of_le hz
  have hfront : ∀ e ∈ (List.range z).map s.rootEntry, (e 0 != 0) = true := by
    intro e he
    obtain ⟨i, hi, rfl⟩ := List.mem_map.mp he
    exact bne_iff_ne.mpr (hbefore i (List.mem_range.mp hi))
  rw [directoryEntries, hk, List.range_add, List.map_append, List.takeWhile_append_of_pos hfront]
  cases k with
  | zero => exact List.append_nil _
  | succ k =>
    have hstop : (s.rootEntry z 0 != 0) = false := bne_eq_false_iff_eq.mpr (hend (by omega))
    rw [List.range_succ_eq_map, List.map_cons, List.map_cons, Nat.add_zero,
      List.takeWhile_cons_of_neg (by simp [hstop]), List.append_nil]

/-- The names of the files are those of the entries that are listed. -/
theorem directoryNames_eq (hz : z ≤ slots s.diskInfo)
    (hend : z < slots s.diskInfo → s.rootEntry z 0 = 0)
    (hbefore : ∀ i < z, s.rootEntry i 0 ≠ 0) :
    directoryNames s = fileNames s.disk s.diskInfo.rootRegion z := by
  have hfile : ∀ e : ℕ → UInt8, decide (FileEntry e) = !skipsEntry e := by
    intro e
    rw [Bool.eq_iff_iff, decide_eq_true_iff, Bool.not_eq_true', skipsEntry_eq_false_iff]
  rw [directoryNames, directoryEntries_eq hz hend hbefore, List.filter_map, List.map_map, fileNames]
  simp only [hfile]
  rfl

/-- **Enumeration.** For every content of the root directory, the two calls give the names of the
files in front of its end, in the order of the directory.

**Proof sketch.** The entries that are listed are those in front of the end. There are fewer than
65536 of them, so that the counters of the two calls do not wrap. -/
theorem directory_enumeration (hs : s.Coherent) (hi : s.diskInfo = bootDiskInfo boot) :
    Enumerates s (directoryNames s) := by
  have hsound : s.Sound := ⟨hs, hi ▸ bootDiskInfo_rootRegion_lt boot⟩
  obtain ⟨z, hz, hend, hlisted⟩ := exists_listed hi
  obtain ⟨hentries, hentry⟩ := listing_eq hsound hi hz hlisted
  rw [← directoryNames_eq hz hend hlisted.before] at hentries hentry
  refine ⟨hentries, fun n hn => ?_, fun n hn => ?_⟩
  · obtain ⟨j, hj⟩ := hentry n
    rw [List.getElem?_eq_getElem hn] at hj
    exact ⟨j, hj⟩
  · obtain ⟨j, hj⟩ := hentry n
    rw [List.getElem?_eq_none hn] at hj
    exact ⟨j, hj⟩

end

/-! ## A small directory -/

section

attribute [local instance] Machine.linked

/-- A disk whose root directory has a file, a deleted entry, a volume label, and another file. -/
def mixedRootDisk : Disk := fun k =>
  if k = 0 then bootSector 1 1 1
  else if k = 2 then
    (((Sector.zero.memcpy 0 (newEntry [0x41] [0x42] 0).toBytes).memcpy 32 [0xe5]).memcpy 64
      { newEntry [0x58] [0x59] 0 with attributes := 0x08 }.toBytes).memcpy 96
      (newEntry [0x43] [0x44] 0).toBytes
  else Sector.zero

/-- The initialised driver with this disk. -/
def mixedRootState : FileState := filesystemInit (.zeroed mixedRootDisk)

/-- The two files are listed. -/
theorem directory_enumeration_mixed : Enumerates mixedRootState [nameAB, nameCD] := by
  have hnames : directoryNames mixedRootState = [nameAB, nameCD] := by decide +kernel
  rw [← hnames]
  exact directory_enumeration rfl
    (show mixedRootState.diskInfo = bootDiskInfo (bootSector 1 1 1) from rfl)

end

end Z80OS
