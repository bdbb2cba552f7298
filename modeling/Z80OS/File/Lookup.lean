import Mathlib.Tactic.Ring
import Mathlib.Data.List.Range
import Z80OS.File.Cache

set_option relaxedAutoImplicit false
set_option autoImplicit false

/-!
# What the directory scans find

The entries of a directory are numbered from its first sector on, sixteen to a sector. A lookup by
name stops at the first entry that it does not pass over, and a new entry is put into the first one
that can be taken. The statements here say so in terms of the disk alone; the sector cache and the
loops over the sectors no longer occur in them.

## Main definitions

* `Z80OS.entryAt` — an entry by its number.
* `Z80OS.Passes` — the entries that a lookup passes over.
* `Z80OS.FirstStop` — the entry at which a lookup stops.

## Main results

* `Z80OS.searchDirectory_eq`, `Z80OS.searchDirectory_stops` — the lookups by name.
* `Z80OS.fileCreate_eq`, `Z80OS.fileCreate_cases` — where a new entry goes.
-/

namespace Z80OS

/-- The sector with the `i`-th entry of a directory that starts at the given sector. -/
def entrySector (sector i : ℕ) : ℕ := (sector + i / 16) % sectorNumbers

/-- The offset of the `i`-th entry of a directory in its sector. -/
def entryOffset (i : ℕ) : ℕ := 32 * (i % 16)

/-- The `i`-th entry of the directory that starts at the given sector. -/
def entryAt (d : Disk) (sector i : ℕ) : ℕ → UInt8 := (d (entrySector sector i)).at (entryOffset i)

/-- A lookup passes over an entry that is not the end marker and does not have the name. -/
def Passes (filename : List UInt8) (e : ℕ → UInt8) : Prop :=
  e 0 ≠ 0 ∧ (skipsEntry e = false → filesystemFilename e ≠ filename)

instance (filename : List UInt8) (e : ℕ → UInt8) : Decidable (Passes filename e) := by
  unfold Passes
  infer_instance

/-- The lookup of a name stops at the `n`-th entry. -/
def FirstStop (d : Disk) (sector : ℕ) (filename : List UInt8) (n : ℕ) : Prop :=
  (∀ i < n, Passes filename (entryAt d sector i)) ∧ ¬ Passes filename (entryAt d sector n)

/-- The entry at which a lookup stops is determined. -/
theorem FirstStop.unique {d : Disk} {sector n m : ℕ} {filename : List UInt8}
    (hn : FirstStop d sector filename n) (hm : FirstStop d sector filename m) : n = m := by
  rcases Nat.lt_trichotomy n m with h | h | h
  · exact absurd (hm.1 n h) hn.2
  · exact h
  · exact absurd (hn.1 m h) hm.2

/-- A lookup stops at the latest where it cannot pass on. -/
theorem FirstStop.exists_le {d : Disk} {sector i : ℕ} {filename : List UInt8}
    (h : ¬ Passes filename (entryAt d sector i)) :
    ∃ n, FirstStop d sector filename n ∧ n ≤ i := by
  have hex : ∃ i, ¬ Passes filename (entryAt d sector i) := ⟨i, h⟩
  exact ⟨Nat.find hex, ⟨fun j hj => not_not.mp (Nat.find_min hex hj), Nat.find_spec hex⟩,
    Nat.find_min' hex h⟩

/-- An entry that a lookup does not pass over, and that is not the end marker, is a file with the
name. -/
theorem not_passes_iff {filename : List UInt8} {e : ℕ → UInt8} (h0 : e 0 ≠ 0) :
    ¬ Passes filename e ↔ skipsEntry e = false ∧ filesystemFilename e = filename := by
  simp only [Passes, not_and, Classical.not_imp, not_not]
  exact ⟨fun h => h h0, fun h _ => h⟩

/-! ## The scan of a sector -/

/-- The scan of a sector stops at the first offset whose entry it does not pass over. -/
theorem scanSector_eq (t : Sector) (filename : List UInt8) (fs : List ℕ) :
    scanSector t filename fs =
      match fs.find? fun f => ¬ Passes filename (t.at f) with
      | none => .more
      | some f => if t.at f 0 = 0 then .endOfDirectory else .found f := by
  induction fs with
  | nil => rfl
  | cons f fs ih =>
    by_cases h0 : t.at f 0 = 0
    · have hp : ¬ Passes filename (t.at f) := fun hp => hp.1 h0
      rw [List.find?_cons_of_pos (by simpa using hp)]
      simp [scanSector, h0]
    · by_cases hp : Passes filename (t.at f)
      · rw [List.find?_cons_of_neg (by simpa using hp), ← ih, scanSector, if_neg h0]
        split_ifs with hs hn
        · rfl
        · exact absurd hn (hp.2 (by simpa using hs))
        · rfl
      · obtain ⟨hs, hn⟩ := (not_passes_iff h0).mp hp
        rw [List.find?_cons_of_pos (by simpa using hp)]
        simp [scanSector, h0, hs, hn]

/-- No entry of a sector satisfies `p`. -/
theorem find?_entryOffsets_eq_none {p : ℕ → Bool} :
    entryOffsets.find? p = none ↔ ∀ i < 16, p (32 * i) = false := by
  simp [entryOffsets]

/-- The first entry of a sector that satisfies `p`. -/
theorem find?_entryOffsets_eq_some {p : ℕ → Bool} {f : ℕ} :
    entryOffsets.find? p = some f ↔
      ∃ i < 16, f = 32 * i ∧ p (32 * i) = true ∧ ∀ j < i, p (32 * j) = false := by
  simp only [entryOffsets, List.find?_map, Option.map_eq_some_iff, List.find?_range_eq_some,
    List.mem_range, Function.comp_apply, Bool.not_eq_eq_eq_not, Bool.not_true]
  constructor
  · rintro ⟨i, ⟨hp, hi, hj⟩, rfl⟩
    exact ⟨i, hi, rfl, hp, hj⟩
  · rintro ⟨i, hi, rfl, hp, hj⟩
    exact ⟨i, ⟨hp, hi, hj⟩, rfl⟩

/-! ## From sector to sector -/

section

variable {d : Disk} {sector i n k : ℕ} {filename : List UInt8}

/-- The entries of a sector are the first sixteen of the directory that starts there. -/
theorem entryAt_of_lt (hs : sector < sectorNumbers) (hi : i < 16) :
    entryAt d sector i = (d sector).at (32 * i) := by
  rw [entryAt, entrySector, entryOffset, Nat.div_eq_of_lt hi, Nat.mod_eq_of_lt hi, Nat.add_zero,
    Nat.mod_eq_of_lt hs]

/-- The entries behind the first sixteen are those of the directory that starts one sector
later. -/
theorem entrySector_next : entrySector ((sector + 1) % sectorNumbers) i =
    entrySector sector (i + 16) := by
  simp only [entrySector, sectorNumbers]
  omega

/-- Sixteen entries on, an entry has the same offset in its sector. -/
theorem entryOffset_next : entryOffset (i + 16) = entryOffset i := by simp [entryOffset]

/-- The entries behind the next sector are those sixteen on. -/
theorem entryAt_next : entryAt d ((sector + 1) % sectorNumbers) i = entryAt d sector (i + 16) := by
  rw [entryAt, entryAt, entrySector_next, entryOffset_next]

/-- The next sector is a sector of the disk. -/
theorem next_lt : (sector + 1) % sectorNumbers < sectorNumbers := Nat.mod_lt _ (by decide)

/-- A lookup stops in the first sector, or passes over it and stops at an entry of the rest. -/
theorem firstStop_next (hpass : ∀ i < 16, Passes filename (entryAt d sector i)) :
    FirstStop d ((sector + 1) % sectorNumbers) filename n ↔
      FirstStop d sector filename (n + 16) := by
  simp only [FirstStop, entryAt_next]
  refine and_congr_left fun _ => ⟨fun h i hi => ?_, fun h i hi => h _ (by omega)⟩
  rcases Nat.lt_or_ge i 16 with h' | h'
  · exact hpass i h'
  · obtain ⟨j, rfl⟩ : ∃ j, i = j + 16 := ⟨i - 16, by omega⟩
    exact h j (by omega)

end

/-! ## Lookup by name -/

section

variable {M : Machine} {s s' : FileState} {sector n k : ℕ} {filename : List UInt8}
  {r : Option (ℕ × ℕ)}

/-- What a lookup that stops at the `n`-th entry answers: nothing at an end marker, else where the
entry is. -/
def stopAnswer (d : Disk) (sector n : ℕ) : Option (ℕ × ℕ) :=
  if entryAt d sector n 0 = 0 then none else some (entrySector sector n, entryOffset n)

/-- At the end marker a lookup finds nothing. -/
theorem stopAnswer_of_end {d : Disk} (h : entryAt d sector n 0 = 0) :
    stopAnswer d sector n = none := if_pos h

/-- In front of the end marker a lookup finds the entry that it stops at. -/
theorem stopAnswer_of_ne {d : Disk} (h : entryAt d sector n 0 ≠ 0) :
    stopAnswer d sector n = some (entrySector sector n, entryOffset n) := if_neg h

/-- The scan of the first sector of a directory goes on behind the sector when it passes over all
of its entries. -/
theorem scanSector_eq_more {d : Disk} (hs : sector < sectorNumbers) :
    (entryOffsets.find? fun f => ¬ Passes filename ((d sector).at f)) = none ↔
      ∀ i < 16, Passes filename (entryAt d sector i) := by
  simp only [find?_entryOffsets_eq_none, decide_eq_false_iff_not, not_not]
  exact forall₂_congr fun i hi => by rw [entryAt_of_lt hs hi]

/-- A scan that stops in the first sector of a directory. -/
theorem find?_of_firstStop {d : Disk} (hs : sector < sectorNumbers) (hn : n < 16)
    (h : FirstStop d sector filename n) :
    (entryOffsets.find? fun f => ¬ Passes filename ((d sector).at f)) = some (32 * n) := by
  refine find?_entryOffsets_eq_some.mpr ⟨n, hn, rfl, ?_, fun j hj => ?_⟩
  · rw [← entryAt_of_lt hs hn]
    exact decide_eq_true h.2
  · rw [← entryAt_of_lt hs (hj.trans hn)]
    exact decide_eq_false (not_not.mpr (h.1 j hj))

/-- A lookup that stops at the `n`-th entry.

**Proof sketch.** Induction on the number of sectors. When the lookup stops in the first sector the
scan of that sector finds the entry; otherwise the scan passes over its sixteen entries and the
rest is a lookup in the directory that starts one sector later. -/
theorem searchSectors_eq (hc : s.Coherent) (hs : sector < sectorNumbers)
    (hn : FirstStop s.disk sector filename n) (hk : n / 16 < k) :
    searchSectors filename k s sector =
      some (stopAnswer s.disk sector n, s.cached (entrySector sector n)) := by
  induction k generalizing s sector n with
  | zero => omega
  | succ k ih =>
    simp only [searchSectors, readSectorCached_eq hc, FileState.cached_tempSector, scanSector_eq]
    rcases Nat.lt_or_ge n 16 with h16 | h16
    · have hsector : entrySector sector n = sector := by
        rw [entrySector, Nat.div_eq_of_lt h16, Nat.add_zero, Nat.mod_eq_of_lt hs]
      have hoffset : entryOffset n = 32 * n := by rw [entryOffset, Nat.mod_eq_of_lt h16]
      rw [find?_of_firstStop hs h16 hn, stopAnswer, hsector, hoffset, entryAt_of_lt hs h16]
      simp only
      split_ifs <;> rfl
    · obtain ⟨m, rfl⟩ : ∃ m, n = m + 16 := ⟨n - 16, by omega⟩
      have hpass : ∀ i < 16, Passes filename (entryAt s.disk sector i) :=
        fun i hi => hn.1 i (by omega)
      rw [(scanSector_eq_more hs).mpr hpass]
      simp only
      rw [ih FileState.coherent_cached next_lt ((firstStop_next hpass).mpr hn) (by omega)]
      simp only [stopAnswer, FileState.cached_disk, entryAt_next, entrySector_next,
        entryOffset_next, FileState.cached_cached]

/-- A lookup that returns has stopped at some entry. -/
theorem searchSectors_stops (hc : s.Coherent) (hs : sector < sectorNumbers)
    (h : searchSectors filename k s sector = some (r, s')) :
    ∃ n, FirstStop s.disk sector filename n ∧ n / 16 < k := by
  induction k generalizing s sector with
  | zero => simp [searchSectors] at h
  | succ k ih =>
    by_cases hpass : ∀ i < 16, Passes filename (entryAt s.disk sector i)
    · simp only [searchSectors, readSectorCached_eq hc, FileState.cached_tempSector, scanSector_eq,
        (scanSector_eq_more hs).mpr hpass] at h
      obtain ⟨n, hn, hk⟩ := ih FileState.coherent_cached next_lt h
      exact ⟨n + 16, (firstStop_next hpass).mp hn, by omega⟩
    · simp only [not_forall] at hpass
      obtain ⟨i, hi, hp⟩ := hpass
      obtain ⟨n, hn, hle⟩ := FirstStop.exists_le hp
      exact ⟨n, hn, by omega⟩

/-- A lookup by name in the root directory stops at the `n`-th entry. -/
theorem searchDirectory_eq (hc : s.Coherent) (hs : s.diskInfo.rootRegion < sectorNumbers)
    (hn : FirstStop s.disk s.diskInfo.rootRegion filename n) (hk : n / 16 < Machine.turns) :
    searchDirectory s filename = some (stopAnswer s.disk s.diskInfo.rootRegion n,
      s.cached (entrySector s.diskInfo.rootRegion n)) := by
  unfold searchDirectory
  exact searchSectors_eq hc hs hn hk

/-- A lookup by name that returns has stopped at some entry of the root directory. -/
theorem searchDirectory_stops (hc : s.Coherent) (hs : s.diskInfo.rootRegion < sectorNumbers)
    (h : searchDirectory s filename = some (r, s')) :
    ∃ n, FirstStop s.disk s.diskInfo.rootRegion filename n ∧
      r = stopAnswer s.disk s.diskInfo.rootRegion n ∧
      s' = s.cached (entrySector s.diskInfo.rootRegion n) := by
  unfold searchDirectory at h
  obtain ⟨n, hn, hk⟩ := searchSectors_stops hc hs h
  rw [searchSectors_eq hc hs hn hk, Option.some.injEq, Prod.mk.injEq] at h
  exact ⟨n, hn, h.1.symm, h.2.symm⟩

/-! ### The three lookups -/

/-- The state after the bytes `src` have been written over the `n`-th entry of the root
directory. -/
def FileState.storeEntry (s : FileState) (n : ℕ) (src : List UInt8) : FileState :=
  s.store (entrySector s.diskInfo.rootRegion n)
    ((s.disk (entrySector s.diskInfo.rootRegion n)).memcpy (entryOffset n) src)

/-- The state after a lookup that has stopped at the `n`-th entry of the root directory. -/
def FileState.lookedAt (s : FileState) (n : ℕ) : FileState :=
  s.cached (entrySector s.diskInfo.rootRegion n)

/-- The `n`-th entry of the root directory. -/
def FileState.rootEntry (s : FileState) (n : ℕ) : ℕ → UInt8 :=
  entryAt s.disk s.diskInfo.rootRegion n

/-- A lookup of the name in the root directory stops at the `n`-th entry. -/
def FileState.StopsAt (s : FileState) (filename : List UInt8) (n : ℕ) : Prop :=
  FirstStop s.disk s.diskInfo.rootRegion filename n

/-- What a lookup needs of a state: a coherent cache, and a root directory on the disk. -/
structure FileState.Sound (s : FileState) : Prop where
  coherent : s.Coherent
  root_lt : s.diskInfo.rootRegion < sectorNumbers

variable {entry : DirectoryEntry} {re : Except FileError DirectoryEntry}
  {ru : Except FileError Unit}

/-- A lookup that meets the end marker does not find the name. -/
theorem filesystemGetDirectoryEntry_missing (hs : s.Sound) (hn : s.StopsAt filename n)
    (h0 : s.rootEntry n 0 = 0) (hk : n / 16 < Machine.turns) :
    filesystemGetDirectoryEntry s filename = some (.error .fileNotFound, s.lookedAt n) := by
  unfold filesystemGetDirectoryEntry
  rw [searchDirectory_eq hs.coherent hs.root_lt hn hk, stopAnswer_of_end h0]
  rfl

/-- A lookup that stops elsewhere answers with the entry. -/
theorem filesystemGetDirectoryEntry_found (hs : s.Sound) (hn : s.StopsAt filename n)
    (h0 : s.rootEntry n 0 ≠ 0) (hk : n / 16 < Machine.turns) :
    filesystemGetDirectoryEntry s filename =
      some (.ok (.ofBytes (s.rootEntry n)), s.lookedAt n) := by
  unfold filesystemGetDirectoryEntry
  rw [searchDirectory_eq hs.coherent hs.root_lt hn hk, stopAnswer_of_ne h0]
  rfl

/-- An entry that a lookup stops at is replaced where it is. -/
theorem filesystemSetDirectoryEntry_found (hs : s.Sound) (hn : s.StopsAt filename n)
    (h0 : s.rootEntry n 0 ≠ 0) (hk : n / 16 < Machine.turns) :
    filesystemSetDirectoryEntry s entry filename = some (.ok (), s.storeEntry n entry.toBytes) := by
  unfold filesystemSetDirectoryEntry
  rw [searchDirectory_eq hs.coherent hs.root_lt hn hk, stopAnswer_of_ne h0]
  rfl

/-- An entry that a lookup stops at is marked as free where it is. -/
theorem filesystemMarkDirectoryEntryFree_found (hs : s.Sound) (hn : s.StopsAt filename n)
    (h0 : s.rootEntry n 0 ≠ 0) (hk : n / 16 < Machine.turns) :
    filesystemMarkDirectoryEntryFree s filename = some (.ok (), s.storeEntry n [0xe5]) := by
  unfold filesystemMarkDirectoryEntryFree
  rw [searchDirectory_eq hs.coherent hs.root_lt hn hk, stopAnswer_of_ne h0]
  rfl

/-- A lookup that returns has stopped at some entry, and its answer is determined by it. -/
theorem filesystemGetDirectoryEntry_cases (hs : s.Sound)
    (h : filesystemGetDirectoryEntry s filename = some (re, s')) :
    ∃ n, s.StopsAt filename n ∧ s' = s.lookedAt n ∧
      (s.rootEntry n 0 = 0 ∧ re = .error .fileNotFound ∨
        s.rootEntry n 0 ≠ 0 ∧ re = .ok (.ofBytes (s.rootEntry n))) := by
  unfold filesystemGetDirectoryEntry at h
  split at h
  · simp at h
  all_goals
    rename_i hsearch
    obtain ⟨n, hn, hr, rfl⟩ := searchDirectory_stops hs.coherent hs.root_lt hsearch
    simp only [Option.some.injEq, Prod.mk.injEq] at h
    obtain ⟨rfl, rfl⟩ := h
    refine ⟨n, hn, rfl, ?_⟩
    unfold stopAnswer at hr
    split_ifs at hr with h0
  · exact .inl ⟨h0, rfl⟩
  · simp only [Option.some.injEq, Prod.mk.injEq] at hr
    obtain ⟨-, rfl⟩ := hr
    exact .inr ⟨h0, rfl⟩

end

/-! ## New entries -/

section

variable {M : Machine} {s s' : FileState} {sector n m k : ℕ} {d : Disk} {entry : DirectoryEntry}
  {b : Bool}

/-- An entry that can be taken. -/
def Takable (e : ℕ → UInt8) : Prop := e 0 = 0 ∨ e 0 = 0xe5

instance (e : ℕ → UInt8) : Decidable (Takable e) := by unfold Takable; infer_instance

/-- None of the entries in the first `m` sectors of a directory can be taken. -/
def FullTo (d : Disk) (sector m : ℕ) : Prop := ∀ i < 16 * m, ¬ Takable (entryAt d sector i)

/-- The first entry of a directory that can be taken is the `n`-th one. -/
def FirstTakable (d : Disk) (sector n : ℕ) : Prop :=
  (∀ i < n, ¬ Takable (entryAt d sector i)) ∧ Takable (entryAt d sector n)

/-- The driver takes the entries that can be taken. -/
theorem entryFree_eq {t : Sector} {f : ℕ} : entryFree t f = decide (Takable (t.at f)) := by
  rw [Bool.eq_iff_iff]
  simp [entryFree, Takable, Sector.at]

/-- Behind a full sector the first entry that can be taken is sixteen on. -/
theorem firstTakable_next (hfull : FullTo d sector 1) :
    FirstTakable d ((sector + 1) % sectorNumbers) n ↔ FirstTakable d sector (n + 16) := by
  simp only [FirstTakable, entryAt_next]
  refine and_congr_left fun _ => ⟨fun h i hi => ?_, fun h i hi => h _ (by omega)⟩
  rcases Nat.lt_or_ge i 16 with h' | h'
  · exact hfull i (by omega)
  · obtain ⟨j, rfl⟩ : ∃ j, i = j + 16 := ⟨i - 16, by omega⟩
    exact h j (by omega)

/-- Behind a full sector one sector less is full. -/
theorem fullTo_next (hfull : FullTo d sector 1) :
    FullTo d ((sector + 1) % sectorNumbers) m ↔ FullTo d sector (m + 1) := by
  simp only [FullTo, entryAt_next]
  refine ⟨fun h i hi => ?_, fun h i hi => h _ (by omega)⟩
  rcases Nat.lt_or_ge i 16 with h' | h'
  · exact hfull i (by omega)
  · obtain ⟨j, rfl⟩ : ∃ j, i = j + 16 := ⟨i - 16, by omega⟩
    exact h j (by omega)

/-- A sector has no entry for the driver to take exactly when it is full. -/
theorem find?_entryFree_eq_none (hs : sector < sectorNumbers) :
    entryOffsets.find? (entryFree (d sector)) = none ↔ FullTo d sector 1 := by
  simp only [find?_entryOffsets_eq_none, entryFree_eq, decide_eq_false_iff_not, FullTo, mul_one]
  exact forall₂_congr fun i hi => by rw [entryAt_of_lt hs hi]

/-- The entry of a sector that the driver takes is the first that can be taken. -/
theorem find?_entryFree_eq_some (hs : sector < sectorNumbers) {f : ℕ} :
    entryOffsets.find? (entryFree (d sector)) = some f ↔
      ∃ n < 16, f = 32 * n ∧ FirstTakable d sector n := by
  simp only [find?_entryOffsets_eq_some, entryFree_eq, decide_eq_false_iff_not, decide_eq_true_eq]
  refine exists_congr fun n => and_congr_right fun hn => and_congr_right fun _ => ?_
  rw [FirstTakable, and_comm, entryAt_of_lt hs hn]
  refine and_congr_left fun _ => forall₂_congr fun i hi => ?_
  rw [entryAt_of_lt hs (hi.trans hn)]

/-- The state after the search of a new entry for the first one that can be taken: the new one is
there. -/
def placed (s : FileState) (sector n : ℕ) (entry : DirectoryEntry) : FileState :=
  s.store (entrySector sector n)
    ((s.disk (entrySector sector n)).memcpy (entryOffset n) entry.toBytes)

/-- The new entry goes into the first one that can be taken, when that one lies in front of the
data region.

**Proof sketch.** Induction on the number of sectors, as for a lookup. -/
theorem createSectors_eq (hc : s.Coherent) (hs : sector < sectorNumbers)
    (hn : FirstTakable s.disk sector n) (hk : n / 16 < k)
    (hdata : ∀ j < n / 16, (sector + (j + 1)) % sectorNumbers ≠ s.diskInfo.dataRegion) :
    createSectors entry k s sector = some (false, placed s sector n entry) := by
  induction k generalizing s sector n with
  | zero => omega
  | succ k ih =>
    simp only [createSectors, readSectorCached_eq hc, FileState.cached_tempSector]
    rcases Nat.lt_or_ge n 16 with h16 | h16
    · have hsector : entrySector sector n = sector := by
        rw [entrySector, Nat.div_eq_of_lt h16, Nat.add_zero, Nat.mod_eq_of_lt hs]
      have hoffset : entryOffset n = 32 * n := by rw [entryOffset, Nat.mod_eq_of_lt h16]
      rw [(find?_entryFree_eq_some hs).mpr ⟨n, h16, rfl, hn⟩, placed, hsector, hoffset]
      rfl
    · obtain ⟨m, rfl⟩ : ∃ m, n = m + 16 := ⟨n - 16, by omega⟩
      have hfull : FullTo s.disk sector 1 := fun i hi => hn.1 i (by omega)
      rw [(find?_entryFree_eq_none hs).mpr hfull]
      have hne : (sector + 1) % sectorNumbers ≠ s.diskInfo.dataRegion := hdata 0 (by omega)
      have hcached : (s.cached sector).diskInfo = s.diskInfo := rfl
      simp only [hcached, if_neg hne]
      rw [ih FileState.coherent_cached next_lt ((firstTakable_next hfull).mpr hn) (by omega)
        fun j hj => ?_]
      · simp only [placed, entrySector_next, entryOffset_next, FileState.cached_disk]
        rfl
      · have := hdata (j + 1) (by omega)
        rwa [Nat.mod_add_mod, add_assoc, add_comm 1]

/-- When none of the entries in front of the data region can be taken the answer says so. -/
theorem createSectors_full (hc : s.Coherent) (hs : sector < sectorNumbers)
    (hfull : FullTo s.disk sector (m + 1)) (hk : m < k)
    (hdata : ∀ j < m, (sector + (j + 1)) % sectorNumbers ≠ s.diskInfo.dataRegion)
    (hend : (sector + (m + 1)) % sectorNumbers = s.diskInfo.dataRegion) :
    ∃ j, createSectors entry k s sector = some (true, s.cached j) := by
  induction k generalizing s sector m with
  | zero => omega
  | succ k ih =>
    have hfull₁ : FullTo s.disk sector 1 := fun i hi => hfull i (by omega)
    simp only [createSectors, readSectorCached_eq hc, FileState.cached_tempSector,
      (find?_entryFree_eq_none hs).mpr hfull₁, FileState.cached_diskInfo]
    cases m with
    | zero => exact ⟨sector, by rw [if_pos hend]⟩
    | succ m =>
      rw [if_neg (hdata 0 (by omega))]
      refine ih FileState.coherent_cached next_lt ((fullTo_next hfull₁).mpr hfull) (by omega)
        (fun j hj => ?_) ?_
      · have := hdata (j + 1) (by omega)
        rwa [Nat.mod_add_mod, add_assoc, add_comm 1]
      · rwa [Nat.mod_add_mod, add_assoc, add_comm 1]

/-- A search for room that returns has found the first entry that can be taken, or there is none
in front of the data region.

**Proof sketch.** By induction on the bound of the loop. The sector has an entry that can be taken
(`find?_entryFree_eq_some`), is the last one, or is passed over, and the positions in the rest of
the search are counted from the next sector. -/
theorem createSectors_stops (hc : s.Coherent) (hs : sector < sectorNumbers)
    (h : createSectors entry k s sector = some (b, s')) :
    (∃ n, FirstTakable s.disk sector n ∧ n / 16 < k ∧
      ∀ j < n / 16, (sector + (j + 1)) % sectorNumbers ≠ s.diskInfo.dataRegion) ∨
    ∃ m < k, FullTo s.disk sector (m + 1) ∧
      (∀ j < m, (sector + (j + 1)) % sectorNumbers ≠ s.diskInfo.dataRegion) ∧
      (sector + (m + 1)) % sectorNumbers = s.diskInfo.dataRegion := by
  induction k generalizing s sector with
  | zero => simp [createSectors] at h
  | succ k ih =>
    simp only [createSectors, readSectorCached_eq hc, FileState.cached_tempSector,
      FileState.cached_diskInfo] at h
    split at h
    · rename_i hfind
      obtain ⟨n, hn, -, hfirst⟩ := (find?_entryFree_eq_some hs).mp hfind
      exact .inl ⟨n, hfirst, by omega, fun j hj => by omega⟩
    · rename_i hfind
      have hfull := (find?_entryFree_eq_none hs).mp hfind
      split_ifs at h with hend
      · exact .inr ⟨0, by omega, hfull, fun j hj => by omega, hend⟩
      -- every later sector is one sector further from the one that the rest starts at
      have hshift : ∀ m, (∀ j < m, ((sector + 1) % sectorNumbers + (j + 1)) % sectorNumbers ≠
          s.diskInfo.dataRegion) →
          ∀ j < m + 1, (sector + (j + 1)) % sectorNumbers ≠ s.diskInfo.dataRegion := by
        intro m hm j hj
        cases j with
        | zero => exact hend
        | succ j =>
          have := hm j (by omega)
          rwa [Nat.mod_add_mod, add_assoc, add_comm 1] at this
      rcases ih FileState.coherent_cached next_lt h with ⟨n, hn, hk, hd⟩ | ⟨m, hm, hf, hd, he⟩
      · refine .inl ⟨n + 16, (firstTakable_next hfull).mp hn, by omega, ?_⟩
        rw [Nat.add_div_right n (by decide)]
        exact hshift _ hd
      · refine .inr ⟨m + 1, by omega, (fullTo_next hfull).mp hf, hshift m hd, ?_⟩
        rw [Nat.mod_add_mod, add_assoc, add_comm 1] at he
        exact he

/-- A new entry goes into the first entry of the root directory that can be taken. -/
theorem fileCreate_eq (hs : s.Sound) (hn : FirstTakable s.disk s.diskInfo.rootRegion n)
    (hk : n / 16 < Machine.turns)
    (hdata : ∀ j < n / 16,
      (s.diskInfo.rootRegion + (j + 1)) % sectorNumbers ≠ s.diskInfo.dataRegion) :
    fileCreate s entry = some (false, s.storeEntry n entry.toBytes) := by
  unfold fileCreate
  exact createSectors_eq hs.coherent hs.root_lt hn hk hdata

/-- None of the entries of the root directory can be taken. -/
def DirectoryFull (info : DiskInfo) (d : Disk) : Prop :=
  ∃ m, FullTo d info.rootRegion (m + 1) ∧
    (info.rootRegion + (m + 1)) % sectorNumbers = info.dataRegion

/-- The two ways in which the search for room in the root directory returns. -/
theorem fileCreate_cases (hs : s.Sound) (h : fileCreate s entry = some (b, s')) :
    (b = true ∧ DirectoryFull s.diskInfo s.disk ∧ ∃ j, s' = s.cached j) ∨
    (b = false ∧ ∃ n, FirstTakable s.disk s.diskInfo.rootRegion n ∧
      (∀ j < n / 16, (s.diskInfo.rootRegion + (j + 1)) % sectorNumbers ≠ s.diskInfo.dataRegion) ∧
      s' = s.storeEntry n entry.toBytes) := by
  unfold fileCreate at h
  rcases createSectors_stops hs.coherent hs.root_lt h with
    ⟨n, hn, hk, hd⟩ | ⟨m, hm, hf, hd, he⟩
  · rw [createSectors_eq hs.coherent hs.root_lt hn hk hd, Option.some.injEq, Prod.mk.injEq] at h
    exact .inr ⟨h.1.symm, n, hn, hd, h.2.symm⟩
  · obtain ⟨j, hj⟩ := createSectors_full hs.coherent hs.root_lt hf hm hd he
    rw [hj, Option.some.injEq, Prod.mk.injEq] at h
    exact .inl ⟨h.1.symm, ⟨m, hf, he⟩, j, h.2.symm⟩

/-- There is no entry to take when the directory is full. -/
theorem DirectoryFull.not_firstTakable {info : DiskInfo} (hfull : DirectoryFull info d)
    (hn : FirstTakable d info.rootRegion n) :
    ∃ j < n / 16, (info.rootRegion + (j + 1)) % sectorNumbers = info.dataRegion := by
  obtain ⟨m, hf, he⟩ := hfull
  refine ⟨m, ?_, he⟩
  by_contra hle
  exact hf n (by omega) hn.2

end

end Z80OS
