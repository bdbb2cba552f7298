import Z80OS.File.Lifecycle

set_option relaxedAutoImplicit false
set_option autoImplicit false

/-!
# The list of the files

`file_entries` counts the files in front of the end marker and `file_entry` gives the name of one of
them. Both answers depend on nothing but the list of the names of these files.

## Main definitions

* `Z80OS.fileNames` — the names of the files among the first entries of a directory.
* `Z80OS.nthName` — one of them, as the counter of the driver finds it.

## Main results

* `Z80OS.fileEntries_eq`, `Z80OS.fileEntry_eq` — the answers of the driver.
* `Z80OS.absent_iff` — the names of the files.
-/

namespace Z80OS

/-- The names of the files among the first `n` entries of a directory. -/
def fileNames (d : Disk) (sector n : ℕ) : List (List UInt8) :=
  ((List.range n).filter fun i => !skipsEntry (entryAt d sector i)).map fun i =>
    filesystemFilename (entryAt d sector i)

/-- The name that the search for the `entry`-th file finds when `n` files have been seen. The
counter has 16 bits. -/
def nthName (entry : ℕ) : List (List UInt8) → ℕ → Option (List UInt8)
  | [], _ => none
  | name :: names, n => if n = entry then some name else nthName entry names ((n + 1) % 65536)

/-- The names of the files in the buffer at the given offsets. -/
def sectorNames (t : Sector) (fs : List ℕ) : List (List UInt8) :=
  (fs.filter fun f => !skipsEntry (t.at f)).map fun f => filesystemFilename (t.at f)

section

variable {t : Sector} {f n m k entry : ℕ} {fs fs' : List ℕ} {d : Disk} {sector : ℕ}
  {names names' : List (List UInt8)}

/-- The search goes on behind the names that it has passed. -/
theorem nthName_append (hn : n < 65536) :
    nthName entry (names ++ names') n =
      (nthName entry names n).or (nthName entry names' ((n + names.length) % 65536)) := by
  induction names generalizing n with
  | nil => simp [nthName, Nat.mod_eq_of_lt hn]
  | cons name names ih =>
    rw [List.cons_append, nthName, nthName]
    split_ifs
    · rfl
    · rw [ih (Nat.mod_lt _ (by decide)), List.length_cons]
      congr 2
      omega

/-! ## In a sector -/

/-- An entry that is skipped has no name in the list. -/
theorem sectorNames_cons_of_skips (h : skipsEntry (t.at f) = true) :
    sectorNames t (f :: fs) = sectorNames t fs := by
  rw [sectorNames, List.filter_cons_of_neg (by simpa using h), sectorNames]

/-- An entry that is not skipped has its name in the list. -/
theorem sectorNames_cons_of_not (h : skipsEntry (t.at f) = false) :
    sectorNames t (f :: fs) = filesystemFilename (t.at f) :: sectorNames t fs := by
  rw [sectorNames, List.filter_cons_of_pos (by simpa using h), List.map_cons, sectorNames]

/-- The count of the files of a sector that goes on behind the sector. -/
theorem countSector_eq (h : ∀ f ∈ fs, t.at f 0 ≠ 0) (hn : n < 65536) :
    countSector t fs n = (false, (n + (sectorNames t fs).length) % 65536) := by
  induction fs generalizing n with
  | nil => simp [countSector, sectorNames, Nat.mod_eq_of_lt hn]
  | cons f fs ih =>
    have hrest : ∀ f' ∈ fs, t.at f' 0 ≠ 0 := fun f' hf' => h f' (List.mem_cons_of_mem _ hf')
    rw [countSector, if_neg (h f List.mem_cons_self)]
    split_ifs with hs
    · rw [ih hrest hn, sectorNames_cons_of_skips hs]
    · rw [ih hrest (Nat.mod_lt _ (by decide)),
        sectorNames_cons_of_not (by simpa using hs), List.length_cons]
      congr 1
      omega

/-- The count of the files of a sector with the end marker at an entry. -/
theorem countSector_end (h : ∀ f ∈ fs, t.at f 0 ≠ 0) (hf : t.at f 0 = 0) (hn : n < 65536) :
    countSector t (fs ++ f :: fs') n = (true, (n + (sectorNames t fs).length) % 65536) := by
  induction fs generalizing n with
  | nil => simp [countSector, sectorNames, hf, Nat.mod_eq_of_lt hn]
  | cons f' fs ih =>
    have hrest : ∀ f ∈ fs, t.at f 0 ≠ 0 := fun f hf => h f (List.mem_cons_of_mem _ hf)
    rw [List.cons_append, countSector, if_neg (h f' List.mem_cons_self)]
    split_ifs with hs
    · rw [ih hrest hn, sectorNames_cons_of_skips hs]
    · rw [ih hrest (Nat.mod_lt _ (by decide)),
        sectorNames_cons_of_not (by simpa using hs), List.length_cons]
      congr 1
      omega

/-- What the search of a sector finds, as a name. -/
def Nth.name (t : Sector) : Nth → Option (List UInt8)
  | .found f => some (filesystemFilename (t.at f))
  | _ => none

/-- The search of a sector that has no end marker finds the file, or goes on behind the sector. -/
theorem nthSector_eq (entry : ℕ) (h : ∀ f ∈ fs, t.at f 0 ≠ 0) (hn : n < 65536) :
    (∃ f, nthSector t entry fs n = .found f ∧
      nthName entry (sectorNames t fs) n = some (filesystemFilename (t.at f))) ∨
    nthSector t entry fs n = .more ((n + (sectorNames t fs).length) % 65536) ∧
      nthName entry (sectorNames t fs) n = none := by
  induction fs generalizing n with
  | nil => exact .inr (by simp [nthSector, sectorNames, nthName, Nat.mod_eq_of_lt hn])
  | cons f fs ih =>
    have hrest : ∀ f' ∈ fs, t.at f' 0 ≠ 0 := fun f' hf' => h f' (List.mem_cons_of_mem _ hf')
    rw [nthSector, if_neg (h f List.mem_cons_self)]
    split_ifs with hs he
    · rw [sectorNames_cons_of_skips hs]
      exact ih hrest hn
    · rw [sectorNames_cons_of_not (by simpa using hs), nthName, if_pos he]
      exact .inl ⟨f, rfl, rfl⟩
    · rw [sectorNames_cons_of_not (by simpa using hs), nthName, if_neg he, List.length_cons]
      have := ih hrest (Nat.mod_lt (n + 1) (show 0 < 65536 by decide))
      rwa [show ((n + 1) % 65536 + (sectorNames t fs).length) % 65536 =
        (n + ((sectorNames t fs).length + 1)) % 65536 by omega] at this

/-- The search of a sector with the end marker at an entry. -/
theorem nthSector_end (entry : ℕ) (fs' : List ℕ) (h : ∀ f ∈ fs, t.at f 0 ≠ 0)
    (hf : t.at f 0 = 0) (hn : n < 65536) :
    (∃ f', nthSector t entry (fs ++ f :: fs') n = .found f' ∧
      nthName entry (sectorNames t fs) n = some (filesystemFilename (t.at f'))) ∨
    nthSector t entry (fs ++ f :: fs') n = .endOfDirectory ∧
      nthName entry (sectorNames t fs) n = none := by
  induction fs generalizing n with
  | nil => exact .inr (by simp [nthSector, sectorNames, nthName, hf])
  | cons f' fs ih =>
    have hrest : ∀ f ∈ fs, t.at f 0 ≠ 0 := fun f hf => h f (List.mem_cons_of_mem _ hf)
    rw [List.cons_append, nthSector, if_neg (h f' List.mem_cons_self)]
    split_ifs with hs he
    · rw [sectorNames_cons_of_skips hs]
      exact ih hrest hn
    · rw [sectorNames_cons_of_not (by simpa using hs), nthName, if_pos he]
      exact .inl ⟨f', rfl, rfl⟩
    · rw [sectorNames_cons_of_not (by simpa using hs), nthName, if_neg he]
      exact ih hrest (Nat.mod_lt _ (by decide))

/-! ## From sector to sector -/

/-- The names in the first entries of a sector. -/
theorem sectorNames_range (hs : sector < sectorNumbers) (hn : n ≤ 16) :
    sectorNames (d sector) ((List.range n).map (32 * ·)) = fileNames d sector n := by
  have hentry : ∀ i ∈ List.range n, (d sector).at (32 * i) = entryAt d sector i := fun i hi =>
    (entryAt_of_lt hs (by rw [List.mem_range] at hi; omega)).symm
  rw [sectorNames, fileNames, List.filter_map, List.map_map]
  have hfilter : (List.range n).filter ((fun f => !skipsEntry ((d sector).at f)) ∘ (32 * ·)) =
      (List.range n).filter fun i => !skipsEntry (entryAt d sector i) :=
    List.filter_congr fun i hi => by rw [Function.comp_apply, hentry i hi]
  rw [hfilter]
  exact List.map_congr_left fun i hi => by
    rw [Function.comp_apply, hentry i (List.mem_filter.mp hi).1]

/-- The names behind the first sector are those of the directory that starts one sector later. -/
theorem fileNames_next :
    fileNames d sector (n + 16) =
      fileNames d sector 16 ++ fileNames d ((sector + 1) % sectorNumbers) n := by
  rw [fileNames, add_comm n 16, List.range_add, List.filter_append, List.map_append, fileNames,
    fileNames, List.filter_map, List.map_map]
  congr 1
  have hentry : ∀ i, entryAt d sector (16 + i) = entryAt d ((sector + 1) % sectorNumbers) i :=
    fun i => by rw [entryAt_next, add_comm]
  simp only [Function.comp_def, hentry]

/-- The end marker of a directory is the `n`-th entry. -/
structure Ends (d : Disk) (sector n : ℕ) : Prop where
  before : ∀ i < n, entryAt d sector i 0 ≠ 0
  marker : entryAt d sector n 0 = 0

/-- The first `n` entries of a directory are those that the driver lists: they have no end marker,
no sector of them is the data region, and behind them there is the end marker or the data region. -/
structure Listed (d : Disk) (dataRegion sector n : ℕ) : Prop where
  before : ∀ i < n, entryAt d sector i 0 ≠ 0
  ne_data : ∀ i < n, entrySector sector i ≠ dataRegion
  stop : entryAt d sector n 0 = 0 ∧ entrySector sector n ≠ dataRegion ∨
    16 ∣ n ∧ entrySector sector n = dataRegion

/-- The entries behind the first sector. -/
theorem Listed.next {dataRegion : ℕ} (h : Listed d dataRegion sector (n + 16)) :
    Listed d dataRegion ((sector + 1) % sectorNumbers) n := by
  refine ⟨fun i hi => ?_, fun i hi => ?_, ?_⟩
  · rw [entryAt_next]
    exact h.before _ (by omega)
  · rw [entrySector_next]
    exact h.ne_data _ (by omega)
  · rw [entryAt_next, entrySector_next]
    exact h.stop.imp id fun hdata => ⟨(Nat.dvd_add_left (dvd_refl 16)).mp hdata.1, hdata.2⟩

/-- A directory that is listed from its first sector on is not at the data region, unless it has no
entries. -/
theorem Listed.cases {dataRegion : ℕ} (h : Listed d dataRegion sector n)
    (hs : sector < sectorNumbers) :
    n = 0 ∧ sector = dataRegion ∨ sector ≠ dataRegion ∧ (n < 16 → Ends d sector n) := by
  have hsector : ∀ {i}, i < 16 → entrySector sector i = sector := fun hi => by
    rw [entrySector, Nat.div_eq_of_lt hi, Nat.add_zero, Nat.mod_eq_of_lt hs]
  by_cases hdata : sector = dataRegion
  · refine .inl ⟨?_, hdata⟩
    by_contra hne
    exact h.ne_data 0 (Nat.pos_of_ne_zero hne) ((hsector (by decide)).trans hdata)
  · refine .inr ⟨hdata, fun hn => ⟨h.before, ?_⟩⟩
    rcases h.stop with ⟨hmark, -⟩ | ⟨-, hend⟩
    · exact hmark
    · exact absurd ((hsector hn).symm.trans hend) hdata

/-- A sector in front of the stop has no end marker. -/
theorem Listed.in_front {dataRegion : ℕ} (h : Listed d dataRegion sector (n + 16))
    (hs : sector < sectorNumbers) : ∀ f ∈ entryOffsets, (d sector).at f 0 ≠ 0 := by
  intro f hf
  obtain ⟨i, hi, rfl⟩ := List.mem_map.mp hf
  rw [List.mem_range] at hi
  rw [← entryAt_of_lt hs hi]
  exact h.before i (by omega)

/-- The entries of the sector with the end marker. -/
theorem Ends.split (h : Ends d sector n) (hs : sector < sectorNumbers) (hn : n < 16) :
    (∀ f ∈ (List.range n).map (32 * ·), (d sector).at f 0 ≠ 0) ∧ (d sector).at (32 * n) 0 = 0 ∧
      ∃ fs, entryOffsets = (List.range n).map (32 * ·) ++ 32 * n :: fs := by
  refine ⟨?_, ?_, ((List.range (15 - n)).map (n + 1 + ·)).map (32 * ·), ?_⟩
  · intro f hf
    obtain ⟨i, hi, rfl⟩ := List.mem_map.mp hf
    rw [List.mem_range] at hi
    rw [← entryAt_of_lt hs (by omega)]
    exact h.before i hi
  · rw [← entryAt_of_lt hs hn]
    exact h.marker
  · rw [entryOffsets, show 16 = (n + 1) + (15 - n) by omega, List.range_add, List.range_succ]
    simp

end

section

variable {M : Machine} {s : FileState} {g : DiskInfo} {sector n m k entry z : ℕ}

/-- **Counting** gives the number of the files among the entries that are listed.

**Proof sketch.** Induction on the number of sectors, as for the lookups. -/
theorem countSectors_eq (hc : s.Coherent) (hs : sector < sectorNumbers)
    (hm : Listed s.disk s.diskInfo.dataRegion sector m) (hk : m / 16 < k) (hn : n < 65536) :
    ∃ j, countSectors k s sector n =
      some ((n + (fileNames s.disk sector m).length) % 65536, s.cached j) := by
  induction k generalizing s sector m n with
  | zero => omega
  | succ k ih =>
    rcases hm.cases hs with ⟨rfl, hdata⟩ | ⟨hne, hends⟩
    · refine ⟨s.currentCacheSector, ?_⟩
      rw [countSectors, if_pos hdata, hc.eq_cached]
      simp [fileNames, Nat.mod_eq_of_lt hn]
    simp only [countSectors, if_neg hne, readSectorCached_eq hc, FileState.cached_tempSector]
    rcases Nat.lt_or_ge m 16 with h16 | h16
    · obtain ⟨hbefore, hmark, fs, hfs⟩ := (hends h16).split hs h16
      rw [hfs, countSector_end hbefore hmark hn, sectorNames_range hs (by omega)]
      exact ⟨sector, rfl⟩
    · obtain ⟨m, rfl⟩ : ∃ m', m = m' + 16 := ⟨m - 16, by omega⟩
      rw [countSector_eq (hm.in_front hs) hn, entryOffsets, sectorNames_range hs (le_refl _)]
      simp only
      obtain ⟨j, hj⟩ := ih (s := s.cached sector)
        (n := (n + (fileNames s.disk sector 16).length) % 65536) FileState.coherent_cached next_lt
        hm.next (by omega) (Nat.mod_lt _ (by decide))
      refine ⟨j, hj.trans ?_⟩
      rw [FileState.cached_disk, FileState.cached_cached, fileNames_next (n := m),
        List.length_append,
        Nat.mod_add_mod, add_assoc]

/-- **Finding the name of a file** by its number among the files that are listed.

**Proof sketch.** By induction on the bound of the loop. The region ends in front of this sector,
the end marker is in this sector (`nthSector_end`), or its sixteen entries are counted
(`nthSector_eq`), and the induction hypothesis goes on with the names behind them
(`nthName_append`). -/
theorem nthSectors_eq (entry : ℕ) (hc : s.Coherent) (hs : sector < sectorNumbers)
    (hm : Listed s.disk s.diskInfo.dataRegion sector m) (hk : m / 16 < k) (hn : n < 65536) :
    ∃ j, nthSectors entry k s sector n =
      some (match nthName entry (fileNames s.disk sector m) n with
        | none => .error .fileNotFound
        | some name => .ok name, s.cached j) := by
  induction k generalizing s sector m n with
  | zero => omega
  | succ k ih =>
    rcases hm.cases hs with ⟨rfl, hdata⟩ | ⟨hne, hends⟩
    · refine ⟨s.currentCacheSector, ?_⟩
      rw [nthSectors, if_pos hdata, hc.eq_cached]
      rfl
    simp only [nthSectors, if_neg hne, readSectorCached_eq hc, FileState.cached_tempSector]
    rcases Nat.lt_or_ge m 16 with h16 | h16
    · obtain ⟨hbefore, hmark, fs, hfs⟩ := (hends h16).split hs h16
      rw [hfs, ← sectorNames_range hs h16.le]
      rcases nthSector_end entry fs hbefore hmark hn with
        ⟨f, hf, hname⟩ | ⟨hend, hname⟩
      · rw [hf, hname]
        exact ⟨sector, rfl⟩
      · rw [hend, hname]
        exact ⟨sector, rfl⟩
    · obtain ⟨m, rfl⟩ : ∃ m', m = m' + 16 := ⟨m - 16, by omega⟩
      rw [fileNames_next, nthName_append hn, ← sectorNames_range hs (le_refl 16)]
      rcases nthSector_eq entry (hm.in_front hs) hn with ⟨f, hf, hname⟩ | ⟨hmore, hname⟩
      · rw [hf, ← entryOffsets, hname]
        exact ⟨sector, rfl⟩
      · rw [hmore, ← entryOffsets, hname, Option.none_or]
        obtain ⟨j, hj⟩ := ih (s := s.cached sector)
          (n := (n + (sectorNames (s.disk sector) entryOffsets).length) % 65536)
          FileState.coherent_cached next_lt hm.next (by omega) (Nat.mod_lt _ (by decide))
        exact ⟨j, hj⟩

/-! ## The root directory -/

/-- The entries in front of the end marker of the root directory are listed. -/
theorem EndsAt.listed {d : Disk} (hg : Geometry g) (hz : EndsAt g d z) :
    Listed d g.dataRegion g.rootRegion z := by
  have hne : ∀ i ≤ z, entrySector g.rootRegion i ≠ g.dataRegion := by
    intro i hi
    have hlt := hz.lt
    rw [entrySector_eq hg (by omega)]
    simp only [slots] at hlt
    omega
  exact ⟨hz.before, fun i hi => hne i hi.le,
    .inl ⟨hz.behind z (le_refl z) hz.lt, hne z (le_refl z)⟩⟩

/-- The number of files that `file_entries` answers with. -/
theorem fileEntries_eq (hs : s.Sound) (hg : Geometry s.diskInfo) (hz : EndsAt s.diskInfo s.disk z) :
    ∃ s', fileEntries s = some ((fileNames s.disk s.diskInfo.rootRegion z).length % 65536, s') := by
  obtain ⟨j, hj⟩ := countSectors_eq (M := M) hs.coherent hs.root_lt (hz.listed hg)
    (slot_turns hg hz.lt) (show 0 < 65536 by decide)
  rw [Nat.zero_add] at hj
  exact ⟨_, hj⟩

/-- The name that `file_entry` answers with. -/
theorem fileEntry_eq (entry : ℕ) (hs : s.Sound) (hg : Geometry s.diskInfo)
    (hz : EndsAt s.diskInfo s.disk z) :
    ∃ s', fileEntry s entry =
      some (match nthName entry (fileNames s.disk s.diskInfo.rootRegion z) 0 with
        | none => .error .fileNotFound
        | some name => .ok name, s') := by
  obtain ⟨j, hj⟩ := nthSectors_eq (M := M) entry hs.coherent hs.root_lt (hz.listed hg)
    (slot_turns hg hz.lt) (show 0 < 65536 by decide)
  exact ⟨_, hj⟩

/-- A name is on the disk when it is one of the names in front of the end marker. -/
theorem absent_iff {d : Disk} {name : List UInt8} (hz : EndsAt g d z) :
    Absent g d name ↔ name ∉ fileNames d g.rootRegion z := by
  simp only [fileNames, List.mem_map, List.mem_filter, List.mem_range, Bool.not_eq_eq_eq_not,
    Bool.not_true, not_exists, not_and, and_imp]
  constructor
  · exact fun h i hi hs => h i ⟨hi.trans hz.lt, hz.before i hi, hs⟩
  · intro h i hi
    rcases Nat.lt_or_ge i z with hiz | hiz
    · exact h i hiz hi.file
    · exact absurd (hz.behind i hiz hi.lt) hi.used

end

end Z80OS
