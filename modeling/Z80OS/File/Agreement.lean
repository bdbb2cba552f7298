import Z80OS.File.Addressing
import Z80OS.File.Enumeration

set_option relaxedAutoImplicit false
set_option autoImplicit false

/-!
# Lookup and listing

`file_entries` and `file_entry` list the root directory up to the end marker or the data region. The
lookup by name stops at the end marker or at the name, but not at the data region: when the root
directory has neither it goes on in the data region, and takes data for entries.

## Main definitions

* `Z80OS.searchedSectors` — the sectors that a lookup by name reads.
* `Z80OS.LookupAgrees` — a lookup stays in the root directory and agrees with the listing.
* `Z80OS.StopsInside` — the name or the end marker is in the root directory.

## Main results

* `Z80OS.searchSectors_state` — the lookup reads these sectors, one after the other.
* `Z80OS.lookupAgrees_iff` — when a lookup agrees with the listing.
-/

namespace Z80OS

/-! ## The sectors of a lookup -/

section

variable [Machine]

/-- The sectors that the scan of at most `k` sectors for a name reads, in this order. -/
def searchedSectors (filename : List UInt8) : ℕ → FileState → ℕ → List ℕ
  | 0, _, _ => []
  | k + 1, s, sector =>
    let s := readSectorCached s sector true
    sector :: match scanSector s.tempSector filename entryOffsets with
      | .more => searchedSectors filename k s ((sector + 1) % sectorNumbers)
      | _ => []

end

section

variable {M : Machine} {s s' : FileState} {filename : List UInt8} {sector k m n i : ℕ}
  {r : Option (ℕ × ℕ)}

/-- The state that a lookup leaves is the one after these reads. -/
theorem searchSectors_state (h : searchSectors filename k s sector = some (r, s')) :
    s' = (searchedSectors filename k s sector).foldl (fun s i => readSectorCached s i true) s := by
  induction k generalizing s sector with
  | zero => simp [searchSectors] at h
  | succ k ih =>
    simp only [searchSectors, searchedSectors] at h ⊢
    rw [List.foldl_cons]
    cases hscan : scanSector (readSectorCached s sector true).tempSector filename entryOffsets with
    | more =>
      rw [hscan] at h
      exact ih h
    | _ =>
      rw [hscan] at h
      simp only [Option.some.injEq, Prod.mk.injEq] at h
      exact h.2.symm

/-- A lookup that stops at the `n`-th entry reads the sectors up to the one of this entry. -/
theorem searchedSectors_stop (hc : s.Coherent) (hs : sector < sectorNumbers)
    (hn : FirstStop s.disk sector filename n) (hin : i ∈ searchedSectors filename k s sector) :
    ∃ j ≤ n / 16, i = (sector + j) % sectorNumbers := by
  induction k generalizing s sector n with
  | zero => exact absurd hin List.not_mem_nil
  | succ k ih =>
    simp only [searchedSectors, readSectorCached_eq hc, FileState.cached_tempSector,
      scanSector_eq] at hin
    rcases List.mem_cons.mp hin with rfl | hin
    · exact ⟨0, Nat.zero_le _, by rw [Nat.add_zero, Nat.mod_eq_of_lt hs]⟩
    rcases Nat.lt_or_ge n 16 with h16 | h16
    · rw [find?_of_firstStop hs h16 hn] at hin
      simp only at hin
      split_ifs at hin <;> exact absurd hin List.not_mem_nil
    · obtain ⟨n, rfl⟩ : ∃ n', n = n' + 16 := ⟨n - 16, by omega⟩
      have hpass : ∀ i < 16, Passes filename (entryAt s.disk sector i) :=
        fun i hi => hn.1 i (by omega)
      rw [(scanSector_eq_more hs).mpr hpass] at hin
      obtain ⟨j, hj, rfl⟩ :=
        ih FileState.coherent_cached next_lt ((firstStop_next hpass).mpr hn) hin
      refine ⟨j + 1, by omega, ?_⟩
      rw [Nat.mod_add_mod, add_assoc, add_comm 1]

/-- A lookup that passes over the entries of `m` sectors reads the one behind them. -/
theorem searchedSectors_pass (hc : s.Coherent) (hs : sector < sectorNumbers)
    (hpass : ∀ i < 16 * m, Passes filename (entryAt s.disk sector i)) (hk : m < k) :
    (sector + m) % sectorNumbers ∈ searchedSectors filename k s sector := by
  induction k generalizing s sector m with
  | zero => omega
  | succ k ih =>
    simp only [searchedSectors, readSectorCached_eq hc, FileState.cached_tempSector, scanSector_eq]
    cases m with
    | zero =>
      have hzero : (sector + 0) % sectorNumbers = sector := Nat.mod_eq_of_lt hs
      rw [hzero]
      exact List.mem_cons_self
    | succ m =>
      refine List.mem_cons_of_mem _ ?_
      rw [(scanSector_eq_more hs).mpr fun i hi => hpass i (by omega)]
      have hrest := ih (s := s.cached sector) (m := m) FileState.coherent_cached next_lt
        (fun i hi => by rw [entryAt_next]; exact hpass _ (by omega)) (by omega)
      rwa [Nat.mod_add_mod, add_assoc, add_comm 1] at hrest

end

/-! ## Agreement -/

section

variable [Machine]

/-- The name is one of those that the listing gives. -/
def Lists (s : FileState) (name : List UInt8) : Prop :=
  ∃ m t, fileEntries s = some (m, t) ∧ ∃ n < m, ∃ t', fileEntry s n = some (.ok name, t')

/-- The lookup that `file_info` makes reads sectors of the root directory only, and finds the names
that the listing gives. -/
structure LookupAgrees (s : FileState) (filename : List UInt8) : Prop where
  inside : ∀ k ∈ searchedSectors (filenameUpper filename) Machine.turns s s.diskInfo.rootRegion,
    s.diskInfo.rootRegion ≤ k ∧ k < s.diskInfo.dataRegion
  found : Lists s (filenameUpper filename) → ∃ info s', fileInfo s filename = some (.ok info, s')
  missing : ¬ Lists s (filenameUpper filename) →
    ∃ s', fileInfo s filename = some (.error .fileNotFound, s')

end

/-- One of the entries of the root directory is the end marker, or a file with the name. -/
def StopsInside (s : FileState) (filename : List UInt8) : Prop :=
  ∃ i < slots s.diskInfo, s.rootEntry i 0 = 0 ∨
    skipsEntry (s.rootEntry i) = false ∧ filesystemFilename (s.rootEntry i) = filenameUpper filename

section

variable {M : Machine} {s : FileState} {boot : Sector} {filename name : List UInt8}
  {names : List (List UInt8)} {entry n z : ℕ}

/-- A name by its number. The counter does not wrap round on a list of at most 65536 names. -/
theorem nthName_eq_getElem? (hn : n ≤ entry) (hlen : n + names.length ≤ 65536) :
    nthName entry names n = names[entry - n]? := by
  induction names generalizing n with
  | nil => simp [nthName]
  | cons name names ih =>
    rw [nthName]
    split_ifs with he
    · rw [he, Nat.sub_self]
      rfl
    · rw [List.length_cons] at hlen
      obtain ⟨j, hj⟩ : ∃ j, entry - n = j + 1 := ⟨entry - n - 1, by omega⟩
      have hj' : entry - (n + 1) = j := by omega
      rw [hj, List.getElem?_cons_succ, ← hj']
      rcases Nat.lt_or_ge (n + 1) 65536 with hlt | hge
      · rw [Nat.mod_eq_of_lt hlt, ih (by omega) (by omega)]
      · have hnil : names = [] := List.length_eq_zero_iff.mp (by omega)
        rw [hnil]
        rfl

/-- The entries of the root directory in front of the first end marker are listed, or all of
them. -/
theorem exists_listed (hi : s.diskInfo = bootDiskInfo boot) :
    ∃ z ≤ slots s.diskInfo, (z < slots s.diskInfo → s.rootEntry z 0 = 0) ∧
      Listed s.disk s.diskInfo.dataRegion s.diskInfo.rootRegion z := by
  have hdata : (bootDiskInfo boot).dataRegion < 135168 := bootDiskInfo_dataRegion_lt
  have hle : (bootDiskInfo boot).rootRegion ≤ (bootDiskInfo boot).dataRegion := Nat.le_add_right ..
  rw [← hi] at hdata hle
  have hsector : ∀ i ≤ slots s.diskInfo, entrySector s.diskInfo.rootRegion i =
      s.diskInfo.rootRegion + i / 16 := by
    intro i hi
    simp only [slots] at hi
    rw [entrySector, sectorNumbers, Nat.mod_eq_of_lt (by omega)]
  have hne : ∀ i < slots s.diskInfo,
      entrySector s.diskInfo.rootRegion i ≠ s.diskInfo.dataRegion := by
    intro i hi
    rw [hsector i hi.le]
    simp only [slots] at hi
    omega
  by_cases hex : ∃ z, z < slots s.diskInfo ∧ s.rootEntry z 0 = 0
  · obtain ⟨hlt, h0⟩ := Nat.find_spec hex
    refine ⟨Nat.find hex, hlt.le, fun _ => h0, fun i hi h => ?_, fun i hi => hne i (hi.trans hlt),
      .inl ⟨h0, hne _ hlt⟩⟩
    exact Nat.find_min hex hi ⟨hi.trans hlt, h⟩
  · refine ⟨slots s.diskInfo, le_refl _, fun h => absurd h (lt_irrefl _), fun i hi h => ?_, hne,
      .inr ⟨Nat.dvd_mul_right .., ?_⟩⟩
    · exact hex ⟨i, hi, h⟩
    · rw [hsector _ (le_refl _)]
      simp only [slots]
      omega

/-- The root directory has fewer entries than the counters of the listing can count. -/
theorem slots_boot_lt (hi : s.diskInfo = bootDiskInfo boot) : slots s.diskInfo < 65536 := by
  have hentries : boot.word 0x11 < 65536 := Sector.word_lt
  have hdata : (bootDiskInfo boot).dataRegion =
    (bootDiskInfo boot).rootRegion + boot.word 0x11 / 16 := rfl
  rw [hi, slots, hdata]
  omega

/-- The answers of the listing: the number of the files among the entries that are listed, and the
name of each of them. -/
theorem listing_eq (hs : s.Sound) (hi : s.diskInfo = bootDiskInfo boot)
    (hz : z ≤ slots s.diskInfo)
    (hlisted : Listed s.disk s.diskInfo.dataRegion s.diskInfo.rootRegion z) :
    (∃ j, fileEntries s =
      some ((fileNames s.disk s.diskInfo.rootRegion z).length, s.cached j)) ∧
    ∀ n, ∃ j, fileEntry s n =
      some (((fileNames s.disk s.diskInfo.rootRegion z)[n]?).elim (.error .fileNotFound) .ok,
        s.cached j) := by
  have hturns := M.turns_ge
  have hslots := slots_boot_lt hi
  have hlen : (fileNames s.disk s.diskInfo.rootRegion z).length < 65536 := by
    have hle : (fileNames s.disk s.diskInfo.rootRegion z).length ≤ z := by
      rw [fileNames, List.length_map]
      exact (List.length_filter_le _ _).trans_eq List.length_range
    omega
  constructor
  · obtain ⟨j, hcount⟩ := countSectors_eq (M := M) (k := M.turns) hs.coherent hs.root_lt hlisted
      (by omega) (show 0 < 65536 by decide)
    rw [Nat.zero_add, Nat.mod_eq_of_lt hlen] at hcount
    exact ⟨j, hcount⟩
  · intro n
    obtain ⟨j, hnth⟩ := nthSectors_eq (M := M) (k := M.turns) n hs.coherent hs.root_lt
      hlisted (by omega) (show 0 < 65536 by decide)
    rw [nthName_eq_getElem? (Nat.zero_le _) (by omega), Nat.sub_zero] at hnth
    refine ⟨j, hnth.trans ?_⟩
    cases (fileNames s.disk s.diskInfo.rootRegion z)[n]? <;> rfl

/-- The listing gives the names of the files among the entries that are listed. -/
theorem lists_iff (name : List UInt8) (hs : s.Sound) (hi : s.diskInfo = bootDiskInfo boot)
    (hz : z ≤ slots s.diskInfo)
    (hlisted : Listed s.disk s.diskInfo.dataRegion s.diskInfo.rootRegion z) :
    Lists s name ↔ name ∈ fileNames s.disk s.diskInfo.rootRegion z := by
  obtain ⟨⟨j, hcount⟩, hnth⟩ := listing_eq (M := M) hs hi hz hlisted
  rw [List.mem_iff_getElem?]
  constructor
  · rintro ⟨m, t, hm, n, hn, t', ht'⟩
    obtain ⟨i, hname⟩ := hnth n
    have heq := hname.symm.trans ht'
    refine ⟨n, ?_⟩
    cases hget : (fileNames s.disk s.diskInfo.rootRegion z)[n]? with
    | none => simp [hget] at heq
    | some name' =>
      simp only [hget, Option.elim_some, Option.some.injEq, Prod.mk.injEq, Except.ok.injEq] at heq
      rw [heq.1]
  · rintro ⟨n, hget⟩
    obtain ⟨i, hname⟩ := hnth n
    rw [hget] at hname
    exact ⟨_, _, hcount, n, (List.getElem?_eq_some_iff.mp hget).1, _, hname⟩

/-- A lookup stops inside of the root directory exactly when it does not pass over one of its
entries. -/
theorem stopsInside_iff :
    StopsInside s filename ↔
      ∃ i < slots s.diskInfo, ¬ Passes (filenameUpper filename) (s.rootEntry i) := by
  refine exists_congr fun i => and_congr_right fun _ => ?_
  by_cases h0 : s.rootEntry i 0 = 0
  · exact ⟨fun _ hp => hp.1 h0, fun _ => .inl h0⟩
  · rw [not_passes_iff h0]
    exact ⟨fun h => h.resolve_left h0, .inr⟩

/-- When the root directory has neither the name nor the end marker, the lookup reads the first
sector of the data region. -/
theorem not_inside_of_passes (hs : s.Sound) (hi : s.diskInfo = bootDiskInfo boot)
    (hpass : ¬ StopsInside s filename) : s.diskInfo.dataRegion ∈
      searchedSectors (filenameUpper filename) Machine.turns s s.diskInfo.rootRegion := by
  have hturns := M.turns_ge
  have hdata : (bootDiskInfo boot).dataRegion < 135168 := bootDiskInfo_dataRegion_lt
  have hle : (bootDiskInfo boot).rootRegion ≤ (bootDiskInfo boot).dataRegion := Nat.le_add_right ..
  rw [← hi] at hdata hle
  rw [stopsInside_iff] at hpass
  have hin := searchedSectors_pass (M := M) (k := M.turns) hs.coherent hs.root_lt
    (m := s.diskInfo.dataRegion - s.diskInfo.rootRegion)
    (fun i hi => not_not.mp fun hp => hpass ⟨i, hi, hp⟩) (by omega)
  rwa [Nat.add_sub_cancel' hle, sectorNumbers, Nat.mod_eq_of_lt (by omega)] at hin

/-- **Lookup and listing.** A lookup reads sectors of the root directory only and finds the names
that the listing gives exactly when one of the entries of the root directory is the end marker, or a
file with the name.

**Proof sketch.** The lookup stops at the first such entry. The entries in front of it do not have
the name, so a lookup that stops at the end marker has seen the names that the listing gives. When
there is no such entry the lookup reads the first sector of the data region. -/
theorem lookupAgrees_iff (hc : s.Coherent) (hi : s.diskInfo = bootDiskInfo boot) :
    LookupAgrees s filename ↔ StopsInside s filename := by
  have hs : s.Sound := ⟨hc, hi ▸ bootDiskInfo_rootRegion_lt boot⟩
  constructor
  · intro h
    by_contra hpass
    exact absurd (h.inside _ (not_inside_of_passes hs hi hpass)).2 (lt_irrefl _)
  intro hstops
  have hturns := M.turns_ge
  have hslots := slots_boot_lt hi
  have hdata : (bootDiskInfo boot).dataRegion < 135168 := bootDiskInfo_dataRegion_lt
  rw [← hi] at hdata
  obtain ⟨i, hlt, hp⟩ := stopsInside_iff.mp hstops
  obtain ⟨n, hn, hni⟩ := FirstStop.exists_le hp
  obtain ⟨z, hz, hmark, hlisted⟩ := exists_listed hi
  have hlists := lists_iff (M := M) (filenameUpper filename) hs hi hz hlisted
  have hinside : ∀ k ∈ searchedSectors (filenameUpper filename) Machine.turns s
      s.diskInfo.rootRegion, s.diskInfo.rootRegion ≤ k ∧ k < s.diskInfo.dataRegion := by
    intro k hk
    obtain ⟨j, hj, rfl⟩ := searchedSectors_stop hc hs.root_lt hn hk
    simp only [slots] at hlt
    rw [sectorNumbers, Nat.mod_eq_of_lt (by omega)]
    omega
  by_cases h0 : s.rootEntry n 0 = 0
  · -- the lookup stops at the first end marker, where the listing ends
    have hget := filesystemGetDirectoryEntry_missing (M := M) hs hn h0 (by omega)
    have hmissing : fileInfo s filename = some (.error .fileNotFound, s.lookedAt n) := by
      rw [fileInfo, hget]
    have hzn : z ≤ n := by
      by_contra hgt
      exact hlisted.before n (by omega) h0
    have hnot : ¬ Lists s (filenameUpper filename) := by
      rw [hlists, fileNames, List.mem_map]
      rintro ⟨j, hj, hname⟩
      rw [List.mem_filter, List.mem_range] at hj
      exact (hn.1 j (by omega)).2 (by simpa using hj.2) hname
    exact ⟨hinside, fun h => absurd h hnot, fun _ => ⟨_, hmissing⟩⟩
  · -- the lookup stops at a file with the name, which is in front of the end marker
    have hget := filesystemGetDirectoryEntry_found (M := M) hs hn h0 (by omega)
    have hfound : ∃ info s', fileInfo s filename = some (.ok info, s') := by
      rw [fileInfo, hget]
      exact ⟨_, _, rfl⟩
    obtain ⟨hskip, hname⟩ := (not_passes_iff h0).mp hn.2
    change skipsEntry (s.rootEntry n) = false at hskip
    have hnz : n < z := by
      by_contra hge
      have hz' := hmark (by omega)
      rcases Nat.lt_or_ge z n with hlt' | hge'
      · exact (hn.1 z hlt').1 hz'
      · exact h0 (Nat.le_antisymm hge' (by omega) ▸ hz')
    have hin : Lists s (filenameUpper filename) := by
      rw [hlists, fileNames, List.mem_map]
      exact ⟨n, List.mem_filter.mpr
        ⟨List.mem_range.mpr hnz, by rw [← FileState.rootEntry, hskip]; rfl⟩, hname⟩
    exact ⟨hinside, fun _ => hfound, fun h => absurd hin h⟩

end

/-! ## A full directory -/

section

attribute [local instance] Machine.linked

/-- A disk whose root directory has sixteen files and no end marker, with a data sector that looks
like the entry of a file `C.D`. -/
def fullRootDisk : Disk := fun k =>
  if k = 0 then bootSector 1 1 1
  else if k = 2 then fun _ => 0x41
  else if k = 3 then Sector.zero.memcpy 0 (newEntry [0x43] [0x44] 0).toBytes
  else Sector.zero

/-- The initialised driver with this disk. -/
def fullRootState : FileState := filesystemInit (.zeroed fullRootDisk)

/-- The lookup finds the file in the data sector, which the listing does not give. -/
theorem not_lookupAgrees_fullRootState :
    ¬ ∀ (s : FileState) (boot : Sector) (filename : List UInt8), s.Coherent →
      s.diskInfo = bootDiskInfo boot → LookupAgrees s filename := by
  intro h
  have hagrees := h fullRootState (bootSector 1 1 1) nameCD rfl rfl
  have hs : fullRootState.Sound := ⟨rfl, by decide +kernel⟩
  have hinfo : fullRootState.diskInfo = bootDiskInfo (bootSector 1 1 1) := rfl
  have hlisted : Listed fullRootState.disk fullRootState.diskInfo.dataRegion
      fullRootState.diskInfo.rootRegion 16 :=
    ⟨by decide +kernel, by decide +kernel, .inr (by decide +kernel)⟩
  have hnot : ¬ Lists fullRootState (filenameUpper nameCD) := by
    rw [lists_iff _ hs hinfo (by decide +kernel) hlisted]
    decide +kernel
  obtain ⟨s', hmissing⟩ := hagrees.missing hnot
  have hfound : (fileInfo fullRootState nameCD).map (fun r => r.1.toOption.isSome) = some true := by
    decide +kernel
  rw [hmissing] at hfound
  simp [Except.toOption] at hfound

/-- On the same disk the lookup of a file that is there agrees with the listing. -/
theorem lookupAgrees_fullRootState :
    LookupAgrees fullRootState (List.replicate 8 0x61 ++ 0x2e :: List.replicate 3 0x61) := by
  have hcoherent : fullRootState.Coherent := rfl
  have hinfo : fullRootState.diskInfo = bootDiskInfo (bootSector 1 1 1) := rfl
  apply (lookupAgrees_iff hcoherent hinfo).mpr
  exact ⟨0, by decide +kernel, .inr (by decide +kernel)⟩

end

end Z80OS
