import Z80OS.File.Names
import Z80OS.File.Ownership
import Z80OS.File.Writing

set_option relaxedAutoImplicit false
set_option autoImplicit false

/-!
# Creating and closing a file

A well-formed disk, and the two ends of a writer on it: `file_open` puts the entry of the new file
into the first one that can be taken and makes a writer with empty contents; `file_close` puts the
size into the entry.

## Main definitions

* `Z80OS.WellFormed` — the disks that files are created on.
* `Z80OS.EndsAt` — where the end marker of the root directory is.
* `Z80OS.Placed` — where the entry of a new file is.
* `Z80OS.Stored` — a disk with a new file, seen by the driver.

## Main results

* `Z80OS.fileOpen_write` — opening for writing.
* `Z80OS.Writing.close` — closing.
-/

namespace Z80OS

/-! ## Well-formed disks -/

/-- The `i`-th entry of the root directory is one of a file. -/
structure IsFile (g : DiskInfo) (d : Disk) (i : ℕ) : Prop where
  lt : i < slots g
  used : entryAt d g.rootRegion i 0 ≠ 0
  file : skipsEntry (entryAt d g.rootRegion i) = false

/-- The name of a file. -/
def fileName (g : DiskInfo) (d : Disk) (i : ℕ) : List UInt8 :=
  filesystemFilename (entryAt d g.rootRegion i)

/-- The clusters of a file, in the order of its chain. -/
def HasChain (g : DiskInfo) (d : Disk) (i : ℕ) (l : List ℕ) : Prop :=
  LinkTable.Chain (fatEntry g d) clusterEof
    (word16 (entryAt d g.rootRegion i 26) (entryAt d g.rootRegion i 27)) l

/-- The first entry of the root directory that starts with zero is the `z`-th one, and from there
on all do. -/
structure EndsAt (g : DiskInfo) (d : Disk) (z : ℕ) : Prop where
  lt : z < slots g
  before : ∀ i < z, entryAt d g.rootRegion i 0 ≠ 0
  behind : ∀ i, z ≤ i → i < slots g → entryAt d g.rootRegion i 0 = 0

/-- A well-formed disk: the regions are in order, at least the last two entries of the root
directory are unused, the files have distinct names, and their chains end and are disjoint. -/
structure WellFormed (g : DiskInfo) (d : Disk) : Prop where
  geometry : Geometry g
  ends : ∃ z, EndsAt g d z ∧ z + 1 < slots g
  chain : ∀ i, IsFile g d i → ∃ l, HasChain g d i l
  disjoint : ∀ i j, IsFile g d i → IsFile g d j → i ≠ j →
    ∀ l m, HasChain g d i l → HasChain g d j m → l.Disjoint m
  distinct : ∀ i j, IsFile g d i → IsFile g d j → fileName g d i = fileName g d j → i = j

/-- No file of the disk has the name. -/
def Absent (g : DiskInfo) (d : Disk) (name : List UInt8) : Prop :=
  ∀ i, IsFile g d i → fileName g d i ≠ name

/-- The entry of a new file with the given name is the `f`-th one: it can be taken, and in front of
it there is no entry that can be taken and none that a lookup of the name stops at. -/
structure Placed (g : DiskInfo) (d : Disk) (name : List UInt8) (f : ℕ) : Prop where
  lt : f < slots g
  takable : FirstTakable d g.rootRegion f
  passes : ∀ i < f, Passes name (entryAt d g.rootRegion i)

section

variable {M : Machine} {g : DiskInfo} {d d₀ : Disk} {z f n : ℕ} {e : DirectoryEntry}
  {fd : Fin fileLimit} {l : List ℕ} {data name filename : List UInt8} {s s' : FileState}

/-- In front of the end marker a lookup passes over the entries that do not have the name. -/
theorem Absent.passes (h : Absent g d name) {i : ℕ} (hi : i < slots g)
    (h0 : entryAt d g.rootRegion i 0 ≠ 0) : Passes name (entryAt d g.rootRegion i) :=
  ⟨h0, fun hs => h i ⟨hi, h0, hs⟩⟩

/-- The lookup of a name that is not there stops at the end marker. -/
theorem Absent.firstStop (h : Absent g d name) (hz : EndsAt g d z) :
    FirstStop d g.rootRegion name z :=
  ⟨fun i hi => h.passes (hi.trans hz.lt) (hz.before i hi),
    fun hp => hp.1 (hz.behind z (le_refl z) hz.lt)⟩

/-- There is an entry that can be taken, at the latest the end marker. -/
theorem EndsAt.exists_firstTakable (hz : EndsAt g d z) :
    ∃ f ≤ z, FirstTakable d g.rootRegion f := by
  have hex : ∃ i, Takable (entryAt d g.rootRegion i) :=
    ⟨z, .inl (hz.behind z (le_refl z) hz.lt)⟩
  exact ⟨Nat.find hex, Nat.find_min' hex (.inl (hz.behind z (le_refl z) hz.lt)),
    fun _ hi => Nat.find_min hex hi, Nat.find_spec hex⟩

/-- A new file with an absent name is placed at the first entry that can be taken. -/
theorem Absent.placed (h : Absent g d name) (hz : EndsAt g d z) (hf : f ≤ z)
    (htake : FirstTakable d g.rootRegion f) : Placed g d name f := by
  have hlt : f < slots g := lt_of_le_of_lt hf hz.lt
  exact ⟨hlt, htake, fun i hi => h.passes (hi.trans hlt) (hz.before i (by omega))⟩

/-- The new file is found under its name. -/
theorem NewFile.firstStop (hg : Geometry g) (h : NewFile g d₀ d f e l data)
    (hp : Placed g d₀ name f) (hn : Names (entryAt d g.rootRegion f) name) :
    FirstStop d g.rootRegion name f := by
  refine ⟨fun i hi => (passes_congr fun j hj => ?_).mpr (hp.passes i hi), hn.not_passes⟩
  refine entryAt_congr hg (by have := h.slot; omega) (fun k b hk => h.frame k b ?_) (by omega)
  rintro (⟨c, hc, hw⟩ | hent | ⟨c, hc, hcl⟩)
  · exact hw.not_inEntry (h.usable c hc).toInRange hk
  · have := hk.inj hent
    omega
  · exact hk.not_inCluster (by have := h.slot; omega) hcl

/-- An entry in front of the data region is found in time. -/
theorem slot_turns (hg : Geometry g) (hn : n < slots g) : n / 16 < M.turns := by
  have := M.turns_ge
  have := hg.data_lt
  simp only [slots] at hn
  omega

/-- Between the root directory and an entry of it the scan does not meet the data region. -/
theorem slot_ne_data (hg : Geometry g) (hn : n < slots g) :
    ∀ j < n / 16, (g.rootRegion + (j + 1)) % sectorNumbers ≠ g.dataRegion := by
  intro j hj
  have := hg.root_lt
  have := hg.data_lt
  simp only [slots] at hn
  rw [Nat.mod_eq_of_lt (by simp only [sectorNumbers]; omega)]
  omega

/-- The search for room always returns. -/
theorem fileCreate_total (hs : s.Sound) (hg : Geometry s.diskInfo) :
    ∃ b s', fileCreate s e = some (b, s') := by
  by_cases hex : ∃ i, Takable (entryAt s.disk s.diskInfo.rootRegion i) ∧ i < slots s.diskInfo
  · obtain ⟨i, hi, hlt⟩ := hex
    have hex' : ∃ i, Takable (entryAt s.disk s.diskInfo.rootRegion i) := ⟨i, hi⟩
    have hle : Nat.find hex' < slots s.diskInfo := lt_of_le_of_lt (Nat.find_min' hex' hi) hlt
    exact ⟨_, _, fileCreate_eq hs ⟨fun _ h => Nat.find_min hex' h, Nat.find_spec hex'⟩
      (slot_turns hg hle) (slot_ne_data hg hle)⟩
  · have hroot := hg.root_lt
    have hdata := hg.data_lt
    have hturns := M.turns_ge
    obtain ⟨m, hm⟩ : ∃ m, s.diskInfo.dataRegion = s.diskInfo.rootRegion + (m + 1) :=
      ⟨s.diskInfo.dataRegion - s.diskInfo.rootRegion - 1, by omega⟩
    have hfull : FullTo s.disk s.diskInfo.rootRegion (m + 1) := fun i hi ht =>
      hex ⟨i, ht, by simp only [slots]; omega⟩
    obtain ⟨j, hj⟩ := createSectors_full (M := M) (k := M.turns) hs.coherent hs.root_lt hfull
      (by omega)
      (fun j hj => by rw [Nat.mod_eq_of_lt (by simp only [sectorNumbers]; omega)]; omega)
      (by rw [Nat.mod_eq_of_lt (by simp only [sectorNumbers]; omega)]; omega)
    exact ⟨_, _, hj⟩

/-- Creating a file that is not there always returns. -/
theorem fileOpenWrite_total (hs : s.Sound) (hg : Geometry s.diskInfo)
    (hz : EndsAt s.diskInfo s.disk z) (habs : Absent s.diskInfo s.disk (s.fdtable fd).name) :
    ∃ r s', fileOpenWrite s fd = some (r, s') := by
  have hget := filesystemGetDirectoryEntry_missing (M := M) hs (habs.firstStop hz)
    (hz.behind z (le_refl z) hz.lt) (slot_turns hg hz.lt)
  unfold fileOpenWrite
  rw [hget]
  simp only
  rcases halloc : fatAllocateStartCluster (s.lookedAt z) with ⟨c, s₁⟩
  have hframe := allocated_frame halloc
  have hcoh : s₁.Coherent := by
    have := fatAllocateStartCluster_coherent (M := M) (s := s.lookedAt z) FileState.coherent_cached
    rwa [halloc] at this
  have hi : s₁.diskInfo = s.diskInfo := hframe.diskInfo
  simp only
  split_ifs
  · exact ⟨_, _, rfl⟩
  · split
    · exact ⟨_, _, rfl⟩
    · obtain ⟨b, s₂, hb⟩ := fileCreate_total (M := M) (s := s₁) (e := newEntry _ _ c)
        ⟨hcoh, hi ▸ hs.root_lt⟩ (hi ▸ hg)
      rw [hb]
      cases b <;> exact ⟨_, _, rfl⟩

/-! ## Formatted disks -/

/-- The root directory of a formatted disk is empty. -/
theorem entryAt_formattedDisk {spc spf rs i j : ℕ} (hspf : 0 < spf) (hi : i < 16 * rs)
    (hlt : 1 + spf + rs < sectorNumbers) :
    entryAt (formattedDisk spc spf rs) (1 + spf) i j = 0 := by
  have hsector : entrySector (1 + spf) i = 1 + spf + i / 16 := by
    rw [entrySector, Nat.mod_eq_of_lt]
    omega
  have hzero : formattedDisk spc spf rs (1 + spf + i / 16) = Sector.zero := by
    rw [formattedDisk, if_neg (by omega), if_neg (by omega)]
  simp only [entryAt, Sector.at, hsector, hzero, Sector.get_zero]

/-- There is no file on a formatted disk. -/
theorem not_isFile_formattedDisk {spc spf rs i : ℕ} (hspc : spc ≤ 128) (hspf : 0 < spf)
    (hspf' : spf < 65536) (hrs : rs < 4096) :
    ¬ IsFile (bootDiskInfo (bootSector spc spf rs)) (formattedDisk spc spf rs) i := by
  rw [bootDiskInfo_bootSector (by omega) hspf' hrs]
  refine fun hi => hi.used (entryAt_formattedDisk hspf ?_ (by simp only [sectorNumbers]; omega))
  simpa [slots] using hi.lt

/-- The root directory of a formatted disk ends at once. -/
theorem endsAt_formattedDisk {spc spf rs : ℕ} (hspc : spc ≤ 128) (hspf : 0 < spf)
    (hspf' : spf < 65536) (hrs : 0 < rs) (hrs' : rs < 4096) :
    EndsAt (bootDiskInfo (bootSector spc spf rs)) (formattedDisk spc spf rs) 0 := by
  rw [bootDiskInfo_bootSector (by omega) hspf' hrs']
  have hslots : slots ⟨1, 1 + spf, 1 + spf + rs, 512, spc, 512 * spc % 65536, 0⟩ = 16 * rs := by
    simp [slots]
  exact ⟨by omega, fun i hi => absurd hi (Nat.not_lt_zero i), fun i _ hi =>
    entryAt_formattedDisk hspf (hslots ▸ hi) (by simp only [sectorNumbers]; omega)⟩

/-- A formatted disk is well-formed. -/
theorem wellFormed_formattedDisk {spc spf rs : ℕ} (hpos : 0 < spc) (hle : spc ≤ 128)
    (hspf : 0 < spf) (hspf' : spf < 65536) (hrs : 0 < rs) (hrs' : rs < 4096) :
    WellFormed (bootDiskInfo (bootSector spc spf rs)) (formattedDisk spc spf rs) := by
  have hnone : ∀ i, ¬ IsFile (bootDiskInfo (bootSector spc spf rs)) (formattedDisk spc spf rs) i :=
    fun _ => not_isFile_formattedDisk hle hspf hspf' hrs'
  refine ⟨?_, ⟨0, endsAt_formattedDisk hle hspf hspf' hrs hrs', ?_⟩,
    fun i hi => absurd hi (hnone i), fun i _ hi => absurd hi (hnone i),
    fun i _ hi => absurd hi (hnone i)⟩
  all_goals rw [bootDiskInfo_bootSector (by omega) hspf' hrs']
  · exact ⟨rfl, hpos, hle, by simp only; omega, by simp only; omega, by simp only; omega⟩
  · simp only [slots]
    omega

/-- A formatted disk with the chain of the clusters 2 and 3. -/
def chainDisk : Disk :=
  linked smallState.diskInfo (linked smallState.diskInfo (formattedDisk 1 1 1) 2 3) 3 clusterEof

/-- The example disk has a chain of two clusters. -/
theorem chain_chainDisk :
    LinkTable.Chain (fatEntry smallState.diskInfo chainDisk) clusterEof 2 [2, 3] :=
  ⟨rfl, by decide, by decide +kernel, by decide,
    show fatEntry smallState.diskInfo chainDisk 3 = clusterEof by decide +kernel⟩

/-- The clusters of the chain are ones that the driver can use. -/
theorem usable_chainDisk : ∀ c ∈ [2, 3], Usable smallState.diskInfo c := by
  intro c hc
  have hcases : c = 2 ∨ c = 3 := by simpa using hc
  rcases hcases with rfl | rfl
  all_goals exact ⟨⟨by decide, by decide +kernel⟩, by decide, by decide +kernel⟩

/-- `A.B` is a valid name. -/
theorem validName_nameAB : ValidName (cString nameAB) :=
  ⟨[0x41], [0x42], ⟨by decide, by decide, by decide, by simp [NameChar], by simp [NameChar],
    by decide⟩, by decide⟩

/-- `C.D` is a valid name. -/
theorem validName_nameCD : ValidName (cString nameCD) :=
  ⟨[0x43], [0x44], ⟨by decide, by decide, by decide, by simp [NameChar], by simp [NameChar],
    by decide⟩, by decide⟩

/-! ## Opening for writing -/

/-- While no descriptor is claimed the first one is picked. -/
theorem FlagsClear.assignFd (h : FlagsClear s) : filesystemAssignFd s = some firstFd := by
  rw [filesystemAssignFd, show List.finRange fileLimit = [firstFd] from rfl,
    List.find?_cons_of_pos]
  rw [h]
  rfl

/-- Replacing the word of a cluster changes no entry of the root directory. -/
theorem entryAt_linked {c w i j : ℕ} (hg : Geometry g) (hc : HasWord g c) (hi : i < slots g)
    (hj : j < 32) :
    entryAt (linked g d c w) g.rootRegion i j = entryAt d g.rootRegion i j :=
  entryAt_congr hg hi (fun _ _ hk => linked_get_of_not fun hw => hw.not_inEntry hc.toInRange hk) hj

/-- A linked cluster leaves the first entry that can be taken. -/
theorem FirstTakable.linked {c w : ℕ} (h : FirstTakable d g.rootRegion f) (hg : Geometry g)
    (hc : HasWord g c) (hf : f < slots g) :
    FirstTakable (Z80OS.linked g d c w) g.rootRegion f := by
  refine ⟨fun i hi => ?_, ?_⟩
  · rw [Takable, entryAt_linked hg hc (hi.trans hf) (by decide)]
    exact h.1 i hi
  · rw [Takable, entryAt_linked hg hc hf (by decide)]
    exact h.2

/-- The allocation of the first cluster, when one of the clusters 2 to 255 is free. -/
theorem SomeFree.allocateStart {c : ℕ} (hs : s.Coherent) (hg : Geometry s.diskInfo)
    (halloc : fatAllocateStartCluster s = (c, s'))
    (hfind : Enough s.diskInfo s.disk 0 s s') :
    s' = (s.recordSearch c).link c clusterEof ∧ Usable s.diskInfo c ∧ c < 256 ∧
      fatEntry s.diskInfo s.disk c = clusterFree := by
  obtain ⟨hc, hcase⟩ := fatAllocateStartCluster_cases hs halloc
  have hsearch : s'.trace = [Event.search s.disk c] ++ s.trace := by
    rcases hcase with ⟨rfl, j, rfl⟩ | ⟨-, rfl⟩ <;> rfl
  have hsome : SomeFree s.diskInfo s.disk := by
    rcases hfind with hfind | hfind
    · exact hfind.of_mem hsearch (List.mem_singleton_self _)
    · exact someFree_of_pos (by simpa using hfind)
  have hu : Usable s.diskInfo c ∧ c < 256 ∧ fatEntry s.diskInfo s.disk c = clusterFree := by
    rw [hc]
    exact hsome.freeCluster hg hs
  rcases hcase with ⟨h0, -⟩ | ⟨-, rfl⟩
  · have := hu.1.two_le
    omega
  · exact ⟨rfl, hu⟩

/-- **Creating a file.** The descriptor then stands in a new, empty file.

**Proof sketch.** The call returns, and the ways in which it fails are excluded: the name is not
there, the search finds a cluster, the name has a dot, and the end marker can be taken. -/
theorem fileOpenWrite_writing {base ext : List UInt8} (hs : s.Sound) (hi : s.diskInfo = g)
    (hg : Geometry g) (hz : EndsAt g s.disk z) (hp : Parts base ext)
    (hname : (s.fdtable fd).name = base ++ 0x2e :: ext)
    (habs : Absent g s.disk (s.fdtable fd).name)
    (hfind : ∀ r s', fileOpenWrite s fd = some (r, s') → Enough g s.disk 0 s s') :
    ∃ s' f c, fileOpenWrite s fd = some (.ok (), s') ∧ f ≤ z ∧
      Placed g s.disk (s.fdtable fd).name f ∧
      Writing g s.disk f (newEntry base ext c) fd [c] [] s' ∧
      (s'.fdtable fd).name = (s.fdtable fd).name := by
  subst hi
  obtain ⟨r, s₁, hopen⟩ := fileOpenWrite_total (M := M) hs hg hz habs
  have hfind₁ := hfind _ _ hopen
  -- the lookup stops at the end marker
  have hstop : ∀ {re s₂}, filesystemGetDirectoryEntry s (s.fdtable fd).name = some (re, s₂) →
      re = .error .fileNotFound ∧ s₂ = s.lookedAt z := by
    intro re s₂ hget
    rw [filesystemGetDirectoryEntry_missing hs (habs.firstStop hz)
      (hz.behind z (le_refl z) hz.lt) (slot_turns hg hz.lt), Option.some.injEq,
      Prod.mk.injEq] at hget
    exact ⟨hget.1.symm, hget.2.symm⟩
  -- the search for a free cluster finds one
  have hsome : ∀ {c s₂}, fatAllocateStartCluster (s.lookedAt z) = (c, s₂) →
      s₂.trace <:+ s₁.trace →
      s₂ = (s.recordSearch c).link c clusterEof ∧ Usable s.diskInfo c ∧ c < 256 ∧
        fatEntry s.diskInfo s.disk c = clusterFree := by
    intro c s₂ halloc hsuffix
    have hcoh : (s.lookedAt z).Coherent := FileState.coherent_cached
    exact SomeFree.allocateStart (s := s.lookedAt z) hcoh hg halloc
      (hfind₁.left (allocated_frame halloc).trace hsuffix (le_refl _))
  obtain ⟨f, hfz, htake⟩ := hz.exists_firstTakable
  have hfs : f < slots s.diskInfo := lt_of_le_of_lt hfz hz.lt
  -- the new entry goes into the first one that can be taken
  have hcreate : ∀ {c} {entry : DirectoryEntry}, Usable s.diskInfo c →
      fileCreate ((s.recordSearch c).link c clusterEof) entry =
        some (false, ((s.recordSearch c).link c clusterEof).storeEntry f entry.toBytes) := by
    intro c entry hu
    have hd : ((s.recordSearch c).link c clusterEof).disk = linked s.diskInfo s.disk c clusterEof :=
      link_disk hg hu.hasWord
    refine fileCreate_eq ⟨FileState.coherent_link, hs.root_lt⟩ ?_ (slot_turns hg hfs)
      (slot_ne_data hg hfs)
    rw [hd]
    exact htake.linked hg hu.hasWord hfs
  cases fileOpenWrite_cases hopen with
  | «exists» hget => simpa using (hstop hget).1
  | diskFull hget halloc =>
    obtain ⟨-, rfl⟩ := hstop hget
    obtain ⟨-, hu, -⟩ := hsome halloc (List.suffix_refl _)
    exact absurd hu.two_le (by decide)
  | badName hget halloc hc hsplit =>
    obtain ⟨-, rfl⟩ := hstop hget
    obtain ⟨rfl, -, -⟩ := hsome halloc (List.suffix_refl _)
    have : splitName (s.fdtable fd).name = none := hsplit
    rw [hname, hp.splitName] at this
    simp at this
  | dirFull hget halloc hc hsplit hcreate' =>
    obtain ⟨-, rfl⟩ := hstop hget
    obtain ⟨rfl, hu, -⟩ := hsome halloc (fileCreate_frame hcreate').trace
    rw [hcreate hu] at hcreate'
    simp at hcreate'
  | @created _ _ c _ base' ext' _ hget halloc hc hsplit hcreate' =>
    obtain ⟨-, rfl⟩ := hstop hget
    obtain ⟨rfl, hu, hlow, hfree⟩ := hsome halloc (fileCreate_frame hcreate').trace
    have hsplit' : splitName (s.fdtable fd).name = some (base', ext') := hsplit
    rw [hname, hp.splitName, Option.some.injEq, Prod.mk.injEq] at hsplit'
    obtain ⟨rfl, rfl⟩ := hsplit'
    rw [hcreate hu, Option.some.injEq, Prod.mk.injEq] at hcreate'
    obtain ⟨-, rfl⟩ := hcreate'
    have hd : ((s.recordSearch c).link c clusterEof).disk = linked s.diskInfo s.disk c clusterEof :=
      link_disk hg hu.hasWord
    refine ⟨_, f, c, hopen, hfz, habs.placed hz hfz htake, ?_, ?_⟩
    · refine ⟨FileState.coherent_store, rfl, ?_,
        fun b hb => List.mem_singleton.mp hb ▸ hlow, ?_, ?_,
        ?_, ?_, ?_, ?_⟩
      · rw [FileState.setFd_disk, storeEntry_disk, hd]
        exact NewFile.create hg hfs hu hfree
      all_goals try rw [FileState.setFd_fdtable_self]
      · simp
      · rfl
      · rfl
      · simp [FileDescriptor.start, newEntry]
      · simp [FileDescriptor.start]
      · rfl
    · rw [FileState.setFd_fdtable_self]
      rfl

/-- **Opening a new file for writing.** The call returns a descriptor, and it stands in a new, empty
file.

**Proof sketch.** No flag is set, so that the first descriptor is assigned (`FlagsClear.assignFd`).
Opening for writing then puts it at the start of a new file (`fileOpenWrite_writing`), whose
searches are those of the call. -/
theorem fileOpen_write {base ext : List UInt8} (hs : s.Sound) (hflags : FlagsClear s)
    (hi : s.diskInfo = g) (hg : Geometry g) (hz : EndsAt g s.disk z) (hp : Parts base ext)
    (hname : filenameUpper filename = base ++ 0x2e :: ext)
    (habs : Absent g s.disk (filenameUpper filename))
    (hfind : ∀ r s', fileOpen s filename fmodeWrite = some (r, s') → Enough g s.disk 0 s s') :
    ∃ s' f c, fileOpen s filename fmodeWrite = some (.ok firstFd, s') ∧ f ≤ z ∧
      Placed g s.disk (filenameUpper filename) f ∧
      Writing g s.disk f (newEntry base ext c) firstFd [c] [] s' ∧
      (s'.fdtable firstFd).name = filenameUpper filename := by
  have hfd := hflags.assignFd
  have hname₀ : ((s.named firstFd filename).fdtable firstFd).name = filenameUpper filename := by
    rw [FileState.named, FileState.setFd_fdtable_self]
  have hmode : fmodeWrite ≠ fmodeRead := by decide
  have hfailed : ∀ error s₁, fileOpenWrite (s.named firstFd filename) firstFd =
      some (.error error, s₁) →
      fileOpen s filename fmodeWrite = some (.error error, s₁.release firstFd) := by
    intro error s₁ hopen
    unfold fileOpen
    simp only [hfd, if_neg hmode, if_true, hopen]
  have hopened : ∀ u s₁, fileOpenWrite (s.named firstFd filename) firstFd = some (.ok u, s₁) →
      fileOpen s filename fmodeWrite = some (.ok firstFd, s₁) := by
    intro u s₁ hopen
    unfold fileOpen
    simp only [hfd, if_neg hmode, if_true, hopen]
  have hfind' : ∀ r s₁, fileOpenWrite (s.named firstFd filename) firstFd = some (r, s₁) →
      Enough g s.disk 0 (s.named firstFd filename) s₁ := by
    intro r s₁ hopen
    cases r with
    | error error => exact hfind (.error error) (s₁.release firstFd) (hfailed error s₁ hopen)
    | ok u => exact hfind (.ok firstFd) s₁ (hopened u s₁ hopen)
  obtain ⟨s', f, c, hopen, hfz, hplaced, hw, hn⟩ :=
    fileOpenWrite_writing (s := s.named firstFd filename)
    ⟨hs.coherent, hs.root_lt⟩ hi hg hz hp (hname₀.trans hname) (hname₀ ▸ habs) hfind'
  rw [hname₀] at hplaced hn
  exact ⟨s', f, c, hopened _ _ hopen, hfz, hplaced, hw, hn⟩

/-! ## Closing -/

/-- A disk with a new file of the given name, seen by the driver. -/
structure Stored (g : DiskInfo) (d₀ : Disk) (f : ℕ) (name : List UInt8) (e : DirectoryEntry)
    (l : List ℕ) (data : List UInt8) (s : FileState) : Prop where
  coherent : s.Coherent
  diskInfo : s.diskInfo = g
  file : NewFile g d₀ s.disk f e l data
  placed : Placed g d₀ name f
  names : Names (fun j => e.toBytes.getD j 0) name

/-- The driver is sound on a disk with a new file. -/
theorem Stored.sound (hg : Geometry g) (h : Stored g d₀ f name e l data s) : s.Sound :=
  ⟨h.coherent, by rw [h.diskInfo]; exact hg.lt_sectorNumbers⟩

/-- The lookup of the name finds the entry of the file. -/
theorem Stored.stopsAt (hg : Geometry g) (h : Stored g d₀ f name e l data s) :
    s.StopsAt name f ∧ s.rootEntry f 0 ≠ 0 := by
  have hn : Names (s.rootEntry f) name :=
    h.names.congr fun j hj => by
      rw [FileState.rootEntry, h.diskInfo]
      exact h.file.entry j (by omega)
  refine ⟨?_, hn.used⟩
  have hstop := h.file.firstStop hg h.placed (by rw [← h.diskInfo]; exact hn)
  rw [FileState.StopsAt, h.diskInfo]
  exact hstop

/-- Closing a descriptor for writing gives the entry that a lookup of its name finds the size of the
descriptor. -/
theorem fileClose_found {n : ℕ} (hc : s.Coherent) (hg : Geometry s.diskInfo)
    (hlt : n < slots s.diskInfo) (hstop : s.StopsAt name n) (h0 : s.rootEntry n 0 ≠ 0)
    (hentry : ∀ j < 32, s.rootEntry n j = e.toBytes.getD j 0)
    (hname : (s.fdtable fd).name = name) (hmode : (s.fdtable fd).mode = fmodeWrite) :
    ∃ s', fileClose s fd = some ((), s') ∧ s'.Coherent ∧ s'.diskInfo = s.diskInfo ∧
      s'.disk = withEntry s.diskInfo s.disk n (e.withSize (s.fdtable fd).size).toBytes := by
  have hturns : n / 16 < M.turns := slot_turns hg hlt
  have hget := filesystemGetDirectoryEntry_found (M := M) ⟨hc, hg.lt_sectorNumbers⟩ hstop h0 hturns
  generalize hent : (DirectoryEntry.ofBytes (s.rootEntry n)).withSize (s.fdtable fd).size = entry
  have hbytes : entry.toBytes = (e.withSize (s.fdtable fd).size).toBytes := by
    rw [← hent]
    exact DirectoryEntry.toBytes_ofBytes_withSize hentry
  have hset : filesystemSetDirectoryEntry ((s.lookedAt n).saveEntry entry) entry name =
      some (.ok (), ((s.lookedAt n).saveEntry entry).storeEntry n entry.toBytes) :=
    filesystemSetDirectoryEntry_found ⟨FileState.coherent_cached, hg.lt_sectorNumbers⟩
      hstop h0 hturns
  refine ⟨(((s.lookedAt n).saveEntry entry).storeEntry n entry.toBytes).release fd, ?_,
    FileState.coherent_store, rfl, ?_⟩
  · unfold fileClose
    simp only [descriptor?_cast, hmode, if_true, hname, hget, hent, hset]
  · rw [FileState.release_disk, storeEntry_disk, hbytes]
    rfl

/-- **Closing.** The entry of the file gets its size, and nothing else changes on the disk. -/
theorem Writing.close (hg : Geometry g) (h : Writing g d₀ f e fd l data s)
    (hp : Placed g d₀ name f) (hn : Names (fun j => e.toBytes.getD j 0) name)
    (hname : (s.fdtable fd).name = name) :
    ∃ s', fileClose s fd = some ((), s') ∧
      Stored g d₀ f name (e.withSize data.length) l data s' := by
  have hst : Stored g d₀ f name e l data s := ⟨h.coherent, h.diskInfo, h.file, hp, hn⟩
  obtain ⟨hstop, h0⟩ := hst.stopsAt hg
  have hentry : ∀ j < 32, s.rootEntry f j = e.toBytes.getD j 0 := fun j hj => by
    rw [FileState.rootEntry, h.diskInfo]
    exact h.file.entry j hj
  obtain ⟨s', hclose, hcoherent, hinfo, hdisk⟩ := fileClose_found h.coherent (h.diskInfo ▸ hg)
    (h.diskInfo ▸ hp.lt) hstop h0 hentry hname h.mode
  rw [h.diskInfo, h.size] at hdisk
  refine ⟨s', hclose, hcoherent, hinfo.trans h.diskInfo, ?_, hp, hn.congr fun j hj => ?_⟩
  · rw [hdisk]
    exact h.file.replaceEntry hg rfl
  · have hj' : j < 28 := by omega
    exact DirectoryEntry.getD_toBytes_withSize e _ hj'

end

end Z80OS
