import Z80OS.File.Lifecycle

set_option relaxedAutoImplicit false
set_option autoImplicit false

/-!
# What is created is found

A name is cut off behind its twelfth character, brought into upper case and split at its first dot,
and its two parts are put into the fields of an entry, where what is too long is lost. A name of the
8.3 form comes back from there as it was, and a name without a dot in its first twelve characters is
refused. All other names are accepted, although no entry can stand for them.

## Main definitions

* `Z80OS.Found` — a file in the directory, as a lookup of its name sees it.
* `Z80OS.Undisturbed` — the directory and the descriptor of a file have been left alone.
* `Z80OS.CreatedIsFound` — what a creation promises.

## Main results

* `Z80OS.createdIsFound_iff` — when this holds.
-/

namespace Z80OS

section

variable {M : Machine} {s s' : FileState} {fd : Fin fileLimit} {n : ℕ} {e : DirectoryEntry}
  {base ext name filename : List UInt8}

/-! ## A file that is found -/

/-- A lookup of the name stops at the `n`-th entry of the root directory, which is the entry `e`. -/
structure Found (s : FileState) (name : List UInt8) (n : ℕ) (e : DirectoryEntry) : Prop where
  coherent : s.Coherent
  geometry : Geometry s.diskInfo
  lt : n < slots s.diskInfo
  stops : s.StopsAt name n
  used : s.rootEntry n 0 ≠ 0
  entry : ∀ j < 32, s.rootEntry n j = e.toBytes.getD j 0

/-- A state in which an entry has been found is sound. -/
theorem Found.sound (h : Found s name n e) : s.Sound := ⟨h.coherent, h.geometry.lt_sectorNumbers⟩

/-- A file is found as long as the root directory stays as it is, up to the bytes behind the name of
its own entry. -/
theorem Found.of_entries {e' : DirectoryEntry} (h : Found s name n e) (hc : s'.Coherent)
    (hi : s'.diskInfo = s.diskInfo)
    (hother : ∀ i < n, ∀ j < 32, s'.rootEntry i j = s.rootEntry i j)
    (hname : ∀ j < 12, s'.rootEntry n j = s.rootEntry n j)
    (hentry : ∀ j < 32, s'.rootEntry n j = e'.toBytes.getD j 0) : Found s' name n e' := by
  refine ⟨hc, hi ▸ h.geometry, hi ▸ h.lt, ⟨fun i hin => ?_, fun hp => h.stops.2 ?_⟩, ?_, hentry⟩
  · exact (passes_congr fun j hj => hother i hin j (by omega)).mpr (h.stops.1 i hin)
  · exact (passes_congr hname).mp hp
  · rw [hname 0 (by decide)]
    exact h.used

/-- What the cache holds does not matter. -/
theorem Found.lookedAt {m : ℕ} (h : Found s name n e) : Found (s.lookedAt m) name n e :=
  h.of_entries FileState.coherent_cached rfl (fun _ _ _ _ => rfl) (fun _ _ => rfl) h.entry

/-- A lookup of the name answers with the entry that has been found. -/
theorem Found.lookup (h : Found s name n e) :
    filesystemGetDirectoryEntry s name = some (.ok (.ofBytes (s.rootEntry n)), s.lookedAt n) :=
  filesystemGetDirectoryEntry_found h.sound h.stops h.used (slot_turns h.geometry h.lt)

/-- The file has its size. -/
theorem Found.info (h : Found s (filenameUpper filename) n e) :
    ∃ info, fileInfo s filename = some (.ok info, s.lookedAt n) ∧
      info.size = e.size % 4294967296 := by
  unfold fileInfo
  rw [h.lookup]
  exact ⟨_, rfl, DirectoryEntry.ofBytes_size h.entry⟩

/-- The file is not created again. -/
theorem Found.again (h : Found s (filenameUpper filename) n e) (hflags : FlagsClear s) :
    ∃ s', fileNew s filename = some (.error .fileExist, s') := by
  have hn : Found (s.named firstFd filename) (filenameUpper filename) n e :=
    h.of_entries h.coherent rfl (fun _ _ _ _ => rfl) (fun _ _ => rfl) h.entry
  have hname : ((s.named firstFd filename).fdtable firstFd).name = filenameUpper filename := by
    rw [FileState.named, FileState.setFd_fdtable_self]
  unfold fileNew fileOpenWrite
  simp only [hflags.assignFd, hname, hn.lookup]
  exact ⟨_, rfl⟩

/-! ## Closing -/

/-- Closing a descriptor of the file gives the entry the size of the descriptor. -/
theorem Found.close (h : Found s name n e) (hname : (s.fdtable fd).name = name)
    (hmode : (s.fdtable fd).mode = fmodeWrite) :
    ∃ s', fileClose s fd = some ((), s') ∧ Found s' name n (e.withSize (s.fdtable fd).size) := by
  obtain ⟨s', hclose, hcoherent, hinfo, hdisk⟩ :=
    fileClose_found h.coherent h.geometry h.lt h.stops h.used h.entry hname hmode
  refine ⟨s', hclose, ?_⟩
  have hroot : ∀ i j, s'.rootEntry i j = entryAt (withEntry s.diskInfo s.disk n
      (e.withSize (s.fdtable fd).size).toBytes) s.diskInfo.rootRegion i j := fun i j => by
    rw [FileState.rootEntry, hdisk, hinfo]
  have hown : ∀ j < 32, s'.rootEntry n j =
      (e.withSize (s.fdtable fd).size).toBytes.getD j 0 := fun j hj => by
    rw [hroot, entryAt_withEntry hj, if_pos (by rw [DirectoryEntry.length_toBytes]; exact hj)]
  refine h.of_entries hcoherent hinfo (fun i hi j hj => ?_) (fun j hj => ?_) hown
  · rw [hroot, FileState.rootEntry]
    refine entryAt_congr h.geometry (hi.trans h.lt) (fun k b hk => ?_) hj
    refine withEntry_get_of_not h.geometry h.lt (by rw [DirectoryEntry.length_toBytes]) fun hn => ?_
    exact absurd (hk.inj hn) (by omega)
  · rw [hown j (by omega), h.entry j (by omega),
      DirectoryEntry.getD_toBytes_withSize e _ (by omega)]

/-! ## Creating -/

/-- The first of the entries that can be taken lies in the root directory when the search for it has
not met the data region. -/
theorem lt_slots_of_ne_data {g : DiskInfo} (hg : Geometry g)
    (hdata : ∀ j < n / 16, (g.rootRegion + (j + 1)) % sectorNumbers ≠ g.dataRegion) :
    n < slots g := by
  have hroot := hg.root_lt
  have hlt := hg.data_lt
  by_contra hge
  simp only [slots, not_lt] at hge
  refine hdata (g.dataRegion - g.rootRegion - 1) (by omega) ?_
  rw [Nat.mod_eq_of_lt (by simp only [sectorNumbers]; omega)]
  omega

/-- An entry that is put behind entries which a lookup of its name passes over is found. -/
theorem found_storeEntry {c : ℕ} (hg : Geometry s.diskInfo) (hn : n < slots s.diskInfo)
    (hp : Parts base ext) (hpass : ∀ i < n, Passes (base ++ 0x2e :: ext) (s.rootEntry i)) :
    Found (s.storeEntry n (newEntry base ext c).toBytes) (base ++ 0x2e :: ext) n
      (newEntry base ext c) := by
  have hdisk : ∀ i j, (s.storeEntry n (newEntry base ext c).toBytes).rootEntry i j =
      entryAt (withEntry s.diskInfo s.disk n (newEntry base ext c).toBytes)
        s.diskInfo.rootRegion i j := fun _ _ => rfl
  have hown : ∀ j < 32, (s.storeEntry n (newEntry base ext c).toBytes).rootEntry n j =
      (newEntry base ext c).toBytes.getD j 0 := fun j hj => by
    rw [hdisk, entryAt_withEntry hj, if_pos (by rw [DirectoryEntry.length_toBytes]; exact hj)]
  have hother : ∀ i < n, ∀ j < 32, (s.storeEntry n (newEntry base ext c).toBytes).rootEntry i j =
      s.rootEntry i j := fun i hi j hj => by
    rw [hdisk]
    refine entryAt_congr hg (hi.trans hn) (fun k b hk => ?_) hj
    refine withEntry_get_of_not hg hn (by rw [DirectoryEntry.length_toBytes]) fun hk' => ?_
    exact absurd (hk.inj hk') (by omega)
  have hnames := hp.names (d := newEntry base ext c) rfl rfl rfl hown
  exact ⟨FileState.coherent_store, hg, hn, ⟨fun i hi =>
    (passes_congr fun j hj => hother i hi j (by omega)).mpr (hpass i hi), hnames.not_passes⟩,
    hnames.used, hown⟩

/-- **A new file is found.** When the search for a free cluster answers with one that has a word in
the FAT, the entry of a new file with a valid name is the one at which a lookup of the name stops.

**Proof sketch.** The lookup in front of the creation has stopped at an end marker, so that it
passes over all entries in front of it. The new entry goes into the first one that can be taken,
which is the end marker at the latest, and it has the name. -/
theorem found_of_fileOpenWrite (hs : s.Sound) (hg : Geometry s.diskInfo)
    (hc : HasWord s.diskInfo (freeCluster s)) (hp : Parts base ext)
    (hname : (s.fdtable fd).name = base ++ 0x2e :: ext)
    (h : fileOpenWrite s fd = some (.ok (), s')) :
    ∃ n e, Found s' (base ++ 0x2e :: ext) n e ∧ e.size = 0 ∧
      (s'.fdtable fd).name = base ++ 0x2e :: ext ∧ (s'.fdtable fd).mode = fmodeWrite := by
  cases fileOpenWrite_cases h with
  | @created _ s₁ c s₂ base' ext' s₃ hget halloc hc0 hsplit hcreate =>
    obtain ⟨z, hstop, rfl, hend⟩ := filesystemGetDirectoryEntry_cases hs hget
    have hz : s.rootEntry z 0 = 0 := by
      rcases hend with ⟨h0, -⟩ | ⟨-, he⟩
      · exact h0
      · exact absurd he (by simp)
    obtain ⟨hcfree, hcase⟩ := fatAllocateStartCluster_cases (s := s.lookedAt z)
      FileState.coherent_cached halloc
    have hcw : HasWord s.diskInfo c := by
      rw [hcfree, FileState.lookedAt, freeCluster_cached hs.coherent]
      exact hc
    obtain rfl : s₂ = ((s.lookedAt z).recordSearch c).link c clusterEof := by
      rcases hcase with ⟨h0, -⟩ | ⟨-, hs₂⟩
      · exact absurd h0 hc0
      · exact hs₂
    generalize ht : ((s.lookedAt z).recordSearch c).link c clusterEof = t at hsplit hcreate halloc
    have hcoh : t.Coherent := ht ▸ FileState.coherent_link
    have hi : t.diskInfo = s.diskInfo := ht ▸ rfl
    have hfd : t.fdtable = s.fdtable := ht ▸ rfl
    have hentry : ∀ i < slots s.diskInfo, ∀ j < 32, t.rootEntry i j = s.rootEntry i j := by
      intro i hslot j hj
      have hd : t.disk = linked s.diskInfo s.disk c clusterEof := ht ▸ link_disk hg hcw
      rw [FileState.rootEntry, hd, hi]
      exact entryAt_linked hg hcw hslot hj
    rw [hfd, hname, hp.splitName, Option.some.injEq, Prod.mk.injEq] at hsplit
    obtain ⟨rfl, rfl⟩ := hsplit
    rcases fileCreate_cases ⟨hcoh, by rw [hi]; exact hs.root_lt⟩ hcreate with
      ⟨hfull, -⟩ | ⟨-, n, htake, hdata, rfl⟩
    · exact absurd hfull (by simp)
    have hn : n < slots s.diskInfo := by
      rw [hi] at hdata
      exact lt_slots_of_ne_data hg hdata
    -- the end marker at which the lookup has stopped can be taken
    have hnz : n ≤ z := by
      by_contra hlt
      exact htake.1 z (by omega) (.inl ((hentry z (by omega) 0 (by decide)).trans hz))
    have hfound : Found (t.storeEntry n (newEntry base ext c).toBytes) (base ++ 0x2e :: ext) n
        (newEntry base ext c) := by
      refine found_storeEntry (by rw [hi]; exact hg) (by rw [hi]; exact hn) hp fun i hin => ?_
      rw [passes_congr fun j hj => hentry i (by omega) j (by omega), ← hname]
      exact hstop.1 i (by omega)
    refine ⟨n, _, hfound.of_entries hfound.coherent rfl (fun _ _ _ _ => rfl) (fun _ _ => rfl)
      hfound.entry, rfl, ?_, ?_⟩ <;> rw [FileState.setFd_fdtable_self]
    · rw [← hname, ← hfd]
      rfl
    · rfl

/-! ## What a creation promises -/

/-- The root directory is as it was, and so are the name and the mode of a descriptor. -/
structure Undisturbed (fd : Fin fileLimit) (s s' : FileState) : Prop where
  coherent : s'.Coherent
  diskInfo : s'.diskInfo = s.diskInfo
  entries : ∀ i < slots s.diskInfo, ∀ j < 32, s'.rootEntry i j = s.rootEntry i j
  name : (s'.fdtable fd).name = (s.fdtable fd).name
  mode : (s'.fdtable fd).mode = (s.fdtable fd).mode

/-- An entry that has been found is still found after a step that leaves the root directory. -/
theorem Found.undisturbed (h : Found s name n e) (hu : Undisturbed fd s s') :
    Found s' name n e :=
  h.of_entries hu.coherent hu.diskInfo (fun i hi => hu.entries i (hi.trans h.lt))
    (fun j hj => hu.entries n h.lt j (by omega))
    fun j hj => (hu.entries n h.lt j hj).trans (h.entry j hj)

end

section

variable [Machine]

/-- A file that is created is found with the size 0 and is not created again. A file that is opened
for writing, while the root directory is left alone, gets the size of its descriptor when this is
closed, and is found with it. A name that is not of the 8.3 form is refused. -/
structure CreatedIsFound (s : FileState) (filename : List UInt8) : Prop where
  found : ∀ s₁, fileNew s filename = some (.ok (), s₁) → ∃ info s₂ s₃,
    fileInfo s₁ filename = some (.ok info, s₂) ∧ info.size = 0 ∧
      fileNew s₂ filename = some (.error .fileExist, s₃)
  closed : ∀ fd s₁, fileOpen s filename fmodeWrite = some (.ok fd, s₁) →
    ∀ s₂, Undisturbed fd s₁ s₂ → ∃ s₃ info s₄, fileClose s₂ fd = some ((), s₃) ∧
      fileInfo s₃ filename = some (.ok info, s₄) ∧
      info.size = (s₂.fdtable fd).size % 4294967296
  refused : ¬ ValidName (cString filename) →
    ∃ s₁, fileNew s filename = some (.error .invalidFilename, s₁)

end

section

variable {M : Machine} {s s' : FileState} {fd : Fin fileLimit} {n : ℕ} {filename : List UInt8}

/-- Upper case neither makes nor removes a dot. -/
theorem dot_mem_filenameUpper :
    0x2e ∈ filenameUpper filename ↔ 0x2e ∈ (cString filename).take 12 := by
  rw [filenameUpper, stringToupper, List.mem_map]
  constructor
  · rintro ⟨c, hc, heq⟩
    rwa [(toUpper_eq_iff (by simp)).mp heq] at hc
  · intro h
    exact ⟨0x2e, h, by decide⟩

/-- A name with a dot is never refused, and a name is refused when its lookup meets an end
marker. -/
theorem of_fileNew_refused (hs : s.Sound)
    (h : fileNew s filename = some (.error .invalidFilename, s')) :
    0x2e ∉ (cString filename).take 12 ∧
      ∃ z, s.StopsAt (filenameUpper filename) z ∧ s.rootEntry z 0 = 0 := by
  cases fileNew_cases h with
  | @ran fd _ s₁ hfd hopen =>
    have hname : ((s.named fd filename).fdtable fd).name = filenameUpper filename := by
      rw [FileState.named, FileState.setFd_fdtable_self]
    cases fileOpenWrite_cases hopen with
    | badName hget halloc hc hsplit =>
      have hfd :=
        ((filesystemGetDirectoryEntry_frame hget).trans (allocated_frame halloc)).fdtable_eq
      rw [hfd, hname] at hsplit
      rw [hname] at hget
      obtain ⟨z, hstop, -, hend⟩ := filesystemGetDirectoryEntry_cases
        (s := s.named fd filename) ⟨hs.coherent, hs.root_lt⟩ hget
      refine ⟨fun hdot => ?_, z, hstop, ?_⟩
      · rw [splitName, if_pos (dot_mem_filenameUpper.mpr hdot)] at hsplit
        exact absurd hsplit (by simp)
      · rcases hend with ⟨h0, -⟩ | ⟨-, he⟩
        · exact h0
        · exact absurd he (by simp)

/-- A lookup stops in time. -/
theorem stopsAt_turns (h : s.StopsAt filename n) : n / 16 < M.turns := by
  have hturns := M.turns_ge
  have hperiod : ∀ i, s.rootEntry (i + 16 * sectorNumbers) = s.rootEntry i := fun i => by
    have hsector : entrySector s.diskInfo.rootRegion (i + 16 * sectorNumbers) =
        entrySector s.diskInfo.rootRegion i := by
      simp only [entrySector, sectorNumbers]
      omega
    have hoffset : entryOffset (i + 16 * sectorNumbers) = entryOffset i := by
      simp only [entryOffset, sectorNumbers]
      omega
    rw [FileState.rootEntry, FileState.rootEntry, entryAt, entryAt, hsector, hoffset]
  have hlt : n < 16 * sectorNumbers := by
    by_contra hge
    obtain ⟨m, rfl⟩ := Nat.exists_eq_add_of_le' (not_lt.mp hge)
    refine h.2 ?_
    have hpass := h.1 m (by simp only [sectorNumbers]; omega)
    exact (congrArg (Passes filename) (hperiod m)).mpr hpass
  simp only [sectorNumbers] at hlt
  omega

/-- A name without a dot is refused when its lookup meets an end marker. -/
theorem fileNew_refused {z : ℕ} (hs : s.Sound) (hflags : FlagsClear s)
    (hc : freeCluster (s.named firstFd filename) ≠ 0)
    (hdot : 0x2e ∉ (cString filename).take 12) (hstop : s.StopsAt (filenameUpper filename) z)
    (hz : s.rootEntry z 0 = 0) :
    ∃ s', fileNew s filename = some (.error .invalidFilename, s') := by
  have hname : ((s.named firstFd filename).fdtable firstFd).name = filenameUpper filename := by
    rw [FileState.named, FileState.setFd_fdtable_self]
  have hget := filesystemGetDirectoryEntry_missing (M := M) (s := s.named firstFd filename)
    ⟨hs.coherent, hs.root_lt⟩ hstop hz (stopsAt_turns hstop)
  rcases halloc : fatAllocateStartCluster ((s.named firstFd filename).lookedAt z) with ⟨c, s₁⟩
  have hc' : c ≠ 0 := by
    rw [(fatAllocateStartCluster_cases FileState.coherent_cached halloc).1,
      freeCluster_cached (show (s.named firstFd filename).Coherent from hs.coherent)]
    exact hc
  have hsplit : splitName (s₁.fdtable firstFd).name = none := by
    rw [(allocated_frame halloc).fdtable_eq]
    show splitName ((s.named firstFd filename).fdtable firstFd).name = none
    rw [hname, splitName, if_neg (fun h => hdot (dot_mem_filenameUpper.mp h))]
  unfold fileNew fileOpenWrite
  simp only [hflags.assignFd, hname, hget, halloc, if_neg hc', hsplit]
  exact ⟨_, rfl⟩

/-- A name without a dot is not opened. -/
theorem dot_mem_of_fileOpenWrite (hname : (s.fdtable fd).name = filenameUpper filename)
    (h : fileOpenWrite s fd = some (.ok (), s')) : 0x2e ∈ (cString filename).take 12 := by
  cases fileOpenWrite_cases h with
  | created hget halloc hc hsplit hcreate =>
    rw [((filesystemGetDirectoryEntry_frame hget).trans (allocated_frame halloc)).fdtable_eq,
      hname, splitName] at hsplit
    by_contra hdot
    rw [if_neg (fun h => hdot (dot_mem_filenameUpper.mp h))] at hsplit
    exact absurd hsplit (by simp)

/-- **When what is created is found.** When a descriptor is free and the search for a free cluster
answers with one that has a word in the FAT, the promise holds exactly for the names of the 8.3
form, and for the names without a dot in the first twelve characters, provided that the end marker
comes in front of all entries that a lookup takes for such a name.

**Proof sketch.** A valid name is stored in an entry from which it is read back, and the new entry
is the first one that a lookup stops at. A name without a dot is refused when its lookup has met an
end marker. All other names are accepted, or are refused for another reason. -/
theorem createdIsFound_iff (hs : s.Sound) (hg : Geometry s.diskInfo) (hflags : FlagsClear s)
    (hc : HasWord s.diskInfo (freeCluster (s.named firstFd filename))) :
    CreatedIsFound s filename ↔ ValidName (cString filename) ∨
      0x2e ∉ (cString filename).take 12 ∧
        ∃ z, s.StopsAt (filenameUpper filename) z ∧ s.rootEntry z 0 = 0 := by
  have hname : ((s.named firstFd filename).fdtable firstFd).name = filenameUpper filename := by
    rw [FileState.named, FileState.setFd_fdtable_self]
  constructor
  · intro h
    by_cases hvalid : ValidName (cString filename)
    · exact .inl hvalid
    · obtain ⟨s₁, hnew⟩ := h.refused hvalid
      exact .inr (of_fileNew_refused hs hnew)
  rintro (hvalid | ⟨hdot, z, hstop, hz⟩)
  · obtain ⟨base, ext, hp, hupper⟩ := hvalid.parts
    have hopened : ∀ s₁, fileOpenWrite (s.named firstFd filename) firstFd = some (.ok (), s₁) →
        ∃ n e, Found s₁ (filenameUpper filename) n e ∧ e.size = 0 ∧
          (s₁.fdtable firstFd).name = filenameUpper filename ∧
          (s₁.fdtable firstFd).mode = fmodeWrite := by
      intro s₁ hopen
      have h := found_of_fileOpenWrite (s := s.named firstFd filename) ⟨hs.coherent, hs.root_lt⟩ hg
        hc hp (hname.trans hupper) hopen
      rwa [← hupper] at h
    refine ⟨fun s₁ hnew => ?_, fun fd s₁ hopen s₂ hu => ?_, fun h => absurd hvalid h⟩
    · cases fileNew_cases hnew with
      | @ran fd _ s₁ hfd hopen =>
        obtain rfl : firstFd = fd := Option.some.inj (hflags.assignFd.symm.trans hfd)
        obtain ⟨n, e, hf, hsize, -, -⟩ := hopened s₁ hopen
        have hflags₁ := fileOpenWrite_flagsClear hflags.named hopen
        rw [hflags₁.release_eq]
        obtain ⟨info, hinfo, hisize⟩ := hf.info
        obtain ⟨s₃, hagain⟩ := hf.lookedAt.again (show FlagsClear (s₁.lookedAt n) from hflags₁)
        exact ⟨info, _, s₃, hinfo, by rw [hisize, hsize], hagain⟩
    · cases fileOpen_cases hopen with
      | read hfd hmode => exact absurd hmode (by decide)
      | write hfd hmode hopen =>
        obtain rfl : firstFd = fd := Option.some.inj (hflags.assignFd.symm.trans hfd)
        obtain ⟨n, e, hf, -, hn, hm⟩ := hopened s₁ hopen
        obtain ⟨s₃, hclose, hf₃⟩ := (hf.undisturbed hu).close (hu.name.trans hn) (hu.mode.trans hm)
        obtain ⟨info, hinfo, hisize⟩ := hf₃.info
        exact ⟨s₃, info, _, hclose, hinfo, hisize⟩
  · have hc0 : freeCluster (s.named firstFd filename) ≠ 0 := by
      have := hc.two_le
      omega
    refine ⟨fun s₁ hnew => ?_, fun fd s₁ hopen => ?_, fun _ =>
      fileNew_refused hs hflags hc0 hdot hstop hz⟩
    · obtain ⟨s₂, hrefused⟩ := fileNew_refused hs hflags hc0 hdot hstop hz
      rw [hrefused] at hnew
      exact absurd hnew (by simp)
    · cases fileOpen_cases hopen with
      | read hfd hmode => exact absurd hmode (by decide)
      | write hfd hmode hopen =>
        obtain rfl : firstFd = fd := Option.some.inj (hflags.assignFd.symm.trans hfd)
        exact absurd (dot_mem_of_fileOpenWrite hname hopen) hdot

end

/-! ## A small disk -/

section

attribute [local instance] Machine.linked

/-- The small state is sound. -/
theorem sound_smallState : smallState.Sound := ⟨rfl, by decide +kernel⟩

/-- No descriptor of the small state has a flag. -/
theorem flagsClear_smallState : FlagsClear smallState := fun _ => rfl

/-- The small state has a layout that the driver can use. -/
theorem geometry_smallState : Geometry smallState.diskInfo :=
  (wellFormed_formattedDisk (by decide) (by decide) (by decide) (by decide) (by decide)
    (by decide)).geometry

/-- On the small disk the search finds cluster 2, whatever the name of the new file is. -/
theorem hasWord_smallState (filename : List UInt8) :
    HasWord smallState.diskInfo (freeCluster (smallState.named firstFd filename)) := by
  have hsome : SomeFree smallState.diskInfo smallState.disk :=
    ⟨2, by decide, by decide, by decide +kernel⟩
  exact (SomeFree.freeCluster (s := smallState.named firstFd filename) hsome geometry_smallState
    rfl).1.hasWord

/-- A file `A.B` that is created in the small state is found. -/
theorem createdIsFound_nameAB : CreatedIsFound smallState nameAB :=
  (createdIsFound_iff sound_smallState geometry_smallState flagsClear_smallState
    (hasWord_smallState nameAB)).mpr (.inl validName_nameAB)

/-- The name `ABCDEFGHI.T`, with nine characters in front of the dot. -/
def longName : List UInt8 := [0x41, 0x42, 0x43, 0x44, 0x45, 0x46, 0x47, 0x48, 0x49, 0x2e, 0x54]

/-- A file with this name is created on the small disk, and not found. -/
theorem not_createdIsFound :
    ¬ ∀ (s : FileState) (filename : List UInt8), WellFormed s.diskInfo s.disk → s.Sound →
      FlagsClear s → SomeFree s.diskInfo s.disk → CreatedIsFound s filename := by
  intro hall
  have hwf : WellFormed smallState.diskInfo smallState.disk :=
    wellFormed_formattedDisk (by decide) (by decide) (by decide) (by decide) (by decide) (by decide)
  have h := hall smallState longName hwf sound_smallState flagsClear_smallState
    ⟨2, by decide, by decide, by decide +kernel⟩
  have hnew : ((fileNew smallState longName).map Prod.fst) = some (.ok ()) := by decide +kernel
  obtain ⟨⟨r, s₁⟩, hrun, hr⟩ := Option.map_eq_some_iff.mp hnew
  obtain rfl : r = .ok () := hr
  obtain ⟨info, s₂, s₃, hinfo, -⟩ := h.found s₁ hrun
  have hlost : ((fileNew smallState longName).bind fun r =>
      (fileInfo r.2 longName).map fun q => q.1.isOk) = some false := by decide +kernel
  rw [hrun] at hlost
  simp [hinfo, Except.isOk, Except.toBool] at hlost

end

end Z80OS
