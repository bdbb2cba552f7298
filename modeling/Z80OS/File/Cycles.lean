import Z80OS.File.Deletion
import Z80OS.File.Enumeration

set_option relaxedAutoImplicit false
set_option autoImplicit false

/-!
# The life of a file

A file is created, written, closed and deleted. Afterwards the FAT and the list of the files are
what they were, and there is room for the next file, so this can be repeated for ever.

## Main definitions

* `Z80OS.lifeCycle` — the calls over the life of a file.
* `Z80OS.Room` — the root directory has room for another file.

## Main results

* `Z80OS.lifeCycle_restores` — one life of a file.
* `Z80OS.no_cluster_leak` — any number of them.
-/

namespace Z80OS

/-- The calls of a process that creates a file, writes it in chunks, closes it and deletes it. -/
def lifeCycle (filename : List UInt8) (chunks : List (List UInt8)) : List FileCall :=
  writeSession filename chunks ++ [.delete filename]

/-- The answers to these calls when they succeed. -/
def lifeAnswers (chunks : List (List UInt8)) : List FileAnswer :=
  writeAnswers chunks ++ [.delete (.ok ())]

/-- The root directory ends, and either another entry behind the end marker or a deleted entry in
front of it is there for a new file. -/
structure Room (g : DiskInfo) (d : Disk) (z : ℕ) : Prop where
  ends : EndsAt g d z
  room : z + 1 < slots g ∨ ∃ f < z, Takable (entryAt d g.rootRegion f)

section

variable {M : Machine} {g : DiskInfo} {d d' : Disk} {f z : ℕ} {filename name : List UInt8}
  {chunks : List (List UInt8)} {s : FileState}

/-! ## The root directory -/

/-- The names of the files depend on the entries. -/
theorem fileNames_congr {sector n : ℕ}
    (h : ∀ i < n, skipsEntry (entryAt d' sector i) = skipsEntry (entryAt d sector i) ∧
      (skipsEntry (entryAt d sector i) = false →
        filesystemFilename (entryAt d' sector i) = filesystemFilename (entryAt d sector i))) :
    fileNames d' sector n = fileNames d sector n := by
  have hfilter : (List.range n).filter (fun i => !skipsEntry (entryAt d' sector i)) =
      (List.range n).filter fun i => !skipsEntry (entryAt d sector i) := by
    apply List.filter_congr
    intro i hi
    rw [(h i (List.mem_range.mp hi)).1]
  rw [fileNames, fileNames, hfilter]
  apply List.map_congr_left
  intro i hi
  obtain ⟨hi, hs⟩ := List.mem_filter.mp hi
  exact (h i (List.mem_range.mp hi)).2 (by simpa using hs)

/-- A deleted entry is passed over. -/
theorem skipsEntry_of_deleted {e : ℕ → UInt8} (h : e 0 = 0xe5) : skipsEntry e = true := by
  rw [skipsEntry, h]
  rfl

namespace Deleted

/-- The other entries are passed over, and have names, as before. -/
theorem skips_of_ne {i : ℕ} (h : Deleted g d d' f) (hi : i < slots g) (hne : i ≠ f) :
    skipsEntry (entryAt d' g.rootRegion i) = skipsEntry (entryAt d g.rootRegion i) ∧
      (skipsEntry (entryAt d g.rootRegion i) = false →
        filesystemFilename (entryAt d' g.rootRegion i) =
          filesystemFilename (entryAt d g.rootRegion i)) :=
  ⟨skipsEntry_congr fun j hj => h.entry i hi hne j (by omega),
    fun _ => filesystemFilename_congr fun j hj => h.entry i hi hne j (by omega)⟩

/-- A file that took a deleted entry leaves a deleted entry. -/
theorem room_of_lt (h : Deleted g d d' f) (hz : EndsAt g d z) (hp : Placed g d name f)
    (hf : f < z) : Room g d' z ∧ fileNames d' g.rootRegion z = fileNames d g.rootRegion z := by
  have hother : ∀ {i}, i < slots g → i ≠ f →
      entryAt d' g.rootRegion i 0 = entryAt d g.rootRegion i 0 :=
    fun hi hne => h.entry _ hi hne 0 (by decide)
  refine ⟨⟨⟨hz.lt, fun i hi => ?_, fun i hi hs => ?_⟩, .inr ⟨f, hf, .inr h.mark⟩⟩, ?_⟩
  · by_cases hif : i = f
    · rw [hif, h.mark]
      decide
    · rw [hother (hi.trans hz.lt) hif]
      exact hz.before i hi
  · rw [hother hs (by omega)]
    exact hz.behind i hi hs
  · apply fileNames_congr
    intro i hi
    by_cases hif : i = f
    · -- the entry had been a deleted one before
      subst hif
      have hdel := hp.takable.2.resolve_left (hz.before i hi)
      rw [skipsEntry_of_deleted h.mark, skipsEntry_of_deleted hdel]
      exact ⟨rfl, fun habs => absurd habs (by decide)⟩
    · exact h.skips_of_ne (hi.trans hz.lt) hif

/-- A file that took the end marker leaves a deleted entry in front of the next one. -/
theorem room_of_eq (h : Deleted g d d' z) (hz : EndsAt g d z) (hlt : z + 1 < slots g) :
    Room g d' (z + 1) ∧ fileNames d' g.rootRegion (z + 1) = fileNames d g.rootRegion z := by
  have hother : ∀ {i}, i < slots g → i ≠ z →
      entryAt d' g.rootRegion i 0 = entryAt d g.rootRegion i 0 :=
    fun hi hne => h.entry _ hi hne 0 (by decide)
  refine ⟨⟨⟨hlt, fun i hi => ?_, fun i hi hs => ?_⟩,
    .inr ⟨z, Nat.lt_succ_self z, .inr h.mark⟩⟩, ?_⟩
  · by_cases hiz : i = z
    · rw [hiz, h.mark]
      decide
    · rw [hother (by omega) hiz]
      exact hz.before i (by omega)
  · rw [hother hs (by omega)]
    exact hz.behind i (by omega) hs
  · have hskip : (!skipsEntry (entryAt d' g.rootRegion z)) = false := by
      rw [skipsEntry_of_deleted h.mark]
      rfl
    have hsame : fileNames d' g.rootRegion z = fileNames d g.rootRegion z := by
      apply fileNames_congr
      intro i hi
      exact h.skips_of_ne (by omega) (by omega)
    rw [← hsame, fileNames, List.range_succ, List.filter_append, List.map_append, fileNames]
    simp [hskip]

/-- **A deleted file leaves the list of the files as it was, and room for another file.** -/
theorem room (h : Deleted g d d' f) (hr : Room g d z) (hp : Placed g d name f) (hfz : f ≤ z) :
    ∃ z', Room g d' z' ∧ fileNames d' g.rootRegion z' = fileNames d g.rootRegion z := by
  rcases Nat.lt_or_eq_of_le hfz with hf | rfl
  · exact ⟨z, h.room_of_lt hr.ends hp hf⟩
  · rcases hr.room with hlt | ⟨i, hi, ht⟩
    · exact ⟨f + 1, h.room_of_eq hr.ends hlt⟩
    · exact absurd ht (hp.takable.1 i hi)

/-- The free clusters are the same. -/
theorem freeClusters_eq (h : Deleted g d d' f) (hg : Geometry g) :
    freeClusters g d' = freeClusters g d := by
  apply List.filter_congr
  intro c hc
  have hlt := List.mem_range.mp hc
  have hroot := hg.fat_lt
  have hword : fatEntry g d' c = fatEntry g d c := by
    rw [fatEntry, fatEntry, h.fat _ (Nat.le_add_right _ _) (by omega)]
  rw [hword]

end Deleted

/-! ## One life -/

/-- **The life of a file.** The calls succeed. Afterwards the FAT and the list of the files are as
before, there is room for another file, and there had been enough free clusters.

**Proof sketch.** The session that writes the file ends with the file on the disk, with a chain of
clusters that had been free; deleting it clears exactly the words of this chain. -/
theorem lifeCycle_restores (hs : s.Sound) (hflags : FlagsClear s) (hi : s.diskInfo = g)
    (hg : Geometry g) (hr : Room g s.disk z) (hvalid : ValidName (cString filename))
    (habs : Absent g s.disk (filenameUpper filename))
    (hfind : Run.Always call (fun t _ _ t' => Enough g s.disk chunks.flatten.length t t') s
      (lifeCycle filename chunks)) :
    ∃ s' f z', Run.exec call s (lifeCycle filename chunks) = some (lifeAnswers chunks, s') ∧
      s'.Sound ∧ FlagsClear s' ∧ s'.diskInfo = g ∧ Deleted g s.disk s'.disk f ∧
      Room g s'.disk z' ∧ fileNames s'.disk g.rootRegion z' = fileNames s.disk g.rootRegion z ∧
      chunks.flatten.length / 512 / g.sectorsPerCluster < (freeClusters g s.disk).length := by
  obtain ⟨s₁, f, e, l, hwrite, hfz, hst, hflags₁, -, heager, hlow⟩ :=
    writeSession_stored hs hflags hi hg hr.ends hvalid habs hfind.left
  obtain ⟨s₂, hdel, hcoh, hinfo, hdeleted⟩ := hst.delete (M := M) hg (heager ▸ Nat.succ_pos _)
  have hcall : call s₁ (.delete filename) = some (.delete (.ok ()), s₂) := by
    rw [call, hdel]
    rfl
  obtain ⟨z', hroom, hnames⟩ := hdeleted.room hr hst.placed hfz
  have hsub : l ⊆ freeClusters g s.disk := by
    intro c hc
    exact mem_freeClusters.mpr ⟨hlow c hc, hst.file.two_le c hc, hst.file.fresh c hc⟩
  have hcount : l.length ≤ (freeClusters g s.disk).length :=
    hst.file.nodup.length_le_of_subset hsub
  refine ⟨s₂, f, z', ?_, ⟨hcoh, by rw [hinfo]; exact hg.lt_sectorNumbers⟩,
    call_flagsClear hflags₁ hcall, hinfo, hdeleted, hroom, hnames, by omega⟩
  rw [lifeCycle, Run.exec_append hwrite, Run.exec_cons_of_some hcall]
  rfl

/-- **Any number of lives.** With enough free clusters for one file, the calls succeed every time.

**Proof sketch.** Induction on the number. The free clusters, the names and the room are as before
after every life. -/
theorem lifeCycles_restore (n : ℕ) (hs : s.Sound) (hflags : FlagsClear s) (hi : s.diskInfo = g)
    (hg : Geometry g) (hr : Room g s.disk z) (hvalid : ValidName (cString filename))
    (habs : Absent g s.disk (filenameUpper filename))
    (hcount : chunks.flatten.length / 512 / g.sectorsPerCluster <
      (freeClusters g s.disk).length) :
    ∃ s' z', Run.exec call s (List.replicate n (lifeCycle filename chunks)).flatten =
        some ((List.replicate n (lifeAnswers chunks)).flatten, s') ∧
      s'.Sound ∧ s'.diskInfo = g ∧
      (∀ k, g.fatRegion ≤ k → k < g.rootRegion → s'.disk k = s.disk k) ∧
      EndsAt g s'.disk z' ∧
      fileNames s'.disk g.rootRegion z' = fileNames s.disk g.rootRegion z := by
  induction n generalizing s z with
  | zero => exact ⟨s, z, rfl, hs, hi, fun _ _ _ => rfl, hr.ends, rfl⟩
  | succ n ih =>
    have henough : Run.Always call (fun t _ _ t' => Enough g s.disk chunks.flatten.length t t') s
        (lifeCycle filename chunks) := Run.Always.of_forall fun _ _ _ _ => .inr hcount
    obtain ⟨s₁, f, z₁, hexec, hs₁, hflags₁, hi₁, hdel, hr₁, hnames, -⟩ :=
      lifeCycle_restores hs hflags hi hg hr hvalid habs henough
    have habs₁ : Absent g s₁.disk (filenameUpper filename) := by
      rw [absent_iff hr₁.ends, hnames, ← absent_iff hr.ends]
      exact habs
    obtain ⟨s', z', hexec', hs', hi', hfat, hz', hnames'⟩ :=
      ih hs₁ hflags₁ hi₁ hr₁ habs₁ (by rw [hdel.freeClusters_eq hg]; exact hcount)
    refine ⟨s', z', ?_, hs', hi', fun k h₁ h₂ => (hfat k h₁ h₂).trans (hdel.fat k h₁ h₂), hz',
      hnames'.trans hnames⟩
    rw [List.replicate_succ, List.flatten_cons, Run.exec_append hexec, hexec',
      List.replicate_succ, List.flatten_cons]
    rfl

end

/-- **No cluster is lost over the life of a file.** Let the driver have been initialised and have
made any calls since, and let the disk be well-formed and not have the name. When every search for a
free cluster over one life finds one, the calls of any number of lives succeed, leave the FAT as it
was, and leave `file_entries` and `file_entry` with the answers that they had.

**Proof sketch.** One life leaves as many free clusters as it has found, so that the searches of all
lives find one (`lifeCycle_restores`, `lifeCycles_restore`). The names in the directory are the same
in front of a life and behind it, and these are all that the two listings look at. -/
theorem no_cluster_leak {M : Machine} {s₀ s : FileState} {calls : List FileCall}
    {answers : List FileAnswer} {filename : List UInt8} {chunks : List (List UInt8)} (n : ℕ)
    (hrun : Run.exec call (filesystemInit s₀) calls = some (answers, s))
    (hwf : WellFormed s.diskInfo s.disk) (hvalid : ValidName (cString filename))
    (habs : Absent s.diskInfo s.disk (filenameUpper filename))
    (hfind : Run.Always call (fun t _ _ t' => AllocationsFind s.diskInfo t t') s
      (lifeCycle filename chunks)) :
    ∃ s', Run.exec call s (List.replicate n (lifeCycle filename chunks)).flatten =
        some ((List.replicate n (lifeAnswers chunks)).flatten, s') ∧
      (∀ k, s.diskInfo.fatRegion ≤ k → k < s.diskInfo.rootRegion → s'.disk k = s.disk k) ∧
      (∃ m t t', fileEntries s = some (m, t) ∧ fileEntries s' = some (m, t')) ∧
      ∀ i, ∃ r t t', fileEntry s i = some (r, t) ∧ fileEntry s' i = some (r, t') := by
  obtain ⟨hs, -⟩ := run_sound hrun
  obtain ⟨z, hz, hlt⟩ := hwf.ends
  have hg := hwf.geometry
  have hr : Room s.diskInfo s.disk z := ⟨hz, .inl hlt⟩
  obtain ⟨-, -, -, -, -, -, -, -, -, -, hcount⟩ :=
    lifeCycle_restores hs (run_flagsClear hrun) rfl hg
    hr hvalid habs (hfind.mono fun _ _ _ _ => .inl)
  obtain ⟨s', z', hexec, hs', hi', hfat, hz', hnames⟩ :=
    lifeCycles_restore n hs (run_flagsClear hrun) rfl hg hr hvalid habs hcount
  refine ⟨s', hexec, hfat, ?_, fun i => ?_⟩
  · obtain ⟨t, ht⟩ := fileEntries_eq (M := M) hs hg hz
    obtain ⟨t', ht'⟩ := fileEntries_eq (M := M) hs' (hi' ▸ hg) (hi' ▸ hz')
    rw [hi', hnames] at ht'
    exact ⟨_, t, t', ht, ht'⟩
  · obtain ⟨t, ht⟩ := fileEntry_eq (M := M) i hs hg hz
    obtain ⟨t', ht'⟩ := fileEntry_eq (M := M) i hs' (hi' ▸ hg) (hi' ▸ hz')
    rw [hi', hnames] at ht'
    exact ⟨_, t, t', ht, ht'⟩

/-! ## A small disk -/

section

attribute [local instance] Machine.linked

/-- Two lives of a file on a small disk. -/
theorem no_cluster_leak_twice :
    ∃ s', Run.exec call smallState (lifeCycle nameAB [[1], [2]] ++ lifeCycle nameAB [[1], [2]]) =
        some (lifeAnswers [[1], [2]] ++ lifeAnswers [[1], [2]], s') ∧
      (∀ k, 1 ≤ k → k < 2 → s'.disk k = smallState.disk k) ∧
      (∃ m t t', fileEntries smallState = some (m, t) ∧ fileEntries s' = some (m, t')) ∧
      ∀ i, ∃ r t t', fileEntry smallState i = some (r, t) ∧ fileEntry s' i = some (r, t') := by
  have hwf : WellFormed smallState.diskInfo smallState.disk :=
    wellFormed_formattedDisk (by decide) (by decide) (by decide) (by decide) (by decide)
      (by decide)
  have habs : Absent smallState.diskInfo smallState.disk (filenameUpper nameAB) := fun i hi =>
    absurd hi (not_isFile_formattedDisk (by decide) (by decide) (by decide) (by decide))
  have hfind : Run.Always call (fun t _ _ t' => AllocationsFind smallState.diskInfo t t') smallState
      (lifeCycle nameAB [[1], [2]]) := by
    apply Run.Always.of_check (p := fun t _ _ t' => staysFree smallState.diskInfo 255 t t')
    · intro _ _ _ _
      exact AllocationsFind.of_staysFree (by decide) (by decide)
    · decide +kernel
  exact no_cluster_leak 2
    (show Run.exec call (filesystemInit (.zeroed (formattedDisk 1 1 1))) [] = _ from rfl) hwf
    validName_nameAB habs hfind

end

end Z80OS
