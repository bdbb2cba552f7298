import Z80OS.File.Isolation

set_option relaxedAutoImplicit false
set_option autoImplicit false

/-!
# Deleting a file

`file_delete` walks the chain of a file, clears the word of each cluster just after reading it, and
marks the entry of the file as free. A file that has been created and deleted again leaves the FAT
as it was, and the root directory as it was up to one entry that can be taken.

## Main definitions

* `Z80OS.Cleared` — the words of a chain have been cleared.
* `Z80OS.Deleted` — a file has been created and deleted.

## Main results

* `Z80OS.deallocateChain_cleared` — the walk along a chain.
* `Z80OS.Stored.delete` — deleting a file that has been created.
-/

namespace Z80OS

/-- Between the disks `d` and `d'` the words of the clusters `l` have been cleared. -/
structure Cleared (g : DiskInfo) (d d' : Disk) (l : List ℕ) : Prop where
  free : ∀ c ∈ l, fatEntry g d' c = clusterFree
  frame : ∀ k i, (∀ c ∈ l, ¬ InWord g c k i) → (d' k).get i = (d k).get i

/-- Between the disks `d` and `d'` a file with the `f`-th entry has been created and deleted. -/
structure Deleted (g : DiskInfo) (d d' : Disk) (f : ℕ) : Prop where
  fat : ∀ k, g.fatRegion ≤ k → k < g.rootRegion → d' k = d k
  entry : ∀ i < slots g, i ≠ f → ∀ j < 32, entryAt d' g.rootRegion i j = entryAt d g.rootRegion i j
  mark : entryAt d' g.rootRegion f 0 = 0xe5

section

variable {M : Machine} {g : DiskInfo} {d d₀ d' : Disk} {a c f i k : ℕ} {e : DirectoryEntry}
  {l : List ℕ} {data filename : List UInt8} {s : FileState}

/-! ## The chain -/

/-- Clearing a word and then others. -/
theorem Cleared.cons (h : Cleared g (linked g d c clusterFree) d' l) (hc : c ∉ l) :
    Cleared g d d' (c :: l) := by
  refine ⟨fun b hb => ?_, fun k i hk => ?_⟩
  · rcases List.mem_cons.mp hb with rfl | hb
    · have hkeep : fatEntry g d' b = fatEntry g (linked g d b clusterFree) b :=
        fatEntry_congr fun k i hw => h.frame k i fun b' hb' hw' => hc (hw.inj hw' ▸ hb')
      rw [hkeep, fatEntry_linked (by decide), Function.update_self]
    · exact h.free b hb
  · rw [h.frame k i fun b hb => hk b (List.mem_cons_of_mem _ hb),
      linked_get_of_not (hk c List.mem_cons_self)]

/-- **The walk along a chain** clears its words, and nothing else.

**Proof sketch.** Induction on the chain. The word of the first cluster is read and cleared; the
rest of the chain does not contain that cluster, so it is still a chain. -/
theorem deallocateChain_cleared (hg : Geometry g) (hs : s.Coherent) (hi : s.diskInfo = g)
    (hl : LinkTable.Chain (fatEntry g s.disk) clusterEof a l) (hu : ∀ c ∈ l, HasWord g c)
    (hk : l.length < k) :
    ∃ s', deallocateChain k s a = some s' ∧ s'.Coherent ∧ s'.diskInfo = g ∧
      Cleared g s.disk s'.disk l := by
  induction l generalizing s a k with
  | nil =>
    obtain ⟨k, rfl⟩ : ∃ k', k = k' + 1 := ⟨k - 1, by simp at hk; omega⟩
    have ha : a = clusterEof := hl
    exact ⟨s, by rw [deallocateChain, if_pos ha], hs, hi, by simp, fun _ _ _ => rfl⟩
  | cons c l ih =>
    obtain ⟨k, rfl⟩ : ∃ k', k = k' + 1 := ⟨k - 1, by simp at hk; omega⟩
    have hc := hu c List.mem_cons_self
    have hnd := (List.nodup_cons.mp hl.nodup).1
    obtain ⟨rfl, hne, hrest⟩ := hl
    subst hi
    have hdisk : (s.link a clusterFree).disk = linked s.diskInfo s.disk a clusterFree :=
      link_disk hg hc
    have hrest' : LinkTable.Chain (fatEntry s.diskInfo (s.link a clusterFree).disk) clusterEof
        (fatEntry s.diskInfo s.disk a) l := by
      refine hrest.congr fun b hb => ?_
      rw [hdisk, fatEntry_linked (by decide), Function.update_of_ne]
      rintro rfl
      exact hnd hb
    obtain ⟨s', hs', hcoh, hinfo, hcl⟩ := ih (s := s.link a clusterFree) (k := k)
      FileState.coherent_link rfl hrest' (fun b hb => hu b (List.mem_cons_of_mem _ hb))
      (by simpa using hk)
    refine ⟨s', ?_, hcoh, hinfo, (hdisk ▸ hcl).cons hnd⟩
    rw [deallocateChain, if_neg hne, fatNextCluster_eq hs]
    simp only [tempWord_fatEntry hg hc, fatDeallocateCluster,
      fatSetCluster_eq_link FileState.coherent_cached]
    exact hs'

/-! ## The file -/

/-- Between the disks `d` and `d'` the file with the `f`-th entry and the clusters `l` has been
removed: the words of its clusters are `0`, the first byte of its entry is the mark of a free one,
and every other byte of the disk is the same. -/
structure Removed (g : DiskInfo) (d d' : Disk) (f : ℕ) (l : List ℕ) : Prop where
  free : ∀ c ∈ l, fatEntry g d' c = clusterFree
  mark : entryAt d' g.rootRegion f 0 = 0xe5
  frame : ∀ k i, (∀ c ∈ l, ¬ InWord g c k i) →
    ¬ (k = entrySector g.rootRegion f ∧ i = entryOffset f) → (d' k).get i = (d k).get i

/-- Marking the entry of a file whose words have been cleared removes it. -/
theorem Cleared.removed (hg : Geometry g) (h : Cleared g d d' l) (hf : f < slots g)
    (hl : ∀ c ∈ l, HasWord g c) : Removed g d (withEntry g d' f [0xe5]) f l := by
  refine ⟨fun c hc => ?_, ?_, fun k i hw hmark => ?_⟩
  · rw [← h.free c hc]
    exact fatEntry_congr fun k i hw => withEntry_get_of_not hg hf (by simp)
      (hw.not_inEntry (hl c hc).toInRange)
  · rw [entryAt_withEntry (by decide)]
    rfl
  · rw [← h.frame k i hw]
    refine withEntry_get_of_ne fun hk => ?_
    have : i ≠ entryOffset f := fun hi => hmark ⟨hk, hi⟩
    rw [List.length_singleton]
    omega

/-- Distinct clusters below `32768` are fewer than the turns that are followed. -/
theorem length_lt_turns (hnd : l.Nodup) (hl : ∀ c ∈ l, HasWord g c) : l.length < M.turns := by
  have hsub : l ⊆ List.range 32768 := fun c hc => by
    have := (hl c hc).lt
    rw [List.mem_range]
    omega
  have hle := hnd.length_le_of_subset hsub
  have hturns := M.turns_ge
  rw [List.length_range] at hle
  omega

/-- **Deleting** the file whose entry a lookup of its name stops at.

**Proof sketch.** The search finds the entry, and the chain from its cluster is freed
(`deallocateChain_cleared`). That writes the FAT alone, so that the second search stops at the same
entry and marks it (`filesystemMarkDirectoryEntryFree_found`). -/
theorem fileDelete_removed (hg : Geometry g) (hs : s.Sound) (hi : s.diskInfo = g)
    (hf : f < slots g) (hstop : s.StopsAt (filenameUpper filename) f) (h0 : s.rootEntry f 0 ≠ 0)
    (hchain : HasChain g s.disk f l) (hl : ∀ c ∈ l, HasWord g c) :
    ∃ s', fileDelete s filename = some (.ok (), s') ∧ s'.Coherent ∧ s'.diskInfo = g ∧
      Removed g s.disk s'.disk f l := by
  subst hi
  have hturns : f / 16 < M.turns := slot_turns hg hf
  have hget := filesystemGetDirectoryEntry_found (M := M) hs hstop h0 hturns
  have hlen : l.length < M.turns := length_lt_turns hchain.nodup hl
  obtain ⟨s₁, hfree, hcoh, hinfo, hcl⟩ := deallocateChain_cleared (M := M) (s := s.lookedAt f)
    (a := (DirectoryEntry.ofBytes (s.rootEntry f)).startingCluster) hg FileState.coherent_cached rfl
    hchain hl hlen
  -- the entries are still the same
  have hkeep : ∀ i ≤ f, ∀ j < 32, s₁.rootEntry i j = s.rootEntry i j := by
    intro i hi j hj
    rw [FileState.rootEntry, FileState.rootEntry, hinfo]
    exact entryAt_congr hg (lt_of_le_of_lt hi hf) (fun k b hk => hcl.frame k b
      fun c hc hw => hw.not_inEntry (hl c hc).toInRange hk) hj
  have hstop₁ : s₁.StopsAt (filenameUpper filename) f := by
    refine ⟨fun i hi => ?_, fun hp => hstop.2 ?_⟩
    · exact (passes_congr fun j hj => hkeep i hi.le j (by omega)).mpr (hstop.1 i hi)
    · exact (passes_congr fun j hj => hkeep f (le_refl f) j (by omega)).mp hp
  have hmark := filesystemMarkDirectoryEntryFree_found (M := M)
    ⟨hcoh, by rw [hinfo]; exact hg.lt_sectorNumbers⟩ hstop₁
    (by rw [hkeep f (le_refl f) 0 (by decide)]; exact h0) hturns
  refine ⟨s₁.storeEntry f [0xe5], ?_, FileState.coherent_store, hinfo, ?_⟩
  · unfold fileDelete
    simp only [hget, hfree, hmark]
  · rw [storeEntry_disk, hinfo]
    exact hcl.removed hg hf hl

/-- The file with the `i`-th entry is one that a lookup can come to: there is no end marker in front
of it. -/
structure LiveFile (g : DiskInfo) (d : Disk) (i : ℕ) : Prop extends IsFile g d i where
  before : ∀ j < i, entryAt d g.rootRegion j 0 ≠ 0

/-- **Deleting frees exactly the file.** On a disk whose live files have distinct names, the
deletion of a file with the clusters `l` succeeds and removes that file: it makes the words of its
clusters `0`, marks its entry, and changes no other byte of the disk.

**Proof sketch.** The lookup stops at the entry, since the files in front of it have other names.
The walk along the chain clears its words and leaves the root directory, so the second lookup stops
there as well. -/
theorem file_delete_exact (hs : s.Coherent) (hg : Geometry s.diskInfo)
    (hdistinct : ∀ i j, LiveFile s.diskInfo s.disk i → LiveFile s.diskInfo s.disk j →
      fileName s.diskInfo s.disk i = fileName s.diskInfo s.disk j → i = j)
    (hf : LiveFile s.diskInfo s.disk f)
    (hname : filenameUpper filename = fileName s.diskInfo s.disk f)
    (hchain : HasChain s.diskInfo s.disk f l) (hl : ∀ c ∈ l, HasWord s.diskInfo c) :
    ∃ s', fileDelete s filename = some (.ok (), s') ∧
      Removed s.diskInfo s.disk s'.disk f l := by
  have hstop : s.StopsAt (filenameUpper filename) f := by
    refine ⟨fun i hi => ⟨hf.before i hi, fun hfile hsame => ?_⟩, fun hp => ?_⟩
    · have hlive : LiveFile s.diskInfo s.disk i :=
        ⟨⟨hi.trans hf.lt, hf.before i hi, hfile⟩, fun j hj => hf.before j (hj.trans hi)⟩
      exact hi.ne (hdistinct i f hlive hf (hsame.trans hname))
    · exact hp.2 hf.file hname.symm
  obtain ⟨s', hdel, -, -, hremoved⟩ := fileDelete_removed (M := M) hg ⟨hs, hg.lt_sectorNumbers⟩ rfl
    hf.lt hstop hf.used hchain hl
  exact ⟨s', hdel, hremoved⟩

end

/-! ## A small disk -/

section

attribute [local instance] Machine.linked

/-- The initialised driver with a disk on which the file `A.B` has the clusters 2 and 3. -/
def fileState : FileState := filesystemInit
  (.zeroed (withEntry smallState.diskInfo chainDisk 0 (newEntry [0x41] [0x42] 2).toBytes))

/-- Deleting the file of the small disk. -/
theorem file_delete_exact_nameAB :
    ∃ s', fileDelete fileState nameAB = some (.ok (), s') ∧
      Removed fileState.diskInfo fileState.disk s'.disk 0 [2, 3] := by
  have hwf : WellFormed (bootDiskInfo (bootSector 1 1 1)) (formattedDisk 1 1 1) :=
    wellFormed_formattedDisk (by decide) (by decide) (by decide) (by decide) (by decide) (by decide)
  have hgeom : Geometry fileState.diskInfo := hwf.geometry
  have hend : entryAt fileState.disk fileState.diskInfo.rootRegion 1 0 = 0 := by decide +kernel
  have honly : ∀ i, LiveFile fileState.diskInfo fileState.disk i → i = 0 := by
    intro i hi
    rcases Nat.lt_trichotomy i 1 with hlt | rfl | hgt
    · omega
    · exact absurd hend hi.used
    · exact absurd hend (hi.before 1 hgt)
  have hlive : LiveFile fileState.diskInfo fileState.disk 0 :=
    ⟨⟨by decide +kernel, by decide +kernel, by decide +kernel⟩,
      fun j hj => absurd hj (Nat.not_lt_zero j)⟩
  exact file_delete_exact rfl hgeom (fun i j hi hj _ => (honly i hi).trans (honly j hj).symm) hlive
    (by decide +kernel)
    ⟨by decide +kernel, by decide, by decide +kernel, by decide,
      show fatEntry fileState.diskInfo fileState.disk 3 = clusterEof by decide +kernel⟩
    fun c hc => (usable_chainDisk c hc).hasWord

end

/-! ## A file that has been created -/

section

variable {M : Machine} {g : DiskInfo} {d d₀ d' : Disk} {a c f i k : ℕ} {e : DirectoryEntry}
  {l : List ℕ} {data filename : List UInt8} {s : FileState}

/-- The bytes of a free word are zero. -/
theorem get_of_free (h : fatEntry g d c = clusterFree) (hw : InWord g c k i) :
    (d k).get i = 0 := by
  obtain ⟨rfl, hle, hlt⟩ := hw
  have hlo := ((d (g.fatRegion + 2 * c / 512)).get (2 * c % 512)).toNat_lt
  simp only [fatEntry, Sector.word, word16, clusterFree] at h
  obtain rfl | rfl : i = 2 * c % 512 ∨ i = 2 * c % 512 + 1 := by omega
  all_goals
    apply UInt8.toNat.inj
    rw [UInt8.toNat_zero]
    omega

/-- The disk after a new file has been removed. -/
theorem NewFile.deleted (hg : Geometry g) (h : NewFile g d₀ d f e l data)
    (hr : Removed g d d' f l) : Deleted g d₀ d' f := by
  have hmark : ∀ {k i}, ¬ InEntry g f k i →
      ¬ (k = entrySector g.rootRegion f ∧ i = entryOffset f) := by
    rintro k i hent ⟨rfl, rfl⟩
    exact hent ⟨entrySector_eq hg h.slot, le_refl _, Nat.lt_add_of_pos_right (by decide)⟩
  refine ⟨fun k hfat hroot => Sector.ext_get fun i _ => ?_, fun i hi hne j hj => ?_, hr.mark⟩
  · by_cases hw : ∃ c ∈ l, InWord g c k i
    · -- a word of the file had been free before
      obtain ⟨c, hcl, hw⟩ := hw
      rw [get_of_free (hr.free c hcl) hw, get_of_free (h.fresh c hcl) hw]
    · rw [hr.frame k i (fun c hcl hw' => hw ⟨c, hcl, hw'⟩)
        (hmark fun hent => absurd hent.root_le (by omega))]
      refine h.frame k i ?_
      rintro (hw' | hent | ⟨c, -, hcl⟩)
      · exact hw hw'
      · exact absurd hent.root_le (by omega)
      · have := hcl.data_le
        have := hg.root_lt
        omega
  · rw [← h.entry_of_ne hg hi hne hj]
    refine entryAt_congr hg hi
      (fun k b hk => hr.frame k b ?_ (hmark fun hent => hne (hk.inj hent))) hj
    exact fun c hcl hw => hw.not_inEntry (h.usable c hcl).toInRange hk

/-- **Deleting a file that has been created.** -/
theorem Stored.delete (hg : Geometry g) (h : Stored g d₀ f (filenameUpper filename) e l data s)
    (hpos : 0 < l.length) :
    ∃ s', fileDelete s filename = some (.ok (), s') ∧ s'.Coherent ∧ s'.diskInfo = g ∧
      Deleted g d₀ s'.disk f := by
  obtain ⟨hstop, h0⟩ := h.stopsAt hg
  have hentry : ∀ j < 32, s.rootEntry f j = e.toBytes.getD j 0 := fun j hj => by
    rw [FileState.rootEntry, h.diskInfo]
    exact h.file.entry j hj
  have hstart : (DirectoryEntry.ofBytes (s.rootEntry f)).startingCluster = e.startingCluster := by
    rw [DirectoryEntry.ofBytes_startingCluster hentry,
      Nat.mod_eq_of_lt (h.file.startingCluster_lt hpos)]
  have hchain : HasChain g s.disk f l := by
    have hchain := hstart ▸ h.file.chain
    rwa [FileState.rootEntry, h.diskInfo] at hchain
  obtain ⟨s', hdel, hcoh, hinfo, hremoved⟩ := fileDelete_removed (M := M) hg (h.sound hg) h.diskInfo
    h.placed.lt hstop h0 hchain fun c hc => (h.file.usable c hc).hasWord
  exact ⟨s', hdel, hcoh, hinfo, h.file.deleted hg hremoved⟩

end

end Z80OS
