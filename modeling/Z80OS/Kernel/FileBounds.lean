import Z80OS.File.Overrun
import Z80OS.File.Positions
import Z80OS.Kernel.FileAccesses

set_option relaxedAutoImplicit false
set_option autoImplicit false

/-!
# The bounds of the file driver

On a disk with sectors of 512 bytes every index that the driver computes from a position, an offset
of an entry or a cluster number is inside of its table. What remains are the numbers that
`file_close` gets and the search for a free cluster, which reads the two bytes behind the buffer
when none of the clusters 2 to 255 is free.

## Main definitions

* `Z80OS.SearchInside` — a search for a free cluster stays in the buffer.

## Main results

* `Z80OS.searchAccesses_inBounds_iff` — when it does.
* `Z80OS.fileVisits_inBounds_iff` — when all accesses of a call are inside.
-/

namespace Z80OS

/-- A search for a free cluster stays in the buffer: one of the clusters 2 to 255 is free, or the
root directory begins where the FAT does, so that the search ends with its first word. -/
def SearchInside (s : FileState) : Prop :=
  SomeFree s.diskInfo s.disk ∨ s.diskInfo.fatRegion = s.diskInfo.rootRegion

instance (g : DiskInfo) (d : Disk) : Decidable (SomeFree g d) :=
  decidable_of_iff (∃ c ∈ List.range 256, 2 ≤ c ∧ fatEntry g d c = clusterFree)
    ⟨fun ⟨c, hc, h⟩ => ⟨c, h.1, List.mem_range.mp hc, h.2⟩,
      fun ⟨c, h2, hc, h⟩ => ⟨c, List.mem_range.mpr hc, h2, h⟩⟩

instance (s : FileState) : Decidable (SearchInside s) := inferInstanceAs (Decidable (_ ∨ _))

/-- The access is inside, or the search starts in a state with the property. -/
def Visit.Fine (P : FileState → Prop) : Visit → Prop
  | .access a => a.Inside Table.size
  | .search s => P s

/-- All visits are fine. -/
def Fine (P : FileState → Prop) (l : List Visit) : Prop := ∀ v ∈ l, v.Fine P

/-- A state with a coherent cache and a given geometry. -/
def CoherentOn (g : DiskInfo) (s : FileState) : Prop := s.Coherent ∧ s.diskInfo = g

section

variable {M : Machine} {P : FileState → Prop} {g : DiskInfo} {s s' : FileState}
  {l l' : List Visit} {v : Visit}
  {t : Sector} {fs : List ℕ} {filename data : List UInt8} {fd : Fin fileLimit}
  {f n k i sector cluster : ℕ} {file : FileDescriptor}

/-- No visits are fine. -/
@[simp] theorem fine_nil : Fine P [] := fun _ h => absurd h List.not_mem_nil

/-- Visits are fine when the first one is, and the other ones are. -/
@[simp] theorem fine_cons : Fine P (v :: l) ↔ v.Fine P ∧ Fine P l := List.forall_mem_cons

/-- Visits are fine when both parts are. -/
@[simp] theorem fine_append : Fine P (l ++ l') ↔ Fine P l ∧ Fine P l' := List.forall_mem_append

/-- A byte of the buffer below 512 is inside. -/
theorem fine_temp (h : i < 512) : (visitTemp i).Fine P :=
  ⟨Int.natCast_nonneg _, Int.ofNat_lt.mpr h⟩

/-- An entry of a descriptor is inside. -/
theorem fine_fd : (visitFd (fd : ℕ)).Fine P := ⟨Int.natCast_nonneg _, Int.ofNat_lt.mpr fd.isLt⟩

/-- Bytes of the buffer are inside when they end in it. -/
theorem fine_bytes (h : f + n ≤ 512) : Fine P (visitBytes f n) := by
  intro v hv
  obtain ⟨i, hi, rfl⟩ := List.mem_map.mp hv
  exact fine_temp (by have := List.mem_range.mp hi; omega)

/-! ## The root directory -/

/-- The entries of a sector are inside of it. -/
theorem entryOffsets_le (h : f ∈ entryOffsets) : f + 32 ≤ 512 := by
  obtain ⟨i, hi, rfl⟩ := List.mem_map.mp h
  have := List.mem_range.mp hi
  omega

/-- A scan of whole entries is inside of the buffer. -/
theorem scanVisits_fine (h : ∀ f ∈ fs, f + 32 ≤ 512) : Fine P (scanVisits t filename fs) := by
  induction fs with
  | nil => exact fine_nil
  | cons f fs ih =>
    obtain ⟨hf, hfs⟩ := List.forall_mem_cons.mp h
    have hrest := ih hfs
    rw [scanVisits, fine_cons]
    refine ⟨fine_temp (by omega), ?_⟩
    split_ifs
    · exact fine_nil
    · exact hrest
    · exact fine_cons.mpr ⟨fine_temp (by omega), hrest⟩
    all_goals
      rw [fine_cons, fine_append]
    · exact ⟨fine_temp (by omega), fine_bytes (by omega), fine_nil⟩
    · exact ⟨fine_temp (by omega), fine_bytes (by omega), hrest⟩

/-- A search for a free entry among whole ones is inside of the buffer. -/
theorem takeVisits_fine (h : ∀ f ∈ fs, f + 32 ≤ 512) : Fine P (takeVisits t fs) := by
  induction fs with
  | nil => exact fine_nil
  | cons f fs ih =>
    obtain ⟨hf, hfs⟩ := List.forall_mem_cons.mp h
    rw [takeVisits, fine_cons]
    refine ⟨fine_temp (by omega), ?_⟩
    split_ifs
    · exact fine_bytes hf
    · exact ih hfs

/-- A count of whole entries is inside of the buffer. -/
theorem countVisits_fine (h : ∀ f ∈ fs, f + 32 ≤ 512) : Fine P (countVisits t fs) := by
  induction fs with
  | nil => exact fine_nil
  | cons f fs ih =>
    obtain ⟨hf, hfs⟩ := List.forall_mem_cons.mp h
    rw [countVisits, fine_cons]
    refine ⟨fine_temp (by omega), ?_⟩
    split_ifs
    · exact fine_nil
    · exact ih hfs
    · exact fine_cons.mpr ⟨fine_temp (by omega), ih hfs⟩

/-- A search for an entry by its number, among whole ones, is inside of the buffer. -/
theorem nthVisits_fine {entry : ℕ} (h : ∀ f ∈ fs, f + 32 ≤ 512) :
    Fine P (nthVisits t entry fs n) := by
  induction fs generalizing n with
  | nil => exact fine_nil
  | cons f fs ih =>
    obtain ⟨hf, hfs⟩ := List.forall_mem_cons.mp h
    rw [nthVisits, fine_cons]
    refine ⟨fine_temp (by omega), ?_⟩
    split_ifs
    · exact fine_nil
    · exact ih hfs
    all_goals refine fine_cons.mpr ⟨fine_temp (by omega), ?_⟩
    · exact ih hfs
    · exact fine_bytes (by omega)
    · exact ih hfs

/-- The search through the directory is inside of the buffer. -/
theorem searchVisits_fine : Fine P (searchVisits filename k s sector) := by
  induction k generalizing s sector with
  | zero => exact fine_nil
  | succ k ih =>
    rw [searchVisits, fine_append]
    refine ⟨scanVisits_fine fun _ => entryOffsets_le, ?_⟩
    split
    · exact ih
    · exact fine_nil

/-- A scan stops at one of the offsets. -/
theorem scanSector_mem (h : scanSector t filename fs = .found f) : f ∈ fs := by
  induction fs with
  | nil => simp [scanSector] at h
  | cons f' fs ih =>
    simp only [scanSector] at h
    split_ifs at h
    · exact List.mem_cons_of_mem _ (ih h)
    · rw [← Scan.found.inj h]
      exact List.mem_cons_self
    · exact List.mem_cons_of_mem _ (ih h)

/-- An entry that is found is a whole one. -/
theorem searchSectors_mem (h : searchSectors filename k s sector = some (some (i, f), s')) :
    f ∈ entryOffsets := by
  induction k generalizing s sector with
  | zero => simp [searchSectors] at h
  | succ k ih =>
    simp only [searchSectors] at h
    split at h
    · simp at h
    · rename_i hscan
      simp only [Option.some.injEq, Prod.mk.injEq] at h
      rw [← h.1.2]
      exact scanSector_mem hscan
    · exact ih h

/-- The lookup of an entry, of which at most 32 bytes are used, is inside of the buffer. -/
theorem lookupVisits_fine (hn : n ≤ 32) : Fine P (lookupVisits s filename n) := by
  rw [lookupVisits, fine_append]
  refine ⟨searchVisits_fine, ?_⟩
  split
  · rename_i hsearch
    have hf := entryOffsets_le (searchSectors_mem hsearch)
    exact fine_bytes (by omega)
  · exact fine_nil

/-- The creation of an entry is inside of the buffer. -/
theorem createVisits_fine : Fine P (createVisits k s sector) := by
  induction k generalizing s sector with
  | zero => exact fine_nil
  | succ k ih =>
    rw [createVisits, fine_append]
    refine ⟨takeVisits_fine fun _ => entryOffsets_le, ?_⟩
    split
    · exact fine_nil
    · simp only
      split_ifs
      · exact fine_nil
      · exact ih

/-- The count of the entries is inside of the buffer. -/
theorem entriesVisits_fine : Fine P (entriesVisits k s sector n) := by
  induction k generalizing s sector n with
  | zero => exact fine_nil
  | succ k ih =>
    rw [entriesVisits]
    split_ifs
    · exact fine_nil
    rw [fine_append]
    refine ⟨countVisits_fine fun _ => entryOffsets_le, ?_⟩
    split
    · exact fine_nil
    · exact ih

/-- The search for an entry by its number is inside of the buffer. -/
theorem entryVisits_fine {entry : ℕ} : Fine P (entryVisits entry k s sector n) := by
  induction k generalizing s sector n with
  | zero => exact fine_nil
  | succ k ih =>
    rw [entryVisits]
    split_ifs
    · exact fine_nil
    rw [fine_append]
    refine ⟨nthVisits_fine fun _ => entryOffsets_le, ?_⟩
    split
    · exact ih
    · exact fine_nil

/-! ## The FAT -/

/-- The word of a cluster is inside of the buffer. -/
theorem wordVisits_fine (hbps : s.diskInfo.bytesPerSector = 512) :
    Fine P (wordVisits s cluster) := by
  refine fine_bytes ?_
  rw [fatOffsetOf, hbps]
  omega

/-- A word of the first sector of the FAT. -/
theorem tempWord_first (hi : i < 256) :
    (s.cached s.diskInfo.fatRegion).tempWord (i * 2) = fatEntry s.diskInfo s.disk i := by
  have h := tempWord_of_index (M := M) (g := s.diskInfo) (s := s) (k := 0) hi
  rwa [Nat.add_zero, Nat.mul_zero, Nat.zero_add] at h

/-- A search stays in the buffer when there is a free cluster ahead in the first sector. -/
theorem searchAccesses_inBounds_of_free {c : ℕ} (hs : s.Coherent)
    (hbps : s.diskInfo.bytesPerSector = 512) (hi : i ≤ c) (hc : c < 256)
    (hfree : fatEntry s.diskInfo s.disk c = clusterFree) :
    Accesses.InBounds Table.size (searchAccesses k s i s.diskInfo.fatRegion) := by
  induction k generalizing s i with
  | zero => exact Accesses.inBounds_nil
  | succ k ih =>
    simp only [searchAccesses, readSectorCached_eq hs, tempWord_first (i := i) (by omega),
      Accesses.inBounds_cons, FileState.cached_diskInfo, hbps]
    refine ⟨⟨Int.natCast_nonneg _, Int.ofNat_lt.mpr ?_⟩,
      ⟨Int.natCast_nonneg _, Int.ofNat_lt.mpr ?_⟩,
      ?_⟩
    · show i * 2 < 512
      omega
    · show i * 2 + 1 < 512
      omega
    split_ifs with hzero hpast hroot hroot'
    · exact Accesses.inBounds_nil
    · omega
    · omega
    · exact Accesses.inBounds_nil
    · have hne : i ≠ c := fun h => hzero (h ▸ hfree)
      exact ih (s := s.cached s.diskInfo.fatRegion) FileState.coherent_cached hbps (by omega) hfree

/-- A search that finds no free cluster in the first sector looks behind the buffer. -/
theorem not_searchAccesses_inBounds (hs : s.Coherent) (hbps : s.diskInfo.bytesPerSector = 512)
    (hroot : s.diskInfo.fatRegion ≠ s.diskInfo.rootRegion)
    (hused : ∀ c, i ≤ c → c < 256 → fatEntry s.diskInfo s.disk c ≠ clusterFree) (hi : i ≤ 256)
    (hk : 256 < k + i) :
    ¬ Accesses.InBounds Table.size (searchAccesses k s i s.diskInfo.fatRegion) := by
  induction k generalizing s i with
  | zero => omega
  | succ k ih =>
    simp only [searchAccesses, readSectorCached_eq hs, Accesses.inBounds_cons,
      FileState.cached_diskInfo, hbps]
    rintro ⟨⟨-, hlt⟩, -, hrest⟩
    have hlt : i * 2 < 512 := Int.ofNat_lt.mp hlt
    have hpast : ¬ i + 1 > 512 / 2 := by omega
    rw [tempWord_first (by omega), if_neg (hused i (le_refl i) (by omega))] at hrest
    simp only [if_neg hpast, if_neg hroot] at hrest
    exact ih (s := s.cached s.diskInfo.fatRegion) FileState.coherent_cached hbps hroot
      (fun c hc => hused c (by omega)) (by omega) (by omega) hrest

/-- **A search for a free cluster** stays in the buffer if and only if one of the clusters 2 to 255
is free, as long as there is a FAT at all. -/
theorem searchAccesses_inBounds_iff (hs : s.Coherent) (hbps : s.diskInfo.bytesPerSector = 512) :
    Accesses.InBounds Table.size (Visit.search s).accesses ↔ SearchInside s := by
  constructor
  · intro h
    by_contra hnot
    rw [SearchInside, not_or] at hnot
    have hturns := M.turns_ge
    refine not_searchAccesses_inBounds hs hbps hnot.2 (fun c h2 hc h0 => hnot.1 ⟨c, h2, hc, h0⟩)
      (by decide) (by omega) h
  · rintro (⟨c, h2, hc, hfree⟩ | hroot)
    · exact searchAccesses_inBounds_of_free hs hbps h2 hc hfree
    · have hone :
          ∀ k, Accesses.InBounds Table.size (searchAccesses k s 2 s.diskInfo.fatRegion) := by
        intro k
        cases k with
        | zero => exact Accesses.inBounds_nil
        | succ k =>
          simp only [searchAccesses, readSectorCached_eq hs, Accesses.inBounds_cons,
            FileState.cached_diskInfo, hbps]
          refine ⟨by decide, by decide, ?_⟩
          split_ifs <;> first | exact Accesses.inBounds_nil | omega
      exact hone _

/-- The allocation of a first cluster is inside of the buffer, and searches where it may. -/
theorem allocateStartVisits_fine (h : P s) (hbps : s.diskInfo.bytesPerSector = 512) :
    Fine P (allocateStartVisits s) := by
  rw [allocateStartVisits, fine_cons]
  refine ⟨h, ?_⟩
  split_ifs
  · exact fine_nil
  · exact wordVisits_fine hbps

/-- The allocation of a further cluster is inside of the buffer, and searches where it may. -/
theorem allocateVisits_fine (h : P s) (hbps : s.diskInfo.bytesPerSector = 512) :
    Fine P (allocateVisits s cluster) := by
  rw [allocateVisits, fine_cons]
  refine ⟨h, ?_⟩
  split_ifs
  · exact fine_nil
  · exact fine_append.mpr ⟨wordVisits_fine hbps, wordVisits_fine hbps⟩

/-- The release of a chain is inside of the buffer. -/
theorem deallocateVisits_fine (hbps : s.diskInfo.bytesPerSector = 512) :
    Fine P (deallocateVisits k s cluster) := by
  induction k generalizing s cluster with
  | zero => exact fine_nil
  | succ k ih =>
    rw [deallocateVisits]
    split_ifs
    · exact fine_nil
    have hnext : (fatNextCluster s cluster).2.diskInfo.bytesPerSector = 512 := by
      rw [fatNextCluster_frame.diskInfo, hbps]
    have hdealloc : (fatDeallocateCluster (fatNextCluster s cluster).2
        cluster).diskInfo.bytesPerSector = 512 := by
      rw [fatDeallocateCluster, fatSetCluster_frame.diskInfo, hnext]
    exact fine_append.mpr
      ⟨fine_append.mpr ⟨wordVisits_fine hbps, wordVisits_fine hnext⟩, ih hdealloc⟩

/-! ## Calls -/

/-- The search for a free descriptor is inside of the table. -/
theorem assignFdVisits_fine : Fine P (assignFdVisits s) := by
  intro v hv
  obtain ⟨fd, -, rfl⟩ := List.mem_map.mp hv
  exact fine_fd

/-- Opening for writing is inside of the buffer and the table. -/
theorem openWriteVisits_fine (h : s.Fit g) : Fine (CoherentOn g) (openWriteVisits s fd) := by
  rw [openWriteVisits, fine_append]
  refine ⟨lookupVisits_fine (le_refl 32), ?_⟩
  split
  · rename_i hget
    have hfit := h.getEntry hget
    rw [fine_append]
    refine ⟨allocateStartVisits_fine ⟨hfit.coherent, hfit.diskInfo⟩ hfit.bytesPerSector, ?_⟩
    simp only
    split_ifs
    · exact fine_nil
    · exact fine_nil
    · exact createVisits_fine
  · exact fine_nil

/-- Opening is inside of the buffer and the table. -/
theorem openVisits_fine {mode : UInt8} (h : s.Fit g) :
    Fine (CoherentOn g) (openVisits s filename mode) := by
  rw [openVisits, fine_append]
  refine ⟨assignFdVisits_fine, ?_⟩
  split
  · exact fine_nil
  rw [fine_cons]
  refine ⟨fine_fd, ?_⟩
  split_ifs
  · exact lookupVisits_fine (le_refl 32)
  · exact openWriteVisits_fine h.named
  · exact fine_nil

/-- The creation of a file is inside of the buffer and the table. -/
theorem newVisits_fine (h : s.Fit g) : Fine (CoherentOn g) (newVisits s filename) := by
  rw [newVisits, fine_append]
  refine ⟨assignFdVisits_fine, ?_⟩
  split
  · exact fine_nil
  · exact fine_cons.mpr ⟨fine_fd, openWriteVisits_fine h.named⟩

/-- Closing is inside of the table. -/
theorem closeVisits_fine : Fine P (closeVisits s (fd : ℕ)) := by
  rw [closeVisits, fine_cons]
  refine ⟨fine_fd, ?_⟩
  split
  · exact fine_nil
  simp only
  split_ifs
  · rw [fine_append]
    refine ⟨lookupVisits_fine (le_refl 32), ?_⟩
    split
    · exact fine_nil
    · exact lookupVisits_fine (le_refl 32)
  · exact fine_nil

/-- Deleting is inside of the buffer. -/
theorem deleteVisits_fine (h : s.Fit g) : Fine P (deleteVisits s filename) := by
  rw [deleteVisits, fine_append]
  refine ⟨lookupVisits_fine (le_refl 32), ?_⟩
  split
  · rename_i hget
    rw [fine_append]
    refine ⟨deallocateVisits_fine (h.getEntry hget).bytesPerSector, ?_⟩
    split
    · exact fine_nil
    · exact lookupVisits_fine (by omega)
  · exact fine_nil

/-- The step of a reader to the next sector is inside. -/
theorem readNextVisits_fine (hbps : s.diskInfo.bytesPerSector = 512) :
    Fine P (readNextVisits s fd) := by
  rw [readNextVisits]
  split_ifs
  · exact wordVisits_fine hbps
  · exact fine_nil

/-- The read of a byte is inside. -/
theorem readbyteVisits_fine (h : s.Fit g) : Fine P (readbyteVisits s fd) := by
  rw [readbyteVisits, fine_cons]
  refine ⟨fine_fd, ?_⟩
  split_ifs
  · exact fine_nil
  · exact fine_nil
  · exact fine_cons.mpr ⟨fine_temp (h.inside fd), readNextVisits_fine h.bytesPerSector⟩
  · exact fine_cons.mpr ⟨fine_temp (h.inside fd), fine_nil⟩

/-- The read of a sector is inside. -/
theorem readsectorVisits_fine (h : s.Fit g) : Fine P (readsectorVisits s fd) := by
  rw [readsectorVisits, fine_cons]
  refine ⟨fine_fd, ?_⟩
  split_ifs
  · exact fine_nil
  · exact fine_nil
  · exact readNextVisits_fine h.bytesPerSector

/-- The read up to the end of a sector is inside. -/
theorem boundaryVisits_fine {t : Transfer} (h : t.state.Fit g) :
    Fine P (boundaryVisits fd k t) := by
  induction k generalizing t with
  | zero => exact fine_nil
  | succ k ih =>
    have hbyte : (fileReadbyte t.state fd).2.Fit g := h.readbyte
    rw [boundaryVisits]
    split_ifs
    · exact fine_nil
    rw [fine_append]
    refine ⟨readbyteVisits_fine h, ?_⟩
    split
    · exact fine_nil
    · rename_i hr
      rw [hr] at hbyte
      simp only
      split_ifs
      · exact fine_nil
      · exact ih hbyte

/-- The read of whole sectors is inside. -/
theorem fullSectorsVisits_fine (h : s.Fit g) : Fine P (fullSectorsVisits fd k s) := by
  induction k generalizing s with
  | zero => exact fine_nil
  | succ k ih =>
    have hsector : (fileReadsector s fd).2.Fit g := h.readsector
    rw [fullSectorsVisits, fine_append]
    refine ⟨readsectorVisits_fine h, ?_⟩
    split
    · exact fine_nil
    · rename_i hr
      rw [hr] at hsector
      exact ih hsector

/-- The read of the rest is inside. -/
theorem tailVisits_fine (h : s.Fit g) : Fine P (tailVisits fd k s) := by
  induction k generalizing s with
  | zero => exact fine_nil
  | succ k ih =>
    have hbyte : (fileReadbyte s fd).2.Fit g := h.readbyte
    rw [tailVisits, fine_append]
    refine ⟨readbyteVisits_fine h, ?_⟩
    split
    · exact fine_nil
    · rename_i hr
      rw [hr] at hbyte
      exact ih hbyte

/-- The three parts of a read are inside. -/
theorem phasesVisits_fine {t : Transfer} (h : t.state.Fit g) : Fine P (phasesVisits fd t) := by
  have hboundary : (readToBoundary fd Machine.turns t).2.state.Fit g := h.toBoundary
  rw [phasesVisits, fine_append]
  refine ⟨boundaryVisits_fine h, ?_⟩
  split
  · exact fine_nil
  rename_i t₁ hr
  rw [hr] at hboundary
  rw [fine_append]
  refine ⟨fullSectorsVisits_fine hboundary, ?_⟩
  have hfull : (readFullSectors fd (t₁.n / t.state.diskInfo.bytesPerSector) t₁).2.state.Fit g :=
    hboundary.fullSectors
  split
  · exact fine_nil
  · rename_i hr'
    rw [hr'] at hfull
    exact tailVisits_fine hfull

/-- A read is inside. -/
theorem readVisits_fine {ptr : ℕ} {fd : ℤ} (h : s.Fit g) : Fine P (readVisits s ptr n fd) := by
  rw [readVisits]
  split_ifs
  · exact fine_nil
  split
  · exact fine_nil
  rw [fine_cons]
  refine ⟨fine_fd, ?_⟩
  split_ifs
  · exact fine_nil
  · exact phasesVisits_fine h

/-- The step of a writer to the next cluster is inside. -/
theorem writeNextVisits_fine (h : s.Fit g) : Fine (CoherentOn g) (writeNextVisits s fd) := by
  have hnext : (fatNextCluster s (s.fdtable fd).currentCluster).2.Fit g :=
    h.of_frame (fatNextCluster_coherent h.coherent) fatNextCluster_frame
  rw [writeNextVisits]
  split_ifs
  · rw [fine_append]
    refine ⟨wordVisits_fine h.bytesPerSector, ?_⟩
    simp only
    split_ifs
    · exact allocateVisits_fine ⟨hnext.coherent, hnext.diskInfo⟩ hnext.bytesPerSector
    · exact fine_nil
  · exact fine_nil

/-- The write of a part of a sector is inside, when it ends in it. -/
theorem writesectorVisits_fine {off : ℕ} (h : s.Fit g) (hoff : off + data.length ≤ 512) :
    Fine (CoherentOn g) (writesectorVisits s data off fd) := by
  rw [writesectorVisits]
  split_ifs
  · exact fine_nil
  rw [fine_append, fine_cons]
  refine ⟨⟨fine_fd, fine_bytes hoff⟩, ?_⟩
  simp only
  split_ifs
  · exact writeNextVisits_fine (h.store.setFd (Nat.zero_lt_succ 511))
  · exact fine_nil

/-- The write of whole sectors is inside. -/
theorem writeFullVisits_fine (h : s.Fit g) (h0 : (s.fdtable fd).fposWithinSector = 0)
    (hk : 512 * k ≤ data.length) : Fine (CoherentOn g) (writeFullVisits fd k s data) := by
  induction k generalizing s data with
  | zero => exact fine_nil
  | succ k ih =>
    have hlen : (data.take s.diskInfo.bytesPerSector).length = 512 := by
      rw [h.bytesPerSector, List.length_take]
      omega
    have hw : (fileWritesector s (data.take s.diskInfo.bytesPerSector) 0 fd).2.Fit g ∧ _ :=
      h.writesector (by omega) (by omega)
    rw [hlen, h0] at hw
    rw [writeFullVisits, fine_append]
    refine ⟨writesectorVisits_fine h (by omega), ?_⟩
    split
    · rename_i hr
      rw [hr] at hw
      refine ih hw.1 hw.2 ?_
      rw [h.bytesPerSector, List.length_drop]
      omega
    · exact fine_nil

/-- A write from the start of a sector on is inside. -/
theorem alignedVisits_fine {bytes : ℕ} (h : s.Fit g) (h0 : (s.fdtable fd).fposWithinSector = 0) :
    Fine (CoherentOn g) (alignedVisits s data bytes fd) := by
  have hk : 512 * (data.length / s.diskInfo.bytesPerSector) ≤ data.length := by
    rw [h.bytesPerSector]
    omega
  have hfull : (writeFullSectors fd (data.length / s.diskInfo.bytesPerSector) s data
      bytes).2.1.Fit g ∧ _ ∧ _ := h.writeFull h0 hk
  rw [alignedVisits]
  split_ifs
  · exact fine_nil
  rw [fine_append]
  refine ⟨writeFullVisits_fine h h0 hk, ?_⟩
  split
  · exact fine_nil
  · rename_i hr
    rw [hr] at hfull
    split_ifs
    · exact fine_nil
    · have hlen := hfull.2.2 rfl
      rw [h.bytesPerSector] at hlen
      simp only at hlen
      exact writesectorVisits_fine hfull.1 (by omega)

/-- A write is inside. -/
theorem writeVisits_fine {i : ℤ} (h : s.Fit g) : Fine (CoherentOn g) (writeVisits s data i) := by
  unfold writeVisits
  split
  · exact fine_nil
  rename_i fd _
  simp only
  generalize hm : (if data.length < _ then data.length else _) = m
  rw [fine_cons]
  refine ⟨fine_fd, ?_⟩
  split_ifs with hmode h0
  · exact fine_nil
  · obtain ⟨hle, hfull⟩ := h.partialSize hm.symm
    have hw : (fileWritesector s (data.take m) (s.fdtable fd).fposWithinSector fd).2.Fit g ∧ _ :=
      h.writesector hle hle
    rw [fine_append]
    refine ⟨writesectorVisits_fine h hle, ?_⟩
    split
    · rename_i hr
      rw [hr] at hw
      by_cases hnil : data.drop m = []
      · rw [hnil, alignedVisits, if_pos rfl]
        exact fine_nil
      · refine alignedVisits_fine hw.1 ?_
        rw [hw.2, hfull hnil]
    · exact fine_nil
  · exact alignedVisits_fine h (not_not.mp h0)

/-- A file that is opened for reading needs no cluster. -/
theorem openVisits_read_fine : Fine P (openVisits s filename fmodeRead) := by
  rw [openVisits, fine_append]
  refine ⟨assignFdVisits_fine, ?_⟩
  split
  · exact fine_nil
  · rw [fine_cons, if_pos rfl]
    exact ⟨fine_fd, lookupVisits_fine (le_refl 32)⟩

/-- The accesses of fine visits without searches are inside. -/
theorem Fine.inBounds (h : Fine (fun _ => False) l) :
    Accesses.InBounds Table.size (l.flatMap Visit.accesses) := by
  rw [Accesses.inBounds_flatMap]
  intro v hv
  cases v with
  | access a => exact Accesses.inBounds_cons.mpr ⟨h _ hv, Accesses.inBounds_nil⟩
  | search s => exact absurd (h _ hv) not_false

/-- The number that the call takes for a descriptor is one, unless the call checks this. -/
def NamesDescriptor : FileCall → Prop
  | .close fd => 0 ≤ fd ∧ fd < fileLimit
  | .readbyte fd => 0 ≤ fd ∧ fd < fileLimit
  | _ => True

instance (a : FileCall) : Decidable (NamesDescriptor a) := by
  unfold NamesDescriptor
  split <;> infer_instance

/-- The descriptor of a number that is inside of the table. -/
theorem exists_fd {fd : ℤ} (h : 0 ≤ fd ∧ fd < fileLimit) : ∃ i : Fin fileLimit, fd = (i : ℕ) :=
  ⟨⟨fd.toNat, by omega⟩, by simp [h.1]⟩

/-- **Every call for a descriptor** is inside of the buffer and the table. -/
theorem fileVisits_fine {a : FileCall} (h : s.Fit g) (ha : NamesDescriptor a) :
    Fine (CoherentOn g) (fileVisits s a) := by
  cases a with
  | «open» => exact openVisits_fine h
  | new => exact newVisits_fine h
  | read => exact readVisits_fine h
  | readbyte fd =>
    obtain ⟨fd, rfl⟩ := exists_fd ha
    rw [fileVisits, descriptor?_cast]
    exact readbyteVisits_fine h
  | write => exact writeVisits_fine h
  | close fd =>
    obtain ⟨fd, rfl⟩ := exists_fd ha
    exact closeVisits_fine
  | delete => exact deleteVisits_fine h
  | info => exact lookupVisits_fine (le_refl 32)
  | entries => exact entriesVisits_fine
  | entry => exact entryVisits_fine

/-- The accesses of fine visits are inside if and only if the searches among them are. -/
theorem fine_inBounds_iff (h : Fine (CoherentOn g) l) (hbps : g.bytesPerSector = 512) :
    Accesses.InBounds Table.size (l.flatMap Visit.accesses) ↔
      ∀ s, Visit.search s ∈ l → SearchInside s := by
  rw [Accesses.inBounds_flatMap]
  constructor
  · intro hin s hs
    obtain ⟨hc, hi⟩ := h _ hs
    exact (searchAccesses_inBounds_iff hc (hi ▸ hbps)).mp (hin _ hs)
  · intro hin v hv
    cases v with
    | access a => exact Accesses.inBounds_cons.mpr ⟨h _ hv, Accesses.inBounds_nil⟩
    | search s =>
      obtain ⟨hc, hi⟩ := h _ hv
      exact (searchAccesses_inBounds_iff hc (hi ▸ hbps)).mpr (hin s hv)

/-- A number that is not one of a descriptor is used as an index all the same. -/
theorem fd_mem_fileVisits {a : FileCall} (ha : ¬ NamesDescriptor a) :
    ∃ fd : ℤ, ¬ (0 ≤ fd ∧ fd < fileLimit) ∧ visitFd fd ∈ fileVisits s a := by
  cases a with
  | close fd => exact ⟨fd, ha, List.mem_cons_self⟩
  | readbyte fd =>
    refine ⟨fd, ha, ?_⟩
    have hnone : descriptor? fd = none := by
      rw [descriptor?, dif_neg]
      rintro ⟨h0, hlt⟩
      exact ha ⟨h0, by omega⟩
    rw [fileVisits, hnone]
    exact List.mem_cons_self
  | _ => exact absurd trivial ha

/-- **The accesses of a call** are all inside if and only if the number of a descriptor that is to
be closed is one, and every search for a free cluster that the call makes stays in the buffer. -/
theorem fileVisits_inBounds_iff {a : FileCall} (h : s.Fit g) :
    Accesses.InBounds Table.size ((fileVisits s a).flatMap Visit.accesses) ↔
      NamesDescriptor a ∧ ∀ s', Visit.search s' ∈ fileVisits s a → SearchInside s' := by
  by_cases ha : NamesDescriptor a
  · rw [fine_inBounds_iff (fileVisits_fine h ha) h.size]
    exact (and_iff_right ha).symm
  · refine iff_of_false (fun hin => ?_) fun hmeets => ha hmeets.1
    obtain ⟨fd, hfd, hmem⟩ := fd_mem_fileVisits (s := s) ha
    rw [Accesses.inBounds_flatMap] at hin
    exact hfd (Accesses.inBounds_cons.mp (hin _ hmem)).1

end

end Z80OS
