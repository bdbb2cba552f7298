import Z80OS.File.Bytewise
import Z80OS.File.Frame

set_option relaxedAutoImplicit false
set_option autoImplicit false

/-!
# The positions of the descriptors

On a disk with sectors of 512 bytes a descriptor always stands inside of a sector. The position in
the sector is counted up by what is read or written, and reset at the end of the sector; a write
splits its bytes so that none of its parts goes beyond this end.

## Main definitions

* `Z80OS.FileState.Fit` — the invariant.

## Main results

* `Z80OS.FileState.Fit.writesector` — where a descriptor stands behind the bytes that it has
  written.
* `Z80OS.FileState.Fit.call` — a call of the driver keeps the invariant.
-/

namespace Z80OS

/-- What holds of the driver between calls: the cache is coherent, the geometry is `g`, the sectors
have 512 bytes, and every descriptor stands inside of a sector. -/
structure FileState.Fit (g : DiskInfo) (s : FileState) : Prop where
  coherent : s.Coherent
  diskInfo : s.diskInfo = g
  size : g.bytesPerSector = 512
  inside : ∀ fd, (s.fdtable fd).fposWithinSector < 512

section

variable {M : Machine} {g : DiskInfo} {s s' : FileState} {filename data : List UInt8}
  {fd : Fin fileLimit} {n k : ℕ} {file : FileDescriptor}

namespace FileState.Fit

/-- In a state that fits, the sectors have 512 bytes. -/
theorem bytesPerSector (h : s.Fit g) : s.diskInfo.bytesPerSector = 512 := h.diskInfo ▸ h.size

/-- A step that changes no descriptor keeps the invariant. -/
theorem of_frame (h : s.Fit g) (hs : s'.Coherent) (hf : Frame ∅ s s') : s'.Fit g :=
  ⟨hs, hf.diskInfo.trans h.diskInfo, h.size, fun fd => hf.fdtable_eq ▸ h.inside fd⟩

/-- A state still fits when a descriptor is set to one that stands inside of a sector. -/
theorem setFd (h : s.Fit g) (hfile : file.fposWithinSector < 512) : (s.setFd fd file).Fit g := by
  refine ⟨h.coherent.setFd, h.diskInfo, h.size, fun fd' => ?_⟩
  by_cases heq : fd' = fd
  · rw [heq, setFd_fdtable_self]
    exact hfile
  · rw [setFd_fdtable_of_ne heq]
    exact h.inside fd'

/-- A state still fits when a descriptor is released. -/
theorem release (h : s.Fit g) : (s.release fd).Fit g := h.setFd (h.inside fd)

/-- A state still fits when a descriptor gets a name. -/
theorem named (h : s.Fit g) : (s.named fd filename).Fit g := h.setFd (h.inside fd)

/-- A state still fits when an entry is kept for later. -/
theorem saveEntry {e : DirectoryEntry} (h : s.Fit g) : (s.saveEntry e).Fit g :=
  ⟨h.coherent.saveEntry, h.diskInfo, h.size, h.inside⟩

/-- A state still fits when a sector has been read, forced or not. -/
theorem cached {force : Bool} (h : s.Fit g) : (readSectorCached s k force).Fit g :=
  h.of_frame (readSectorCached_eq h.coherent ▸ FileState.coherent_cached) readSectorCached_frame

/-! ### Opening and closing -/

/-- A state still fits after the lookup of a name. -/
theorem getEntry {r : Except FileError DirectoryEntry} (h : s.Fit g)
    (hr : filesystemGetDirectoryEntry s filename = some (r, s')) : s'.Fit g :=
  h.of_frame (filesystemGetDirectoryEntry_coherent h.coherent hr)
    (filesystemGetDirectoryEntry_frame hr)

/-- A state still fits when a descriptor has been opened to read. -/
theorem openRead {r : Except FileError Unit} (h : s.Fit g)
    (hr : fileOpenRead s fd = some (r, s')) : s'.Fit g := by
  cases fileOpenRead_cases hr with
  | missing hget => exact h.getEntry hget
  | opened hget => exact (h.getEntry hget).setFd (Nat.zero_lt_succ 511)

/-- A state still fits after the allocation of the first cluster of a file. -/
theorem allocated {c : ℕ} (h : s.Fit g) (hr : fatAllocateStartCluster s = (c, s')) : s'.Fit g := by
  have hs := fatAllocateStartCluster_coherent (M := M) h.coherent
  rw [hr] at hs
  exact h.of_frame hs (allocated_frame hr)

/-- A state still fits after the search for a place of a new entry. -/
theorem create {entry : DirectoryEntry} {b : Bool} (h : s.Fit g)
    (hr : fileCreate s entry = some (b, s')) : s'.Fit g :=
  h.of_frame (fileCreate_coherent h.coherent hr) (fileCreate_frame hr)

/-- A state still fits when a descriptor has been opened to write. -/
theorem openWrite {r : Except FileError Unit} (h : s.Fit g)
    (hr : fileOpenWrite s fd = some (r, s')) : s'.Fit g := by
  cases fileOpenWrite_cases hr with
  | «exists» hget => exact h.getEntry hget
  | diskFull hget halloc => exact (h.getEntry hget).allocated halloc
  | badName hget halloc => exact (h.getEntry hget).allocated halloc
  | dirFull hget halloc _ _ hcreate => exact ((h.getEntry hget).allocated halloc).create hcreate
  | created hget halloc _ _ hcreate =>
    exact (((h.getEntry hget).allocated halloc).create hcreate).setFd (Nat.zero_lt_succ 511)

/-- A state still fits after an open, in whatever mode. -/
theorem «open» {mode : UInt8} {r : Except FileError (Fin fileLimit)} (h : s.Fit g)
    (hr : fileOpen s filename mode = some (r, s')) : s'.Fit g := by
  cases fileOpen_cases hr with
  | noFd => exact h
  | readError _ _ hopen => exact (h.named.openRead hopen).release
  | read _ _ hopen => exact h.named.openRead hopen
  | writeError _ _ hopen => exact (h.named.openWrite hopen).release
  | write _ _ hopen => exact h.named.openWrite hopen
  | badMode => exact h.named

/-- A state still fits after the creation of a file. -/
theorem new {r : Except FileError Unit} (h : s.Fit g) (hr : fileNew s filename = some (r, s')) :
    s'.Fit g := by
  cases fileNew_cases hr with
  | noFd => exact h
  | ran _ hopen => exact (h.named.openWrite hopen).release

/-- A state still fits after a close. -/
theorem close {i : ℤ} {r : Unit} (h : s.Fit g) (hr : fileClose s i = some (r, s')) : s'.Fit g := by
  obtain ⟨fd, -, hclose⟩ := fileClose_cases hr
  cases hclose with
  | notWriting => exact h.release
  | writing _ hget _ hset =>
    exact ((h.getEntry hget).saveEntry.of_frame
      (filesystemSetDirectoryEntry_coherent (h.getEntry hget).coherent.saveEntry hset)
      (filesystemSetDirectoryEntry_frame hset)).release

/-! ### Reading -/

/-- A state still fits when a descriptor that reads has crossed into the next sector. -/
theorem readNext (h : s.Fit g) : (readNextSector s fd).Fit g := by
  have hnext : (s.setFd fd (s.fdtable fd).nextSector).Fit g := h.setFd (h.inside fd)
  unfold readNextSector
  simp only
  split_ifs
  · exact (hnext.of_frame (fatNextCluster_coherent hnext.coherent) fatNextCluster_frame).setFd
      (h.inside fd)
  · exact hnext

/-- A state still fits after the read of one byte. -/
theorem readbyte (h : s.Fit g) : (fileReadbyte s fd).2.Fit g := by
  have hfd := h.inside fd
  have hskip : (s.fdtable fd).skipByte.fposWithinSector = (s.fdtable fd).fposWithinSector + 1 := by
    rw [FileDescriptor.skipByte_fposWithinSector]
    omega
  unfold fileReadbyte
  simp only
  split_ifs with h₁ h₂ h₃
  · exact h
  · exact h
  · exact (h.cached.setFd (Nat.zero_lt_succ 511)).readNext
  · refine h.cached.setFd ?_
    rw [readSectorCached_frame.diskInfo, h.bytesPerSector, hskip] at h₃
    omega

/-- A state still fits after the read of one sector. -/
theorem readsector (h : s.Fit g) : (fileReadsector s fd).2.Fit g := by
  unfold fileReadsector
  simp only
  split_ifs
  · exact h
  · exact h
  · refine readNext (h.setFd ?_)
    exact h.inside fd

/-- A state still fits after the bytes up to the end of a sector. -/
theorem toBoundary {t : Transfer} (h : t.state.Fit g) :
    (readToBoundary fd k t).2.state.Fit g := by
  induction k generalizing t with
  | zero => exact h
  | succ k ih =>
    have hbyte : (fileReadbyte t.state fd).2.Fit g := h.readbyte
    unfold readToBoundary
    split_ifs
    · exact h
    split
    all_goals
      rename_i hr
      rw [hr] at hbyte
    · exact hbyte
    · simp only
      split_ifs
      · exact hbyte
      · exact ih hbyte

/-- A state still fits after the full sectors of a read. -/
theorem fullSectors {t : Transfer} (h : t.state.Fit g) :
    (readFullSectors fd k t).2.state.Fit g := by
  induction k generalizing t with
  | zero => exact h
  | succ k ih =>
    have hsector : (fileReadsector t.state fd).2.Fit g := h.readsector
    unfold readFullSectors
    split
    all_goals
      rename_i hr
      rw [hr] at hsector
    · exact hsector
    · exact ih hsector

/-- A state still fits after the bytes behind the last full sector. -/
theorem tail {t : Transfer} (h : t.state.Fit g) : (readTail fd k t).state.Fit g := by
  induction k generalizing t with
  | zero => exact h
  | succ k ih =>
    have hbyte : (fileReadbyte t.state fd).2.Fit g := h.readbyte
    unfold readTail
    split
    all_goals
      rename_i hr
      rw [hr] at hbyte
    · exact hbyte
    · exact ih hbyte

/-- A state still fits after the three phases of a read. -/
theorem phases {t : Transfer} (h : t.state.Fit g) : (readPhases fd t).state.Fit g := by
  unfold readPhases
  have hboundary : (readToBoundary fd Machine.turns t).2.state.Fit g := h.toBoundary
  simp only
  split
  all_goals
    rename_i hr
    rw [hr] at hboundary
  · exact hboundary
  rename_i t₁
  have hfull : (readFullSectors fd (t₁.n / t.state.diskInfo.bytesPerSector) t₁).2.state.Fit g :=
    hboundary.fullSectors
  split
  all_goals
    rename_i hr'
    rw [hr'] at hfull
  · exact hfull
  · exact hfull.tail

/-- A state still fits after a read. -/
theorem read {ptr : ℕ} {i : ℤ} (h : s.Fit g) : (fileRead s ptr n i).2.Fit g := by
  unfold fileRead
  split_ifs
  · exact h
  split
  · exact h
  · simp only
    split_ifs
    · exact h
    · exact phases (t := ⟨_, _, _, s⟩) h
    · exact phases (t := ⟨_, _, _, s⟩) h

/-! ### Writing -/

/-- A state still fits after a store to a sector of a file. -/
theorem store (h : s.Fit g) {off : ℕ} :
    (diskWrite (((readSectorCached s k false).recordWrite fd k).poke off data) k).Fit g := by
  rw [readSectorCached_eq h.coherent, diskWrite_recordWrite_eq]
  exact ⟨coherent_store, h.diskInfo, h.size, h.inside⟩

/-- On the way to the next cluster a descriptor stays where it is in its sector. -/
theorem writeNext (h : s.Fit g) : (writeNextCluster s fd).2.Fit g ∧
    ((writeNextCluster s fd).2.fdtable fd).fposWithinSector = (s.fdtable fd).fposWithinSector := by
  have hnext : (fatNextCluster s (s.fdtable fd).currentCluster).2.Fit g :=
    h.of_frame (fatNextCluster_coherent h.coherent) fatNextCluster_frame
  have halloc : (fatAllocateCluster (fatNextCluster s (s.fdtable fd).currentCluster).2
      (s.fdtable fd).currentCluster).2.Fit g :=
    hnext.of_frame (fatAllocateCluster_coherent hnext.coherent) fatAllocateCluster_frame
  unfold writeNextCluster
  simp only
  split_ifs
  · refine ⟨halloc, ?_⟩
    rw [fatAllocateCluster_frame.fdtable_eq, fatNextCluster_frame.fdtable_eq]
  · exact ⟨halloc.setFd (h.inside fd), by rw [setFd_fdtable_self]; rfl⟩
  · exact ⟨hnext.setFd (h.inside fd), by rw [setFd_fdtable_self]; rfl⟩
  · exact ⟨h, rfl⟩

/-- A descriptor that has been moved behind the bytes that it has written goes on to the next sector
when its own is full. -/
theorem advance (h : s.Fit g) (hfile : file.fposWithinSector ≤ 512) :
    (if file.fposWithinSector = s.diskInfo.bytesPerSector then writeNextSector (s.setFd fd file) fd
      else (0, s.setFd fd file)).2.Fit g ∧
    ((if file.fposWithinSector = s.diskInfo.bytesPerSector then writeNextSector (s.setFd fd file) fd
      else (0, s.setFd fd file)).2.fdtable fd).fposWithinSector = file.fposWithinSector % 512 := by
  rw [h.bytesPerSector]
  split_ifs with hfull
  · have hstart : (s.setFd fd file.atSectorStart.nextSector).Fit g :=
      h.setFd (Nat.zero_lt_succ 511)
    rw [writeNextSector, setFd_fdtable_self, setFd_setFd, hstart.writeNext.2,
      setFd_fdtable_self, hfull]
    exact ⟨hstart.writeNext.1, rfl⟩
  · refine ⟨h.setFd (by omega), ?_⟩
    rw [setFd_fdtable_self, Nat.mod_eq_of_lt (by omega)]

/-- A descriptor that has written into its sector stands behind these bytes, or in the next
sector. -/
theorem writesector {off : ℕ} (h : s.Fit g) (hoff : off + data.length ≤ 512)
    (hle : (s.fdtable fd).fposWithinSector + data.length ≤ 512) :
    (fileWritesector s data off fd).2.Fit g ∧
      ((fileWritesector s data off fd).2.fdtable fd).fposWithinSector =
        ((s.fdtable fd).fposWithinSector + data.length) % 512 := by
  have hgrow : ((s.fdtable fd).grow data.length).fposWithinSector =
      (s.fdtable fd).fposWithinSector + data.length := by
    rw [FileDescriptor.grow_fposWithinSector]
    omega
  have hguard : ¬ (off + data.length) % 65536 > s.diskInfo.bytesPerSector := by
    rw [h.bytesPerSector]
    omega
  unfold fileWritesector
  simp only [if_neg hguard]
  rw [← hgrow]
  exact advance h.store (by omega)

/-- The phase of a write that writes whole sectors. -/
theorem writeFull {bytes : ℕ} (h : s.Fit g) (h0 : (s.fdtable fd).fposWithinSector = 0)
    (hk : 512 * k ≤ data.length) :
    (writeFullSectors fd k s data bytes).2.1.Fit g ∧
      ((writeFullSectors fd k s data bytes).2.1.fdtable fd).fposWithinSector = 0 ∧
      ((writeFullSectors fd k s data bytes).1 = false →
        (writeFullSectors fd k s data bytes).2.2.1.length = data.length - 512 * k) := by
  induction k generalizing s data bytes with
  | zero => exact ⟨h, h0, fun _ => by simp [writeFullSectors]⟩
  | succ k ih =>
    have hlen : (data.take s.diskInfo.bytesPerSector).length = 512 := by
      rw [h.bytesPerSector, List.length_take]
      omega
    have hw : (fileWritesector s (data.take s.diskInfo.bytesPerSector) 0 fd).2.Fit g ∧ _ :=
      h.writesector (by omega) (by omega)
    rw [hlen, h0] at hw
    simp only [writeFullSectors]
    split
    all_goals
      rename_i hr
      rw [hr] at hw
    · have hdrop : (data.drop s.diskInfo.bytesPerSector).length = data.length - 512 := by
        rw [h.bytesPerSector, List.length_drop]
      have hrestLen : 512 * k ≤ (data.drop s.diskInfo.bytesPerSector).length := by omega
      obtain ⟨hfit, hpos, hrest⟩ := ih hw.1 hw.2 hrestLen
      refine ⟨hfit, hpos, fun hok => ?_⟩
      rw [hrest hok, hdrop]
      omega
    · exact ⟨hw.1, hw.2, fun hok => absurd hok (by simp)⟩

/-- A state still fits after a write that starts at the start of a sector. -/
theorem aligned {bytes : ℕ} (h : s.Fit g) (h0 : (s.fdtable fd).fposWithinSector = 0) :
    (writeAligned s data bytes fd).2.Fit g := by
  have hfull : (writeFullSectors fd (data.length / s.diskInfo.bytesPerSector) s data
      bytes).2.1.Fit g ∧ _ ∧ _ :=
    h.writeFull h0 (by rw [h.bytesPerSector]; omega)
  rw [writeAligned]
  split_ifs
  · exact h
  split
  all_goals
    rename_i hr
    rw [hr] at hfull
  · exact hfull.1
  · split_ifs
    · exact hfull.1
    · have hlen := hfull.2.2 rfl
      have hpos := hfull.2.1
      rw [h.bytesPerSector] at hlen
      simp only at hlen hpos
      exact (hfull.1.writesector (by omega) (by omega)).1

/-- The bytes that a write puts into a sector that has been begun. -/
theorem partialSize (h : s.Fit g) {m : ℕ}
    (hm : m = if data.length < (s.diskInfo.bytesPerSector + 65536 -
      (s.fdtable fd).fposWithinSector) % 65536 then data.length
        else (s.diskInfo.bytesPerSector + 65536 - (s.fdtable fd).fposWithinSector) % 65536) :
    (s.fdtable fd).fposWithinSector + (data.take m).length ≤ 512 ∧
      (data.drop m ≠ [] → (s.fdtable fd).fposWithinSector + (data.take m).length = 512) := by
  have hlt := h.inside fd
  rw [h.bytesPerSector] at hm
  rw [List.length_take, ne_eq, List.drop_eq_nil_iff]
  split_ifs at hm <;> omega

/-- A state still fits after a write. -/
theorem write {i : ℤ} (h : s.Fit g) : (fileWrite s data i).2.Fit g := by
  unfold fileWrite
  split
  · exact h
  rename_i fd _
  simp only
  generalize hm : (if data.length < _ then data.length else _) = m
  split_ifs with hmode h0
  · exact h
  · obtain ⟨hle, hfull⟩ := h.partialSize hm.symm
    have hw : (fileWritesector s (data.take m) (s.fdtable fd).fposWithinSector fd).2.Fit g ∧ _ :=
      h.writesector hle hle
    split
    all_goals
      rename_i hr
      rw [hr] at hw
    · by_cases hnil : data.drop m = []
      · rw [hnil, writeAligned, if_pos rfl]
        exact hw.1
      · refine hw.1.aligned ?_
        rw [hw.2, hfull hnil]
    · exact hw.1
  · exact h.aligned (not_not.mp h0)

/-- A call keeps the invariant. -/
theorem call {a : FileCall} {r : FileAnswer} (h : s.Fit g) (hr : Z80OS.call s a = some (r, s')) :
    s'.Fit g := by
  cases a with
  | read ptr n i =>
    simp only [Z80OS.call, Option.some.injEq, Prod.mk.injEq] at hr
    exact hr.2 ▸ h.read
  | write data i =>
    simp only [Z80OS.call, Option.some.injEq, Prod.mk.injEq] at hr
    exact hr.2 ▸ h.write
  | readbyte i =>
    simp only [Z80OS.call, Option.map_eq_some_iff, Prod.mk.injEq] at hr
    obtain ⟨fd, -, -, rfl⟩ := hr
    exact h.readbyte
  | _ =>
    simp only [Z80OS.call, Option.map_eq_some_iff, Prod.mk.injEq] at hr
    obtain ⟨⟨x, s₁⟩, hx, -, rfl⟩ := hr
    first
      | exact h.open hx
      | exact h.new hx
      | exact h.close hx
      | exact h.of_frame (fileDelete_coherent h.coherent hx) (fileDelete_frame hx)
      | exact h.of_frame (fileInfo_coherent h.coherent hx) (fileInfo_frame hx)
      | exact h.of_frame (fileEntries_coherent h.coherent hx) (countSectors_frame hx)
      | exact h.of_frame (fileEntry_coherent h.coherent hx) (nthSectors_frame hx)

end FileState.Fit

end

end Z80OS
