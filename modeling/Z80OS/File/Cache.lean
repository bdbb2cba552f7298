import Z80OS.File.Cases

set_option relaxedAutoImplicit false
set_option autoImplicit false

/-!
# Coherence of the sector cache

The buffer is coherent when it holds the sector that its tag names. In a coherent state a read
through the cache has the same outcome whether or not it goes to the disk, so the cache can be
left out of every later argument: a read leaves the state `s.cached k`, a write leaves the state
`s.store k t`.

## Main definitions

* `Z80OS.FileState.Coherent` — the invariant.
* `Z80OS.FileState.cached`, `Z80OS.FileState.store` — a state after a read and after a write of a
  sector.
* `Z80OS.Machine.forced` — the driver with every read forced.

## Main results

* `Z80OS.readSectorCached_eq`, `Z80OS.diskWrite_poke_eq` — reads and writes in a coherent state.
* `Z80OS.fatSetCluster_eq`, `Z80OS.fatNextCluster_eq` — access to the FAT in a coherent state.
* the lemmas `*_coherent` and `*_forced`, for every function of the driver: it keeps the
  invariant, and it does the same when every read is forced.
-/

namespace Z80OS

namespace FileState

/-- The buffer holds the contents of the sector that is said to be in it. -/
def Coherent (s : FileState) : Prop := s.tempSector = s.disk s.currentCacheSector

/-- The state after sector `k` has been read into the buffer. -/
def cached (s : FileState) (k : ℕ) : FileState :=
  { s with tempSector := s.disk k, currentCacheSector := k }

/-- The state after sector `k` has been written through the buffer. -/
def store (s : FileState) (k : ℕ) (t : Sector) : FileState :=
  { s with disk := Function.update s.disk k t, tempSector := t, currentCacheSector := k }

variable {s : FileState} {k j : ℕ} {t u : Sector} {fd : Fin fileLimit} {file : FileDescriptor}

/-- The buffer has the sector that it is said to have once it has been fetched. -/
theorem coherent_cached : (s.cached k).Coherent := rfl

/-- The buffer has the sector that it is said to have once it has been written. -/
theorem coherent_store : (s.store k t).Coherent := by simp [Coherent, store]

/-- Another entry of the table of open files leaves the buffer. -/
theorem Coherent.setFd (h : s.Coherent) : (s.setFd fd file).Coherent := h

/-- A descriptor that is released leaves the buffer. -/
theorem Coherent.release (h : s.Coherent) : (s.release fd).Coherent := h

/-- The entry that is kept for later leaves the buffer. -/
theorem Coherent.saveEntry {e : DirectoryEntry} (h : s.Coherent) : (s.saveEntry e).Coherent := h

/-- Whether the buffer is coherent does not depend on the events so far. -/
theorem Coherent.with_trace {l : List Event} (h : s.Coherent) :
    ({ s with trace := l } : FileState).Coherent := h

/-- A coherent state is the state after a read of the sector in the cache. -/
theorem Coherent.eq_cached (h : s.Coherent) : s.cached s.currentCacheSector = s := by
  unfold cached
  rw [← h]

/-- Only the last of two sectors that are fetched counts. -/
@[simp] theorem cached_cached : (s.cached k).cached j = s.cached j := rfl

/-- A fetch leaves the disk. -/
@[simp] theorem cached_disk : (s.cached k).disk = s.disk := rfl

/-- A fetch leaves the layout. -/
@[simp] theorem cached_diskInfo : (s.cached k).diskInfo = s.diskInfo := rfl

/-- A fetch leaves the table of open files. -/
@[simp] theorem cached_fdtable : (s.cached k).fdtable = s.fdtable := rfl

/-- A fetch leaves the events so far. -/
@[simp] theorem cached_trace : (s.cached k).trace = s.trace := rfl

/-- The buffer after a fetch. -/
@[simp] theorem cached_tempSector : (s.cached k).tempSector = s.disk k := rfl

/-- The disk after a write. -/
@[simp] theorem store_disk : (s.store k t).disk = Function.update s.disk k t := rfl

/-- A write leaves the layout. -/
@[simp] theorem store_diskInfo : (s.store k t).diskInfo = s.diskInfo := rfl

/-- A write leaves the table of open files. -/
@[simp] theorem store_fdtable : (s.store k t).fdtable = s.fdtable := rfl

/-- A write leaves the events so far. -/
@[simp] theorem store_trace : (s.store k t).trace = s.trace := rfl

/-- Another entry of the table of open files leaves the disk. -/
@[simp] theorem setFd_disk : (s.setFd fd file).disk = s.disk := rfl

/-- Another entry of the table of open files leaves the layout. -/
@[simp] theorem setFd_diskInfo : (s.setFd fd file).diskInfo = s.diskInfo := rfl

/-- Another entry of the table of open files leaves the events so far. -/
@[simp] theorem setFd_trace : (s.setFd fd file).trace = s.trace := rfl

/-- The entry that has been set. -/
@[simp] theorem setFd_fdtable_self : (s.setFd fd file).fdtable fd = file := Function.update_self ..

/-- The other entries are left. -/
theorem setFd_fdtable_of_ne {fd' : Fin fileLimit} (h : fd' ≠ fd) :
    (s.setFd fd file).fdtable fd' = s.fdtable fd' := Function.update_of_ne h ..

/-- A descriptor that is released leaves the disk. -/
@[simp] theorem release_disk : (s.release fd).disk = s.disk := rfl

/-- A descriptor that is released leaves the layout. -/
@[simp] theorem release_diskInfo : (s.release fd).diskInfo = s.diskInfo := rfl

/-- A descriptor that is released leaves the events so far. -/
@[simp] theorem release_trace : (s.release fd).trace = s.trace := rfl

end FileState

open FileState

/-- The driver that forces every read through the cache. -/
@[reducible] def Machine.forced (M : Machine) : Machine := { M with forceLoad := true }

/-! ## Reads and writes in a coherent state -/

section

variable {M : Machine} {s : FileState} {k : ℕ} {src : List UInt8} {off cluster next : ℕ}
  {force : Bool}

/-- A read in a coherent state has the same outcome whether or not the sector was cached. -/
theorem readSectorCached_eq (h : s.Coherent) : readSectorCached s k force = s.cached k := by
  unfold readSectorCached
  split_ifs with hc
  · rfl
  · have hk : s.currentCacheSector = k := by simp at hc; exact hc.2
    rw [← hk, h.eq_cached]

/-- A sector read, changed in the buffer and written back. -/
theorem diskWrite_poke_eq :
    diskWrite ((s.cached k).poke off src) k = s.store k ((s.disk k).memcpy off src) := rfl

/-- From a coherent buffer the word of a cluster is the one on the disk. -/
theorem fatNextCluster_eq (h : s.Coherent) :
    fatNextCluster s cluster =
      ((s.cached (fatSectorOf s.diskInfo cluster)).tempWord (fatOffsetOf s.diskInfo cluster),
        s.cached (fatSectorOf s.diskInfo cluster)) := by
  simp only [fatNextCluster, readSectorCached_eq h]

/-- From a coherent buffer the store of the word of a cluster changes two bytes of its sector on the
disk. -/
theorem fatSetCluster_eq (h : s.Coherent) :
    fatSetCluster s cluster next =
      s.store (fatSectorOf s.diskInfo cluster)
        ((s.disk (fatSectorOf s.diskInfo cluster)).memcpy (fatOffsetOf s.diskInfo cluster)
          (bytes16 next)) := by
  simp only [fatSetCluster, readSectorCached_eq h, diskWrite_poke_eq]

end

/-! ## The invariant and the forced driver, function by function -/

section

variable {M : Machine} {s : FileState} {fd : Fin fileLimit} {cluster next sector k : ℕ}
  {filename : List UInt8} {entry : DirectoryEntry}

/-- A word of the buffer does not depend on how sectors are fetched. -/
theorem tempWord_forced : @tempWord M.forced s k = @tempWord M s k := rfl

/-- The look at the word of a cluster leaves the buffer coherent. -/
theorem fatNextCluster_coherent (h : s.Coherent) : (fatNextCluster s cluster).2.Coherent := by
  rw [fatNextCluster_eq h]
  exact coherent_cached

/-- The look at the word of a cluster does the same when every fetch is forced. -/
theorem fatNextCluster_forced (h : s.Coherent) :
    @fatNextCluster M.forced s cluster = @fatNextCluster M s cluster := by
  rw [fatNextCluster_eq h, fatNextCluster_eq h]
  rfl

/-- The store of the word of a cluster leaves the buffer coherent. -/
theorem fatSetCluster_coherent (h : s.Coherent) : (fatSetCluster s cluster next).Coherent := by
  rw [fatSetCluster_eq h]
  exact coherent_store

/-- The store of the word of a cluster does the same when every fetch is forced. -/
theorem fatSetCluster_forced (h : s.Coherent) :
    @fatSetCluster M.forced s cluster next = @fatSetCluster M s cluster next := by
  rw [fatSetCluster_eq h, fatSetCluster_eq h]

/-! ### Searching the directory -/

/-- The search through the sectors of the directory leaves the buffer coherent. -/
theorem searchSectors_coherent {r : Option (ℕ × ℕ)} {s' : FileState} (h : s.Coherent)
    (hr : searchSectors filename k s sector = some (r, s')) : s'.Coherent := by
  induction k generalizing s sector with
  | zero => simp [searchSectors] at hr
  | succ k ih =>
    simp only [searchSectors, readSectorCached_eq h] at hr
    split at hr
    · simp only [Option.some.injEq, Prod.mk.injEq] at hr
      exact hr.2 ▸ coherent_cached
    · simp only [Option.some.injEq, Prod.mk.injEq] at hr
      exact hr.2 ▸ coherent_cached
    · exact ih coherent_cached hr

/-- The search through the sectors of the directory does the same when every fetch is forced. -/
theorem searchSectors_forced (h : s.Coherent) :
    @searchSectors M.forced filename k s sector = @searchSectors M filename k s sector := by
  induction k generalizing s sector with
  | zero => rfl
  | succ k ih =>
    simp only [searchSectors, readSectorCached_eq h, ih coherent_cached]

/-- A search that finds an entry leaves its sector in the buffer. -/
theorem searchSectors_found {f : ℕ} {s' : FileState} (h : s.Coherent)
    (hr : searchSectors filename k s sector = some (some (cluster, f), s')) :
    s'.currentCacheSector = cluster := by
  induction k generalizing s sector with
  | zero => simp [searchSectors] at hr
  | succ k ih =>
    simp only [searchSectors, readSectorCached_eq h] at hr
    split at hr
    · simp at hr
    · simp only [Option.some.injEq, Prod.mk.injEq] at hr
      rw [← hr.2, ← hr.1.1]
      rfl
    · exact ih coherent_cached hr

/-- The search through the directory leaves the buffer coherent. -/
theorem searchDirectory_coherent {r : Option (ℕ × ℕ)} {s' : FileState} (h : s.Coherent)
    (hr : searchDirectory s filename = some (r, s')) : s'.Coherent := by
  unfold searchDirectory at hr
  exact searchSectors_coherent h hr

/-- The search through the directory does the same when every fetch is forced. -/
theorem searchDirectory_forced (h : s.Coherent) :
    @searchDirectory M.forced s filename = @searchDirectory M s filename := by
  unfold searchDirectory
  exact searchSectors_forced h

/-- The search ends with the sector of the entry in the buffer. -/
theorem searchDirectory_found {f : ℕ} {s' : FileState} (h : s.Coherent)
    (hr : searchDirectory s filename = some (some (sector, f), s')) :
    s'.currentCacheSector = sector := by
  unfold searchDirectory at hr
  exact searchSectors_found h hr

/-- The lookup of an entry leaves the buffer coherent. -/
theorem filesystemGetDirectoryEntry_coherent {r : Except FileError DirectoryEntry}
    {s' : FileState} (h : s.Coherent)
    (hr : filesystemGetDirectoryEntry s filename = some (r, s')) : s'.Coherent := by
  unfold filesystemGetDirectoryEntry at hr
  split at hr
  · simp at hr
  all_goals
    rename_i hs
    simp only [Option.some.injEq, Prod.mk.injEq] at hr
    exact hr.2 ▸ searchDirectory_coherent h hs

/-- The lookup of an entry does the same when every fetch is forced. -/
theorem filesystemGetDirectoryEntry_forced (h : s.Coherent) :
    @filesystemGetDirectoryEntry M.forced s filename =
      @filesystemGetDirectoryEntry M s filename := by
  simp only [filesystemGetDirectoryEntry, searchDirectory_forced h]

/-- The change of an entry leaves the buffer coherent. -/
theorem filesystemSetDirectoryEntry_coherent {r : Except FileError Unit} {s' : FileState}
    (h : s.Coherent) (hr : filesystemSetDirectoryEntry s entry filename = some (r, s')) :
    s'.Coherent := by
  unfold filesystemSetDirectoryEntry at hr
  split at hr
  · simp at hr
  · rename_i hs
    simp only [Option.some.injEq, Prod.mk.injEq] at hr
    exact hr.2 ▸ searchDirectory_coherent h hs
  · rename_i hs
    simp only [Option.some.injEq, Prod.mk.injEq] at hr
    have hc := searchDirectory_coherent h hs
    rw [← hr.2, ← hc.eq_cached, searchDirectory_found h hs, diskWrite_poke_eq]
    exact coherent_store

/-- The change of an entry does the same when every fetch is forced. -/
theorem filesystemSetDirectoryEntry_forced (h : s.Coherent) :
    @filesystemSetDirectoryEntry M.forced s entry filename =
      @filesystemSetDirectoryEntry M s entry filename := by
  simp only [filesystemSetDirectoryEntry, searchDirectory_forced h]

/-- The release of an entry leaves the buffer coherent. -/
theorem filesystemMarkDirectoryEntryFree_coherent {r : Except FileError Unit} {s' : FileState}
    (h : s.Coherent) (hr : filesystemMarkDirectoryEntryFree s filename = some (r, s')) :
    s'.Coherent := by
  unfold filesystemMarkDirectoryEntryFree at hr
  split at hr
  · simp at hr
  · rename_i hs
    simp only [Option.some.injEq, Prod.mk.injEq] at hr
    exact hr.2 ▸ searchDirectory_coherent h hs
  · rename_i hs
    simp only [Option.some.injEq, Prod.mk.injEq] at hr
    have hc := searchDirectory_coherent h hs
    rw [← hr.2, ← hc.eq_cached, searchDirectory_found h hs, diskWrite_poke_eq]
    exact coherent_store

/-- The release of an entry does the same when every fetch is forced. -/
theorem filesystemMarkDirectoryEntryFree_forced (h : s.Coherent) :
    @filesystemMarkDirectoryEntryFree M.forced s filename =
      @filesystemMarkDirectoryEntryFree M s filename := by
  simp only [filesystemMarkDirectoryEntryFree, searchDirectory_forced h]

/-- The search for a free entry leaves the buffer coherent. -/
theorem createSectors_coherent {r : Bool} {s' : FileState} (h : s.Coherent)
    (hr : createSectors entry k s sector = some (r, s')) : s'.Coherent := by
  induction k generalizing s sector with
  | zero => simp [createSectors] at hr
  | succ k ih =>
    simp only [createSectors, readSectorCached_eq h] at hr
    split at hr
    · simp only [diskWrite_poke_eq, Option.some.injEq, Prod.mk.injEq] at hr
      exact hr.2 ▸ coherent_store
    · split at hr
      · simp only [Option.some.injEq, Prod.mk.injEq] at hr
        exact hr.2 ▸ coherent_cached
      · exact ih coherent_cached hr

/-- The search for a free entry does the same when every fetch is forced. -/
theorem createSectors_forced (h : s.Coherent) :
    @createSectors M.forced entry k s sector = @createSectors M entry k s sector := by
  induction k generalizing s sector with
  | zero => rfl
  | succ k ih =>
    simp only [createSectors, readSectorCached_eq h, ih coherent_cached]

/-- The creation of an entry leaves the buffer coherent. -/
theorem fileCreate_coherent {r : Bool} {s' : FileState} (h : s.Coherent)
    (hr : fileCreate s entry = some (r, s')) : s'.Coherent := by
  unfold fileCreate at hr
  exact createSectors_coherent h hr

/-- The creation of an entry does the same when every fetch is forced. -/
theorem fileCreate_forced (h : s.Coherent) :
    @fileCreate M.forced s entry = @fileCreate M s entry := by
  unfold fileCreate
  exact createSectors_forced h

/-! ### Enumerating the directory -/

/-- The count of the entries sector by sector leaves the buffer coherent. -/
theorem countSectors_coherent {entries n : ℕ} {s' : FileState} (h : s.Coherent)
    (hr : countSectors k s sector entries = some (n, s')) : s'.Coherent := by
  induction k generalizing s sector entries with
  | zero => simp [countSectors] at hr
  | succ k ih =>
    simp only [countSectors, readSectorCached_eq h] at hr
    split at hr
    · simp only [Option.some.injEq, Prod.mk.injEq] at hr
      exact hr.2 ▸ h
    · split at hr
      · simp only [Option.some.injEq, Prod.mk.injEq] at hr
        exact hr.2 ▸ coherent_cached
      · exact ih coherent_cached hr

/-- The count of the entries sector by sector does the same when every fetch is forced. -/
theorem countSectors_forced {entries : ℕ} (h : s.Coherent) :
    @countSectors M.forced k s sector entries = @countSectors M k s sector entries := by
  induction k generalizing s sector entries with
  | zero => rfl
  | succ k ih =>
    simp only [countSectors, readSectorCached_eq h, ih coherent_cached]

/-- The search for an entry by its number leaves the buffer coherent. -/
theorem nthSectors_coherent {n m : ℕ} {r : Except FileError (List UInt8)} {s' : FileState}
    (h : s.Coherent) (hr : nthSectors m k s sector n = some (r, s')) : s'.Coherent := by
  induction k generalizing s sector n with
  | zero => simp [nthSectors] at hr
  | succ k ih =>
    simp only [nthSectors, readSectorCached_eq h] at hr
    split at hr
    · simp only [Option.some.injEq, Prod.mk.injEq] at hr
      exact hr.2 ▸ h
    · split at hr
      · simp only [Option.some.injEq, Prod.mk.injEq] at hr
        exact hr.2 ▸ coherent_cached
      · simp only [Option.some.injEq, Prod.mk.injEq] at hr
        exact hr.2 ▸ coherent_cached
      · exact ih coherent_cached hr

/-- The search for an entry by its number does the same when every fetch is forced. -/
theorem nthSectors_forced {n m : ℕ} (h : s.Coherent) :
    @nthSectors M.forced m k s sector n = @nthSectors M m k s sector n := by
  induction k generalizing s sector n with
  | zero => rfl
  | succ k ih =>
    simp only [nthSectors, readSectorCached_eq h, ih coherent_cached]

/-! ### Allocation -/

/-- The search for a free word leaves the buffer coherent. -/
theorem findFreeLoop_coherent {c e : ℕ} (h : s.Coherent) :
    (findFreeLoop k s c e sector).2.Coherent := by
  induction k generalizing s c e sector with
  | zero => exact h
  | succ k ih =>
    simp only [findFreeLoop, readSectorCached_eq h]
    split_ifs
    all_goals first | exact coherent_cached | exact ih coherent_cached

/-- The search for a free word does the same when every fetch is forced. -/
theorem findFreeLoop_forced {c e : ℕ} (h : s.Coherent) :
    @findFreeLoop M.forced k s c e sector = @findFreeLoop M k s c e sector := by
  induction k generalizing s c e sector with
  | zero => rfl
  | succ k ih =>
    simp only [findFreeLoop, readSectorCached_eq h, ih coherent_cached, tempWord_forced]

/-- The search for a free cluster leaves the buffer coherent. -/
theorem fatFindFreeCluster_coherent (h : s.Coherent) : (fatFindFreeCluster s).2.Coherent := by
  simp only [fatFindFreeCluster]
  exact (findFreeLoop_coherent h).with_trace

/-- The search for a free cluster does the same when every fetch is forced. -/
theorem fatFindFreeCluster_forced (h : s.Coherent) :
    @fatFindFreeCluster M.forced s = @fatFindFreeCluster M s := by
  simp only [fatFindFreeCluster, findFreeLoop_forced h]
  rfl

/-- The allocation of a first cluster leaves the buffer coherent. -/
theorem fatAllocateStartCluster_coherent (h : s.Coherent) :
    (fatAllocateStartCluster s).2.Coherent := by
  have hf := fatFindFreeCluster_coherent (M := M) h
  unfold fatAllocateStartCluster
  split
  rename_i hs
  rw [hs] at hf
  split_ifs
  · exact hf
  · exact fatSetCluster_coherent hf

/-- The allocation of a first cluster does the same when every fetch is forced. -/
theorem fatAllocateStartCluster_forced (h : s.Coherent) :
    @fatAllocateStartCluster M.forced s = @fatAllocateStartCluster M s := by
  have hf := fatFindFreeCluster_coherent (M := M) h
  unfold fatAllocateStartCluster
  rw [fatFindFreeCluster_forced h]
  rcases hs : @fatFindFreeCluster M s with ⟨c, s₁⟩
  rw [hs] at hf
  simp only [fatSetCluster_forced hf]

/-- The allocation of a further cluster leaves the buffer coherent. -/
theorem fatAllocateCluster_coherent (h : s.Coherent) :
    (fatAllocateCluster s cluster).2.Coherent := by
  have hf := fatFindFreeCluster_coherent (M := M) h
  unfold fatAllocateCluster
  split
  rename_i hs
  rw [hs] at hf
  split_ifs
  · exact hf
  · exact fatSetCluster_coherent (fatSetCluster_coherent hf)

/-- The allocation of a further cluster does the same when every fetch is forced. -/
theorem fatAllocateCluster_forced (h : s.Coherent) :
    @fatAllocateCluster M.forced s cluster = @fatAllocateCluster M s cluster := by
  have hf := fatFindFreeCluster_coherent (M := M) h
  unfold fatAllocateCluster
  rw [fatFindFreeCluster_forced h]
  rcases hs : @fatFindFreeCluster M s with ⟨c, s₁⟩
  rw [hs] at hf
  simp only [fatSetCluster_forced hf, fatSetCluster_forced (fatSetCluster_coherent (M := M) hf)]

/-! ### Opening, creating, closing and deleting -/

/-- Opening for reading leaves the buffer coherent. -/
theorem fileOpenRead_coherent {r : Except FileError Unit} {s' : FileState} (h : s.Coherent)
    (hr : fileOpenRead s fd = some (r, s')) : s'.Coherent := by
  cases fileOpenRead_cases hr with
  | missing hget => exact filesystemGetDirectoryEntry_coherent h hget
  | opened hget => exact (filesystemGetDirectoryEntry_coherent h hget).setFd

/-- Opening for reading does the same when every fetch is forced. -/
theorem fileOpenRead_forced (h : s.Coherent) :
    @fileOpenRead M.forced s fd = @fileOpenRead M s fd := by
  simp only [fileOpenRead, filesystemGetDirectoryEntry_forced h]

/-- Opening for writing leaves the buffer coherent. -/
theorem fileOpenWrite_coherent {r : Except FileError Unit} {s' : FileState} (h : s.Coherent)
    (hr : fileOpenWrite s fd = some (r, s')) : s'.Coherent := by
  have halloc_coherent : ∀ {r₁ s₁ c s₂},
      filesystemGetDirectoryEntry s (s.fdtable fd).name = some (r₁, s₁) →
      fatAllocateStartCluster s₁ = (c, s₂) → s₂.Coherent := fun hget halloc => by
    have := fatAllocateStartCluster_coherent (M := M) (filesystemGetDirectoryEntry_coherent h hget)
    rwa [halloc] at this
  cases fileOpenWrite_cases hr with
  | «exists» hget => exact filesystemGetDirectoryEntry_coherent h hget
  | diskFull hget halloc => exact halloc_coherent hget halloc
  | badName hget halloc => exact halloc_coherent hget halloc
  | dirFull hget halloc hc hsplit hcreate =>
    exact fileCreate_coherent (halloc_coherent hget halloc) hcreate
  | created hget halloc hc hsplit hcreate =>
    exact (fileCreate_coherent (halloc_coherent hget halloc) hcreate).setFd

/-- Opening for writing does the same when every fetch is forced. -/
theorem fileOpenWrite_forced (h : s.Coherent) :
    @fileOpenWrite M.forced s fd = @fileOpenWrite M s fd := by
  unfold fileOpenWrite
  rw [filesystemGetDirectoryEntry_forced h]
  rcases hget : @filesystemGetDirectoryEntry M s (s.fdtable fd).name with _ | ⟨_ | _, s₁⟩
  · rfl
  · have hg := filesystemGetDirectoryEntry_coherent h hget
    have ha := fatAllocateStartCluster_coherent (M := M) hg
    simp only [fatAllocateStartCluster_forced hg]
    rcases halloc : @fatAllocateStartCluster M s₁ with ⟨c, s₂⟩
    rw [halloc] at ha
    simp only [fileCreate_forced ha]
  · rfl

/-- Opening leaves the buffer coherent. -/
theorem fileOpen_coherent {mode : UInt8} {r : Except FileError (Fin fileLimit)} {s' : FileState}
    (h : s.Coherent) (hr : fileOpen s filename mode = some (r, s')) : s'.Coherent := by
  cases fileOpen_cases hr with
  | noFd => exact h
  | readError _ _ hopen => exact (fileOpenRead_coherent h.setFd hopen).release
  | read _ _ hopen => exact fileOpenRead_coherent h.setFd hopen
  | writeError _ _ hopen => exact (fileOpenWrite_coherent h.setFd hopen).release
  | write _ _ hopen => exact fileOpenWrite_coherent h.setFd hopen
  | badMode => exact h.setFd

/-- Opening does the same when every fetch is forced. -/
theorem fileOpen_forced {mode : UInt8} (h : s.Coherent) :
    @fileOpen M.forced s filename mode = @fileOpen M s filename mode := by
  unfold fileOpen
  split
  · rfl
  · rename_i fd _
    have hn : (s.named fd filename).Coherent := h.setFd
    simp only [fileOpenRead_forced hn, fileOpenWrite_forced hn]

/-- The creation of a file leaves the buffer coherent. -/
theorem fileNew_coherent {r : Except FileError Unit} {s' : FileState} (h : s.Coherent)
    (hr : fileNew s filename = some (r, s')) : s'.Coherent := by
  cases fileNew_cases hr with
  | noFd => exact h
  | ran _ hopen => exact (fileOpenWrite_coherent h.setFd hopen).release

/-- The creation of a file does the same when every fetch is forced. -/
theorem fileNew_forced (h : s.Coherent) :
    @fileNew M.forced s filename = @fileNew M s filename := by
  unfold fileNew
  split
  · rfl
  · rename_i fd _
    have hn : (s.named fd filename).Coherent := h.setFd
    simp only [fileOpenWrite_forced hn]

/-- Closing leaves the buffer coherent. -/
theorem fileClose_coherent {i : ℤ} {r : Unit} {s' : FileState} (h : s.Coherent)
    (hr : fileClose s i = some (r, s')) : s'.Coherent := by
  obtain ⟨fd, -, hclose⟩ := fileClose_cases hr
  cases hclose with
  | notWriting => exact h.release
  | writing _ hget _ hset =>
    have hg := filesystemGetDirectoryEntry_coherent h hget
    exact (filesystemSetDirectoryEntry_coherent hg.saveEntry hset).release

/-- Closing does the same when every fetch is forced. -/
theorem fileClose_forced {i : ℤ} (h : s.Coherent) :
    @fileClose M.forced s i = @fileClose M s i := by
  unfold fileClose
  split
  · rfl
  · rename_i fd _
    simp only [filesystemGetDirectoryEntry_forced h]
    rcases hget : @filesystemGetDirectoryEntry M s (s.fdtable fd).name with _ | ⟨r, s₁⟩
    · rfl
    · have hg := filesystemGetDirectoryEntry_coherent h hget
      simp only [filesystemSetDirectoryEntry_forced hg.saveEntry]

/-- The release of a chain leaves the buffer coherent. -/
theorem deallocateChain_coherent {s' : FileState} (h : s.Coherent)
    (hr : deallocateChain k s cluster = some s') : s'.Coherent := by
  induction k generalizing s cluster with
  | zero => simp [deallocateChain] at hr
  | succ k ih =>
    simp only [deallocateChain] at hr
    split at hr
    · exact Option.some.inj hr ▸ h
    · exact ih (fatSetCluster_coherent (fatNextCluster_coherent h)) hr

/-- The release of a chain does the same when every fetch is forced. -/
theorem deallocateChain_forced (h : s.Coherent) :
    @deallocateChain M.forced k s cluster = @deallocateChain M k s cluster := by
  induction k generalizing s cluster with
  | zero => rfl
  | succ k ih =>
    have hn : (@fatNextCluster M s cluster).2.Coherent := fatNextCluster_coherent h
    simp only [deallocateChain, fatDeallocateCluster, fatNextCluster_forced h,
      fatSetCluster_forced hn, ih (fatSetCluster_coherent (M := M) hn)]

/-- Deleting leaves the buffer coherent. -/
theorem fileDelete_coherent {r : Except FileError Unit} {s' : FileState} (h : s.Coherent)
    (hr : fileDelete s filename = some (r, s')) : s'.Coherent := by
  cases fileDelete_cases hr with
  | missing hget => exact filesystemGetDirectoryEntry_coherent h hget
  | freed hget hfree hmark =>
    have hg := filesystemGetDirectoryEntry_coherent h hget
    exact filesystemMarkDirectoryEntryFree_coherent (deallocateChain_coherent hg hfree) hmark

/-- Deleting does the same when every fetch is forced. -/
theorem fileDelete_forced (h : s.Coherent) :
    @fileDelete M.forced s filename = @fileDelete M s filename := by
  unfold fileDelete
  simp only [filesystemGetDirectoryEntry_forced h]
  rcases hget : @filesystemGetDirectoryEntry M s (filenameUpper filename) with
    _ | ⟨_ | entry, s₁⟩
  · rfl
  · rfl
  · have hg := filesystemGetDirectoryEntry_coherent h hget
    simp only [deallocateChain_forced hg]
    rcases hfree : @deallocateChain M M.turns s₁ entry.startingCluster with _ | s₂
    · rfl
    · exact filesystemMarkDirectoryEntryFree_forced (deallocateChain_coherent hg hfree)

/-! ### Reading -/

/-- The step of a reader to the next sector leaves the buffer coherent. -/
theorem readNextSector_coherent (h : s.Coherent) : (readNextSector s fd).Coherent := by
  unfold readNextSector
  simp only
  split_ifs
  · exact (fatNextCluster_coherent h.setFd).setFd
  · exact h.setFd

/-- The step of a reader to the next sector does the same when every fetch is forced. -/
theorem readNextSector_forced (h : s.Coherent) :
    @readNextSector M.forced s fd = @readNextSector M s fd := by
  simp only [readNextSector, fatNextCluster_forced h.setFd]

/-- The read of a byte leaves the buffer coherent. -/
theorem fileReadbyte_coherent (h : s.Coherent) : (fileReadbyte s fd).2.Coherent := by
  simp only [fileReadbyte, readSectorCached_eq h]
  split_ifs
  · exact h
  · exact h
  · exact readNextSector_coherent coherent_cached.setFd
  · exact coherent_cached.setFd

/-- The read of a byte does the same when every fetch is forced. -/
theorem fileReadbyte_forced (h : s.Coherent) :
    @fileReadbyte M.forced s fd = @fileReadbyte M s fd := by
  simp only [fileReadbyte, readSectorCached_eq h, readNextSector_forced coherent_cached.setFd]
  rfl

/-- The read of a sector leaves the buffer coherent. -/
theorem fileReadsector_coherent (h : s.Coherent) : (fileReadsector s fd).2.Coherent := by
  unfold fileReadsector
  simp only
  split_ifs
  · exact h
  · exact h
  · exact readNextSector_coherent h.setFd

/-- The read of a sector does the same when every fetch is forced. -/
theorem fileReadsector_forced (h : s.Coherent) :
    @fileReadsector M.forced s fd = @fileReadsector M s fd := by
  simp only [fileReadsector, readNextSector_forced h.setFd]

/-- The read up to the end of a sector leaves the buffer coherent. -/
theorem readToBoundary_coherent {t : Transfer} (h : t.state.Coherent) :
    (readToBoundary fd k t).2.state.Coherent := by
  induction k generalizing t with
  | zero => exact h
  | succ k ih =>
    have hb : (@fileReadbyte M t.state fd).2.Coherent := fileReadbyte_coherent h
    unfold readToBoundary
    split_ifs
    · exact h
    · rcases hr : fileReadbyte t.state fd with ⟨_ | c, s'⟩
      all_goals
        rw [hr] at hb
        simp only
      · exact hb
      · split_ifs
        · exact hb
        · exact ih hb

/-- The read up to the end of a sector does the same when every fetch is forced. -/
theorem readToBoundary_forced {t : Transfer} (h : t.state.Coherent) :
    @readToBoundary M.forced fd k t = @readToBoundary M fd k t := by
  induction k generalizing t with
  | zero => rfl
  | succ k ih =>
    have hb : (@fileReadbyte M t.state fd).2.Coherent := fileReadbyte_coherent h
    simp only [readToBoundary, fileReadbyte_forced h]
    rcases hr : @fileReadbyte M t.state fd with ⟨_ | c, s'⟩
    · rfl
    · rw [hr] at hb
      simp only [ih (t := ⟨_, _, _, s'⟩) hb]

/-- The read of whole sectors leaves the buffer coherent. -/
theorem readFullSectors_coherent {t : Transfer} (h : t.state.Coherent) :
    (readFullSectors fd k t).2.state.Coherent := by
  induction k generalizing t with
  | zero => exact h
  | succ k ih =>
    have hb : (@fileReadsector M t.state fd).2.Coherent := fileReadsector_coherent h
    unfold readFullSectors
    rcases hr : fileReadsector t.state fd with ⟨_ | c, s'⟩
    all_goals
      rw [hr] at hb
      simp only
    · exact hb
    · exact ih hb

/-- The read of whole sectors does the same when every fetch is forced. -/
theorem readFullSectors_forced {t : Transfer} (h : t.state.Coherent) :
    @readFullSectors M.forced fd k t = @readFullSectors M fd k t := by
  induction k generalizing t with
  | zero => rfl
  | succ k ih =>
    have hb : (@fileReadsector M t.state fd).2.Coherent := fileReadsector_coherent h
    simp only [readFullSectors, fileReadsector_forced h]
    rcases hr : @fileReadsector M t.state fd with ⟨_ | c, s'⟩
    · rfl
    · rw [hr] at hb
      simp only [ih (t := ⟨_, _, _, s'⟩) hb]

/-- The read of the rest leaves the buffer coherent. -/
theorem readTail_coherent {t : Transfer} (h : t.state.Coherent) :
    (readTail fd k t).state.Coherent := by
  induction k generalizing t with
  | zero => exact h
  | succ k ih =>
    have hb : (@fileReadbyte M t.state fd).2.Coherent := fileReadbyte_coherent h
    unfold readTail
    rcases hr : fileReadbyte t.state fd with ⟨_ | c, s'⟩
    all_goals
      rw [hr] at hb
      simp only
    · exact hb
    · exact ih hb

/-- The read of the rest does the same when every fetch is forced. -/
theorem readTail_forced {t : Transfer} (h : t.state.Coherent) :
    @readTail M.forced fd k t = @readTail M fd k t := by
  induction k generalizing t with
  | zero => rfl
  | succ k ih =>
    have hb : (@fileReadbyte M t.state fd).2.Coherent := fileReadbyte_coherent h
    simp only [readTail, fileReadbyte_forced h]
    rcases hr : @fileReadbyte M t.state fd with ⟨_ | c, s'⟩
    · rfl
    · rw [hr] at hb
      simp only [ih (t := ⟨_, _, _, s'⟩) hb]

/-- The three parts of a read leaves the buffer coherent. -/
theorem readPhases_coherent {t : Transfer} (h : t.state.Coherent) :
    (readPhases fd t).state.Coherent := by
  have hb : (@readToBoundary M fd M.turns t).2.state.Coherent := readToBoundary_coherent h
  unfold readPhases
  rcases hr : readToBoundary fd Machine.turns t with ⟨_ | _, t₁⟩
  all_goals
    rw [hr] at hb
    simp only
  · have hf :
        (@readFullSectors M fd (t₁.n / t.state.diskInfo.bytesPerSector) t₁).2.state.Coherent :=
      readFullSectors_coherent hb
    rcases hr' : readFullSectors fd (t₁.n / t.state.diskInfo.bytesPerSector) t₁ with ⟨_ | _, t₂⟩
    all_goals
      rw [hr'] at hf
      simp only
    · exact readTail_coherent hf
    · exact hf
  · exact hb

/-- The three parts of a read does the same when every fetch is forced. -/
theorem readPhases_forced {t : Transfer} (h : t.state.Coherent) :
    @readPhases M.forced fd t = @readPhases M fd t := by
  have hb : (@readToBoundary M fd M.turns t).2.state.Coherent := readToBoundary_coherent h
  unfold readPhases
  rw [readToBoundary_forced h]
  rcases hr : @readToBoundary M fd M.turns t with ⟨_ | _, t₁⟩
  · rw [hr] at hb
    have hf :
        (@readFullSectors M fd (t₁.n / t.state.diskInfo.bytesPerSector) t₁).2.state.Coherent :=
      readFullSectors_coherent hb
    simp only [readFullSectors_forced hb]
    rcases hr' : @readFullSectors M fd (t₁.n / t.state.diskInfo.bytesPerSector) t₁ with
      ⟨_ | _, t₂⟩
    · rw [hr'] at hf
      simp only [readTail_forced hf]
    · rfl
  · rfl

/-- A read leaves the buffer coherent. -/
theorem fileRead_coherent {ptr n : ℕ} {i : ℤ} (h : s.Coherent) :
    (fileRead s ptr n i).2.Coherent := by
  unfold fileRead
  split_ifs with hptr
  · exact h
  rcases descriptor? i with _ | fd
  · exact h
  simp only
  split_ifs with hmode hleft
  · exact h
  all_goals exact readPhases_coherent h

/-- A read does the same when every fetch is forced. -/
theorem fileRead_forced {ptr n : ℕ} {i : ℤ} (h : s.Coherent) :
    @fileRead M.forced s ptr n i = @fileRead M s ptr n i := by
  unfold fileRead
  rcases descriptor? i with _ | fd
  · rfl
  · simp only [readPhases_forced (t := ⟨_, _, _, s⟩) h]

/-! ### Writing -/

/-- The step of a writer to the next cluster leaves the buffer coherent. -/
theorem writeNextCluster_coherent (h : s.Coherent) : (writeNextCluster s fd).2.Coherent := by
  unfold writeNextCluster
  simp only
  split_ifs
  · exact fatAllocateCluster_coherent (fatNextCluster_coherent h)
  · exact (fatAllocateCluster_coherent (fatNextCluster_coherent h)).setFd
  · exact (fatNextCluster_coherent h).setFd
  · exact h

/-- The step of a writer to the next cluster does the same when every fetch is forced. -/
theorem writeNextCluster_forced (h : s.Coherent) :
    @writeNextCluster M.forced s fd = @writeNextCluster M s fd := by
  unfold writeNextCluster
  simp only [fatNextCluster_forced h,
    fatAllocateCluster_forced (fatNextCluster_coherent (M := M) h)]

/-- The step of a writer to the next sector leaves the buffer coherent. -/
theorem writeNextSector_coherent (h : s.Coherent) : (writeNextSector s fd).2.Coherent :=
  writeNextCluster_coherent h.setFd

/-- The step of a writer to the next sector does the same when every fetch is forced. -/
theorem writeNextSector_forced (h : s.Coherent) :
    @writeNextSector M.forced s fd = @writeNextSector M s fd :=
  writeNextCluster_forced h.setFd

/-- The state in which a data sector has been changed for a descriptor. -/
theorem diskWrite_recordWrite_eq {off : ℕ} {data : List UInt8} :
    diskWrite (((s.cached sector).recordWrite fd sector).poke off data) sector =
      (s.recordWrite fd sector).store sector ((s.disk sector).memcpy off data) := rfl

/-- The write of a part of a sector leaves the buffer coherent. -/
theorem fileWritesector_coherent {data : List UInt8} {off : ℕ} (h : s.Coherent) :
    (fileWritesector s data off fd).2.Coherent := by
  unfold fileWritesector
  simp only [readSectorCached_eq h, diskWrite_recordWrite_eq]
  split_ifs
  · exact h
  · exact writeNextSector_coherent coherent_store.setFd
  · exact coherent_store.setFd

/-- The write of a part of a sector does the same when every fetch is forced. -/
theorem fileWritesector_forced {data : List UInt8} {off : ℕ} (h : s.Coherent) :
    @fileWritesector M.forced s data off fd = @fileWritesector M s data off fd := by
  unfold fileWritesector
  simp only [readSectorCached_eq h, diskWrite_recordWrite_eq,
    writeNextSector_forced coherent_store.setFd]

/-- The write of whole sectors leaves the buffer coherent. -/
theorem writeFullSectors_coherent {data : List UInt8} {bytes : ℕ} (h : s.Coherent) :
    (writeFullSectors fd k s data bytes).2.1.Coherent := by
  induction k generalizing s data bytes with
  | zero => exact h
  | succ k ih =>
    have hw : (@fileWritesector M s (data.take s.diskInfo.bytesPerSector) 0 fd).2.Coherent :=
      fileWritesector_coherent h
    simp only [writeFullSectors]
    split
    all_goals
      rename_i hr
      rw [hr] at hw
    · exact ih hw
    · exact hw

/-- The write of whole sectors does the same when every fetch is forced. -/
theorem writeFullSectors_forced {data : List UInt8} {bytes : ℕ} (h : s.Coherent) :
    @writeFullSectors M.forced fd k s data bytes = @writeFullSectors M fd k s data bytes := by
  induction k generalizing s data bytes with
  | zero => rfl
  | succ k ih =>
    have hw : (@fileWritesector M s (data.take s.diskInfo.bytesPerSector) 0 fd).2.Coherent :=
      fileWritesector_coherent h
    simp only [writeFullSectors, fileWritesector_forced h]
    split
    all_goals
      rename_i hr
      rw [hr] at hw
    · exact ih hw

/-- A write from the start of a sector on leaves the buffer coherent. -/
theorem writeAligned_coherent {data : List UInt8} {bytes : ℕ} (h : s.Coherent) :
    (writeAligned s data bytes fd).2.Coherent := by
  have hw : (@writeFullSectors M fd (data.length / s.diskInfo.bytesPerSector) s data
      bytes).2.1.Coherent := writeFullSectors_coherent h
  unfold writeAligned
  split_ifs
  · exact h
  rcases hr : writeFullSectors fd (data.length / s.diskInfo.bytesPerSector) s data bytes with
    ⟨_ | _, s₁, data₁, bytes₁⟩
  all_goals
    rw [hr] at hw
    simp only
  · split_ifs
    · exact hw
    · exact fileWritesector_coherent hw
  · exact hw

/-- A write from the start of a sector on does the same when every fetch is forced. -/
theorem writeAligned_forced {data : List UInt8} {bytes : ℕ} (h : s.Coherent) :
    @writeAligned M.forced s data bytes fd = @writeAligned M s data bytes fd := by
  have hw : (@writeFullSectors M fd (data.length / s.diskInfo.bytesPerSector) s data
      bytes).2.1.Coherent := writeFullSectors_coherent h
  unfold writeAligned
  rw [writeFullSectors_forced h]
  rcases hr : @writeFullSectors M fd (data.length / s.diskInfo.bytesPerSector) s data bytes with
    ⟨_ | _, s₁, data₁, bytes₁⟩
  · rw [hr] at hw
    simp only [fileWritesector_forced hw]
  · rfl

/-- A write leaves the buffer coherent. -/
theorem fileWrite_coherent {data : List UInt8} {i : ℤ} (h : s.Coherent) :
    (fileWrite s data i).2.Coherent := by
  unfold fileWrite
  rcases descriptor? i with _ | fd
  · exact h
  simp only
  split_ifs
  · exact h
  all_goals try exact writeAligned_coherent h
  all_goals
    split
    all_goals
      rename_i hr
      have hw := congrArg (fun r => r.2.Coherent) hr
      have hc := hw.mp (fileWritesector_coherent h)
    · exact writeAligned_coherent hc
    · exact hc

/-- A write does the same when every fetch is forced. -/
theorem fileWrite_forced {data : List UInt8} {i : ℤ} (h : s.Coherent) :
    @fileWrite M.forced s data i = @fileWrite M s data i := by
  unfold fileWrite
  rcases descriptor? i with _ | fd
  · rfl
  simp only [fileWritesector_forced h, writeAligned_forced h]
  generalize (if data.length < _ then data.length else _) = n
  have hw : (@fileWritesector M s (data.take n) (s.fdtable fd).fposWithinSector fd).2.Coherent :=
    fileWritesector_coherent h
  split_ifs
  · rfl
  · split
    all_goals
      rename_i hr
      rw [hr] at hw
    · exact writeAligned_forced hw
  · rfl

/-! ### Information -/

/-- The count of the entries leaves the buffer coherent. -/
theorem fileEntries_coherent {n : ℕ} {s' : FileState} (h : s.Coherent)
    (hr : fileEntries s = some (n, s')) : s'.Coherent := by
  unfold fileEntries at hr
  exact countSectors_coherent h hr

/-- The count of the entries does the same when every fetch is forced. -/
theorem fileEntries_forced (h : s.Coherent) : @fileEntries M.forced s = @fileEntries M s := by
  unfold fileEntries
  exact countSectors_forced h

/-- The name of an entry leaves the buffer coherent. -/
theorem fileEntry_coherent {n : ℕ} {r : Except FileError (List UInt8)} {s' : FileState}
    (h : s.Coherent) (hr : fileEntry s n = some (r, s')) : s'.Coherent := by
  unfold fileEntry at hr
  exact nthSectors_coherent h hr

/-- The name of an entry does the same when every fetch is forced. -/
theorem fileEntry_forced {n : ℕ} (h : s.Coherent) :
    @fileEntry M.forced s n = @fileEntry M s n := by
  unfold fileEntry
  exact nthSectors_forced h

/-- The information about a file leaves the buffer coherent. -/
theorem fileInfo_coherent {r : Except FileError FInfo} {s' : FileState} (h : s.Coherent)
    (hr : fileInfo s filename = some (r, s')) : s'.Coherent := by
  unfold fileInfo at hr
  rcases hget : filesystemGetDirectoryEntry s (filenameUpper filename) with _ | ⟨_ | _, s₁⟩
  all_goals simp only [hget, Option.some.injEq, Prod.mk.injEq, reduceCtorEq] at hr
  all_goals exact hr.2 ▸ filesystemGetDirectoryEntry_coherent h hget

/-- The information about a file does the same when every fetch is forced. -/
theorem fileInfo_forced (h : s.Coherent) :
    @fileInfo M.forced s filename = @fileInfo M s filename := by
  simp only [fileInfo, filesystemGetDirectoryEntry_forced h]

end

end Z80OS
