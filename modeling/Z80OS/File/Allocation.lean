import Z80OS.File.Frame

set_option relaxedAutoImplicit false
set_option autoImplicit false

/-!
# Allocation

The search for a free cluster reads the FAT and changes nothing on the disk, and which cluster it
answers with does not depend on what the cache holds. In a coherent state an allocation therefore
writes the words of one or two clusters and does nothing else.

## Main definitions

* `Z80OS.freeCluster` — the answer of the search.
* `Z80OS.FileState.link` — the state after the word of a cluster has been replaced.

## Main results

* `Z80OS.fatFindFreeCluster_eq` — the search.
* `Z80OS.fatAllocateStartCluster_cases`, `Z80OS.fatAllocateCluster_cases` — allocation.
* `Z80OS.freeCluster_eq_first` — when one of the first words is `0`, the first of them is found.
-/

namespace Z80OS

/-- The state with a search for a free cluster recorded. -/
def FileState.recordSearch (s : FileState) (found : ℕ) : FileState :=
  { s with trace := .search s.disk found :: s.trace }

/-- The state after the word of a cluster has been replaced on the disk. -/
def FileState.link (s : FileState) (cluster next : ℕ) : FileState :=
  s.store (fatSectorOf s.diskInfo cluster)
    ((s.disk (fatSectorOf s.diskInfo cluster)).memcpy (fatOffsetOf s.diskInfo cluster)
      (bytes16 next))

section

variable [Machine]

/-- The cluster that a search for a free one answers with, or `0`. -/
def freeCluster (s : FileState) : ℕ :=
  (findFreeLoop Machine.turns s 2 2 s.diskInfo.fatRegion).1

end

variable {M : Machine} {s s' : FileState} {k c i j sector cluster next : ℕ}

/-- From a coherent buffer the store of the word of a cluster links it. -/
theorem fatSetCluster_eq_link (h : s.Coherent) :
    fatSetCluster s cluster next = s.link cluster next := fatSetCluster_eq h

/-- The buffer is coherent once a cluster has been linked. -/
theorem FileState.coherent_link : (s.link cluster next).Coherent := coherent_store

/-- The record of a search leaves the buffer coherent. -/
theorem FileState.Coherent.recordSearch (h : s.Coherent) : (s.recordSearch c).Coherent := h

/-- A link leaves the layout. -/
@[simp] theorem FileState.link_diskInfo : (s.link cluster next).diskInfo = s.diskInfo := rfl

/-- A link leaves the table of open files. -/
@[simp] theorem FileState.link_fdtable : (s.link cluster next).fdtable = s.fdtable := rfl

/-- A link leaves the events so far. -/
@[simp] theorem FileState.link_trace : (s.link cluster next).trace = s.trace := rfl

/-- The record of a search leaves the disk. -/
@[simp] theorem FileState.recordSearch_disk : (s.recordSearch c).disk = s.disk := rfl

/-- The record of a search leaves the layout. -/
@[simp] theorem FileState.recordSearch_diskInfo : (s.recordSearch c).diskInfo = s.diskInfo := rfl

/-- The record of a search leaves the table of open files. -/
@[simp] theorem FileState.recordSearch_fdtable : (s.recordSearch c).fdtable = s.fdtable := rfl

/-- The search leaves some sector in the cache and changes nothing else. -/
theorem findFreeLoop_state (h : s.Coherent) :
    ∃ j, (findFreeLoop k s c i sector).2 = s.cached j := by
  induction k generalizing s c i sector with
  | zero => exact ⟨s.currentCacheSector, h.eq_cached.symm⟩
  | succ k ih =>
    simp only [findFreeLoop, readSectorCached_eq h]
    split_ifs
    · exact ⟨sector, rfl⟩
    · exact ⟨sector, rfl⟩
    · exact ih FileState.coherent_cached
    · exact ⟨sector, rfl⟩
    · exact ih FileState.coherent_cached

/-- The answer of the search does not depend on the cache. -/
theorem findFreeLoop_cached (h : s.Coherent) :
    (findFreeLoop k (s.cached j) c i sector).1 = (findFreeLoop k s c i sector).1 := by
  cases k with
  | zero => rfl
  | succ k =>
    simp only [findFreeLoop, readSectorCached_eq h, readSectorCached_eq FileState.coherent_cached,
      FileState.cached_cached]

/-- The search for a free cluster answers the same whatever sector has been fetched. -/
theorem freeCluster_cached (h : s.Coherent) : freeCluster (s.cached j) = freeCluster s :=
  findFreeLoop_cached h

/-- Up to a fetch, the driver answers with the free cluster and records the search. -/
theorem fatFindFreeCluster_eq (h : s.Coherent) :
    ∃ j, fatFindFreeCluster s = (freeCluster s, (s.cached j).recordSearch (freeCluster s)) := by
  obtain ⟨j, hj⟩ : ∃ j, (findFreeLoop M.turns s 2 2 s.diskInfo.fatRegion).2 = s.cached j :=
    findFreeLoop_state h
  refine ⟨j, ?_⟩
  unfold fatFindFreeCluster
  simp only [hj]
  rfl

/-- Allocation of a first cluster: the disk stays as it is when there is no free cluster, else the
word of the free cluster becomes the end mark. -/
theorem fatAllocateStartCluster_cases (h : s.Coherent)
    (ha : fatAllocateStartCluster s = (c, s')) :
    c = freeCluster s ∧
      (c = 0 ∧ (∃ j, s' = (s.cached j).recordSearch 0) ∨
        c ≠ 0 ∧ s' = (s.recordSearch c).link c clusterEof) := by
  obtain ⟨j, hj⟩ := fatFindFreeCluster_eq (M := M) h
  unfold fatAllocateStartCluster at ha
  rw [hj] at ha
  simp only at ha
  split_ifs at ha with h0 <;> simp only [Prod.mk.injEq] at ha <;> obtain ⟨rfl, rfl⟩ := ha
  · exact ⟨h0.symm, .inl ⟨rfl, j, by rw [h0]⟩⟩
  · refine ⟨rfl, .inr ⟨h0, ?_⟩⟩
    have hc : ((s.cached j).recordSearch (freeCluster s)).Coherent := FileState.coherent_cached
    rw [fatSetCluster_eq_link hc]
    rfl

/-- Allocation of a further cluster: the word of the last cluster of the chain becomes the free
one, and its word the end mark. -/
theorem fatAllocateCluster_cases (h : s.Coherent)
    (ha : fatAllocateCluster s cluster = (c, s')) :
    c = freeCluster s ∧
      (c = 0 ∧ (∃ j, s' = (s.cached j).recordSearch 0) ∨
        c ≠ 0 ∧ s' = ((s.recordSearch c).link cluster c).link c clusterEof) := by
  obtain ⟨j, hj⟩ := fatFindFreeCluster_eq (M := M) h
  unfold fatAllocateCluster at ha
  rw [hj] at ha
  simp only at ha
  split_ifs at ha with h0 <;> simp only [Prod.mk.injEq] at ha <;> obtain ⟨rfl, rfl⟩ := ha
  · exact ⟨h0.symm, .inl ⟨rfl, j, by rw [h0]⟩⟩
  · refine ⟨rfl, .inr ⟨h0, ?_⟩⟩
    have hc : ((s.cached j).recordSearch (freeCluster s)).Coherent := FileState.coherent_cached
    rw [fatSetCluster_eq_link hc, fatSetCluster_eq_link FileState.coherent_link]
    rfl

/-- The word of a cluster in the first FAT sector, as the search reads it. -/
theorem tempWord_cached_fat (hc : c < 256) :
    (s.cached sector).tempWord (c * 2) = (s.disk sector).word (2 * c) := by
  simp only [FileState.tempWord, FileState.tempByte, FileState.cached_tempSector]
  rw [if_pos (by omega), if_pos (by omega), mul_comm]
  rfl

/-- The search answers with a cluster whose word is `0`. -/
theorem findFreeLoop_free (h : s.Coherent) (hc : c < 256)
    (h0 : (s.disk sector).word (2 * c) = 0) : (findFreeLoop (k + 1) s c c sector).1 = c := by
  simp only [findFreeLoop, readSectorCached_eq h, tempWord_cached_fat hc, h0, clusterFree, if_true]

/-- The search passes over the words of the first FAT sector that are in use.

**Proof sketch.** Induction on the number of words. In front of the index 256 a turn of the loop
goes on to the next index and the next cluster. -/
theorem findFreeLoop_skip {n : ℕ} (h : s.Coherent) (hbps : s.diskInfo.bytesPerSector = 512)
    (hroot : sector ≠ s.diskInfo.rootRegion) (hn : c + n ≤ 256)
    (hused : ∀ b, c ≤ b → b < c + n → (s.disk sector).word (2 * b) ≠ 0) :
    (findFreeLoop (k + n) s c c sector).1 = (findFreeLoop k s (c + n) (c + n) sector).1 := by
  induction n generalizing c with
  | zero => rfl
  | succ n ih =>
    have hword := hused c (le_refl c) (by omega)
    have hnext : (findFreeLoop (k + (n + 1)) s c c sector).1 =
        (findFreeLoop (k + n) (s.cached sector) (c + 1) (c + 1) sector).1 := by
      rw [← add_assoc k n 1, findFreeLoop]
      simp only [readSectorCached_eq h, tempWord_cached_fat (show c < 256 by omega), clusterFree,
        if_neg hword, FileState.cached_diskInfo, hbps, if_neg (show ¬ c + 1 > 512 / 2 by omega),
        if_neg hroot, Nat.mod_eq_of_lt (show c + 1 < 65536 by omega)]
    rw [hnext, findFreeLoop_cached h, ih (by omega) fun b hb hlt => hused b (by omega) (by omega),
      add_assoc, add_comm 1 n]

/-- **The search finds the first free cluster of the first FAT sector**, when there is one among
those with a number below `256`. -/
theorem freeCluster_eq_first (h : s.Coherent) (hbps : s.diskInfo.bytesPerSector = 512)
    (hroot : s.diskInfo.fatRegion ≠ s.diskInfo.rootRegion) (h2 : 2 ≤ c) (hlt : c < 256)
    (h0 : (s.disk s.diskInfo.fatRegion).word (2 * c) = 0)
    (hused : ∀ b, 2 ≤ b → b < c → (s.disk s.diskInfo.fatRegion).word (2 * b) ≠ 0) :
    freeCluster s = c := by
  have hturns := M.turns_ge
  obtain ⟨k, hk⟩ : ∃ k, M.turns = k + 1 + (c - 2) := ⟨M.turns - 1 - (c - 2), by omega⟩
  rw [freeCluster, hk, findFreeLoop_skip h hbps hroot (by omega)
    fun b hb hbc => hused b hb (by omega), Nat.add_sub_cancel' h2]
  exact findFreeLoop_free h hlt h0

/-- The search finds a free cluster of the first FAT sector, when there is one among those with a
number below `256`. -/
theorem freeCluster_spec (h : s.Coherent) (hbps : s.diskInfo.bytesPerSector = 512)
    (hroot : s.diskInfo.fatRegion ≠ s.diskInfo.rootRegion)
    (hfree : ∃ c, 2 ≤ c ∧ c < 256 ∧ (s.disk s.diskInfo.fatRegion).word (2 * c) = 0) :
    2 ≤ freeCluster s ∧ freeCluster s < 256 ∧
      (s.disk s.diskInfo.fatRegion).word (2 * freeCluster s) = 0 := by
  obtain ⟨h2, hlt, h0⟩ := Nat.find_spec hfree
  have hfirst : freeCluster s = Nat.find hfree :=
    freeCluster_eq_first h hbps hroot h2 hlt h0 fun b hb hbc hb0 =>
      Nat.find_min hfree hbc ⟨hb, by omega, hb0⟩
  rw [hfirst]
  exact ⟨h2, hlt, h0⟩

end Z80OS
