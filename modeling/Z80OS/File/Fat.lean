import Z80OS.File.Directory

set_option relaxedAutoImplicit false
set_option autoImplicit false

/-!
# The file allocation table

The first copy of the FAT holds a 16-bit word for every cluster: the next cluster of its chain,
`0xffff` for the last one, `0` for a cluster that is not in use. The driver reads and writes the
words through the sector cache.

## Main definitions

* `Z80OS.fatNextCluster`, `Z80OS.fatSetCluster` — access to one word.
* `Z80OS.fatFindFreeCluster` — the search for a word `0`.
* `Z80OS.fatAllocateStartCluster`, `Z80OS.fatAllocateCluster`, `Z80OS.fatDeallocateCluster` —
  allocation.
* `Z80OS.fileStartSector` — the first data sector of a cluster.
-/

namespace Z80OS

/-- The sector in which the driver looks for the word of a cluster. The byte offset into the FAT is
kept in 16 bits. -/
def fatSectorOf (info : DiskInfo) (cluster : ℕ) : ℕ :=
  (info.fatRegion + cluster * 2 % 65536 / info.bytesPerSector) % sectorNumbers

/-- The offset in that sector of the word of a cluster. -/
def fatOffsetOf (info : DiskInfo) (cluster : ℕ) : ℕ := cluster * 2 % 65536 % info.bytesPerSector

section

variable [Machine]

/-- The word of a cluster. -/
def fatNextCluster (s : FileState) (cluster : ℕ) : ℕ × FileState :=
  let fatSector := fatSectorOf s.diskInfo cluster
  let entry := fatOffsetOf s.diskInfo cluster
  let s := readSectorCached s fatSector false
  (s.tempWord entry, s)

/-- Replaces the word of a cluster. -/
def fatSetCluster (s : FileState) (cluster nextCluster : ℕ) : FileState :=
  let fatSector := fatSectorOf s.diskInfo cluster
  let entry := fatOffsetOf s.diskInfo cluster
  let s := readSectorCached s fatSector false
  diskWrite (s.poke entry (bytes16 nextCluster)) fatSector

/-- The search for a free cluster over at most `k` words: `allocatedCluster` is the cluster whose
word is looked for at index `entryWithinSector` of `fatSector`. The answer is `0` once the search
has left the sectors in front of the root directory. -/
def findFreeLoop : ℕ → FileState → ℕ → ℕ → ℕ → ℕ × FileState
  | 0, s, _, _, _ => (0, s)
  | k + 1, s, allocatedCluster, entryWithinSector, fatSector =>
    let s := readSectorCached s fatSector false
    let entry := s.tempWord (entryWithinSector * 2)
    if entry = clusterFree then (allocatedCluster, s)
    else
      let allocatedCluster := (allocatedCluster + 1) % 65536
      let entryWithinSector := entryWithinSector + 1
      let past := entryWithinSector > s.diskInfo.bytesPerSector / 2
      let entryWithinSector := if past then 0 else entryWithinSector
      let fatSector := if past then (fatSector + 1) % sectorNumbers else fatSector
      if fatSector = s.diskInfo.rootRegion then (0, s)
      else findFreeLoop k s allocatedCluster entryWithinSector fatSector

/-- The first free cluster, or `0`. -/
def fatFindFreeCluster (s : FileState) : ℕ × FileState :=
  let r := findFreeLoop Machine.turns s 2 2 s.diskInfo.fatRegion
  (r.1, { r.2 with trace := .search r.2.disk r.1 :: r.2.trace })

/-- Takes a free cluster as the first one of a chain. The answer is `0` when there is none. -/
def fatAllocateStartCluster (s : FileState) : ℕ × FileState :=
  let (freeCluster, s) := fatFindFreeCluster s
  if freeCluster = 0 then (0, s)
  else (freeCluster, fatSetCluster s freeCluster clusterEof)

/-- Takes a free cluster and links it behind the given one. The answer is `0` when there is
none. -/
def fatAllocateCluster (s : FileState) (cluster : ℕ) : ℕ × FileState :=
  let (nextCluster, s) := fatFindFreeCluster s
  if nextCluster = 0 then (0, s)
  else
    let s := fatSetCluster s cluster nextCluster
    (nextCluster, fatSetCluster s nextCluster clusterEof)

/-- Makes a cluster free. -/
def fatDeallocateCluster (s : FileState) (cluster : ℕ) : FileState :=
  fatSetCluster s cluster clusterFree

end

/-- The first sector of a cluster. The product is 16 bits wide. -/
def fileStartSector (info : DiskInfo) (cluster : ℕ) : ℕ :=
  (info.dataRegion + (cluster + 65534) % 65536 * info.sectorsPerCluster % 65536) % sectorNumbers

end Z80OS
