import Z80OS.File.Fat

set_option relaxedAutoImplicit false
set_option autoImplicit false

/-!
# The file driver of the loader

The loader reads the kernel from the disk with a driver of its own, which only reads. It is a copy
of an early driver of the kernel. It has one buffer, behind its image in memory, and keeps the
number of the sector in the buffer in 16 bits, while the number of a sector has 32. There is no
table of descriptors: a file is a record of the caller.

The regions of the disk and the places of clusters and of their words are computed by the same
expressions as in the kernel.

## Main definitions

* `Z80OS.Loader.File`, `Z80OS.Loader.State` — an open file, and the global variables of the driver.
* `Z80OS.Loader.readSectorCached` — the buffer as a cache for one sector.
* `Z80OS.Loader.fileOpen` — opening.
* `Z80OS.Loader.fileReadbyte`, `Z80OS.Loader.fileReadsector`, `Z80OS.Loader.fileRead` — reading.
-/

namespace Z80OS.Loader

/-! ## State -/

/-- An open file. -/
@[ext]
structure File where
  size : ℕ
  fpos : ℕ
  startCluster : ℕ
  currentCluster : ℕ
  sector : ℕ
  fposWithinSector : ℕ
  deriving DecidableEq

/-- The global variables of the driver, and the disk. -/
structure State where
  disk : Disk
  diskInfo : DiskInfo
  tempSector : Sector
  currentCacheSector : ℕ

/-- What the driver depends on and C leaves open: the bytes that follow the buffer in memory. -/
class Memory where
  beyond : State → ℕ → UInt8

/-- Reads a sector into the buffer, unless the number of the sector in the buffer is equal to its
own. The number is stored in 16 bits. -/
def readSectorCached (s : State) (sector : ℕ) : State :=
  if s.currentCacheSector ≠ sector then
    { s with tempSector := s.disk sector, currentCacheSector := sector % 65536 }
  else s

/-- Reads the boot sector, which stays in the cache. -/
def filesystemInit (s : State) : State :=
  let boot := s.disk 0
  { s with tempSector := boot, diskInfo := bootDiskInfo boot, currentCacheSector := 0 }

/-! ## The directory -/

/-- The name of an entry. -/
def getFilename (dirEntry : ℕ → UInt8) : List UInt8 := filesystemFilename dirEntry

/-- The scan of the buffer for a name, over the given offsets. The entries of deleted files are not
passed over. -/
def scanSector (t : Sector) (filename : List UInt8) : List ℕ → Scan
  | [] => .more
  | f :: fs =>
    if t.at f 0 = 0 then .endOfDirectory
    else if t.at f 11 &&& 0x18 ≠ 0 then scanSector t filename fs
    else if getFilename (t.at f) = filename then .found f
    else scanSector t filename fs

/-- The scan of at most `k` sectors for a name. It answers with the bytes of the entry, or with
`none` at the end marker. -/
def searchSectors (filename : List UInt8) : ℕ → State → ℕ → Option (Option (ℕ → UInt8) × State)
  | 0, _, _ => none
  | k + 1, s, sector =>
    let s := readSectorCached s sector
    match scanSector s.tempSector filename entryOffsets with
    | .endOfDirectory => some (none, s)
    | .found f => some (some (s.tempSector.at f), s)
    | .more => searchSectors filename k s ((sector + 1) % sectorNumbers)

/-- How many sectors a scan has read when it has seen all of them. The first one may have been in
the buffer. -/
def scanTurns : ℕ := sectorNumbers + 1

/-- Looks up the entry of a file. -/
def getDirectoryEntry (s : State) (filename : List UInt8) : Option (Option (ℕ → UInt8) × State) :=
  searchSectors filename scanTurns s s.diskInfo.rootRegion

/-- Opens a file. -/
def fileOpen (s : State) (filename : List UInt8) : Option (Except FileError File × State) :=
  match getDirectoryEntry s filename with
  | none => none
  | some (none, s) => some (.error .fileNotFound, s)
  | some (some entry, s) =>
    let startCluster := word16 (entry 0x1a) (entry 0x1b)
    some (.ok
      { size := word32 (entry 0x1c) (entry 0x1d) (entry 0x1e) (entry 0x1f)
        startCluster := startCluster, currentCluster := startCluster, sector := 0
        fposWithinSector := 0, fpos := 0 }, s)

/-! ## Reading -/

/-- The first sector of a cluster. -/
def getStartSector (info : DiskInfo) (cluster : ℕ) : ℕ := fileStartSector info cluster

/-- The sector that a file is positioned in. -/
def File.sectorNumber (fd : File) (info : DiskInfo) : ℕ :=
  (getStartSector info fd.currentCluster + fd.sector) % sectorNumbers

/-- The file in the next sector of its cluster. -/
def File.nextSector (fd : File) : File := { fd with sector := (fd.sector + 1) % 256 }

section

variable [Memory]

/-- `temp_sector[i]`, also behind the end of the buffer. -/
def State.tempByte (s : State) (i : ℕ) : UInt8 :=
  if i < 512 then s.tempSector.get i else Memory.beyond s i

/-- The word of a cluster. -/
def getNextCluster (s : State) (cluster : ℕ) : ℕ × State :=
  let fatSector := fatSectorOf s.diskInfo cluster
  let entry := fatOffsetOf s.diskInfo cluster
  let s := readSectorCached s fatSector
  (word16 (s.tempByte entry) (s.tempByte (entry + 1)), s)

/-- Moves a file to the next sector, which may be in the next cluster. -/
def readNextSector (s : State) (fd : File) : File × State :=
  let fd := fd.nextSector
  if fd.sector = s.diskInfo.sectorsPerCluster then
    let (nextCluster, s) := getNextCluster s fd.currentCluster
    ({ fd with currentCluster := nextCluster, sector := 0 }, s)
  else (fd, s)

/-- Reads a byte. The answer is `none` at the end of the file. -/
def fileReadbyte (s : State) (fd : File) : Option UInt8 × File × State :=
  if fd.fpos = fd.size then (none, fd, s)
  else if fd.currentCluster = clusterEof then (none, fd, s)
  else
    let s := readSectorCached s (fd.sectorNumber s.diskInfo)
    let byte := s.tempByte fd.fposWithinSector
    let fd := { fd with
      fpos := (fd.fpos + 1) % 4294967296, fposWithinSector := (fd.fposWithinSector + 1) % 65536 }
    if fd.fposWithinSector = s.diskInfo.bytesPerSector then
      (some byte, readNextSector s { fd with fposWithinSector := 0 })
    else (some byte, fd, s)

/-- Reads a sector straight from the disk. The answer is `none` at the end of the file. -/
def fileReadsector (s : State) (fd : File) : Option (List UInt8) × File × State :=
  if fd.fpos = fd.size then (none, fd, s)
  else if fd.currentCluster = clusterEof then (none, fd, s)
  else
    let bytes := (s.disk (fd.sectorNumber s.diskInfo)).slice 0 512
    let fd := { fd with fpos := (fd.fpos + s.diskInfo.bytesPerSector) % 4294967296 }
    (some bytes, readNextSector s fd)

/-- The variables of a read: what is left to read, how much has been read, the bytes stored, the
file and the state. -/
structure Transfer where
  n : ℕ
  bytes : ℕ
  stored : List UInt8
  fd : File
  state : State

/-- The byte-by-byte phase up to the next sector boundary, in at most `k` turns. The flag tells that
the read returns here. What is left to read is counted down in 16 bits, and not looked at. -/
def readToBoundary : ℕ → Transfer → Bool × Transfer
  | 0, t => (true, t)
  | k + 1, t =>
    if t.fd.fposWithinSector = 0 then (false, t)
    else
      match fileReadbyte t.state t.fd with
      | (none, fd, s) => (true, { t with fd := fd, state := s })
      | (some c, fd, s) =>
        readToBoundary k
          { n := (t.n + 65535) % 65536, bytes := (t.bytes + 1) % 65536, stored := t.stored ++ [c]
            fd := fd, state := s }

/-- The phase that reads `k` whole sectors. -/
def readFullSectors : ℕ → Transfer → Bool × Transfer
  | 0, t => (false, t)
  | k + 1, t =>
    match fileReadsector t.state t.fd with
    | (none, fd, s) => (true, { t with fd := fd, state := s })
    | (some sector, fd, s) =>
      let bps := t.state.diskInfo.bytesPerSector
      readFullSectors k
        { n := t.n - bps, bytes := (t.bytes + bps) % 65536, stored := t.stored ++ sector
          fd := fd, state := s }

/-- The phase that reads the last `k` bytes. -/
def readTail : ℕ → Transfer → Transfer
  | 0, t => t
  | k + 1, t =>
    match fileReadbyte t.state t.fd with
    | (none, fd, s) => { t with fd := fd, state := s }
    | (some c, fd, s) =>
      readTail k
        { t with bytes := (t.bytes + 1) % 65536, stored := t.stored ++ [c], fd := fd, state := s }

/-- The turns in which the position in a sector, a counter of 16 bits, has come to every value. -/
def boundaryTurns : ℕ := 65537

/-- Reads up to `n` bytes. The result has the number of bytes read and the bytes stored. The size of
the file is not looked at before a sector is read. -/
def fileRead (s : State) (fd : File) (n : ℕ) : (ℕ × List UInt8) × File × State :=
  let t := match readToBoundary boundaryTurns ⟨n, 0, [], fd, s⟩ with
    | (true, t) => t
    | (false, t) =>
      match readFullSectors (t.n / s.diskInfo.bytesPerSector) t with
      | (true, t) => t
      | (false, t) => readTail t.n t
  ((t.bytes, t.stored), t.fd, t.state)

end

end Z80OS.Loader
