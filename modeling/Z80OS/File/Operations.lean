import Z80OS.File.Fat

set_option relaxedAutoImplicit false
set_option autoImplicit false

/-!
# The calls of the file driver

Opening, creating, closing and deleting files, reading and writing through a descriptor, and
information about a file, as `kernel/file.c` has them.

A call whose loops never end has the result `none`, and so has one that indexes the descriptor
table out of range. A buffer to write from is given by its bytes, a buffer to read into by its
address; the bytes that a read stores there are part of its result, in the order of their
addresses.

## Main definitions

* `Z80OS.fileOpen`, `Z80OS.fileNew`, `Z80OS.fileClose`, `Z80OS.fileDelete` — directory operations.
* `Z80OS.fileReadbyte`, `Z80OS.fileReadsector`, `Z80OS.fileRead` — reading.
* `Z80OS.fileWritesector`, `Z80OS.fileWrite` — writing.
* `Z80OS.fileInfo` — information.
-/

namespace Z80OS

/-- The descriptor of the given number, when it is in the range of the table. -/
def descriptor? (fd : ℤ) : Option (Fin fileLimit) :=
  if h : 0 ≤ fd ∧ fd.toNat < fileLimit then some ⟨fd.toNat, h.2⟩ else none

/-- The descriptor with its claim released. -/
def FileDescriptor.release (file : FileDescriptor) : FileDescriptor :=
  { file with flags := file.flags &&& ~~~fdFlagsClaimed }

/-- Releases the claim on a descriptor. -/
def FileState.release (s : FileState) (fd : Fin fileLimit) : FileState :=
  s.setFd fd (s.fdtable fd).release

/-- Gives a descriptor the name of the file to work on. -/
def FileState.named (s : FileState) (fd : Fin fileLimit) (filename : List UInt8) : FileState :=
  s.setFd fd { s.fdtable fd with name := filenameUpper filename }

/-- The first descriptor that is not claimed. -/
def filesystemAssignFd (s : FileState) : Option (Fin fileLimit) :=
  (List.finRange fileLimit).find? fun fd => (s.fdtable fd).flags &&& fdFlagsClaimed == 0

/-! ## Opening, creating and closing -/

/-- The descriptor positioned at the start of the file that an entry describes. -/
def FileDescriptor.start (file : FileDescriptor) (entry : DirectoryEntry) (mode : UInt8) :
    FileDescriptor :=
  { file with
    size := entry.size, startCluster := entry.startingCluster,
    currentCluster := entry.startingCluster, sector := 0, fposWithinSector := 0, fpos := 0
    mode := mode }

/-- The two parts of a name around its first dot. -/
def splitName (name : List UInt8) : Option (List UInt8 × List UInt8) :=
  if 0x2e ∈ name then
    some (name.takeWhile (· != 0x2e), (name.dropWhile (· != 0x2e)).tail)
  else none

/-- A name field filled up with spaces. What is copied past the end of the field lands in fields
that are assigned later. -/
def padField (n : ℕ) (l : List UInt8) : Vector UInt8 n := Vector.ofFn fun i => l.getD i 0x20

/-- The entry of a new, empty file. -/
def newEntry (name ext : List UInt8) (startCluster : ℕ) : DirectoryEntry where
  name := padField 8 name
  ext := padField 3 ext
  attributes := 0x00
  reservedForWindowsNt := 0x00
  creationMilliseconds := 0x00
  creationTime := 0x0000
  creationDate := 0x0021
  lastAccessDate := 0x0000
  reservedForFat32 := 0x0000
  lastWriteTime := 0x0000
  lastWriteDate := 0x0000
  startingCluster := startCluster
  size := 0

section

variable [Machine]

/-- Opens the file that the descriptor names for reading. -/
def fileOpenRead (s : FileState) (fd : Fin fileLimit) :
    Option (Except FileError Unit × FileState) :=
  match filesystemGetDirectoryEntry s (s.fdtable fd).name with
  | none => none
  | some (.error e, s) => some (.error e, s)
  | some (.ok entry, s) => some (.ok (), s.setFd fd ((s.fdtable fd).start entry fmodeRead))

/-- Creates the file that the descriptor names and opens it for writing. The first cluster is
allocated before the name is split and before the directory is searched for room. -/
def fileOpenWrite (s : FileState) (fd : Fin fileLimit) :
    Option (Except FileError Unit × FileState) :=
  match filesystemGetDirectoryEntry s (s.fdtable fd).name with
  | none => none
  | some (.ok _, s) => some (.error .fileExist, s)
  | some (.error _, s) =>
    let (startCluster, s) := fatAllocateStartCluster s
    if startCluster = 0 then some (.error .diskFull, s)
    else
      match splitName (s.fdtable fd).name with
      | none => some (.error .invalidFilename, s)
      | some (name, ext) =>
        let entry := newEntry name ext startCluster
        match fileCreate s entry with
        | none => none
        | some (true, s) => some (.error .dirFull, s)
        | some (false, s) => some (.ok (), s.setFd fd ((s.fdtable fd).start entry fmodeWrite))

/-- Opens a file. No path of the call sets the claim flag of the descriptor. -/
def fileOpen (s : FileState) (filename : List UInt8) (mode : UInt8) :
    Option (Except FileError (Fin fileLimit) × FileState) :=
  match filesystemAssignFd s with
  | none => some (.error .fileLimit, s)
  | some fd =>
    let s := s.named fd filename
    if mode = fmodeRead then
      match fileOpenRead s fd with
      | none => none
      | some (.error e, s) => some (.error e, s.release fd)
      | some (.ok _, s) => some (.ok fd, s)
    else if mode = fmodeWrite then
      match fileOpenWrite s fd with
      | none => none
      | some (.error e, s) => some (.error e, s.release fd)
      | some (.ok _, s) => some (.ok fd, s)
    else some (.error .invalidMode, s)

/-- Creates a file. -/
def fileNew (s : FileState) (filename : List UInt8) : Option (Except FileError Unit × FileState) :=
  match filesystemAssignFd s with
  | none => some (.error .fileLimit, s)
  | some fd =>
    let s := s.named fd filename
    match fileOpenWrite s fd with
    | none => none
    | some (r, s) => some (r, s.release fd)

/-- Closes a descriptor; a file opened for writing gets its size into its entry. The static entry
keeps its old contents when the name is not found. -/
def fileClose (s : FileState) (fd : ℤ) : Option (Unit × FileState) :=
  match descriptor? fd with
  | none => none
  | some fd =>
    let file := s.fdtable fd
    if file.mode = fmodeWrite then
      match filesystemGetDirectoryEntry s file.name with
      | none => none
      | some (r, s) =>
        let entry := match r with
          | .ok entry => entry
          | .error _ => s.closeEntry
        let entry := entry.withSize file.size
        match filesystemSetDirectoryEntry (s.saveEntry entry) entry file.name with
        | none => none
        | some (_, s) => some ((), s.release fd)
    else some ((), s.release fd)

/-! ## Deleting -/

/-- Frees the clusters from the given one on, in at most `k` turns. A turn clears a word that is
not `0` or goes on at cluster `0`, so the loop has ended after two turns for each of the 65536
cluster numbers, or never ends. -/
def deallocateChain : ℕ → FileState → ℕ → Option FileState
  | 0, _, _ => none
  | k + 1, s, cluster =>
    if cluster = clusterEof then some s
    else
      let (nextCluster, s) := fatNextCluster s cluster
      deallocateChain k (fatDeallocateCluster s cluster) nextCluster

/-- Deletes a file. -/
def fileDelete (s : FileState) (filename : List UInt8) :
    Option (Except FileError Unit × FileState) :=
  let filename := filenameUpper filename
  match filesystemGetDirectoryEntry s filename with
  | none => none
  | some (.error e, s) => some (.error e, s)
  | some (.ok direntry, s) =>
    match deallocateChain Machine.turns s direntry.startingCluster with
    | none => none
    | some s => filesystemMarkDirectoryEntryFree s filename

end

/-! ## Reading -/

namespace FileDescriptor

/-- The sector that a descriptor is positioned in. -/
def sectorNumber (file : FileDescriptor) (info : DiskInfo) : ℕ :=
  (fileStartSector info file.currentCluster + file.sector) % sectorNumbers

/-- The descriptor at the start of its sector. -/
@[simps]
def atSectorStart (file : FileDescriptor) : FileDescriptor := { file with fposWithinSector := 0 }

/-- The descriptor in the next sector of its cluster. -/
@[simps]
def nextSector (file : FileDescriptor) : FileDescriptor :=
  { file with sector := (file.sector + 1) % 256 }

/-- The descriptor at the first sector of another cluster. -/
@[simps]
def enterCluster (file : FileDescriptor) (cluster : ℕ) : FileDescriptor :=
  { file with currentCluster := cluster, sector := 0 }

/-- The descriptor behind the next byte. -/
@[simps]
def skipByte (file : FileDescriptor) : FileDescriptor :=
  { file with
    fpos := (file.fpos + 1) % 4294967296, fposWithinSector := (file.fposWithinSector + 1) % 65536 }

/-- The descriptor with a whole sector counted as read. -/
@[simps]
def countSector (file : FileDescriptor) (bps : ℕ) : FileDescriptor :=
  { file with fpos := (file.fpos + bps) % 4294967296 }

/-- The descriptor behind `n` bytes written at its end. -/
@[simps]
def grow (file : FileDescriptor) (n : ℕ) : FileDescriptor :=
  { file with
    fpos := (file.fpos + n) % 4294967296, size := (file.size + n) % 4294967296
    fposWithinSector := (file.fposWithinSector + n) % 65536 }

end FileDescriptor

section

variable [Machine]

/-- Moves a descriptor to the next sector, which may be in the next cluster. -/
def readNextSector (s : FileState) (fd : Fin fileLimit) : FileState :=
  let file := (s.fdtable fd).nextSector
  let s := s.setFd fd file
  if file.sector = s.diskInfo.sectorsPerCluster then
    let (nextCluster, s) := fatNextCluster s file.currentCluster
    s.setFd fd (file.enterCluster nextCluster)
  else s

/-- Reads a byte. The answer is `none` at the end of the file. -/
def fileReadbyte (s : FileState) (fd : Fin fileLimit) : Option UInt8 × FileState :=
  let file := s.fdtable fd
  if file.fpos = file.size then (none, s)
  else if file.currentCluster = clusterEof then (none, s)
  else
    let s := readSectorCached s (file.sectorNumber s.diskInfo) false
    let byte := s.tempByte file.fposWithinSector
    let file := file.skipByte
    if file.fposWithinSector = s.diskInfo.bytesPerSector then
      (some byte, readNextSector (s.setFd fd file.atSectorStart) fd)
    else (some byte, s.setFd fd file)

/-- Reads a sector straight from the disk. The answer is `none` at the end of the file. -/
def fileReadsector (s : FileState) (fd : Fin fileLimit) : Option (List UInt8) × FileState :=
  let file := s.fdtable fd
  if file.fpos = file.size then (none, s)
  else if file.currentCluster = clusterEof then (none, s)
  else
    let bytes := (s.disk (file.sectorNumber s.diskInfo)).slice 0 512
    let file := file.countSector s.diskInfo.bytesPerSector
    (some bytes, readNextSector (s.setFd fd file) fd)

/-- The variables of a read: what is left to read, how much has been read, the bytes stored, and
the state. -/
structure Transfer where
  n : ℕ
  bytes : ℕ
  stored : List UInt8
  state : FileState

/-- The byte-by-byte phase up to the next sector boundary, in at most `k` turns. The flag tells
that the read returns here. The position in the sector is a counter of 16 bits. -/
def readToBoundary (fd : Fin fileLimit) : ℕ → Transfer → Bool × Transfer
  | 0, t => (true, t)
  | k + 1, t =>
    if (t.state.fdtable fd).fposWithinSector = 0 then (false, t)
    else
      match fileReadbyte t.state fd with
      | (none, s) => (true, { t with state := s })
      | (some c, s) =>
        -- `n` is decremented before it is compared with `0`
        let n := (t.n + 65535) % 65536
        let t := { n := n, bytes := (t.bytes + 1) % 65536, stored := t.stored ++ [c], state := s }
        if n = 0 then (true, t) else readToBoundary fd k t

/-- The phase that reads `k` whole sectors. -/
def readFullSectors (fd : Fin fileLimit) : ℕ → Transfer → Bool × Transfer
  | 0, t => (false, t)
  | k + 1, t =>
    match fileReadsector t.state fd with
    | (none, s) => (true, { t with state := s })
    | (some sector, s) =>
      let bps := t.state.diskInfo.bytesPerSector
      readFullSectors fd k
        { n := t.n - bps, bytes := (t.bytes + bps) % 65536, stored := t.stored ++ sector
          state := s }

/-- The phase that reads the last `k` bytes. -/
def readTail (fd : Fin fileLimit) : ℕ → Transfer → Transfer
  | 0, t => t
  | k + 1, t =>
    match fileReadbyte t.state fd with
    | (none, s) => { t with state := s }
    | (some c, s) =>
      readTail fd k
        { t with bytes := (t.bytes + 1) % 65536, stored := t.stored ++ [c], state := s }

/-- The three phases of a read. -/
def readPhases (fd : Fin fileLimit) (t : Transfer) : Transfer :=
  let bps := t.state.diskInfo.bytesPerSector
  match readToBoundary fd Machine.turns t with
  | (true, t) => t
  | (false, t) =>
    match readFullSectors fd (t.n / bps) t with
    | (true, t) => t
    | (false, t) => readTail fd t.n t

/-- Reads up to `n` bytes to the address `ptr`. The result has the number of bytes read and the
bytes stored. -/
def fileRead (s : FileState) (ptr n : ℕ) (fd : ℤ) : (ℕ × List UInt8) × FileState :=
  if ptr % 65536 < 0x6000 then ((0, []), s)
  else
    match descriptor? fd with
    | none => ((0, []), s)
    | some fd =>
      let file := s.fdtable fd
      if file.mode ≠ fmodeRead then ((0, []), s)
      else
        let left := (file.size + 4294967296 - file.fpos) % 4294967296
        let t := readPhases fd
          { n := if left < n then left else n, bytes := 0, stored := [], state := s }
        ((t.bytes, t.stored), t.state)

/-! ## Writing -/

/-- Moves a descriptor that writes out of a cluster that is full. The cluster gets a successor at
once; when there is no free cluster the descriptor keeps pointing behind its last sector. -/
def writeNextCluster (s : FileState) (fd : Fin fileLimit) : ℤ × FileState :=
  let file := s.fdtable fd
  if file.sector = s.diskInfo.sectorsPerCluster then
    let (nextCluster, s) := fatNextCluster s file.currentCluster
    if nextCluster = clusterEof then
      let (nextCluster, s) := fatAllocateCluster s file.currentCluster
      if nextCluster = 0 then (FileError.diskFull.code, s)
      else (0, s.setFd fd (file.enterCluster nextCluster))
    else (0, s.setFd fd (file.enterCluster nextCluster))
  else (0, s)

/-- Moves a descriptor that writes to the next sector. -/
def writeNextSector (s : FileState) (fd : Fin fileLimit) : ℤ × FileState :=
  writeNextCluster (s.setFd fd (s.fdtable fd).atSectorStart.nextSector) fd

/-- Records that a data sector is about to be written for a descriptor. -/
def FileState.recordWrite (s : FileState) (fd : Fin fileLimit) (sector : ℕ) : FileState :=
  { s with trace := .write s.disk fd sector :: s.trace }

/-- Writes bytes into the current sector and moves on. -/
def fileWritesector (s : FileState) (data : List UInt8) (offset : ℕ) (fd : Fin fileLimit) :
    ℤ × FileState :=
  let n := data.length
  if (offset + n) % 65536 > s.diskInfo.bytesPerSector then (1, s)
  else
    let file := s.fdtable fd
    let sector := file.sectorNumber s.diskInfo
    let s := (readSectorCached s sector false).recordWrite fd sector
    let s := diskWrite (s.poke offset data) sector
    let file := file.grow n
    let s := s.setFd fd file
    if file.fposWithinSector = s.diskInfo.bytesPerSector then writeNextSector s fd else (0, s)

/-- The phase that writes `k` whole sectors. The flag tells that a sector failed. -/
def writeFullSectors (fd : Fin fileLimit) :
    ℕ → FileState → List UInt8 → ℕ → Bool × FileState × List UInt8 × ℕ
  | 0, s, data, bytes => (false, s, data, bytes)
  | k + 1, s, data, bytes =>
    let bps := s.diskInfo.bytesPerSector
    match fileWritesector s (data.take bps) 0 fd with
    | (0, s) => writeFullSectors fd k s (data.drop bps) (bytes + bps)
    | (_, s) => (true, s, data, bytes)

/-- The whole sectors and the rest of a write that stands at the start of a sector, `bytes` bytes
having been written. -/
def writeAligned (s : FileState) (data : List UInt8) (bytes : ℕ) (fd : Fin fileLimit) :
    ℕ × FileState :=
  if data = [] then (bytes, s)
  else
    match writeFullSectors fd (data.length / s.diskInfo.bytesPerSector) s data bytes with
    | (true, s, _, _) => (0, s)
    | (false, s, data, bytes) =>
      if data = [] then (bytes, s)
      else (bytes + data.length, (fileWritesector s data 0 fd).2)

/-- Writes bytes to a file. The result is the number of bytes written. -/
def fileWrite (s : FileState) (data : List UInt8) (fd : ℤ) : ℕ × FileState :=
  match descriptor? fd with
  | none => (0, s)
  | some fd =>
    let file := s.fdtable fd
    if file.mode ≠ fmodeWrite then (0, s)
    else if file.fposWithinSector ≠ 0 then
      let limit := (s.diskInfo.bytesPerSector + 65536 - file.fposWithinSector) % 65536
      let partialWriteSize := if data.length < limit then data.length else limit
      match fileWritesector s (data.take partialWriteSize) file.fposWithinSector fd with
      | (0, s) => writeAligned s (data.drop partialWriteSize) partialWriteSize fd
      | (_, s) => (0, s)
    else writeAligned s data 0 fd

/-! ## Information -/

/-- What `file_info` tells about a file. -/
structure FInfo where
  attr : UInt8
  size : ℕ
  createdYear : ℕ
  createdMonth : ℕ
  createdDay : ℕ

/-- Information about a file. -/
def fileInfo (s : FileState) (filename : List UInt8) :
    Option (Except FileError FInfo × FileState) :=
  match filesystemGetDirectoryEntry s (filenameUpper filename) with
  | none => none
  | some (.error e, s) => some (.error e, s)
  | some (.ok direntry, s) =>
    some (.ok
      { attr := direntry.attributes
        createdYear := 1980 + direntry.creationDate >>> 9
        createdMonth := (direntry.creationDate >>> 5) &&& 0x000f
        createdDay := direntry.creationDate &&& 0x001f
        size := direntry.size }, s)

end

end Z80OS
