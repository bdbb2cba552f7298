import Z80OS.File.Calls
import Z80OS.Kernel.Process
import Z80OS.Lib.Accesses

set_option relaxedAutoImplicit false
set_option autoImplicit false

/-!
# The tables that the file driver indexes

The kernel has five tables of fixed sizes. The file driver indexes two of them, the table of the
descriptors and the buffer `temp_sector`. This file lists, for every function of the driver, at
which indices it does so. When a function uses the same index several times in a row it is listed
once.

The search for a free cluster is listed as such. It is the one part of the driver in which the index
is bounded by the contents of the disk alone.

## Main definitions

* `Z80OS.Table` — the tables of the kernel.
* `Z80OS.Visit` — an access, or a search for a free cluster.
* `Z80OS.searchAccesses` — the accesses of such a search.
* `Z80OS.fileVisits` — what a call of the driver accesses.
-/

namespace Z80OS

/-- The tables of the kernel: `schedule_table`, `process_table`, `page_table`, `fdtable` and
`temp_sector`. -/
inductive Table
  | schedule | process | page | fdtable | tempSector
  deriving DecidableEq

/-- The number of entries of a table. -/
def Table.size : Table → ℕ
  | .schedule => maxScheduled
  | .process => procsMax
  | .page => pagesMax
  | .fdtable => fileLimit
  | .tempSector => 512

/-- What a function of the file driver does to the tables: an access, or a search for a free cluster
that starts in some state. -/
inductive Visit
  | access (a : Access Table)
  | search (s : FileState)

/-- An access to the buffer. -/
def visitTemp (i : ℕ) : Visit := .access ⟨.tempSector, i⟩

/-- Accesses to `n` bytes of the buffer, from an offset on. -/
def visitBytes (f n : ℕ) : List Visit := (List.range n).map fun i => visitTemp (f + i)

/-- The address of a descriptor is taken. -/
def visitFd (fd : ℤ) : Visit := .access ⟨.fdtable, fd⟩

/-! ## The root directory -/

/-- The scan of the buffer for a name. -/
def scanVisits (t : Sector) (filename : List UInt8) : List ℕ → List Visit
  | [] => []
  | f :: fs =>
    visitTemp f ::
      if t.at f 0 = 0 then []
      else if t.at f 0 = 0xe5 then scanVisits t filename fs
      else
        visitTemp (f + 11) ::
          if t.at f 11 &&& 0x18 ≠ 0 then scanVisits t filename fs
          else
            visitBytes f 11 ++
              if filesystemFilename (t.at f) = filename then [] else scanVisits t filename fs

/-- The search of the buffer for an entry that can be taken, and the entry that is copied there. -/
def takeVisits (t : Sector) : List ℕ → List Visit
  | [] => []
  | f :: fs => visitTemp f :: if entryFree t f then visitBytes f 32 else takeVisits t fs

/-- The count of the files in the buffer. -/
def countVisits (t : Sector) : List ℕ → List Visit
  | [] => []
  | f :: fs =>
    visitTemp f ::
      if t.at f 0 = 0 then []
      else if t.at f 0 = 0xe5 then countVisits t fs
      else visitTemp (f + 11) :: countVisits t fs

/-- The search of the buffer for the `entry`-th file, and its name. -/
def nthVisits (t : Sector) (entry : ℕ) : List ℕ → ℕ → List Visit
  | [], _ => []
  | f :: fs, n =>
    visitTemp f ::
      if t.at f 0 = 0 then []
      else if t.at f 0 = 0xe5 then nthVisits t entry fs n
      else
        visitTemp (f + 11) ::
          if t.at f 11 &&& 0x18 ≠ 0 then nthVisits t entry fs n
          else if n = entry then visitBytes f 11
          else nthVisits t entry fs ((n + 1) % 65536)

section

variable [Machine]

/-- The scan of at most `k` sectors for a name. -/
def searchVisits (filename : List UInt8) : ℕ → FileState → ℕ → List Visit
  | 0, _, _ => []
  | k + 1, s, sector =>
    let s := readSectorCached s sector true
    scanVisits s.tempSector filename entryOffsets ++
      match scanSector s.tempSector filename entryOffsets with
      | .more => searchVisits filename k s ((sector + 1) % sectorNumbers)
      | _ => []

/-- A lookup by name, and the `n` bytes of the entry found that are copied or replaced. -/
def lookupVisits (s : FileState) (filename : List UInt8) (n : ℕ) : List Visit :=
  searchVisits filename Machine.turns s s.diskInfo.rootRegion ++
    match searchDirectory s filename with
    | some (some (_, f), _) => visitBytes f n
    | _ => []

/-- `filesystem_get_directory_entry` copies the entry. -/
def getEntryVisits (s : FileState) (filename : List UInt8) : List Visit :=
  lookupVisits s filename 32

/-- `filesystem_set_directory_entry` replaces the entry. -/
def setEntryVisits (s : FileState) (filename : List UInt8) : List Visit :=
  lookupVisits s filename 32

/-- `filesystem_mark_directory_entry_free` replaces the first byte of the entry. -/
def markEntryVisits (s : FileState) (filename : List UInt8) : List Visit :=
  lookupVisits s filename 1

/-- The search of at most `k` sectors for an entry that can be taken. -/
def createVisits : ℕ → FileState → ℕ → List Visit
  | 0, _, _ => []
  | k + 1, s, sector =>
    let s := readSectorCached s sector false
    takeVisits s.tempSector entryOffsets ++
      match entryOffsets.find? (entryFree s.tempSector) with
      | some _ => []
      | none =>
        let sector := (sector + 1) % sectorNumbers
        if sector = s.diskInfo.dataRegion then [] else createVisits k s sector

/-- The count of the files over at most `k` sectors. -/
def entriesVisits : ℕ → FileState → ℕ → ℕ → List Visit
  | 0, _, _, _ => []
  | k + 1, s, sector, entries =>
    if sector = s.diskInfo.dataRegion then []
    else
      let s := readSectorCached s sector true
      countVisits s.tempSector entryOffsets ++
        match countSector s.tempSector entryOffsets entries with
        | (true, _) => []
        | (false, entries) => entriesVisits k s ((sector + 1) % sectorNumbers) entries

/-- The search of at most `k` sectors for the `entry`-th file. -/
def entryVisits (entry : ℕ) : ℕ → FileState → ℕ → ℕ → List Visit
  | 0, _, _, _ => []
  | k + 1, s, sector, n =>
    if sector = s.diskInfo.dataRegion then []
    else
      let s := readSectorCached s sector true
      nthVisits s.tempSector entry entryOffsets n ++
        match nthSector s.tempSector entry entryOffsets n with
        | .more n => entryVisits entry k s ((sector + 1) % sectorNumbers) n
        | _ => []

/-! ## The FAT -/

/-- The word of a cluster is read or replaced. -/
def wordVisits (s : FileState) (cluster : ℕ) : List Visit :=
  visitBytes (fatOffsetOf s.diskInfo cluster) 2

/-- The accesses of a search for a free cluster over at most `k` words. -/
def searchAccesses : ℕ → FileState → ℕ → ℕ → List (Access Table)
  | 0, _, _, _ => []
  | k + 1, s, entryWithinSector, fatSector =>
    let s := readSectorCached s fatSector false
    ⟨.tempSector, (entryWithinSector * 2 : ℕ)⟩ :: ⟨.tempSector, (entryWithinSector * 2 + 1 : ℕ)⟩ ::
      if s.tempWord (entryWithinSector * 2) = clusterFree then []
      else
        let entryWithinSector := entryWithinSector + 1
        let past := entryWithinSector > s.diskInfo.bytesPerSector / 2
        let entryWithinSector := if past then 0 else entryWithinSector
        let fatSector := if past then (fatSector + 1) % sectorNumbers else fatSector
        if fatSector = s.diskInfo.rootRegion then []
        else searchAccesses k s entryWithinSector fatSector

/-- The accesses of a visit. -/
def Visit.accesses : Visit → List (Access Table)
  | .access a => [a]
  | .search s => searchAccesses Machine.turns s 2 s.diskInfo.fatRegion

/-- The first cluster of a chain is taken. -/
def allocateStartVisits (s : FileState) : List Visit :=
  .search s ::
    if (fatFindFreeCluster s).1 = 0 then [] else wordVisits s (fatFindFreeCluster s).1

/-- A cluster is taken and linked behind the given one. -/
def allocateVisits (s : FileState) (cluster : ℕ) : List Visit :=
  .search s ::
    if (fatFindFreeCluster s).1 = 0 then []
    else wordVisits s cluster ++ wordVisits s (fatFindFreeCluster s).1

/-- The words of at most `k` clusters of a chain are read and cleared. -/
def deallocateVisits : ℕ → FileState → ℕ → List Visit
  | 0, _, _ => []
  | k + 1, s, cluster =>
    if cluster = clusterEof then []
    else
      let r := fatNextCluster s cluster
      wordVisits s cluster ++ wordVisits r.2 cluster ++
        deallocateVisits k (fatDeallocateCluster r.2 cluster) r.1

/-! ## Opening, creating, closing and deleting -/

/-- The search for a descriptor that is not claimed. -/
def assignFdVisits (s : FileState) : List Visit :=
  (Accesses.examined (fun fd => (s.fdtable fd).flags &&& fdFlagsClaimed == 0)
    (List.finRange fileLimit)).map fun fd : Fin fileLimit => visitFd (fd : ℕ)

/-- `file_open_read`. -/
def openReadVisits (s : FileState) (fd : Fin fileLimit) : List Visit :=
  getEntryVisits s (s.fdtable fd).name

/-- `file_open_write`. -/
def openWriteVisits (s : FileState) (fd : Fin fileLimit) : List Visit :=
  getEntryVisits s (s.fdtable fd).name ++
    match filesystemGetDirectoryEntry s (s.fdtable fd).name with
    | some (.error _, s) =>
      allocateStartVisits s ++
        let r := fatAllocateStartCluster s
        if r.1 = 0 then []
        else if (splitName (r.2.fdtable fd).name).isNone then []
        else createVisits Machine.turns r.2 r.2.diskInfo.rootRegion
    | _ => []

/-- `file_open`. -/
def openVisits (s : FileState) (filename : List UInt8) (mode : UInt8) : List Visit :=
  assignFdVisits s ++
    match filesystemAssignFd s with
    | none => []
    | some fd =>
      visitFd (fd : ℕ) ::
        if mode = fmodeRead then openReadVisits (s.named fd filename) fd
        else if mode = fmodeWrite then openWriteVisits (s.named fd filename) fd
        else []

/-- `file_new`. -/
def newVisits (s : FileState) (filename : List UInt8) : List Visit :=
  assignFdVisits s ++
    match filesystemAssignFd s with
    | none => []
    | some fd => visitFd (fd : ℕ) :: openWriteVisits (s.named fd filename) fd

/-- `file_close`, which takes the address of the descriptor whatever its number is. -/
def closeVisits (s : FileState) (fd : ℤ) : List Visit :=
  visitFd fd ::
    match descriptor? fd with
    | none => []
    | some fd =>
      let file := s.fdtable fd
      if file.mode = fmodeWrite then
        getEntryVisits s file.name ++
          match filesystemGetDirectoryEntry s file.name with
          | none => []
          | some (r, s) =>
            let entry := match r with
              | .ok entry => entry
              | .error _ => s.closeEntry
            setEntryVisits (s.saveEntry (entry.withSize file.size)) file.name
      else []

/-- `file_delete`. -/
def deleteVisits (s : FileState) (filename : List UInt8) : List Visit :=
  let filename := filenameUpper filename
  getEntryVisits s filename ++
    match filesystemGetDirectoryEntry s filename with
    | some (.ok direntry, s) =>
      deallocateVisits Machine.turns s direntry.startingCluster ++
        match deallocateChain Machine.turns s direntry.startingCluster with
        | none => []
        | some s => markEntryVisits s filename
    | _ => []

/-! ## Reading -/

/-- The way to the next sector of a file that is read. -/
def readNextVisits (s : FileState) (fd : Fin fileLimit) : List Visit :=
  let file := (s.fdtable fd).nextSector
  if file.sector = s.diskInfo.sectorsPerCluster then wordVisits s file.currentCluster else []

/-- `file_readbyte`. -/
def readbyteVisits (s : FileState) (fd : Fin fileLimit) : List Visit :=
  let file := s.fdtable fd
  visitFd (fd : ℕ) ::
    if file.fpos = file.size then []
    else if file.currentCluster = clusterEof then []
    else
      visitTemp file.fposWithinSector ::
        if file.skipByte.fposWithinSector = s.diskInfo.bytesPerSector then
          readNextVisits (s.setFd fd file.skipByte.atSectorStart) fd
        else []

/-- `file_readsector`. -/
def readsectorVisits (s : FileState) (fd : Fin fileLimit) : List Visit :=
  let file := s.fdtable fd
  visitFd (fd : ℕ) ::
    if file.fpos = file.size then []
    else if file.currentCluster = clusterEof then []
    else readNextVisits (s.setFd fd (file.countSector s.diskInfo.bytesPerSector)) fd

/-- The byte-by-byte phase up to the next sector boundary. -/
def boundaryVisits (fd : Fin fileLimit) : ℕ → Transfer → List Visit
  | 0, _ => []
  | k + 1, t =>
    if (t.state.fdtable fd).fposWithinSector = 0 then []
    else
      readbyteVisits t.state fd ++
        match fileReadbyte t.state fd with
        | (none, _) => []
        | (some c, s) =>
          let n := (t.n + 65535) % 65536
          let t := { n := n, bytes := (t.bytes + 1) % 65536, stored := t.stored ++ [c], state := s }
          if n = 0 then [] else boundaryVisits fd k t

/-- The phase that reads `k` whole sectors. -/
def fullSectorsVisits (fd : Fin fileLimit) : ℕ → FileState → List Visit
  | 0, _ => []
  | k + 1, s =>
    readsectorVisits s fd ++
      match fileReadsector s fd with
      | (none, _) => []
      | (some _, s) => fullSectorsVisits fd k s

/-- The phase that reads the last `k` bytes. -/
def tailVisits (fd : Fin fileLimit) : ℕ → FileState → List Visit
  | 0, _ => []
  | k + 1, s =>
    readbyteVisits s fd ++
      match fileReadbyte s fd with
      | (none, _) => []
      | (some _, s) => tailVisits fd k s

/-- The three phases of a read. -/
def phasesVisits (fd : Fin fileLimit) (t : Transfer) : List Visit :=
  let bps := t.state.diskInfo.bytesPerSector
  boundaryVisits fd Machine.turns t ++
    match readToBoundary fd Machine.turns t with
    | (true, _) => []
    | (false, t) =>
      fullSectorsVisits fd (t.n / bps) t.state ++
        match readFullSectors fd (t.n / bps) t with
        | (true, _) => []
        | (false, t) => tailVisits fd t.n t.state

/-- `file_read`, which refuses a number that is not one of a descriptor. -/
def readVisits (s : FileState) (ptr n : ℕ) (fd : ℤ) : List Visit :=
  if ptr % 65536 < 0x6000 then []
  else
    match descriptor? fd with
    | none => []
    | some fd =>
      let file := s.fdtable fd
      visitFd (fd : ℕ) ::
        if file.mode ≠ fmodeRead then []
        else
          let left := (file.size + 4294967296 - file.fpos) % 4294967296
          phasesVisits fd
            { n := if left < n then left else n, bytes := 0, stored := [], state := s }

/-! ## Writing -/

/-- The way out of a cluster that is full. -/
def writeNextVisits (s : FileState) (fd : Fin fileLimit) : List Visit :=
  let file := s.fdtable fd
  if file.sector = s.diskInfo.sectorsPerCluster then
    wordVisits s file.currentCluster ++
      let r := fatNextCluster s file.currentCluster
      if r.1 = clusterEof then allocateVisits r.2 file.currentCluster else []
  else []

/-- `file_writesector`. -/
def writesectorVisits (s : FileState) (data : List UInt8) (offset : ℕ) (fd : Fin fileLimit) :
    List Visit :=
  let n := data.length
  if (offset + n) % 65536 > s.diskInfo.bytesPerSector then []
  else
    let file := s.fdtable fd
    let sector := file.sectorNumber s.diskInfo
    visitFd (fd : ℕ) :: visitBytes offset n ++
      let s := (readSectorCached s sector false).recordWrite fd sector
      let s := diskWrite (s.poke offset data) sector
      let file := file.grow n
      if file.fposWithinSector = s.diskInfo.bytesPerSector then
        writeNextVisits (s.setFd fd file.atSectorStart.nextSector) fd
      else []

/-- The phase that writes `k` whole sectors. -/
def writeFullVisits (fd : Fin fileLimit) : ℕ → FileState → List UInt8 → List Visit
  | 0, _, _ => []
  | k + 1, s, data =>
    let bps := s.diskInfo.bytesPerSector
    writesectorVisits s (data.take bps) 0 fd ++
      match fileWritesector s (data.take bps) 0 fd with
      | (0, s) => writeFullVisits fd k s (data.drop bps)
      | _ => []

/-- The whole sectors and the rest of a write that stands at the start of a sector. -/
def alignedVisits (s : FileState) (data : List UInt8) (bytes : ℕ) (fd : Fin fileLimit) :
    List Visit :=
  if data = [] then []
  else
    writeFullVisits fd (data.length / s.diskInfo.bytesPerSector) s data ++
      match writeFullSectors fd (data.length / s.diskInfo.bytesPerSector) s data bytes with
      | (true, _) => []
      | (false, s, data, _) => if data = [] then [] else writesectorVisits s data 0 fd

/-- `file_write`, which refuses a number that is not one of a descriptor. -/
def writeVisits (s : FileState) (data : List UInt8) (fd : ℤ) : List Visit :=
  match descriptor? fd with
  | none => []
  | some fd =>
    let file := s.fdtable fd
    visitFd (fd : ℕ) ::
      if file.mode ≠ fmodeWrite then []
      else if file.fposWithinSector ≠ 0 then
        let limit := (s.diskInfo.bytesPerSector + 65536 - file.fposWithinSector) % 65536
        let partialWriteSize := if data.length < limit then data.length else limit
        writesectorVisits s (data.take partialWriteSize) file.fposWithinSector fd ++
          match fileWritesector s (data.take partialWriteSize) file.fposWithinSector fd with
          | (0, s) => alignedVisits s (data.drop partialWriteSize) partialWriteSize fd
          | _ => []
      else alignedVisits s data 0 fd

/-! ## Calls -/

/-- What a call of the driver does to the tables. -/
def fileVisits (s : FileState) : FileCall → List Visit
  | .open filename mode => openVisits s filename mode
  | .new filename => newVisits s filename
  | .read ptr n fd => readVisits s ptr n fd
  | .readbyte fd =>
    match descriptor? fd with
    | none => [visitFd fd]
    | some fd => readbyteVisits s fd
  | .write data fd => writeVisits s data fd
  | .close fd => closeVisits s fd
  | .delete filename => deleteVisits s filename
  | .info filename => getEntryVisits s (filenameUpper filename)
  | .entries => entriesVisits Machine.turns s s.diskInfo.rootRegion 0
  | .entry n => entryVisits n Machine.turns s s.diskInfo.rootRegion 0

end

end Z80OS
