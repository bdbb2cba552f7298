import Z80OS.File.State

set_option relaxedAutoImplicit false
set_option autoImplicit false

/-!
# The root directory

The driver looks names up in the root directory by scanning its sectors, sixteen entries of 32
bytes each. A scan that meets neither the name nor an end marker goes on behind the directory. A
sector number has 32 bits, so a scan of `2 ^ 32` sectors has seen every sector of the disk, and one
that has found nothing by then never returns; a call that never returns has the result `none`.

## Main definitions

* `Z80OS.filesystemFilename` — the name of an entry.
* `Z80OS.searchDirectory` — the scan that the three lookups by name share.
* `Z80OS.filesystemGetDirectoryEntry`, `Z80OS.filesystemSetDirectoryEntry`,
  `Z80OS.filesystemMarkDirectoryEntryFree` — the lookups by name.
* `Z80OS.fileCreate` — a new entry.
* `Z80OS.fileEntries`, `Z80OS.fileEntry` — enumeration of the entries.
-/

namespace Z80OS

/-! ## Names -/

/-- The string that starts with the given bytes: it ends before the first NUL. -/
def cString (l : List UInt8) : List UInt8 := l.takeWhile (· != 0)

/-- Upper case of a character. -/
def toUpper (c : UInt8) : UInt8 := if 0x61 ≤ c ∧ c ≤ 0x7a then c - 0x20 else c

/-- Upper case of a string. -/
def stringToupper (l : List UInt8) : List UInt8 := l.map toUpper

/-- The name that the driver works with: the first 12 characters of the given one, in upper
case. -/
def filenameUpper (filename : List UInt8) : List UInt8 :=
  stringToupper ((cString filename).take 12)

/-- The name of the entry at the given bytes: the eight characters of its name field up to the
first space, a dot, and the three characters of its extension up to the first space. -/
def filesystemFilename (dirEntry : ℕ → UInt8) : List UInt8 :=
  let name := ((List.range 8).map dirEntry).takeWhile (· != 0x20)
  let ext := ((List.range 3).map fun i => dirEntry (8 + i)).takeWhile (· != 0x20)
  cString (name ++ 0x2e :: ext)

/-! ## Lookup by name -/

/-- The number of sector numbers. -/
def sectorNumbers : ℕ := 4294967296

/-- The offsets of the entries in a sector. -/
def entryOffsets : List ℕ := (List.range 16).map (32 * ·)

/-- The bytes of the buffer from an offset on. -/
def Sector.at (t : Sector) (f : ℕ) : ℕ → UInt8 := fun i => t.get (f + i)

/-- A deleted entry, a directory or a volume label; the driver passes over these. -/
def skipsEntry (e : ℕ → UInt8) : Bool := e 0 == 0xe5 || e 11 &&& 0x18 != 0

/-- How the scan of a sector ends: at the end marker, at the entry with the name, or at the end of
the sector. -/
inductive Scan
  | endOfDirectory
  | found (f : ℕ)
  | more

/-- The scan of the buffer for a name, over the given offsets. -/
def scanSector (t : Sector) (filename : List UInt8) : List ℕ → Scan
  | [] => .more
  | f :: fs =>
    if t.at f 0 = 0 then .endOfDirectory
    else if skipsEntry (t.at f) then scanSector t filename fs
    else if filesystemFilename (t.at f) = filename then .found f
    else scanSector t filename fs

section

variable [Machine]

/-- The scan of at most `k` sectors for a name. It answers with the sector and the offset of the
entry, which is in the buffer then, or with `none` at the end marker. -/
def searchSectors (filename : List UInt8) :
    ℕ → FileState → ℕ → Option (Option (ℕ × ℕ) × FileState)
  | 0, _, _ => none
  | k + 1, s, sector =>
    let s := readSectorCached s sector true
    match scanSector s.tempSector filename entryOffsets with
    | .endOfDirectory => some (none, s)
    | .found f => some (some (sector, f), s)
    | .more => searchSectors filename k s ((sector + 1) % sectorNumbers)

/-- The scan of the directory for a name that the three lookups make. -/
def searchDirectory (s : FileState) (filename : List UInt8) :
    Option (Option (ℕ × ℕ) × FileState) :=
  searchSectors filename Machine.turns s s.diskInfo.rootRegion

/-- Changes the bytes of the buffer from an offset on. -/
def FileState.poke (s : FileState) (off : ℕ) (src : List UInt8) : FileState :=
  { s with tempSector := s.tempSector.memcpy off src }

/-- Looks up the entry of a file. -/
def filesystemGetDirectoryEntry (s : FileState) (filename : List UInt8) :
    Option (Except FileError DirectoryEntry × FileState) :=
  match searchDirectory s filename with
  | none => none
  | some (none, s) => some (.error .fileNotFound, s)
  | some (some (_, f), s) => some (.ok (.ofBytes (s.tempSector.at f)), s)

/-- Replaces the entry of a file. -/
def filesystemSetDirectoryEntry (s : FileState) (dirEntry : DirectoryEntry)
    (filename : List UInt8) : Option (Except FileError Unit × FileState) :=
  match searchDirectory s filename with
  | none => none
  | some (none, s) => some (.error .fileNotFound, s)
  | some (some (sector, f), s) => some (.ok (), diskWrite (s.poke f dirEntry.toBytes) sector)

/-- Marks the entry of a file as free. -/
def filesystemMarkDirectoryEntryFree (s : FileState) (filename : List UInt8) :
    Option (Except FileError Unit × FileState) :=
  match searchDirectory s filename with
  | none => none
  | some (none, s) => some (.error .fileNotFound, s)
  | some (some (sector, f), s) => some (.ok (), diskWrite (s.poke f [0xe5]) sector)

/-! ## New entries -/

/-- An entry that can be taken: an unused or a deleted one. -/
def entryFree (t : Sector) (f : ℕ) : Bool := t.get f == 0 || t.get f == 0xe5

/-- The scan of at most `k` sectors for an entry that can be taken. -/
def createSectors (entry : DirectoryEntry) : ℕ → FileState → ℕ → Option (Bool × FileState)
  | 0, _, _ => none
  | k + 1, s, sector =>
    let s := readSectorCached s sector false
    match entryOffsets.find? (entryFree s.tempSector) with
    | some f => some (false, diskWrite (s.poke f entry.toBytes) sector)
    | none =>
      let sector := (sector + 1) % sectorNumbers
      if sector = s.diskInfo.dataRegion then some (true, s)
      else createSectors entry k s sector

/-- Puts an entry into the first one that can be taken. The answer is `true` when there is none
in front of the data region. -/
def fileCreate (s : FileState) (entry : DirectoryEntry) : Option (Bool × FileState) :=
  createSectors entry Machine.turns s s.diskInfo.rootRegion

/-! ## Enumeration -/

/-- The count of the files among the entries at the given offsets, added to `entries`; the flag
tells that the end marker was met. The counter has 16 bits. -/
def countSector (t : Sector) : List ℕ → ℕ → Bool × ℕ
  | [], entries => (false, entries)
  | f :: fs, entries =>
    if t.at f 0 = 0 then (true, entries)
    else if skipsEntry (t.at f) then countSector t fs entries
    else countSector t fs ((entries + 1) % 65536)

/-- The count of the files over at most `k` sectors. -/
def countSectors : ℕ → FileState → ℕ → ℕ → Option (ℕ × FileState)
  | 0, _, _, _ => none
  | k + 1, s, sector, entries =>
    if sector = s.diskInfo.dataRegion then some (entries, s)
    else
      let s := readSectorCached s sector true
      match countSector s.tempSector entryOffsets entries with
      | (true, entries) => some (entries, s)
      | (false, entries) => countSectors k s ((sector + 1) % sectorNumbers) entries

/-- The number of files in the root directory. -/
def fileEntries (s : FileState) : Option (ℕ × FileState) :=
  countSectors Machine.turns s s.diskInfo.rootRegion 0

/-- How the search of a sector for the `entry`-th file ends: at the end marker, at the file, or at
the end of the sector with `n` files seen. -/
inductive Nth
  | endOfDirectory
  | found (f : ℕ)
  | more (n : ℕ)

/-- The search of the buffer for the `entry`-th file when `n` files have been seen. -/
def nthSector (t : Sector) (entry : ℕ) : List ℕ → ℕ → Nth
  | [], n => .more n
  | f :: fs, n =>
    if t.at f 0 = 0 then .endOfDirectory
    else if skipsEntry (t.at f) then nthSector t entry fs n
    else if n = entry then .found f
    else nthSector t entry fs ((n + 1) % 65536)

/-- The search of at most `k` sectors for the `entry`-th file. -/
def nthSectors (entry : ℕ) :
    ℕ → FileState → ℕ → ℕ → Option (Except FileError (List UInt8) × FileState)
  | 0, _, _, _ => none
  | k + 1, s, sector, n =>
    if sector = s.diskInfo.dataRegion then some (.error .fileNotFound, s)
    else
      let s := readSectorCached s sector true
      match nthSector s.tempSector entry entryOffsets n with
      | .endOfDirectory => some (.error .fileNotFound, s)
      | .found f => some (.ok (filesystemFilename (s.tempSector.at f)), s)
      | .more n => nthSectors entry k s ((sector + 1) % sectorNumbers) n

/-- The name of the `entry`-th file of the root directory. -/
def fileEntry (s : FileState) (entry : ℕ) :
    Option (Except FileError (List UInt8) × FileState) :=
  nthSectors entry Machine.turns s s.diskInfo.rootRegion 0

end

end Z80OS
