import Mathlib.Data.Int.Notation
import Mathlib.Data.List.OfFn
import Mathlib.Tactic.Simps.Basic
import Z80OS.File.Sector

set_option relaxedAutoImplicit false
set_option autoImplicit false

/-!
# The state of the file driver

The file driver of the kernel keeps one buffer of 512 bytes, `temp_sector`, through which every
FAT, directory and data sector passes, and a table of file descriptors. This file has the data
types of the driver, the sector cache and the initialisation from the boot sector.

Machine integers are natural numbers with explicit reductions modulo a power of two. On the target
`char` is unsigned, `int` and `size_t` are 16 bits wide.

## Main definitions

* `Z80OS.DiskInfo`, `Z80OS.DirectoryEntry`, `Z80OS.FileDescriptor` — the records of the driver.
* `Z80OS.FileState` — the global variables of the driver, and the disk.
* `Z80OS.Machine` — what the driver depends on and C does not define.
* `Z80OS.readSectorCached` — the sector cache.
* `Z80OS.filesystemInit` — initialisation from the boot sector.
-/

namespace Z80OS

/-! ## Constants -/

/-- The mark of the last cluster of a chain. -/
def clusterEof : ℕ := 0xffff

/-- The mark of a cluster that is not in use. -/
def clusterFree : ℕ := 0x0000

/-- The flag of a descriptor that is in use. -/
def fdFlagsClaimed : UInt8 := 0x01

/-- The number of file descriptors. -/
def fileLimit : ℕ := 1

/-- Open for reading. -/
def fmodeRead : UInt8 := 0x01

/-- Open for writing. -/
def fmodeWrite : UInt8 := 0x02

/-- The errors of the file driver. -/
inductive FileError
  | fileNotFound | fileLimit | invalidDescriptor | invalidFilename | accessMode | diskFull
  | fileExist | dirFull | invalidMode | invalidPage | invalidHeader
  deriving DecidableEq, Repr

/-- The error codes of `syscall.h`. -/
def FileError.code : FileError → ℤ
  | .fileNotFound => -1
  | .fileLimit => -2
  | .invalidDescriptor => -3
  | .invalidFilename => -4
  | .accessMode => -5
  | .diskFull => -6
  | .fileExist => -7
  | .dirFull => -8
  | .invalidMode => -9
  | .invalidPage => -10
  | .invalidHeader => -11

/-- Where the regions of the disk are, and the sizes the driver computes with. -/
structure DiskInfo where
  fatRegion : ℕ
  rootRegion : ℕ
  dataRegion : ℕ
  bytesPerSector : ℕ
  sectorsPerCluster : ℕ
  bytesPerCluster : ℕ
  numSectors : ℕ
  deriving DecidableEq

/-- An entry of the root directory. -/
structure DirectoryEntry where
  name : Vector UInt8 8
  ext : Vector UInt8 3
  attributes : UInt8
  reservedForWindowsNt : UInt8
  creationMilliseconds : UInt8
  creationTime : ℕ
  creationDate : ℕ
  lastAccessDate : ℕ
  reservedForFat32 : ℕ
  lastWriteTime : ℕ
  lastWriteDate : ℕ
  startingCluster : ℕ
  size : ℕ

namespace DirectoryEntry

/-- The entry that lies at the given 32 bytes. -/
def ofBytes (b : ℕ → UInt8) : DirectoryEntry where
  name := Vector.ofFn fun i => b i
  ext := Vector.ofFn fun i => b (8 + i)
  attributes := b 11
  reservedForWindowsNt := b 12
  creationMilliseconds := b 13
  creationTime := word16 (b 14) (b 15)
  creationDate := word16 (b 16) (b 17)
  lastAccessDate := word16 (b 18) (b 19)
  reservedForFat32 := word16 (b 20) (b 21)
  lastWriteTime := word16 (b 22) (b 23)
  lastWriteDate := word16 (b 24) (b 25)
  startingCluster := word16 (b 26) (b 27)
  size := word32 (b 28) (b 29) (b 30) (b 31)

/-- The 32 bytes of an entry. -/
def toBytes (e : DirectoryEntry) : List UInt8 :=
  e.name.toList ++ e.ext.toList ++
    [e.attributes, e.reservedForWindowsNt, e.creationMilliseconds] ++ bytes16 e.creationTime ++
    bytes16 e.creationDate ++ bytes16 e.lastAccessDate ++ bytes16 e.reservedForFat32 ++
    bytes16 e.lastWriteTime ++ bytes16 e.lastWriteDate ++ bytes16 e.startingCluster ++
    bytes32 e.size

/-- An entry has 32 bytes. -/
@[simp] theorem length_toBytes (e : DirectoryEntry) : e.toBytes.length = 32 := by
  simp [toBytes]

/-- Reading an entry and writing it back reproduces its 32 bytes. -/
theorem toBytes_ofBytes (b : ℕ → UInt8) : (ofBytes b).toBytes = (List.range 32).map b := by
  simp [toBytes, ofBytes, bytes16_word16, bytes32_word32, List.range_succ, Vector.toList_ofFn,
    List.ofFn_succ]

/-- The entry with another size. -/
@[simps]
def withSize (e : DirectoryEntry) (n : ℕ) : DirectoryEntry := { e with size := n }

/-- Only the last four bytes of an entry depend on its size. -/
theorem toBytes_withSize (e : DirectoryEntry) (n : ℕ) :
    (e.withSize n).toBytes = e.toBytes.take 28 ++ bytes32 n := by
  rw [toBytes, toBytes, List.take_append_of_le_length (by simp)]
  rw [List.take_of_length_le (by simp)]
  rfl

/-- Another size changes the last four bytes of an entry alone. -/
theorem getD_toBytes_withSize (e : DirectoryEntry) (n : ℕ) {j : ℕ} (hj : j < 28) :
    (e.withSize n).toBytes.getD j 0 = e.toBytes.getD j 0 := by
  have hlen : j < (e.toBytes.take 28).length := by
    rw [List.length_take, length_toBytes]
    omega
  rw [toBytes_withSize, List.getD_append _ _ _ _ hlen, List.getD_eq_getElem _ _ hlen,
    List.getElem_take, List.getD_eq_getElem]

end DirectoryEntry

/-- A file descriptor. The name is the string up to its terminating NUL. -/
structure FileDescriptor where
  name : List UInt8
  flags : UInt8
  mode : UInt8
  size : ℕ
  fpos : ℕ
  startCluster : ℕ
  currentCluster : ℕ
  sector : ℕ
  fposWithinSector : ℕ
  deriving DecidableEq

/-- What a run of the driver did, as far as later statements speak about it: a search for a free
cluster with its answer, or a data sector written for a descriptor, each with the disk at that
moment. -/
inductive Event
  | search (disk : Disk) (found : ℕ)
  | write (disk : Disk) (fd : Fin fileLimit) (sector : ℕ)

/-- The global variables of the driver and the disk. `closeEntry` is the static variable of
`file_close`. `trace` is a ghost: the events so far, newest first; no function reads it. -/
structure FileState where
  disk : Disk
  diskInfo : DiskInfo
  tempSector : Sector
  currentCacheSector : ℕ
  fdtable : Fin fileLimit → FileDescriptor
  closeEntry : DirectoryEntry
  trace : List Event

/-- What the driver depends on and C leaves open.

`beyond` gives the bytes that follow the buffer `temp_sector` in memory, where a read behind its
end finds them. `forceLoad` is `false` for the driver as it is; with `true` every read through the
cache is forced. `turns` is how many turns of a loop are followed before the loop is taken to run
for ever. The counters of the loops have at most 32 and 16 bits, so a loop that ends has ended by
then. -/
class Machine where
  beyond : FileState → ℕ → UInt8
  forceLoad : Bool
  turns : ℕ
  turns_ge : 281474976710656 ≤ turns

/-! ## The sector cache -/

/-- Replaces a descriptor. -/
def FileState.setFd (s : FileState) (fd : Fin fileLimit) (file : FileDescriptor) : FileState :=
  { s with fdtable := Function.update s.fdtable fd file }

/-- Sets the static entry of `file_close`. -/
def FileState.saveEntry (s : FileState) (entry : DirectoryEntry) : FileState :=
  { s with closeEntry := entry }

/-- Writes the buffer to a sector of the disk. -/
def diskWrite (s : FileState) (sector : ℕ) : FileState :=
  { s with disk := Function.update s.disk sector s.tempSector }

section Cache

variable [Machine]

/-- Reads a sector into the buffer, unless it is there already. -/
def readSectorCached (s : FileState) (sector : ℕ) (forceLoad : Bool) : FileState :=
  if forceLoad || Machine.forceLoad || s.currentCacheSector != sector then
    { s with tempSector := s.disk sector, currentCacheSector := sector }
  else s

/-- `temp_sector[i]`, also behind the end of the buffer. -/
def FileState.tempByte (s : FileState) (i : ℕ) : UInt8 :=
  if i < 512 then s.tempSector.get i else Machine.beyond s i

/-- `GET_UINT16(temp_sector, i)`. -/
def FileState.tempWord (s : FileState) (i : ℕ) : ℕ := word16 (s.tempByte i) (s.tempByte (i + 1))

end Cache

/-! ## Initialisation -/

/-- Clears the flags of every descriptor. -/
def fdtableInit (s : FileState) : FileState :=
  { s with fdtable := fun fd => { s.fdtable fd with flags := 0x00 } }

/-- The region starts and sizes that a boot sector declares. The products are 16 bits wide. -/
def bootDiskInfo (boot : Sector) : DiskInfo :=
  let bytesPerSector := boot.word 0x0b
  let sectorsPerCluster := (boot.get 0x0d).toNat
  let fatRegion := boot.word 0x0e
  let rootRegion := fatRegion + boot.word 0x16 * (boot.get 0x10).toNat % 65536
  let dataRegion := rootRegion + boot.word 0x11 / 16
  let small := boot.word 0x13
  { fatRegion, rootRegion, dataRegion, bytesPerSector, sectorsPerCluster
    bytesPerCluster := bytesPerSector * sectorsPerCluster % 65536
    numSectors := if small = 0 then
        word32 (boot.get 0x20) (boot.get 0x21) (boot.get 0x22) (boot.get 0x23)
      else small }

/-- Reads the boot sector, which stays in the cache, and clears the descriptors. -/
def filesystemInit (s : FileState) : FileState :=
  let boot := s.disk 0
  fdtableInit
    { s with tempSector := boot, currentCacheSector := 0, diskInfo := bootDiskInfo boot }

end Z80OS
