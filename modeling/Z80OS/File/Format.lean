import Z80OS.File.Operations

set_option relaxedAutoImplicit false
set_option autoImplicit false

/-!
# Formatted disks

A freshly formatted disk has a boot sector, one FAT in which no cluster is in use, and an empty root
directory.

## Main definitions

* `Z80OS.formattedDisk` — a disk with the given geometry.
* `Z80OS.FileState.zeroed` — the variables of the driver before the initialisation.
* `Z80OS.Machine.linked` — the driver as the linker lays it out.

## Main results

* `Z80OS.bootDiskInfo_bootSector` — the driver reads the geometry back.
-/

namespace Z80OS

/-- The boot sector of a disk with one reserved sector, one FAT and sectors of 512 bytes. -/
def bootSector (sectorsPerCluster sectorsPerFat rootSectors : ℕ) : Sector :=
  (((((Sector.zero.memcpy 0x0b (bytes16 512)).memcpy 0x0d [UInt8.ofNat sectorsPerCluster]).memcpy
    0x0e (bytes16 1)).memcpy 0x10 [1]).memcpy 0x11 (bytes16 (16 * rootSectors))).memcpy 0x16
    (bytes16 sectorsPerFat)

/-- A formatted disk. The words of the first two clusters hold the media type and an end mark. -/
def formattedDisk (sectorsPerCluster sectorsPerFat rootSectors : ℕ) : Disk := fun sector =>
  if sector = 0 then bootSector sectorsPerCluster sectorsPerFat rootSectors
  else if sector = 1 then Sector.zero.memcpy 0 [0xf8, 0xff, 0xff, 0xff]
  else Sector.zero

/-- The driver in front of its initialisation: its variables are zero. -/
def FileState.zeroed (disk : Disk) : FileState where
  disk := disk
  diskInfo := ⟨0, 0, 0, 0, 0, 0, 0⟩
  tempSector := Sector.zero
  currentCacheSector := 0
  fdtable := fun _ => ⟨[], 0, 0, 0, 0, 0, 0, 0, 0⟩
  closeEntry := .ofBytes fun _ => 0
  trace := []

/-- The descriptor that `file_open` gives out while none is claimed. -/
def firstFd : Fin fileLimit := ⟨0, by decide⟩

/-- The driver as it is: the table of descriptors lies behind the buffer, and it starts with a
name. -/
@[reducible]
def Machine.linked : Machine where
  beyond s i := ((s.fdtable firstFd).name ++ [0]).getD (i - 512) 0
  forceLoad := false
  turns := 281474976710656
  turns_ge := le_refl _

/-- The initialised driver with a small formatted disk: 1 sector per cluster, 1 sector of FAT and
1 sector of root directory. -/
def smallState : FileState := filesystemInit (.zeroed (formattedDisk 1 1 1))

/-- The name `A.B`. -/
def nameAB : List UInt8 := [0x41, 0x2e, 0x42]

/-- The name `C.D`. -/
def nameCD : List UInt8 := [0x43, 0x2e, 0x44]

section

variable {spc spf rs i j : ℕ} {t : Sector} {src : List UInt8} {b : UInt8}

/-- A single byte that has been written is read back. -/
theorem Sector.get_memcpy_singleton (hi : i < 512) : (t.memcpy i [b]).get i = b := by
  rw [Sector.get_memcpy hi, if_pos (by simp)]
  simp

/-- The driver reads the geometry of a formatted disk back from its boot sector.

**Proof sketch.** Each field that the driver reads is read back from the bytes that the formatting
wrote there (`Sector.word_memcpy_self`), past those written elsewhere
(`Sector.word_memcpy_of_not`). -/
theorem bootDiskInfo_bootSector (hspc : spc < 256) (hspf : spf < 65536) (hrs : rs < 4096) :
    bootDiskInfo (bootSector spc spf rs) =
      { fatRegion := 1, rootRegion := 1 + spf, dataRegion := 1 + spf + rs, bytesPerSector := 512
        sectorsPerCluster := spc, bytesPerCluster := 512 * spc % 65536
        numSectors := 0 } := by
  have h0b : (bootSector spc spf rs).word 0x0b = 512 := by
    simp [bootSector, Sector.word_memcpy_of_not, Sector.word_memcpy_self]
  have h0d : (bootSector spc spf rs).get 0x0d = UInt8.ofNat spc := by
    simp [bootSector, Sector.get_memcpy_of_not, Sector.get_memcpy_singleton]
  have h0e : (bootSector spc spf rs).word 0x0e = 1 := by
    simp [bootSector, Sector.word_memcpy_of_not, Sector.word_memcpy_self]
  have h10 : (bootSector spc spf rs).get 0x10 = 1 := by
    simp [bootSector, Sector.get_memcpy_of_not, Sector.get_memcpy_singleton]
  have h11 : (bootSector spc spf rs).word 0x11 = 16 * rs := by
    simp [bootSector, Sector.word_memcpy_of_not, Sector.word_memcpy_self]
    omega
  have h13 : (bootSector spc spf rs).word 0x13 = 0 := by
    simp [bootSector, Sector.word_memcpy_of_not]
  have h16 : (bootSector spc spf rs).word 0x16 = spf := by
    simp [bootSector, Sector.word_memcpy_self]
    omega
  have h20 : word32 ((bootSector spc spf rs).get 0x20) ((bootSector spc spf rs).get 0x21)
      ((bootSector spc spf rs).get 0x22) ((bootSector spc spf rs).get 0x23) = 0 := by
    simp [bootSector, Sector.get_memcpy_of_not, word32, word16]
  have hspc' : (UInt8.ofNat spc).toNat = spc := by
    rw [UInt8.toNat_ofNat']
    omega
  simp only [bootDiskInfo, h0b, h0d, h0e, h10, h11, h13, h16, h20, hspc', if_true]
  congr 1
  all_goals simp
  all_goals omega

end

end Z80OS
