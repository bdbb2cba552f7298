import Z80OS.File.Format
import Z80OS.File.Volume

set_option relaxedAutoImplicit false
set_option autoImplicit false

/-!
# Addresses on the disk

The driver turns a cluster number into two addresses: the place of its word in the FAT, and the
first of its sectors. Both go through a product that is 16 bits wide. This file says for which
clusters the addresses are right, on the disks of every boot sector.

## Main definitions

* `Z80OS.FatLaws` — reading and replacing words behaves like an array of words.
* `Z80OS.AddressedIn` — the sectors that the driver addresses in a cluster.
* `Z80OS.MapsExactly` — two clusters are mapped to their own sectors.

## Main results

* `Z80OS.fatLaws_iff` — when the words behave like an array.
* `Z80OS.mapsExactly_iff` — when the clusters are mapped to their own sectors.
-/

namespace Z80OS

/-! ## The regions of a boot sector -/

section

variable {boot : Sector} {g : DiskInfo} {c d v : ℕ}

/-- The FAT read from the boot sector starts at a word. -/
theorem bootDiskInfo_fatRegion_lt : (bootDiskInfo boot).fatRegion < 65536 := Sector.word_lt

/-- The bytes of a sector are those that the boot sector says. -/
theorem bootDiskInfo_bytesPerSector : (bootDiskInfo boot).bytesPerSector = boot.word 0x0b := rfl

/-- The regions of a disk start in front of the sector `135168`. -/
theorem bootDiskInfo_dataRegion_lt : (bootDiskInfo boot).dataRegion < 135168 := by
  have hfat : (bootDiskInfo boot).fatRegion < 65536 := bootDiskInfo_fatRegion_lt
  have hroot : (bootDiskInfo boot).rootRegion < (bootDiskInfo boot).fatRegion + 65536 :=
    Nat.add_lt_add_left (Nat.mod_lt _ (by decide)) _
  have hentries : boot.word 0x11 < 65536 := Sector.word_lt
  have hdata : (bootDiskInfo boot).dataRegion =
      (bootDiskInfo boot).rootRegion + boot.word 0x11 / 16 := rfl
  omega

/-! ## Words -/

/-- The place of a word depends on the last fifteen bits of the cluster number. -/
theorem fatSectorOf_boot (h512 : boot.word 0x0b = 512) :
    fatSectorOf (bootDiskInfo boot) c = (bootDiskInfo boot).fatRegion + 2 * (c % 32768) / 512 := by
  have hfat : (bootDiskInfo boot).fatRegion < 65536 := bootDiskInfo_fatRegion_lt
  rw [fatSectorOf, bootDiskInfo_bytesPerSector, h512, sectorNumbers, Nat.mod_eq_of_lt (by omega)]
  omega

/-- Of a cluster its lower 15 bits tell where its word is in the sector. -/
theorem fatOffsetOf_boot (h512 : boot.word 0x0b = 512) :
    fatOffsetOf (bootDiskInfo boot) c = 2 * (c % 32768) % 512 := by
  rw [fatOffsetOf, bootDiskInfo_bytesPerSector, h512]
  omega

end

section

variable [Machine]

/-- Replacing the word of the cluster `c` by `v` and reading words again, as an array of words has
it: both go to the two bytes at the offset `2 * c` of the FAT, the word of `c` is `v` afterwards,
and the word of `d` is what it was before. -/
structure FatLaws (s : FileState) (c d v : ℕ) : Prop where
  sector : fatSectorOf s.diskInfo c = s.diskInfo.fatRegion + 2 * c / 512
  offset : fatOffsetOf s.diskInfo c = 2 * c % 512
  read : (fatNextCluster s c).1 = fatEntry s.diskInfo s.disk c
  written : (fatSetCluster s c v).disk = linked s.diskInfo s.disk c v
  self : (fatNextCluster (fatSetCluster s c v) c).1 = v
  other : d ≠ c → (fatNextCluster (fatSetCluster s c v) d).1 = (fatNextCluster s d).1

end

section

variable {M : Machine} {s : FileState} {boot : Sector} {c d v : ℕ}

/-- The driver reads the word whose number has the last fifteen bits of the cluster number. -/
theorem fatNextCluster_boot (hs : s.Coherent) (hi : s.diskInfo = bootDiskInfo boot)
    (h512 : boot.word 0x0b = 512) :
    (fatNextCluster s c).1 = fatEntry s.diskInfo s.disk (c % 32768) := by
  rw [fatNextCluster_eq hs, hi, fatSectorOf_boot h512, fatOffsetOf_boot h512]
  simp only [FileState.tempWord, FileState.tempByte, FileState.cached_tempSector]
  rw [if_pos (by omega), if_pos (by omega)]
  rfl

/-- The driver replaces the word whose number has the last fifteen bits of the cluster number. -/
theorem fatSetCluster_boot (hs : s.Coherent) (hi : s.diskInfo = bootDiskInfo boot)
    (h512 : boot.word 0x0b = 512) :
    (fatSetCluster s c v).disk = linked s.diskInfo s.disk (c % 32768) v := by
  rw [fatSetCluster_eq_link hs, FileState.link, FileState.store_disk, hi, fatSectorOf_boot h512,
    fatOffsetOf_boot h512, linked]

/-- The word of a cluster after one word has been replaced. -/
theorem fatNextCluster_fatSetCluster (hs : s.Coherent) (hi : s.diskInfo = bootDiskInfo boot)
    (h512 : boot.word 0x0b = 512) (hv : v < 65536) :
    (fatNextCluster (fatSetCluster s c v) d).1 =
      if d % 32768 = c % 32768 then v else fatEntry s.diskInfo s.disk (d % 32768) := by
  have hset : fatSetCluster s c v = s.link c v := fatSetCluster_eq_link hs
  have hcoh : (fatSetCluster s c v).Coherent := hset ▸ FileState.coherent_link
  have hinfo : (fatSetCluster s c v).diskInfo = s.diskInfo := by rw [hset, FileState.link_diskInfo]
  rw [fatNextCluster_boot hcoh (hinfo.trans hi) h512, hinfo, fatSetCluster_boot hs hi h512,
    fatEntry_linked hv, Function.update_apply]

/-- **The words as an array.** On a disk of 512-byte sectors the laws hold of a cluster below
`32768`, and of no other. The one cluster that shares its word with `c` is `c + 32768`; its word
stays only when the word of `c` does.

**Proof sketch.** The driver finds the word of a cluster modulo 32768. If the laws hold then the
sector is the right one only for a cluster below that. The other way around only two clusters that
are 32768 apart share a word. -/
theorem fatLaws_iff (hs : s.Coherent) (hi : s.diskInfo = bootDiskInfo boot)
    (h512 : boot.word 0x0b = 512) (hc : c < 65536) (hd : d < 65536) (hv : v < 65536) :
    FatLaws s c d v ↔
      c < 32768 ∧ (d = c + 32768 → v = fatEntry s.diskInfo s.disk c) := by
  constructor
  · intro h
    have hlt : c < 32768 := by
      have hsec := h.sector
      rw [hi, fatSectorOf_boot h512] at hsec
      omega
    refine ⟨hlt, fun hdc => ?_⟩
    have hother := h.other (by omega)
    rw [fatNextCluster_fatSetCluster hs hi h512 hv, fatNextCluster_boot hs hi h512,
      if_pos (by omega)] at hother
    rw [hother, show d % 32768 = c by omega]
  · rintro ⟨hlt, hshared⟩
    have hmod : c % 32768 = c := Nat.mod_eq_of_lt hlt
    refine ⟨?_, ?_, ?_, ?_, ?_, fun hne => ?_⟩
    · rw [hi, fatSectorOf_boot h512, hmod]
    · rw [hi, fatOffsetOf_boot h512, hmod]
    · rw [fatNextCluster_boot hs hi h512, hmod]
    · rw [fatSetCluster_boot hs hi h512, hmod]
    · rw [fatNextCluster_fatSetCluster hs hi h512 hv, if_pos rfl]
    · rw [fatNextCluster_fatSetCluster hs hi h512 hv, fatNextCluster_boot hs hi h512]
      split_ifs with hsame
      · -- the clusters differ, so they are `32768` apart
        rw [hshared (by omega), hsame, hmod]
      · rfl

end

section

attribute [local instance] Machine.linked

/-- The initialised driver with a formatted disk whose FAT has a word for every cluster number. -/
def fullFatState : FileState := filesystemInit (.zeroed (formattedDisk 1 256 1))

/-- The cluster `32770` has the word of cluster `2`. -/
theorem not_fatLaws_fullFat :
    ¬ ∀ (s : FileState) (boot : Sector), s.Coherent → s.diskInfo = bootDiskInfo boot →
      boot.word 0x0b = 512 → 2 * 65536 ≤ 512 * boot.word 0x16 →
      ∀ c d v, c < 65536 → d < 65536 → v < 65536 → FatLaws s c d v := by
  intro h
  have hlaws := h fullFatState (bootSector 1 256 1) rfl rfl (by decide +kernel) (by decide +kernel)
    2 32770 5 (by decide) (by decide) (by decide)
  exact absurd (hlaws.other (by decide)) (by decide +kernel)

/-- The words of the clusters `2` and `32767`. -/
theorem fatLaws_fullFat : FatLaws fullFatState 2 32767 5 := by
  have hcoherent : fullFatState.Coherent := rfl
  have hinfo : fullFatState.diskInfo = bootDiskInfo (bootSector 1 256 1) := rfl
  have h512 : (bootSector 1 256 1).word 0x0b = 512 := by decide +kernel
  apply (fatLaws_iff hcoherent hinfo h512 (by decide) (by decide) (by decide)).mpr
  exact ⟨by decide, by decide⟩

end

/-! ## Sectors -/

/-- The sectors that the driver addresses in a cluster: those of the descriptors that stand in one
of its sectors. Every read and write of file contents goes to such a sector. -/
def AddressedIn (g : DiskInfo) (c k : ℕ) : Prop :=
  ∃ file : FileDescriptor, file.currentCluster = c ∧ file.sector < g.sectorsPerCluster ∧
    k = file.sectorNumber g

/-- Two clusters are mapped to their first sectors as the integers have it, so that the driver
addresses no sector in front of the data region, and no sector in both of them. -/
structure MapsExactly (g : DiskInfo) (c c' : ℕ) : Prop where
  start : fileStartSector g c = g.dataRegion + (c - 2) * g.sectorsPerCluster
  start' : fileStartSector g c' = g.dataRegion + (c' - 2) * g.sectorsPerCluster
  behind : ∀ k, AddressedIn g c k → g.dataRegion ≤ k
  behind' : ∀ k, AddressedIn g c' k → g.dataRegion ≤ k
  disjoint : c ≠ c' → ∀ k, AddressedIn g c k → ¬ AddressedIn g c' k

section

variable {boot : Sector} {c c' k : ℕ}

/-- The first sector of a cluster, on the disk of a boot sector. -/
theorem fileStartSector_boot (hc : 2 ≤ c) (hlt : c < 65536) :
    fileStartSector (bootDiskInfo boot) c = (bootDiskInfo boot).dataRegion +
      (c - 2) * (bootDiskInfo boot).sectorsPerCluster % 65536 := by
  have hdata : (bootDiskInfo boot).dataRegion < 135168 := bootDiskInfo_dataRegion_lt
  have hmod := Nat.mod_lt ((c - 2) * (bootDiskInfo boot).sectorsPerCluster)
    (show 65536 > 0 by decide)
  have hsub : (c + 65534) % 65536 = c - 2 := by omega
  rw [fileStartSector, hsub, sectorNumbers, Nat.mod_eq_of_lt (by omega)]

/-- The sectors per cluster are one byte of the boot sector. -/
theorem bootDiskInfo_sectorsPerCluster_lt : (bootDiskInfo boot).sectorsPerCluster < 256 :=
  (boot.get 0x0d).toNat_lt

/-- A cluster that is mapped as the integers have it: the driver addresses its sectors. -/
theorem AddressedIn.inCluster (hc : 2 ≤ c) (hlt : c < 65536)
    (hfit : (c - 2) * (bootDiskInfo boot).sectorsPerCluster < 65536)
    (h : AddressedIn (bootDiskInfo boot) c k) : InCluster (bootDiskInfo boot) c k := by
  obtain ⟨file, rfl, hsec, rfl⟩ := h
  have hdata : (bootDiskInfo boot).dataRegion < 135168 := bootDiskInfo_dataRegion_lt
  have hspc : (bootDiskInfo boot).sectorsPerCluster < 256 := bootDiskInfo_sectorsPerCluster_lt
  have hnum : file.sectorNumber (bootDiskInfo boot) =
      clusterSector (bootDiskInfo boot) file.currentCluster + file.sector := by
    rw [FileDescriptor.sectorNumber, fileStartSector_boot hc hlt, Nat.mod_eq_of_lt hfit,
      clusterSector, sectorNumbers, Nat.mod_eq_of_lt (by omega)]
  rw [InCluster, hnum]
  omega

/-- **From clusters to sectors.** Two clusters are mapped to their own sectors exactly when the
products that lead to them fit into 16 bits.

**Proof sketch.** The start of a cluster is the product modulo 65536 behind the start of the data.
When both products fit, the sectors are those of the clusters, and these do not overlap
(`clusterSector_inj`). -/
theorem mapsExactly_iff (hc : 2 ≤ c) (hlt : c ≤ 65524) (hc' : 2 ≤ c') (hlt' : c' ≤ 65524) :
    MapsExactly (bootDiskInfo boot) c c' ↔
      (c - 2) * (bootDiskInfo boot).sectorsPerCluster < 65536 ∧
        (c' - 2) * (bootDiskInfo boot).sectorsPerCluster < 65536 := by
  have hmod : ∀ n, n % 65536 = n ↔ n < 65536 := fun n =>
    ⟨fun h => h ▸ Nat.mod_lt _ (by decide), Nat.mod_eq_of_lt⟩
  constructor
  · intro h
    have hstart := h.start
    have hstart' := h.start'
    rw [fileStartSector_boot hc (by omega), Nat.add_left_cancel_iff, hmod] at hstart
    rw [fileStartSector_boot hc' (by omega), Nat.add_left_cancel_iff, hmod] at hstart'
    exact ⟨hstart, hstart'⟩
  · rintro ⟨hfit, hfit'⟩
    refine ⟨?_, ?_, fun k hk => ?_, fun k hk => ?_, fun hne k hk hk' => hne ?_⟩
    · rw [fileStartSector_boot hc (by omega), Nat.mod_eq_of_lt hfit]
    · rw [fileStartSector_boot hc' (by omega), Nat.mod_eq_of_lt hfit']
    · exact (hk.inCluster hc (by omega) hfit).data_le
    · exact (hk.inCluster hc' (by omega) hfit').data_le
    · have hin := hk.inCluster hc (by omega) hfit
      have hpos : 0 < (bootDiskInfo boot).sectorsPerCluster := by
        obtain ⟨file, -, hsec, -⟩ := hk
        omega
      exact clusterSector_inj hpos hc hc' hin (hk'.inCluster hc' (by omega) hfit')

end

/-- The boot sector of a volume with 70000 sectors, two to a cluster, and 160 sectors of FAT. -/
def largeBoot : Sector := (bootSector 2 160 32).memcpy 0x20 (bytes32 70000)

/-- The cluster `32770` is mapped to the sectors of cluster `2`. -/
theorem not_mapsExactly_largeBoot :
    ¬ ∀ (boot : Sector) (c c' : ℕ), 2 ≤ c → c ≤ 65524 → 2 ≤ c' → c' ≤ 65524 →
      MapsExactly (bootDiskInfo boot) c c' := fun h => by
  have hexact := h largeBoot 32770 2 (by decide) (by decide) (by decide) (by decide)
  exact absurd hexact.start (by decide +kernel)

/-- The clusters `2` and `32769` have their own sectors. -/
theorem mapsExactly_largeBoot : MapsExactly (bootDiskInfo largeBoot) 2 32769 :=
  (mapsExactly_iff (by decide) (by decide) (by decide) (by decide)).mpr
    ⟨by decide +kernel, by decide +kernel⟩

end Z80OS
