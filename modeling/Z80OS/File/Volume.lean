import Z80OS.Lib.Chain
import Z80OS.File.Allocation

set_option relaxedAutoImplicit false
set_option autoImplicit false

/-!
# The volume

The FAT, the root directory and the clusters as they lie on the disk, without the driver: where the
word of a cluster is, where its sectors are, and which file owns which clusters. The driver computes
these places in 16 bits. For the clusters that it can use it computes them right.

## Main definitions

* `Z80OS.fatEntry`, `Z80OS.clusterSector` — the word and the first sector of a cluster.
* `Z80OS.Geometry` — the disks that the driver is made for.
* `Z80OS.InRange` — the clusters that have a word.
* `Z80OS.HasWord`, `Z80OS.Usable` — the clusters whose places the driver computes right.

## Main results

* `Z80OS.fatEntry_linked` — replacing a word updates the FAT at one cluster.
* `Z80OS.clusterSector_inj` — different clusters have different sectors.
-/

namespace Z80OS

/-- The word of a cluster in the FAT. -/
def fatEntry (g : DiskInfo) (d : Disk) (c : ℕ) : ℕ :=
  (d (g.fatRegion + 2 * c / 512)).word (2 * c % 512)

/-- The first sector of a cluster. -/
def clusterSector (g : DiskInfo) (c : ℕ) : ℕ := g.dataRegion + (c - 2) * g.sectorsPerCluster

/-- The sector lies in the cluster. -/
def InCluster (g : DiskInfo) (c k : ℕ) : Prop :=
  clusterSector g c ≤ k ∧ k < clusterSector g c + g.sectorsPerCluster

/-- A disk of 512-byte sectors, with at most 128 of them in a cluster, and with the FAT, the root
directory and the clusters in this order. -/
structure Geometry (g : DiskInfo) : Prop where
  bytesPerSector : g.bytesPerSector = 512
  spc_pos : 0 < g.sectorsPerCluster
  spc_le : g.sectorsPerCluster ≤ 128
  fat_lt : g.fatRegion < g.rootRegion
  root_lt : g.rootRegion < g.dataRegion
  data_lt : g.dataRegion < 2147483648

/-- The cluster has a word in front of the root directory. -/
structure InRange (g : DiskInfo) (c : ℕ) : Prop where
  two_le : 2 ≤ c
  fat_lt : g.fatRegion + 2 * c / 512 < g.rootRegion

/-- The 16-bit computations of the driver find the word of the cluster. -/
structure HasWord (g : DiskInfo) (c : ℕ) : Prop extends InRange g c where
  lt : 2 * c < 65536

/-- The 16-bit computations of the driver find the word and the sectors of the cluster. -/
structure Usable (g : DiskInfo) (c : ℕ) : Prop extends InRange g c where
  lt : 2 * c < 65536
  data_lt : (c - 2) * g.sectorsPerCluster < 65536

variable {g : DiskInfo} {s : FileState} {d d' : Disk} {c c' k w i j : ℕ}

/-- The root directory starts inside of the disk. -/
theorem Geometry.lt_sectorNumbers (hg : Geometry g) : g.rootRegion < sectorNumbers := by
  have := hg.root_lt
  have := hg.data_lt
  simp only [sectorNumbers]
  omega

/-- The clusters below 256 can be used. -/
theorem Usable.of_lt (hg : Geometry g) (h2 : 2 ≤ c) (hlt : c < 256) : Usable g c := by
  refine ⟨⟨h2, ?_⟩, by omega, ?_⟩
  · have := hg.fat_lt
    omega
  · calc (c - 2) * g.sectorsPerCluster ≤ 254 * 128 :=
        Nat.mul_le_mul (by omega) hg.spc_le
      _ < 65536 := by decide

/-- A cluster that can be used has a word in the FAT. -/
theorem Usable.hasWord (hc : Usable g c) : HasWord g c := ⟨hc.toInRange, hc.lt⟩

/-- The driver finds the sector with the word of a cluster without wrapping around. -/
theorem fatSectorOf_eq (hg : Geometry g) (hc : HasWord g c) :
    fatSectorOf g c = g.fatRegion + 2 * c / 512 := by
  have hfat := hc.fat_lt
  have hroot := hg.lt_sectorNumbers
  rw [fatSectorOf, hg.bytesPerSector, mul_comm c 2, Nat.mod_eq_of_lt hc.lt, Nat.mod_eq_of_lt]
  omega

/-- The driver finds the word of a cluster in its sector without wrapping around. -/
theorem fatOffsetOf_eq (hg : Geometry g) (hc : HasWord g c) : fatOffsetOf g c = 2 * c % 512 := by
  rw [fatOffsetOf, hg.bytesPerSector, mul_comm c 2, Nat.mod_eq_of_lt hc.lt]

/-- The driver finds the sectors of a cluster without wrapping around. -/
theorem fileStartSector_eq (hg : Geometry g) (hc : Usable g c) :
    fileStartSector g c = clusterSector g c := by
  have h2 := hc.two_le
  have h16 := hc.lt
  have hd := hc.data_lt
  have hg' := hg.data_lt
  have hsub : (c + 65534) % 65536 = c - 2 := by omega
  rw [fileStartSector, hsub, Nat.mod_eq_of_lt hd, clusterSector, sectorNumbers, Nat.mod_eq_of_lt]
  omega

/-- The sector that a descriptor is positioned in. -/
theorem sectorNumber_eq (hg : Geometry g) {file : FileDescriptor}
    (hc : Usable g file.currentCluster)
    (hs : file.sector < 256) :
    file.sectorNumber g = clusterSector g file.currentCluster + file.sector := by
  have hd := hc.data_lt
  have hg' := hg.data_lt
  rw [FileDescriptor.sectorNumber, fileStartSector_eq hg hc, Nat.mod_eq_of_lt]
  simp only [clusterSector, sectorNumbers]
  omega

/-- The sectors of different clusters differ. -/
theorem clusterSector_inj (hpos : 0 < g.sectorsPerCluster) (hc : 2 ≤ c) (hc' : 2 ≤ c')
    (hk : InCluster g c k) (hk' : InCluster g c' k) : c = c' := by
  have hdiv : ∀ {c}, InCluster g c k → (k - g.dataRegion) / g.sectorsPerCluster = c - 2 := by
    rintro c ⟨hle, hlt⟩
    simp only [clusterSector] at hle hlt
    rw [Nat.div_eq_iff hpos]
    constructor
    · omega
    · have : (c - 2) * g.sectorsPerCluster + g.sectorsPerCluster - 1 =
        (c - 2) * g.sectorsPerCluster + (g.sectorsPerCluster - 1) := by omega
      omega
  have := (hdiv hk).symm.trans (hdiv hk')
  omega

/-- A sector of a cluster lies behind the root directory. -/
theorem InCluster.data_le (h : InCluster g c k) : g.dataRegion ≤ k :=
  le_trans (Nat.le_add_right ..) h.1

/-- The driver reads the word of a cluster. -/
theorem tempWord_fatEntry {M : Machine} (hg : Geometry s.diskInfo) (hc : HasWord s.diskInfo c) :
    (s.cached (fatSectorOf s.diskInfo c)).tempWord (fatOffsetOf s.diskInfo c) =
      fatEntry s.diskInfo s.disk c := by
  rw [fatSectorOf_eq hg hc, fatOffsetOf_eq hg hc]
  simp only [FileState.tempWord, FileState.tempByte, FileState.cached_tempSector]
  rw [if_pos (by omega), if_pos (by omega)]
  rfl

/-- The disk after the word of a cluster has been replaced. -/
def linked (g : DiskInfo) (d : Disk) (c w : ℕ) : Disk :=
  Function.update d (g.fatRegion + 2 * c / 512)
    ((d (g.fatRegion + 2 * c / 512)).memcpy (2 * c % 512) (bytes16 w))

/-- The driver replaces the word of a cluster. -/
theorem link_disk (hg : Geometry s.diskInfo) (hc : HasWord s.diskInfo c) :
    (s.link c w).disk = linked s.diskInfo s.disk c w := by
  rw [FileState.link, FileState.store_disk, fatSectorOf_eq hg hc, fatOffsetOf_eq hg hc, linked]

/-- The driver computes the place of a word from the last fifteen bits of the cluster number, so it
replaces a word whatever the number is. -/
theorem link_disk_mod (hg : Geometry s.diskInfo) :
    (s.link c w).disk = linked s.diskInfo s.disk (c % 32768) w := by
  have hfat : s.diskInfo.fatRegion < 2147483648 := by
    have := hg.fat_lt
    have := hg.root_lt
    have := hg.data_lt
    omega
  have hplace : c * 2 % 65536 = 2 * (c % 32768) := by omega
  have hsector : fatSectorOf s.diskInfo c = s.diskInfo.fatRegion + 2 * (c % 32768) / 512 := by
    rw [fatSectorOf, hg.bytesPerSector, hplace, sectorNumbers, Nat.mod_eq_of_lt]
    omega
  have hoffset : fatOffsetOf s.diskInfo c = 2 * (c % 32768) % 512 := by
    rw [fatOffsetOf, hg.bytesPerSector, hplace]
  rw [FileState.link, FileState.store_disk, hsector, hoffset, linked]

/-- The byte belongs to the word of the cluster. -/
def InWord (g : DiskInfo) (c k i : ℕ) : Prop :=
  k = g.fatRegion + 2 * c / 512 ∧ 2 * c % 512 ≤ i ∧ i < 2 * c % 512 + 2

/-- A byte of the FAT belongs to one word. -/
theorem InWord.inj (h : InWord g c k i) (h' : InWord g c' k i) : c = c' := by
  obtain ⟨hk, hi⟩ := h
  obtain ⟨hk', hi'⟩ := h'
  omega

/-- The words of the FAT lie in front of the root directory. -/
theorem InWord.lt_root (hc : InRange g c) (h : InWord g c k i) : k < g.rootRegion :=
  h.1 ▸ hc.fat_lt

/-- A word depends on its two bytes. -/
theorem fatEntry_congr (h : ∀ k i, InWord g c k i → (d' k).get i = (d k).get i) :
    fatEntry g d' c = fatEntry g d c := by
  rw [fatEntry, fatEntry, Sector.word, Sector.word, h _ _ ⟨rfl, le_refl _, by omega⟩,
    h _ _ ⟨rfl, Nat.le_succ _, by omega⟩]

/-- Replacing a word changes its two bytes. -/
theorem linked_get_of_not (h : ¬ InWord g c k i) :
    (linked g d c w k).get i = (d k).get i := by
  unfold linked
  by_cases hk : k = g.fatRegion + 2 * c / 512
  · rw [hk, Function.update_self, Sector.get_memcpy_of_not]
    unfold InWord at h
    simp only [length_bytes16]
    omega
  · rw [Function.update_of_ne hk]

/-- Replacing a word updates the FAT at its cluster. -/
theorem fatEntry_linked (hw : w < 65536) :
    fatEntry g (linked g d c w) = Function.update (fatEntry g d) c w := by
  funext c'
  by_cases hcc : c' = c
  · rw [hcc, Function.update_self, fatEntry, linked, Function.update_self,
      Sector.word_memcpy_self (by omega), Nat.mod_eq_of_lt hw]
  · rw [Function.update_of_ne hcc]
    exact fatEntry_congr fun k i h => linked_get_of_not fun h' => hcc (h.inj h')

/-! ## The root directory -/

/-- The number of entries of the root directory. -/
def slots (g : DiskInfo) : ℕ := 16 * (g.dataRegion - g.rootRegion)

/-- The byte belongs to the `n`-th entry of the root directory. -/
def InEntry (g : DiskInfo) (n k i : ℕ) : Prop :=
  k = g.rootRegion + n / 16 ∧ 32 * (n % 16) ≤ i ∧ i < 32 * (n % 16) + 32

/-- The sector of an entry of the root directory. -/
theorem entrySector_eq {n : ℕ} (hg : Geometry g) (hn : n < slots g) :
    entrySector g.rootRegion n = g.rootRegion + n / 16 := by
  have := hg.root_lt
  have := hg.data_lt
  rw [entrySector, Nat.mod_eq_of_lt]
  simp only [slots] at hn
  simp only [sectorNumbers]
  omega

/-- A byte of the disk belongs to one entry only. -/
theorem InEntry.inj {n m : ℕ} (h : InEntry g n k i) (h' : InEntry g m k i) : n = m := by
  obtain ⟨hk, hi⟩ := h
  obtain ⟨hk', hi'⟩ := h'
  omega

/-- The entries lie from the start of the root directory on. -/
theorem InEntry.root_le {n : ℕ} (h : InEntry g n k i) : g.rootRegion ≤ k :=
  h.1 ▸ Nat.le_add_right ..

/-- The entries lie in front of the data. -/
theorem InEntry.lt_data {n : ℕ} (hn : n < slots g) (h : InEntry g n k i) : k < g.dataRegion := by
  simp only [slots] at hn
  have := h.1
  omega

/-- The entries of two disks with the same bytes there. -/
theorem entryAt_congr {n : ℕ} (hg : Geometry g) (hn : n < slots g)
    (h : ∀ k i, InEntry g n k i → (d' k).get i = (d k).get i) (hj : j < 32) :
    entryAt d' g.rootRegion n j = entryAt d g.rootRegion n j := by
  simp only [entryAt, Sector.at, entryOffset]
  rw [entrySector_eq hg hn]
  exact h _ _ ⟨rfl, by omega, by omega⟩

/-- The disk after the first bytes of an entry have been replaced. -/
def withEntry (g : DiskInfo) (d : Disk) (n : ℕ) (src : List UInt8) : Disk :=
  Function.update d (entrySector g.rootRegion n)
    ((d (entrySector g.rootRegion n)).memcpy (entryOffset n) src)

/-- The store of an entry changes the disk at the entry. -/
theorem storeEntry_disk {n : ℕ} {src : List UInt8} :
    (s.storeEntry n src).disk = withEntry s.diskInfo s.disk n src := rfl

/-- Replacing the first bytes of an entry changes no other byte. -/
theorem withEntry_get_of_ne {n : ℕ} {src : List UInt8}
    (h : k = entrySector g.rootRegion n → i < entryOffset n ∨ entryOffset n + src.length ≤ i) :
    (withEntry g d n src k).get i = (d k).get i := by
  unfold withEntry
  by_cases hk : k = entrySector g.rootRegion n
  · rw [hk, Function.update_self, Sector.get_memcpy_of_not (h hk)]
  · rw [Function.update_of_ne hk]

/-- Replacing bytes of an entry changes no byte outside it. -/
theorem withEntry_get_of_not {n : ℕ} {src : List UInt8} (hg : Geometry g) (hn : n < slots g)
    (hsrc : src.length ≤ 32) (h : ¬ InEntry g n k i) :
    (withEntry g d n src k).get i = (d k).get i := by
  refine withEntry_get_of_ne fun hk => ?_
  rw [entrySector_eq hg hn] at hk
  unfold InEntry at h
  simp only [entryOffset]
  omega

/-- The bytes of an entry after the first of them have been replaced. -/
theorem entryAt_withEntry {n : ℕ} {src : List UInt8} (hj : j < 32) :
    entryAt (withEntry g d n src) g.rootRegion n j =
      if j < src.length then src.getD j 0 else entryAt d g.rootRegion n j := by
  simp only [entryAt, Sector.at, withEntry, Function.update_self, entryOffset]
  rw [Sector.get_memcpy (by omega), Nat.add_sub_cancel_left]
  simp only [Nat.le_add_right, true_and, Nat.add_lt_add_iff_left]

end Z80OS
