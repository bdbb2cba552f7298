import Z80OS.File.Splitting

set_option relaxedAutoImplicit false
set_option autoImplicit false

/-!
# Where the bytes ahead lie

The bytes that a descriptor reads one after the other lie in the clusters to which the words lead,
as the driver finds them. The driver keeps twice the number of a cluster in 16 bits, so that it
finds the words of the clusters below `0x8000` only. This file says which bytes of a stored file are
read right.

## Main definitions

* `Z80OS.byteAhead` — a byte ahead of a descriptor.
* `Z80OS.StoredFile` — a file on the disk, with clusters of any number.
* `Z80OS.FoundAt` — a byte of a file is where the driver looks for it.

## Main results

* `Z80OS.getD_bytesAhead` — the bytes that are read are those ahead.
* `Z80OS.bytesAhead_eq_take_iff` — when the bytes that are read are the first ones of a file.
* `Z80OS.StoredFile.foundAt` — a byte in front of which all clusters are below `0x8000` is found.
-/

namespace Z80OS

/-- The `k`-th byte ahead of a descriptor, in the cluster to which the driver follows the FAT. -/
def byteAhead (g : DiskInfo) (d : Disk) (file : FileDescriptor) (k : ℕ) : UInt8 :=
  (d ((fileStartSector g (clusterAhead g d file k) +
    (512 * file.sector + file.fposWithinSector + k) / 512 % g.sectorsPerCluster) %
      sectorNumbers)).get ((file.fposWithinSector + k) % 512)

section

variable {g : DiskInfo} {d : Disk} {file : FileDescriptor} {k n : ℕ}

/-- The byte at the position of a descriptor is the one no bytes ahead. -/
theorem byteAhead_zero (h : Readable g file) : byteAhead g d file 0 = file.byteAt g d := by
  have hwithin := h.within_lt
  have hsector : (512 * file.sector + file.fposWithinSector + 0) / 512 % g.sectorsPerCluster =
      file.sector := by
    rw [show (512 * file.sector + file.fposWithinSector + 0) / 512 = file.sector by omega,
      Nat.mod_eq_of_lt h.sector]
  rw [byteAhead, clusterAhead_zero h, hsector, Nat.add_zero, Nat.mod_eq_of_lt hwithin]
  rfl

/-- The bytes ahead of the descriptor behind the next byte are those one further ahead of this one.

**Proof sketch.** The cluster is the same (`clusterAhead_advanced`), and the place in it is one
further for the descriptor behind the byte: by cases on whether the byte ends its sector and the
sector its cluster. -/
theorem byteAhead_advanced (h : Readable g file) :
    byteAhead g d (file.advanced g d) k = byteAhead g d file (k + 1) := by
  have hsector := h.sector
  have hwithin := h.within_lt
  have hskip := h.skipByte_fposWithinSector
  have hnext : file.skipByte.atSectorStart.nextSector.sector = file.sector + 1 :=
    h.nextSector_sector
  -- the sector and the position in it, of the byte from here and from behind the next one
  suffices hplace :
      (512 * (file.advanced g d).sector + (file.advanced g d).fposWithinSector + k) / 512 %
        g.sectorsPerCluster =
      (512 * file.sector + file.fposWithinSector + (k + 1)) / 512 % g.sectorsPerCluster ∧
      ((file.advanced g d).fposWithinSector + k) % 512 = (file.fposWithinSector + (k + 1)) % 512 by
    rw [byteAhead, byteAhead, clusterAhead_advanced h, hplace.1, hplace.2]
  unfold FileDescriptor.advanced
  split_ifs with hfull
  · unfold FileDescriptor.crossed
    rw [hnext]
    split_ifs with hcluster
    · refine ⟨?_, ?_⟩
      · show (512 * 0 + 0 + k) / 512 % g.sectorsPerCluster = _
        rw [show (512 * file.sector + file.fposWithinSector + (k + 1)) / 512 =
          (512 * 0 + 0 + k) / 512 + g.sectorsPerCluster by omega, Nat.add_mod_right]
      · show (0 + k) % 512 = _
        omega
    · refine ⟨?_, ?_⟩
      · rw [hnext]
        show (512 * (file.sector + 1) + 0 + k) / 512 % g.sectorsPerCluster = _
        rw [show 512 * (file.sector + 1) + 0 + k =
          512 * file.sector + file.fposWithinSector + (k + 1) by omega]
      · show (0 + k) % 512 = _
        omega
  · rw [hskip]
    refine ⟨?_, ?_⟩
    · show (512 * file.sector + (file.fposWithinSector + 1) + k) / 512 % g.sectorsPerCluster = _
      rw [show 512 * file.sector + (file.fposWithinSector + 1) + k =
        512 * file.sector + file.fposWithinSector + (k + 1) by omega]
    · rw [show file.fposWithinSector + 1 + k = file.fposWithinSector + (k + 1) by omega]

/-- **The bytes that are read** are those ahead.

**Proof sketch.** Induction on the number of bytes, like for `length_bytesAhead_iff`. -/
theorem getD_bytesAhead (h : Readable g file) (hk : k < (bytesAhead g d n file).1.length) :
    (bytesAhead g d n file).1.getD k 0 = byteAhead g d file k := by
  induction n generalizing file k with
  | zero => exact absurd hk (Nat.not_lt_zero k)
  | succ n ih =>
    rw [bytesAhead] at hk ⊢
    split_ifs at hk ⊢ with hend
    · exact absurd hk (Nat.not_lt_zero k)
    · cases k with
      | zero => exact (byteAhead_zero h).symm
      | succ k =>
        rw [List.getD_cons_succ, ih (h.advanced hend).readable (Nat.lt_of_succ_lt_succ hk),
          byteAhead_advanced h]

/-- A byte of a file is where a descriptor at the start of the file looks for it. -/
def FoundAt (g : DiskInfo) (d : Disk) (file : FileDescriptor) (data : List UInt8) (k : ℕ) : Prop :=
  clusterAhead g d file k ≠ clusterEof ∧ byteAhead g d file k = data.getD k 0

/-- **When the first bytes of a file are read**: when each of them is found.

**Proof sketch.** As many bytes as these come when each lies in a cluster, by
`length_bytesAhead_iff`, and those that come are the ones ahead. -/
theorem bytesAhead_eq_take_iff {data : List UInt8} (h : Readable g file) (hfpos : file.fpos = 0)
    (hsize : file.size = data.length) :
    (bytesAhead g d n file).1 = data.take n ↔
      ∀ k < min n data.length, FoundAt g d file data k := by
  have hlength := length_bytesAhead_iff (n := n) (d := d) h
  rw [hfpos, hsize, Nat.sub_zero] at hlength
  constructor
  · intro heq k hk
    have hlen : (bytesAhead g d n file).1.length = min n data.length := by
      rw [heq, List.length_take]
    refine ⟨hlength.1 hlen k hk, ?_⟩
    rw [← getD_bytesAhead (n := n) h (by omega), heq]
    simp only [List.getD_eq_getElem?_getD, List.getElem?_take]
    rw [if_pos (by omega)]
  · intro hall
    have hlen := hlength.2 fun k hk => (hall k hk).1
    refine List.ext_getElem (by rw [hlen, List.length_take]) fun k hk hk' => ?_
    have hmin : k < min n data.length := hlen ▸ hk
    rw [← List.getD_eq_getElem _ 0 hk, getD_bytesAhead h hk, (hall k hmin).2, List.getElem_take,
      List.getD_eq_getElem]

end

/-! ## Stored files -/

/-- A descriptor at the start of a file. -/
structure AtStart (start size : ℕ) (file : FileDescriptor) : Prop where
  size : file.size = size
  fpos : file.fpos = 0
  currentCluster : file.currentCluster = start
  sector : file.sector = 0
  within : file.fposWithinSector = 0

/-- The clusters `l` of the disk, each linked to the next one, have the contents `data`, and their
sectors are below 65536. The clusters can have any number for which there is a word, and an empty
file can be without clusters. -/
structure StoredFile (g : DiskInfo) (d : Disk) (start : ℕ) (l : List ℕ) (data : List UInt8) :
    Prop where
  walk : data ≠ [] → LinkTable.Walk (fatEntry g d) start l
  inRange : ∀ c ∈ l, InRange g c
  below : ∀ c ∈ l, clusterSector g c + g.sectorsPerCluster ≤ 65536
  room : data.length ≤ 512 * (g.sectorsPerCluster * l.length)
  size_lt : data.length < 4294967296
  content : ∀ q < data.length, (d (dataSector g l (q / 512))).get (q % 512) = data.getD q 0

section

variable {g : DiskInfo} {d : Disk} {file : FileDescriptor} {data : List UInt8} {l : List ℕ}
  {start c k i : ℕ}

/-- A descriptor at the start of a file reads. -/
theorem AtStart.readable (hg : Geometry g) (h : AtStart start data.length file)
    (hlt : data.length < 4294967296) : Readable g file := by
  have hpos := hg.spc_pos
  have hle := hg.spc_le
  refine ⟨?_, h.size ▸ hlt, ?_, ?_, by omega⟩
  · rw [h.fpos]
    exact Nat.zero_le _
  · rw [h.within, h.fpos]
  · rw [h.sector]
    exact hpos

/-- The driver finds the word of a cluster below `0x8000`. -/
theorem linkOf_eq (hg : Geometry g) (hc : InRange g c) (hlt : c < 0x8000) :
    linkOf g d c = fatEntry g d c := by
  have hword : HasWord g c := ⟨hc, by omega⟩
  rw [linkOf, fatSectorOf_eq hg hword, fatOffsetOf_eq hg hword, fatEntry]

/-- The driver finds the sectors of a cluster below the sector 65536. -/
theorem fileStartSector_of_below (hg : Geometry g) (hc : InRange g c)
    (hlow : clusterSector g c + g.sectorsPerCluster ≤ 65536) :
    fileStartSector g c = clusterSector g c := by
  have h2 := hc.two_le
  have hroot := hg.root_lt
  have hspc := hg.spc_pos
  have hmul : c - 2 ≤ (c - 2) * g.sectorsPerCluster := Nat.le_mul_of_pos_right _ hspc
  rw [clusterSector] at hlow
  have hsub : (c + 65534) % 65536 = c - 2 := by omega
  rw [fileStartSector, hsub, Nat.mod_eq_of_lt (show (c - 2) * g.sectorsPerCluster < 65536 by omega),
    clusterSector, sectorNumbers, Nat.mod_eq_of_lt (by omega)]

namespace StoredFile

/-- The index of the cluster of a byte. -/
theorem div_lt_length (hg : Geometry g) (h : StoredFile g d start l data) (hk : k < data.length) :
    k / (512 * g.sectorsPerCluster) < l.length := by
  have hroom := h.room
  rw [Nat.div_lt_iff_lt_mul (Nat.mul_pos (by decide) hg.spc_pos), Nat.mul_comm, Nat.mul_assoc]
  omega

/-- A cluster of the chain is found by its number. -/
theorem getD_mem (hi : i < l.length) : l.getD i 0 ∈ l := by
  rw [List.getD_eq_getElem _ _ hi]
  exact List.getElem_mem hi

/-- The clusters to which the words lead, as the driver finds them, are those of the file up to the
first one behind one of `0x8000` or more. -/
theorem iterate_linkOf (hg : Geometry g) (h : StoredFile g d start l data) (hne : data ≠ [])
    (hi : i < l.length) (hlow : ∀ j < i, l.getD j 0 < 0x8000) :
    (linkOf g d)^[i] start = l.getD i 0 :=
  (h.walk hne).iterate hi 0 fun j hj =>
    linkOf_eq hg (h.inRange _ (getD_mem (Nat.lt_trans hj hi))) (hlow j hj)

/-- The end mark is not a cluster of the file. -/
theorem ne_clusterEof (hg : Geometry g) (h : StoredFile g d start l data) (hc : c ∈ l) :
    c ≠ clusterEof := by
  rintro rfl
  have hfat := (h.inRange _ hc).fat_lt
  have hlow := h.below _ hc
  have hroot := hg.root_lt
  have hspc := hg.spc_pos
  simp only [clusterSector, clusterEof] at hfat hlow
  omega

/-- **The bytes that are found.** A byte is found when all the clusters in front of its own are
below `0x8000`. -/
theorem foundAt (hg : Geometry g) (h : StoredFile g d start l data)
    (hs : AtStart start data.length file) (hk : k < data.length)
    (hlow : ∀ i < k / (512 * g.sectorsPerCluster), l.getD i 0 < 0x8000) :
    FoundAt g d file data k := by
  have hi := h.div_lt_length hg hk
  have hne : data ≠ [] := List.ne_nil_of_length_pos (Nat.zero_lt_of_lt hk)
  have hmem := getD_mem hi
  have hcluster : clusterAhead g d file k = l.getD (k / (512 * g.sectorsPerCluster)) 0 := by
    rw [clusterAhead, hs.sector, hs.within, hs.currentCluster, Nat.mul_zero, Nat.zero_add]
    exact h.iterate_linkOf hg hne hi hlow
  have hbelow := h.below _ hmem
  have hsector := Nat.mod_lt (k / 512) hg.spc_pos
  refine ⟨hcluster ▸ h.ne_clusterEof hg hmem, ?_⟩
  rw [← h.content k hk, byteAhead, hcluster, fileStartSector_of_below hg (h.inRange _ hmem) hbelow,
    hs.sector, hs.within, Nat.mul_zero, Nat.zero_add, sectorNumbers,
    Nat.mod_eq_of_lt (by omega), dataSector, Nat.div_div_eq_div_mul]

/-- The words that the driver reads on its way through a file are below the sector 65536.

**Proof sketch.** With a cluster of `0x8000` or more the FAT has more than 128 sectors, and the
driver goes to the first 128 of them. Otherwise the clusters on the way are those of the file. -/
theorem fatSectorOf_lt (hg : Geometry g) (h : StoredFile g d start l data)
    (hi : 512 * (g.sectorsPerCluster * (i + 1)) ≤ data.length) :
    fatSectorOf g ((linkOf g d)^[i] start) < 65536 := by
  have hroom := h.room
  have hspc := hg.spc_pos
  have hlen : i < l.length := by
    have hmul : g.sectorsPerCluster * (i + 1) ≤ g.sectorsPerCluster * l.length := by omega
    exact Nat.le_of_mul_le_mul_left hmul hspc
  have hroot := hg.root_lt
  have hdata : g.dataRegion < 65536 := by
    have hbelow := h.below _ (getD_mem hlen)
    rw [clusterSector] at hbelow
    omega
  by_cases hall : ∀ c ∈ l, c < 0x8000
  · have hne : data ≠ [] := by
      have hpos : 0 < g.sectorsPerCluster * (i + 1) := Nat.mul_pos hspc (Nat.zero_lt_succ i)
      exact List.ne_nil_of_length_pos (by omega)
    rw [h.iterate_linkOf hg hne hlen fun j hj => hall _ (getD_mem (Nat.lt_trans hj hlen))]
    have hrange := h.inRange _ (getD_mem hlen)
    have hfat := hrange.fat_lt
    rw [fatSectorOf_eq hg ⟨hrange, by have := hall _ (getD_mem hlen); omega⟩]
    omega
  · simp only [not_forall, Nat.not_lt] at hall
    obtain ⟨c, hc, hge⟩ := hall
    have hfat := (h.inRange c hc).fat_lt
    rw [fatSectorOf, hg.bytesPerSector, sectorNumbers, Nat.mod_eq_of_lt (by omega)]
    omega

end StoredFile

end

end Z80OS
