import Z80OS.File.Creation
import Z80OS.Loader.Reading

set_option relaxedAutoImplicit false
set_option autoImplicit false

/-!
# The readers of the loader and of the kernel

The kernel cuts a request down to the bytes that are left before it reads. The loader does not: it
reads whole sectors as long as the position is not the size of the file, and a last sector that the
file fills in part is read as a whole and takes the position past the size. So the two readers give
the same bytes only when the whole sectors that are asked for do not reach behind such an end. Both
of them follow the words of clusters from `0x8000` on to wrong places.

## Main definitions

* `Z80OS.Loader.Opened`, `Z80OS.Loader.KernelOpened` — a file opened with the loader, and with the
  kernel.
* `Z80OS.Loader.ReadersAgree` — both readers give the first bytes of the file.

## Main results

* `Z80OS.Loader.readersAgree_iff` — when the readers agree.
* `Z80OS.Loader.fileOpen_opened`, `Z80OS.Loader.fileOpen_kernelOpened` — opening.
-/

namespace Z80OS.Loader

/-! ## Freshly opened files -/

/-- A file of `size` bytes from the cluster `start` on, opened with the driver of the loader. -/
structure Opened (g : DiskInfo) (d : Disk) (start size : ℕ) (s : State) (fd : File) : Prop where
  coherent : Coherent s
  diskInfo : s.diskInfo = g
  disk : s.disk = d
  atStart : AtStart start size fd.desc

/-- A file of `size` bytes from the cluster `start` on, opened for reading with the driver of the
kernel. -/
structure KernelOpened (g : DiskInfo) (d : Disk) (start size : ℕ) (s : FileState)
    (fd : Fin fileLimit) : Prop where
  coherent : s.Coherent
  diskInfo : s.diskInfo = g
  disk : s.disk = d
  mode : (s.fdtable fd).mode = fmodeRead
  atStart : AtStart start size (s.fdtable fd)

/-- Both readers return the number of the first `n` bytes of the file, or of all when there are
fewer, and store these and nothing else. -/
structure ReadersAgree (loader kernel : ℕ × List UInt8) (data : List UInt8) (n : ℕ) : Prop where
  same : loader = kernel
  count : kernel.1 = min n data.length
  stored : kernel.2 = data.take n

/-- The whole sectors of a request for `n` bytes do not reach behind an end inside a sector. -/
def SectorsInside (size n : ℕ) : Prop := size % 512 = 0 ∨ n / 512 ≤ size / 512

instance (size n : ℕ) : Decidable (SectorsInside size n) :=
  inferInstanceAs (Decidable (size % 512 = 0 ∨ n / 512 ≤ size / 512))

/-- The bytes of a request that lie behind a cluster from `0x8000` on are found all the same. -/
def FarBytesFound (g : DiskInfo) (d : Disk) (file : FileDescriptor) (l : List ℕ) (data : List UInt8)
    (n : ℕ) : Prop :=
  ∀ k < min n data.length, (∃ i < k / (512 * g.sectorsPerCluster), 0x8000 ≤ l.getD i 0) →
    FoundAt g d file data k

section

variable [Memory] {M : Machine} {g : DiskInfo} {d : Disk} {s : State} {fd : File} {sk : FileState}
  {fdk : Fin fileLimit} {start n ptr : ℕ} {l : List ℕ} {data : List UInt8}
  {file file' : FileDescriptor}

/-! ## Opening -/

omit [Memory] in
/-- A lookup that ends below the sector 65536 keeps the buffer coherent.

**Proof sketch.** Induction on the number of sectors. One sector is read, and the scan ends in it or
goes on with the next one, which is not behind the sector in which it ends. -/
theorem searchSectors_coherent {filename : List UInt8} {k sector j : ℕ} {r : Option (ℕ → UInt8)}
    {s' : State} (h : Coherent s) (hle : sector ≤ j) (hj : j < 65536)
    (hstop : scanSector (s.disk j) filename entryOffsets ≠ .more)
    (hr : searchSectors filename k s sector = some (r, s')) : Coherent s' := by
  induction k generalizing s sector with
  | zero => exact absurd hr nofun
  | succ k ih =>
    have hcoh : Coherent (readSectorCached s sector) := h.request (by omega)
    rw [searchSectors, (h.serves sector).tempSector] at hr
    cases hscan : scanSector (s.disk sector) filename entryOffsets with
    | endOfDirectory =>
      simp only [hscan, Option.some.injEq, Prod.mk.injEq] at hr
      exact hr.2 ▸ hcoh
    | found f =>
      simp only [hscan, Option.some.injEq, Prod.mk.injEq] at hr
      exact hr.2 ▸ hcoh
    | more =>
      simp only [hscan] at hr
      have hne : sector ≠ j := by
        rintro rfl
        exact hstop hscan
      have hnext : (sector + 1) % sectorNumbers = sector + 1 := by
        rw [sectorNumbers]
        omega
      rw [hnext] at hr
      exact ih hcoh (by omega) (by rwa [readSectorCached_disk]) hr

omit [Memory] in
/-- What the loader opens, when the lookup ends below the sector 65536. -/
theorem fileOpen_opened {filename : List UInt8} {s' : State} {j : ℕ} (h : Coherent s)
    (hle : s.diskInfo.rootRegion ≤ j) (hj : j < 65536)
    (hstop : scanSector (s.disk j) filename entryOffsets ≠ .more)
    (hr : fileOpen s filename = some (.ok fd, s')) :
    Opened s.diskInfo s.disk fd.startCluster fd.size s' fd := by
  have hreq := fileOpen_requests hr
  unfold fileOpen at hr
  cases hget : getDirectoryEntry s filename with
  | none => simp [hget] at hr
  | some p =>
    obtain ⟨_ | entry, s₁⟩ := p
    · simp [hget] at hr
    simp only [hget, Option.some.injEq, Prod.mk.injEq, Except.ok.injEq] at hr
    obtain ⟨rfl, rfl⟩ := hr
    exact ⟨searchSectors_coherent h hle hj hstop hget, hreq.diskInfo, hreq.disk, rfl, rfl, rfl, rfl,
      rfl⟩

omit [Memory] in
/-- What the kernel opens. -/
theorem fileOpen_kernelOpened {filename : List UInt8} {s' : FileState} (h : sk.Sound)
    (hr : Z80OS.fileOpen sk filename fmodeRead = some (.ok fdk, s')) :
    KernelOpened sk.diskInfo sk.disk (s'.fdtable fdk).startCluster
      (s'.fdtable fdk).size s' fdk := by
  have hcoh := fileOpen_coherent h.coherent hr
  have hinfo := (fileOpen_frame hr).diskInfo
  cases fileOpen_cases hr with
  | read hfd _ hopen =>
    cases fileOpenRead_cases hopen with
    | opened hget =>
      obtain ⟨n, -, hs₁, -⟩ := filesystemGetDirectoryEntry_cases ⟨h.coherent.setFd, h.root_lt⟩ hget
      refine ⟨hcoh, hinfo, ?_, ?_, ?_⟩
      · rw [FileState.setFd_disk, hs₁]
        rfl
      all_goals rw [FileState.setFd_fdtable_self]
      · rfl
      · exact ⟨rfl, rfl, rfl, rfl, rfl⟩
  | write _ hmode => exact absurd hmode (by decide)

/-! ## The bytes of a request -/

omit [Memory] in
/-- A descriptor at the start of a file finds what any other one there finds. -/
theorem foundAt_congr {size k : ℕ} (h : AtStart start size file) (h' : AtStart start size file') :
    FoundAt g d file data k ↔ FoundAt g d file' data k := by
  rw [FoundAt, FoundAt, byteAhead, byteAhead, clusterAhead, clusterAhead, h.sector, h.within,
    h.currentCluster, h'.sector, h'.within, h'.currentCluster]

omit [Memory] in
/-- The first bytes of a file are found when those behind a cluster from `0x8000` on are. -/
theorem foundAt_iff (hg : Geometry g) (hfile : StoredFile g d start l data)
    (hs : AtStart start data.length file) :
    (∀ k < min n data.length, FoundAt g d file data k) ↔ FarBytesFound g d file l data n := by
  constructor
  · exact fun h k hk _ => h k hk
  · intro h k hk
    by_cases hfar : ∃ i < k / (512 * g.sectorsPerCluster), 0x8000 ≤ l.getD i 0
    · exact h k hk hfar
    · simp only [not_exists, not_and, Nat.not_le] at hfar
      exact hfile.foundAt hg hs (by omega) hfar

/-! ## The reader of the kernel -/

omit [Memory] in
/-- A file that the kernel has opened for reading can be read. -/
theorem KernelOpened.reads (hg : Geometry g) (h : KernelOpened g d start data.length sk fdk)
    (hlt : data.length < 4294967296) : sk.Reads fdk := by
  obtain ⟨hcoh, rfl, rfl, -, hat⟩ := h
  exact ⟨hcoh, hg.bytesPerSector, hat.readable hg hlt⟩

omit [Memory] in
/-- The kernel gives the bytes ahead. -/
theorem KernelOpened.fileRead_eq (hg : Geometry g) (h : KernelOpened g d start data.length sk fdk)
    (hlt : data.length < 4294967296) (hptr : 0x6000 ≤ ptr % 65536) (hpos : 0 < n) (hn : n < 65536) :
    (Z80OS.fileRead sk ptr n fdk).1 =
      ((bytesAhead g d n (sk.fdtable fdk)).1.length, (bytesAhead g d n (sk.fdtable fdk)).1) := by
  obtain ⟨j, hj⟩ := (h.reads hg hlt).read (M := M) ptr n h.mode hptr hpos hn
  rw [hj, FileState.ahead, h.diskInfo, h.disk]

/-! ## The reader of the loader -/

/-- The variables of a request. -/
@[simps]
def request (s : State) (fd : File) (n : ℕ) : Transfer := ⟨n, 0, [], fd, s⟩

omit [Memory] in
/-- A file that the loader has opened is at the start of a sector. -/
theorem Opened.atSector (hg : Geometry g) (h : Opened g d start data.length s fd)
    (hlt : data.length < 4294967296) : AtSector (request s fd n) := by
  obtain ⟨hcoh, rfl, rfl, hat⟩ := h
  exact ⟨hcoh, hg.bytesPerSector, hat.readable hg hlt, hat.within⟩

omit [Memory] in
/-- The words for the first bytes of a stored file are below the sector 65536. -/
theorem Opened.wordsBelow (hg : Geometry g) (hfile : StoredFile g d start l data)
    (h : Opened g d start data.length s fd) {m : ℕ} (hm : m ≤ data.length) :
    WordsBelow (request s fd n) m := by
  obtain ⟨-, rfl, rfl, hat⟩ := h
  have hsector : fd.sector = 0 := hat.sector
  have hcluster : fd.currentCluster = start := hat.currentCluster
  intro i hi
  show fatSectorOf s.diskInfo ((linkOf s.diskInfo s.disk)^[i] fd.currentCluster) < 65536
  have hi' : 512 * (s.diskInfo.sectorsPerCluster * (i + 1)) ≤ 512 * fd.sector + m := hi
  rw [hsector] at hi'
  rw [hcluster]
  exact hfile.fatSectorOf_lt hg (by omega)

/-- A read at the start of a file starts with whole sectors. -/
theorem Opened.fileRead_eq (hg : Geometry g) (h : Opened g d start data.length s fd) :
    (fileRead s fd n).1 =
      match readFullSectors (n / 512) (request s fd n) with
      | (true, t) => (t.bytes, t.stored)
      | (false, t) => ((readTail t.n t).bytes, (readTail t.n t).stored) := by
  have hwithin : fd.fposWithinSector = 0 := h.atStart.within
  have hbps : s.diskInfo.bytesPerSector = 512 := h.diskInfo ▸ hg.bytesPerSector
  have hfirst : readToBoundary boundaryTurns ⟨n, 0, [], fd, s⟩ = (false, request s fd n) := by
    rw [boundaryTurns, readToBoundary]
    exact if_pos hwithin
  unfold fileRead
  simp only [hfirst, hbps, request_n]
  rcases readFullSectors (n / 512) (request s fd n) with ⟨_ | _, t⟩ <;> rfl

/-- The loader gives the bytes ahead, when the whole sectors do not reach behind an end inside a
sector.

**Proof sketch.** The whole sectors give what is ahead and stop there or leave a rest smaller than a
sector (`readFullSectors_given`); the rest gives what is ahead of it (`readTail_given`). Both
together are what was asked for (`Given.trans`). -/
theorem Opened.fileRead_inside (hg : Geometry g) (hfile : StoredFile g d start l data)
    (h : Opened g d start data.length s fd) (hn : n < 65536) (hin : SectorsInside data.length n) :
    (fileRead s fd n).1 = ((bytesAhead g d n fd.desc).1.length, (bytesAhead g d n fd.desc).1) := by
  have hsize : fd.size = data.length := h.atStart.size
  have hfpos : fd.fpos = 0 := h.atStart.fpos
  suffices hgiven : ∃ t', Given n (request s fd n) t' ∧
      (fileRead s fd n).1 = (t'.bytes, t'.stored) by
    obtain ⟨t', hgiven, heq⟩ := hgiven
    have hbytes := hgiven.bytes
    have hstored := hgiven.stored
    simp only [request_fd, request_state, request_bytes, request_stored, h.diskInfo, h.disk,
      Nat.zero_add, List.nil_append] at hbytes hstored
    rw [heq, hbytes, hstored]
  have hmul : 512 * (n / 512) ≤ n := Nat.mul_div_le n 512
  have hsplit : 512 * (n / 512) + n % 512 = n := Nat.div_add_mod n 512
  obtain ⟨stop, t', heq, hstop, hgo⟩ := readFullSectors_given (t := request s fd n) (k := n / 512)
    (h.atSector hg hfile.size_lt)
    (h.wordsBelow hg hfile (by simp only [request_fd, hsize, hfpos]; omega))
    (by
      simp only [request_fd, hsize, hfpos]
      rcases hin with hzero | hle
      · exact .inl hzero
      · exact .inr (by omega))
    (Nat.lt_of_le_of_lt (by rwa [request_bytes, Nat.zero_add]) hn) hmul
  have hread := h.fileRead_eq (n := n) hg
  rw [heq] at hread
  cases stop with
  | true =>
    have hgiven := hstop rfl (n % 512)
    rw [hsplit] at hgiven
    exact ⟨t', hgiven, hread⟩
  | false =>
    obtain ⟨hgiven, hleft, hat⟩ := hgo rfl
    have hrest : t'.n = n % 512 := by
      rw [hleft]
      show n - 512 * (n / 512) = n % 512
      omega
    have hbytes : t'.bytes ≤ 512 * (n / 512) := by
      rw [hgiven.bytes, request_bytes, Nat.zero_add]
      exact length_bytesAhead_le
    have hwithin := hat.within
    have htail := readTail_given (t := t') (k := t'.n) hat.bytesPerSector (by omega)
      (hat.coherent.serves _) (by omega)
    have hwhole := hgiven.trans htail
    rw [hrest, hsplit, ← hrest] at hwhole
    exact ⟨_, hwhole, hread⟩

/-- Otherwise it stores more bytes than the file has, if it can be read to its end. -/
theorem Opened.fileRead_overshoots (hg : Geometry g) (hfile : StoredFile g d start l data)
    (h : Opened g d start data.length s fd) (hn : n < 65536) (hout : ¬ SectorsInside data.length n)
    (hall : (bytesAhead g d data.length fd.desc).1.length = data.length) :
    data.length < (fileRead s fd n).1.2.length := by
  obtain ⟨hodd, hover⟩ := not_or.mp hout
  have hsize : fd.size = data.length := h.atStart.size
  have hfpos : fd.fpos = 0 := h.atStart.fpos
  have hmul : 512 * (n / 512) ≤ n := Nat.mul_div_le n 512
  have hlong := readFullSectors_overshoots (t := request s fd n) (k := n / 512)
    (h.atSector hg hfile.size_lt)
    (h.wordsBelow hg hfile (by simp only [request_fd, hsize, hfpos]; omega))
    (by rwa [request_fd, hsize])
    (by simp only [request_fd, hsize, hfpos]; omega)
    (Nat.lt_of_le_of_lt (by rwa [request_bytes, Nat.zero_add]) hn)
    (by simpa only [request_fd, request_state, hsize, hfpos, h.diskInfo, h.disk, Nat.sub_zero]
      using hall)
  rw [request_fd, hsize, hfpos, request_stored, List.length_nil, Nat.zero_add,
    Nat.sub_zero] at hlong
  refine Nat.lt_of_lt_of_le hlong ?_
  rw [h.fileRead_eq (n := n) hg]
  rcases readFullSectors (n / 512) (request s fd n) with ⟨stop, t⟩
  cases stop with
  | true => exact Nat.le_refl _
  | false => exact readTail_stored

/-! ## Agreement -/

/-- **When the readers agree.** For a stored file that has been opened with both drivers, and every
request for some bytes: the loader and the kernel return the same count and store the same bytes,
the first ones of the file, exactly when the whole sectors of the request do not reach behind an end
inside a sector, and the bytes of the request behind a cluster from `0x8000` on are found all the
same.

**Proof sketch.** The kernel gives the bytes ahead, and they are the first ones when each of them is
found. The loader gives the same when the whole sectors are inside, and more bytes than there are
otherwise. -/
theorem readersAgree_iff (hg : Geometry g) (hfile : StoredFile g d start l data)
    (hl : Opened g d start data.length s fd) (hk : KernelOpened g d start data.length sk fdk)
    (hpos : 1 ≤ n) (hn : n < 65536) (hptr : 0x6000 ≤ ptr % 65536) :
    ReadersAgree (fileRead s fd n).1 (Z80OS.fileRead sk ptr n fdk).1 data n ↔
      SectorsInside data.length n ∧ FarBytesFound g d fd.desc l data n := by
  have hkernel := hk.fileRead_eq (M := M) hg hfile.size_lt hptr hpos hn
  have hreadl := hl.atStart.readable hg hfile.size_lt
  have hreadk := hk.atStart.readable hg hfile.size_lt
  have hloaderAhead : (bytesAhead g d n fd.desc).1 = data.take n ↔
      FarBytesFound g d fd.desc l data n := by
    rw [bytesAhead_eq_take_iff hreadl hl.atStart.fpos hl.atStart.size,
      foundAt_iff hg hfile hl.atStart]
  have hkernelAhead : (bytesAhead g d n (sk.fdtable fdk)).1 = data.take n ↔
      FarBytesFound g d fd.desc l data n := by
    rw [bytesAhead_eq_take_iff hreadk hk.atStart.fpos hk.atStart.size,
      ← foundAt_iff hg hfile hl.atStart]
    exact forall₂_congr fun k _ => foundAt_congr hk.atStart hl.atStart
  constructor
  · rintro ⟨hsame, -, hstored⟩
    have hfar : FarBytesFound g d fd.desc l data n := by
      rw [hkernel] at hstored
      exact hkernelAhead.1 hstored
    refine ⟨?_, hfar⟩
    by_contra hout
    have hlong : data.length < n := by
      by_contra hle
      exact hout (.inr (Nat.div_le_div_right (by omega)))
    -- all bytes come, so that the loader stores more
    have hall : (bytesAhead g d data.length fd.desc).1.length = data.length := by
      have hmin := hreadl.bytesAhead_min (d := d) (n := n)
      rw [hl.atStart.size, hl.atStart.fpos, Nat.sub_zero, Nat.min_eq_right (by omega)] at hmin
      rw [hmin, hloaderAhead.2 hfar, List.length_take]
      omega
    have hmore := hl.fileRead_overshoots hg hfile hn hout hall
    rw [hsame, hstored, List.length_take] at hmore
    omega
  · rintro ⟨hin, hfar⟩
    have hloader := hl.fileRead_inside hg hfile hn hin
    rw [hloaderAhead.2 hfar] at hloader
    rw [hkernelAhead.2 hfar] at hkernel
    rw [hloader, hkernel]
    exact ⟨rfl, List.length_take, rfl⟩

end

/-- The readers agree on every file and every request. -/
def AlwaysAgree [Memory] [Machine] : Prop :=
  ∀ (g : DiskInfo) (d : Disk) (start : ℕ) (l : List ℕ) (data : List UInt8) (s : State) (fd : File)
    (sk : FileState) (fdk : Fin fileLimit) (ptr n : ℕ), Geometry g → StoredFile g d start l data →
    Opened g d start data.length s fd → KernelOpened g d start data.length sk fdk →
    1 ≤ n → n < 65536 → 0x6000 ≤ ptr % 65536 →
    ReadersAgree (fileRead s fd n).1 (Z80OS.fileRead sk ptr n fdk).1 data n

/-! ## A small file -/

section

attribute [local instance] Machine.linked

/-- Zeros behind the buffer. -/
@[reducible]
def Memory.zeros : Memory := ⟨fun _ _ => 0⟩

attribute [local instance] Memory.zeros

/-- The byte of a small file at a position. It differs from those one page and one sector on. -/
def smallByte (q : ℕ) : UInt8 := UInt8.ofNat (q + q / 256)

/-- A file of 600 bytes in the clusters 2 and 3. -/
def smallData : List UInt8 := (List.range 600).map smallByte

/-- A sector of the file. -/
def smallSector (j : ℕ) : Sector := fun i => smallByte (512 * j + i)

/-- The disk of the file. The sectors of its clusters are 3 and 4. -/
def smallDisk : Disk := fun k => if k < 3 then chainDisk k else smallSector (k - 3)

/-- The driver of the loader on the disk of the file. -/
def smallLoader : State :=
  filesystemInit ⟨smallDisk, bootDiskInfo Sector.zero, Sector.zero, 0⟩

/-- The file, opened with the loader. -/
def smallFile : File where
  size := 600
  fpos := 0
  startCluster := 2
  currentCluster := 2
  sector := 0
  fposWithinSector := 0

/-- The driver of the kernel with the file open. -/
def smallKernel : FileState := (Z80OS.filesystemInit (.zeroed smallDisk)).setFd firstFd
  { name := nameAB, flags := 0, mode := fmodeRead, size := 600, fpos := 0, startCluster := 2
    currentCluster := 2, sector := 0, fposWithinSector := 0 }

/-- The chain of the file on its disk. -/
theorem chain_smallDisk :
    LinkTable.Chain (fatEntry smallState.diskInfo smallDisk) clusterEof 2 [2, 3] :=
  ⟨rfl, by decide, by decide +kernel, by decide,
    show fatEntry smallState.diskInfo smallDisk 3 = clusterEof by decide +kernel⟩

/-- The sectors of the clusters have the bytes of the file one after the other. -/
theorem get_smallDisk {q : ℕ} :
    (smallDisk (3 + q / 512)).get (q % 512) = smallByte q := by
  have hsplit : 512 * (q / 512) + q % 512 = q := Nat.div_add_mod q 512
  rw [smallDisk, if_neg (by omega), Nat.add_sub_cancel_left, Sector.get, dif_pos (by omega)]
  exact congrArg smallByte hsplit

/-- The disk has the small file. -/
theorem storedFile_smallData : StoredFile smallState.diskInfo smallDisk 2 [2, 3] smallData where
  walk _ := chain_smallDisk.walk
  inRange c hc := (usable_chainDisk c hc).toInRange
  below := by decide +kernel
  room := by decide +kernel
  size_lt := by decide +kernel
  content q hq := by
    have hsector : ∀ i < 2, dataSector smallState.diskInfo [2, 3] i = 3 + i := by decide +kernel
    have hlen : smallData.length = 600 := by rw [smallData, List.length_map, List.length_range]
    rw [hsector _ (by omega), get_smallDisk, smallData, List.getD_eq_getElem _ _ (by simp; omega)]
    simp

/-- The loader has opened it. -/
theorem opened_smallFile :
    Opened smallState.diskInfo smallDisk 2 smallData.length smallLoader smallFile :=
  ⟨rfl, by decide +kernel, rfl, by decide +kernel, rfl, rfl, rfl, rfl⟩

/-- The kernel has opened it for reading. -/
theorem kernelOpened_smallKernel :
    KernelOpened smallState.diskInfo smallDisk 2 smallData.length smallKernel firstFd :=
  ⟨rfl, by decide +kernel, rfl, rfl, by decide +kernel, rfl, rfl, rfl, rfl⟩

/-- A request for 550 bytes of the file, which ends in its second cluster. -/
theorem readersAgree_smallFile : ReadersAgree (fileRead smallLoader smallFile 550).1
    (Z80OS.fileRead smallKernel 0x8000 550 firstFd).1 smallData 550 := by
  refine (readersAgree_iff geometry_smallState storedFile_smallData opened_smallFile
    kernelOpened_smallKernel (by decide) (by decide) (by decide)).mpr ⟨by decide +kernel, ?_⟩
  intro k hk hfar
  obtain ⟨i, -, hlarge⟩ := hfar
  -- both clusters have small numbers
  have hsmall : [2, 3].getD i 0 < 0x8000 := by
    match i with
    | 0 => decide
    | 1 => decide
    | i + 2 => exact Nat.zero_lt_succ _
  exact absurd hlarge (Nat.not_le.mpr hsmall)

/-- A request for 1024 bytes of the file, of which the loader returns 1024. -/
theorem not_alwaysAgree : ¬ AlwaysAgree := by
  intro hall
  have hagree := hall _ _ _ _ _ _ _ _ _ 0x8000 1024 geometry_smallState storedFile_smallData
    opened_smallFile kernelOpened_smallKernel (by decide) (by decide) (by decide)
  have hcount : (fileRead smallLoader smallFile 1024).1.1 = 1024 := by decide +kernel
  have hkernel := hagree.count
  rw [← hagree.same, hcount] at hkernel
  exact absurd hkernel (by decide +kernel)

end

end Z80OS.Loader
