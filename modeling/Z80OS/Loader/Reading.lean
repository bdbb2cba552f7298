import Z80OS.File.Located
import Z80OS.Loader.Cache

set_option relaxedAutoImplicit false
set_option autoImplicit false

/-!
# Reading with the driver of the loader

A file of the loader stands at a position like a descriptor of the kernel, so what it has ahead can
be said in the same terms. The loader reads whole sectors without a look at the size of the file,
and finds its end only at a position that is equal to the size. This file shows which bytes it reads
from the start of a sector on, and that behind an end inside a sector it reads on.

## Main definitions

* `Z80OS.Loader.File.desc` — a file as a descriptor.
* `Z80OS.Loader.Serves` — a request for a sector will be answered with its contents.
* `Z80OS.Loader.Given` — a part of a read has given some bytes.

## Main results

* `Z80OS.Loader.readFullSectors_given`, `Z80OS.Loader.readTail_given` — the phases of a read.
* `Z80OS.Loader.readFullSectors_overshoots` — whole sectors behind an end inside a sector.
-/

namespace Z80OS.Loader

/-- A file as a descriptor that is open for reading. -/
def File.desc (fd : File) : FileDescriptor where
  name := []
  flags := 0
  mode := fmodeRead
  size := fd.size
  fpos := fd.fpos
  startCluster := fd.startCluster
  currentCluster := fd.currentCluster
  sector := fd.sector
  fposWithinSector := fd.fposWithinSector

/-- The buffer holds the sector whose number is stored. -/
def Coherent (s : State) : Prop := s.tempSector = s.disk s.currentCacheSector

/-- When the sector is taken for the one in the buffer, it is in the buffer. -/
def Serves (s : State) (k : ℕ) : Prop := s.currentCacheSector = k → s.tempSector = s.disk k

/-- Between two points of a read the next `m` bytes of the file have been given. -/
structure Given (m : ℕ) (t t' : Transfer) : Prop where
  bytes : t'.bytes = t.bytes + (bytesAhead t.state.diskInfo t.state.disk m t.fd.desc).1.length
  stored : t'.stored = t.stored ++ (bytesAhead t.state.diskInfo t.state.disk m t.fd.desc).1
  desc : t'.fd.desc = (bytesAhead t.state.diskInfo t.state.disk m t.fd.desc).2
  disk : t'.state.disk = t.state.disk
  diskInfo : t'.state.diskInfo = t.state.diskInfo

variable {s : State} {fd : File} {t t₁ t' : Transfer} {c k m n : ℕ}

/-! ## The cache -/

/-- A coherent buffer serves every sector. -/
theorem Coherent.serves (h : Coherent s) (k : ℕ) : Serves s k := fun hk => hk ▸ h

/-- A request leaves the disk. -/
@[simp] theorem readSectorCached_disk : (readSectorCached s k).disk = s.disk :=
  (Requests.one s k).disk

/-- A request leaves the layout. -/
@[simp] theorem readSectorCached_diskInfo : (readSectorCached s k).diskInfo = s.diskInfo :=
  (Requests.one s k).diskInfo

/-- A request that is served gives the sector. -/
theorem Serves.tempSector (h : Serves s k) : (readSectorCached s k).tempSector = s.disk k := by
  unfold readSectorCached
  split_ifs with hk
  · rfl
  · exact h (not_not.mp hk)

/-- A sector that has been given is given again. -/
theorem Serves.again (h : Serves s k) : Serves (readSectorCached s k) k := by
  intro _
  rw [h.tempSector, readSectorCached_disk]

/-- A request for a sector below 65536 keeps the buffer coherent. -/
theorem Coherent.request (h : Coherent s) (hk : k < 65536) : Coherent (readSectorCached s k) := by
  unfold readSectorCached
  split_ifs
  · show s.disk k = s.disk (k % 65536)
    rw [Nat.mod_eq_of_lt hk]
  · exact h

/-! ## The next sector -/

section

variable [Memory]

/-- The driver reads the word that links a cluster. -/
theorem getNextCluster_fst (h : Coherent s) (hb : s.diskInfo.bytesPerSector = 512) :
    (getNextCluster s c).1 = linkOf s.diskInfo s.disk c := by
  have hoff : fatOffsetOf s.diskInfo c + 1 < 512 := by
    rw [fatOffsetOf, hb]
    omega
  simp only [getNextCluster, State.tempByte, (h.serves _).tempSector]
  rw [if_pos (by omega), if_pos hoff]
  rfl

/-- The file behind its sector. -/
theorem readNextSector_desc (h : Coherent s) (hb : s.diskInfo.bytesPerSector = 512) :
    (readNextSector s fd).1.desc = fd.desc.crossed s.diskInfo s.disk := by
  have hsame : fd.desc.nextSector.sector = fd.nextSector.sector := rfl
  unfold readNextSector FileDescriptor.crossed
  simp only [hsame, getNextCluster_fst h hb]
  split_ifs <;> rfl

/-- The step to the next sector keeps the buffer coherent, below the sector 65536. -/
theorem readNextSector_coherent (h : Coherent s)
    (hfat : fd.sector + 1 = s.diskInfo.sectorsPerCluster →
      fatSectorOf s.diskInfo fd.currentCluster < 65536)
    (hlt : fd.sector < s.diskInfo.sectorsPerCluster) (hspc : s.diskInfo.sectorsPerCluster < 256) :
    Coherent (readNextSector s fd).2 := by
  unfold readNextSector getNextCluster
  simp only
  split_ifs with hfull
  · have hsector : fd.sector + 1 = s.diskInfo.sectorsPerCluster := by
      rw [← hfull]
      show fd.sector + 1 = (fd.sector + 1) % 256
      omega
    exact h.request (hfat hsector)
  · exact h

/-! ## Single bytes and whole sectors -/

omit [Memory] in
/-- The end of a file, by its fields. -/
theorem atEnd_desc : AtEnd fd.desc ↔ fd.fpos = fd.size ∨ fd.currentCluster = clusterEof := Iff.rfl

/-- At the end nothing is read. -/
theorem fileReadbyte_end (hend : AtEnd fd.desc) : fileReadbyte s fd = (none, fd, s) := by
  unfold fileReadbyte
  by_cases hfpos : fd.fpos = fd.size
  · rw [if_pos hfpos]
  · rw [if_neg hfpos, if_pos ((atEnd_desc.mp hend).resolve_left hfpos)]

/-- At the end no sector is read. -/
theorem fileReadsector_end (hend : AtEnd fd.desc) : fileReadsector s fd = (none, fd, s) := by
  unfold fileReadsector
  by_cases hfpos : fd.fpos = fd.size
  · rw [if_pos hfpos]
  · rw [if_neg hfpos, if_pos ((atEnd_desc.mp hend).resolve_left hfpos)]

/-- In front of the last byte of a sector the next byte is read from the sector. -/
theorem fileReadbyte_inside (hend : ¬ AtEnd fd.desc) (hb : s.diskInfo.bytesPerSector = 512)
    (hw : fd.fposWithinSector + 1 < 512) (hs : Serves s (fd.sectorNumber s.diskInfo)) :
    ∃ fd', fileReadbyte s fd = (some (fd.desc.byteAt s.diskInfo s.disk), fd',
        readSectorCached s (fd.sectorNumber s.diskInfo)) ∧
      fd'.desc = fd.desc.advanced s.diskInfo s.disk ∧
      fd'.sectorNumber s.diskInfo = fd.sectorNumber s.diskInfo ∧
      fd'.fposWithinSector = fd.fposWithinSector + 1 := by
  obtain ⟨hfpos, hc⟩ := not_or.mp (mt atEnd_desc.mpr hend)
  have hskip : (fd.fposWithinSector + 1) % 65536 = fd.fposWithinSector + 1 := by omega
  have hne : ¬ fd.fposWithinSector + 1 = 512 := by omega
  have hbyte : (readSectorCached s (fd.sectorNumber s.diskInfo)).tempByte fd.fposWithinSector =
      fd.desc.byteAt s.diskInfo s.disk := by
    rw [State.tempByte, if_pos (by omega), hs.tempSector]
    rfl
  unfold fileReadbyte
  simp only [if_neg hfpos, if_neg hc, readSectorCached_diskInfo, hb, hskip, if_neg hne, hbyte]
  refine ⟨_, rfl, ?_, rfl, rfl⟩
  have hskip' : fd.desc.skipByte.fposWithinSector = fd.fposWithinSector + 1 := hskip
  rw [FileDescriptor.advanced, hskip', if_neg hne, FileDescriptor.skipByte]
  simp only [File.desc, hskip]

/-- A whole sector is read as it is on the disk. -/
theorem fileReadsector_some (hend : ¬ AtEnd fd.desc) (h : Coherent s)
    (hb : s.diskInfo.bytesPerSector = 512) (hlt : fd.sector < s.diskInfo.sectorsPerCluster)
    (hspc : s.diskInfo.sectorsPerCluster < 256)
    (hfat : fd.sector + 1 = s.diskInfo.sectorsPerCluster →
      fatSectorOf s.diskInfo fd.currentCluster < 65536) :
    ∃ fd' s', fileReadsector s fd =
        (some ((s.disk (fd.desc.sectorNumber s.diskInfo)).slice 0 512), fd', s') ∧
      fd'.desc = (fd.desc.countSector 512).crossed s.diskInfo s.disk ∧ Coherent s' ∧
      Requests s s' := by
  obtain ⟨hfpos, hc⟩ := not_or.mp (mt atEnd_desc.mpr hend)
  unfold fileReadsector
  simp only [if_neg hfpos, if_neg hc, hb]
  exact ⟨_, _, rfl, readNextSector_desc h hb, readNextSector_coherent h hfat hlt hspc,
    readNextSector_requests⟩

/-! ## Parts of a read -/

omit [Memory] in
/-- No bytes are given by nothing. -/
theorem Given.refl (t : Transfer) : Given 0 t t :=
  ⟨rfl, (List.append_nil _).symm, rfl, rfl, rfl⟩

omit [Memory] in
/-- The bytes of two steps are given one after the other. -/
theorem Given.trans (h₁ : Given m t t₁) (h₂ : Given n t₁ t') : Given (m + n) t t' := by
  have hadd := @bytesAhead_add t.state.diskInfo t.state.disk t.fd.desc m n
  rw [← h₁.desc] at hadd
  have h₂' := h₂
  obtain ⟨hbytes, hstored, hdesc, hdisk, hinfo⟩ := h₂'
  rw [h₁.disk, h₁.diskInfo] at hbytes hstored hdesc
  refine ⟨?_, ?_, ?_, hdisk.trans h₁.disk, hinfo.trans h₁.diskInfo⟩
  · rw [hbytes, h₁.bytes, hadd, List.length_append, Nat.add_assoc]
  · rw [hstored, h₁.stored, hadd, List.append_assoc]
  · rw [hdesc, hadd]

omit [Memory] in
/-- At the end a read has given all the bytes that there are. -/
theorem Given.of_end (hend : AtEnd t.fd.desc) (n : ℕ) : Given n t t := by
  refine ⟨?_, ?_, ?_, rfl, rfl⟩
  · rw [bytesAhead_end hend]
    rfl
  · rw [bytesAhead_end hend, List.append_nil]
  · rw [bytesAhead_end hend]

/-- The state of a read at the start of a sector. -/
structure AtSector (t : Transfer) : Prop where
  coherent : Coherent t.state
  bytesPerSector : t.state.diskInfo.bytesPerSector = 512
  readable : Readable t.state.diskInfo t.fd.desc
  within : t.fd.fposWithinSector = 0

/-- The words on the way through the next `m` bytes are below the sector 65536. -/
def WordsBelow (t : Transfer) (m : ℕ) : Prop :=
  ∀ i, 512 * (t.state.diskInfo.sectorsPerCluster * (i + 1)) ≤ 512 * t.fd.sector + m →
    fatSectorOf t.state.diskInfo
      ((linkOf t.state.diskInfo t.state.disk)^[i] t.fd.currentCluster) < 65536

/-- The variables of a read behind a whole sector. -/
def behindSector (t : Transfer) (fd : File) (s : State) : Transfer where
  n := t.n - 512
  bytes := (t.bytes + 512) % 65536
  stored := t.stored ++ (t.state.disk (t.fd.desc.sectorNumber t.state.diskInfo)).slice 0 512
  fd := fd
  state := s

section

omit [Memory]

variable {s' : State} {fd' : File}

/-- How many bytes are still to be read. -/
@[simp] theorem behindSector_n : (behindSector t fd' s').n = t.n - 512 := rfl

/-- How many bytes have been read, in 16 bits. -/
@[simp] theorem behindSector_bytes : (behindSector t fd' s').bytes = (t.bytes + 512) % 65536 := rfl

/-- What has been stored. -/
@[simp] theorem behindSector_stored : (behindSector t fd' s').stored =
    t.stored ++ (t.state.disk (t.fd.desc.sectorNumber t.state.diskInfo)).slice 0 512 := rfl

/-- The file behind the sector. -/
@[simp] theorem behindSector_fd : (behindSector t fd' s').fd = fd' := rfl

/-- The state behind the sector. -/
@[simp] theorem behindSector_state : (behindSector t fd' s').state = s' := rfl

end

/-- One more sector. -/
theorem readFullSectors_succ (h : AtSector t) (hend : ¬ AtEnd t.fd.desc) (hfat : WordsBelow t 512)
    (k : ℕ) :
    ∃ fd' s', readFullSectors (k + 1) t = readFullSectors k (behindSector t fd' s') ∧
      fd'.desc = (t.fd.desc.countSector 512).crossed t.state.diskInfo t.state.disk ∧
      Coherent s' ∧ s'.disk = t.state.disk ∧ s'.diskInfo = t.state.diskInfo := by
  have hlt : t.fd.sector < t.state.diskInfo.sectorsPerCluster := h.readable.sector
  obtain ⟨fd', s', hr, hdesc, hcoh, hreq⟩ :=
    fileReadsector_some hend h.coherent h.bytesPerSector hlt
    h.readable.spc fun hfull => hfat 0 (by omega)
  refine ⟨fd', s', ?_, hdesc, hcoh, hreq.disk, hreq.diskInfo⟩
  rw [readFullSectors, hr]
  simp only [h.bytesPerSector]
  rfl

omit [Memory] in
/-- Behind a sector of the file comes the start of the next one.

**Proof sketch.** A whole sector is given (`bytesAhead_sector`), and the descriptor stands where it
stands behind 512 bytes (`Readable.standsBehind`), which is at the start of a sector again. -/
theorem AtSector.next {fd' : File} {s' : State} (h : AtSector t) (hend : ¬ AtEnd t.fd.desc)
    (hle : t.fd.fpos + 512 ≤ t.fd.size)
    (hdesc : fd'.desc = (t.fd.desc.countSector 512).crossed t.state.diskInfo t.state.disk)
    (hcoh : Coherent s') (hdisk : s'.disk = t.state.disk)
    (hinfo : s'.diskInfo = t.state.diskInfo) (hb : t.bytes + 512 < 65536) :
    Given 512 t (behindSector t fd' s') ∧ AtSector (behindSector t fd' s') ∧
      fd'.fpos = t.fd.fpos + 512 ∧ fd'.size = t.fd.size := by
  have hsector := bytesAhead_sector (d := t.state.disk) h.readable hend h.within hle
  have hlen : (bytesAhead t.state.diskInfo t.state.disk 512 t.fd.desc).1.length = 512 := by
    rw [hsector, Sector.length_slice]
  have hbehind : (bytesAhead t.state.diskInfo t.state.disk 512 t.fd.desc).2 = fd'.desc := by
    rw [hsector, hdesc]
  have hstands := h.readable.standsBehind (d := t.state.disk) (n := 512)
  rw [hlen, hbehind] at hstands
  have hfpos : fd'.fpos = t.fd.fpos + 512 := hstands.fpos
  have hsize : fd'.size = t.fd.size := hstands.size
  have hwithin : fd'.fposWithinSector = fd'.fpos % 512 := hstands.readable.within
  have hwithin₀ : t.fd.fposWithinSector = t.fd.fpos % 512 := h.readable.within
  have hzero := h.within
  refine ⟨⟨?_, ?_, ?_, ?_, ?_⟩, ⟨?_, ?_, ?_, ?_⟩, hfpos, hsize⟩
  · rw [hlen, behindSector_bytes]
    omega
  · rw [hsector, behindSector_stored]
  · rw [hbehind, behindSector_fd]
  · rw [behindSector_state, hdisk]
  · rw [behindSector_state, hinfo]
  · rw [behindSector_state]
    exact hcoh
  · rw [behindSector_state, hinfo]
    exact h.bytesPerSector
  · rw [behindSector_state, behindSector_fd, hinfo]
    exact hstands.readable
  · rw [behindSector_fd]
    omega

omit [Memory] in
/-- The number of the sector in its cluster behind a sector. -/
theorem crossed_sector {g : DiskInfo} {d : Disk} {file : FileDescriptor} :
    (file.crossed g d).sector =
      if (file.sector + 1) % 256 = g.sectorsPerCluster then 0 else (file.sector + 1) % 256 := by
  unfold FileDescriptor.crossed
  simp only [FileDescriptor.nextSector_sector]
  split_ifs <;> rfl

omit [Memory] in
/-- The cluster behind a sector. -/
theorem crossed_currentCluster {g : DiskInfo} {d : Disk} {file : FileDescriptor} :
    (file.crossed g d).currentCluster =
      if (file.sector + 1) % 256 = g.sectorsPerCluster then linkOf g d file.currentCluster
      else file.currentCluster := by
  unfold FileDescriptor.crossed
  simp only [FileDescriptor.nextSector_sector]
  split_ifs <;> rfl

omit [Memory] in
/-- What is known about the words on the way through the next bytes is known behind a sector.

**Proof sketch.** Behind a sector within its cluster the words are the same. Behind the last sector
the cluster is the one that the word leads to, so that the word after `i` links is the one after
`i + 1` links before. -/
theorem WordsBelow.next {fd' : File} {s' : State} (h : AtSector t) (hfat : WordsBelow t (512 + m))
    (hdesc : fd'.desc = (t.fd.desc.countSector 512).crossed t.state.diskInfo t.state.disk)
    (hdisk : s'.disk = t.state.disk) (hinfo : s'.diskInfo = t.state.diskInfo) :
    WordsBelow (behindSector t fd' s') m := by
  have hlt : t.fd.sector < t.state.diskInfo.sectorsPerCluster := h.readable.sector
  have hspc := h.readable.spc
  have hmod : (t.fd.sector + 1) % 256 = t.fd.sector + 1 := by omega
  have hsector : fd'.sector =
      if t.fd.sector + 1 = t.state.diskInfo.sectorsPerCluster then 0 else t.fd.sector + 1 := by
    have hcrossed := congrArg FileDescriptor.sector hdesc
    rw [crossed_sector, FileDescriptor.countSector_sector] at hcrossed
    rw [← hmod]
    exact hcrossed
  have hcluster : fd'.currentCluster =
      if t.fd.sector + 1 = t.state.diskInfo.sectorsPerCluster then
        linkOf t.state.diskInfo t.state.disk t.fd.currentCluster
      else t.fd.currentCluster := by
    have hcrossed := congrArg FileDescriptor.currentCluster hdesc
    rw [crossed_currentCluster, FileDescriptor.countSector_sector,
      FileDescriptor.countSector_currentCluster] at hcrossed
    rw [← hmod]
    exact hcrossed
  intro i hi
  rw [behindSector_state, behindSector_fd, hinfo] at hi ⊢
  rw [hsector] at hi
  rw [hcluster, hdisk]
  split_ifs at hi ⊢ with hfull
  · -- the next cluster is the one to which the word of this one leads
    have hmul : t.state.diskInfo.sectorsPerCluster * (i + 1 + 1) =
        t.state.diskInfo.sectorsPerCluster * (i + 1) + t.state.diskInfo.sectorsPerCluster :=
      Nat.mul_succ ..
    have hword := hfat (i + 1) (by rw [hmul]; omega)
    rwa [Function.iterate_succ_apply] at hword
  · exact hfat i (by omega)

/-! ## Whole sectors -/

/-- **Whole sectors.** From the start of a sector, whole sectors of the file are read as its bytes,
as long as they are in front of the end, or when the end is at the end of a sector.

**Proof sketch.** Induction on the number of sectors. At the end the driver stops. In front of it
there is a whole sector. -/
theorem readFullSectors_given (h : AtSector t)
    (hfat : WordsBelow t (min (512 * k) (t.fd.size - t.fd.fpos)))
    (hend : t.fd.size % 512 = 0 ∨ t.fd.fpos + 512 * k ≤ t.fd.size)
    (hb : t.bytes + 512 * k < 65536) (hn : 512 * k ≤ t.n) :
    ∃ stop t', readFullSectors k t = (stop, t') ∧
      (stop = true → ∀ r, Given (512 * k + r) t t') ∧
      (stop = false → Given (512 * k) t t' ∧ t'.n = t.n - 512 * k ∧ AtSector t') := by
  induction k generalizing t with
  | zero => exact ⟨false, t, rfl, nofun, fun _ => ⟨.refl t, rfl, h⟩⟩
  | succ k ih =>
    by_cases hat : AtEnd t.fd.desc
    · refine ⟨true, t, ?_, fun _ r => .of_end hat _, nofun⟩
      rw [readFullSectors, fileReadsector_end hat]
    have hlt : t.fd.fpos < t.fd.size := h.readable.lt_of_not_end hat
    have hwithin : t.fd.fposWithinSector = t.fd.fpos % 512 := h.readable.within
    have hzero := h.within
    have hle : t.fd.fpos + 512 ≤ t.fd.size := by omega
    have hmin : min (512 * (k + 1)) (t.fd.size - t.fd.fpos) =
        512 + min (512 * k) (t.fd.size - (t.fd.fpos + 512)) := by omega
    rw [hmin] at hfat
    have hb' : t.bytes + 512 < 65536 := Nat.lt_of_le_of_lt (by omega) hb
    obtain ⟨fd', s', hr, hdesc, hcoh, hdisk, hinfo⟩ :=
      readFullSectors_succ h hat (fun i hi => hfat i (by omega)) k
    obtain ⟨hgiven, hnext, hfpos, hsize⟩ := h.next hat hle hdesc hcoh hdisk hinfo hb'
    have hfat' : WordsBelow (behindSector t fd' s') (min (512 * k)
        ((behindSector t fd' s').fd.size - (behindSector t fd' s').fd.fpos)) := by
      rw [behindSector_fd, hfpos, hsize]
      exact hfat.next h hdesc hdisk hinfo
    have hbytes : (behindSector t fd' s').bytes = t.bytes + 512 := by
      rw [behindSector_bytes]
      omega
    have hn' : (behindSector t fd' s').n = t.n - 512 := behindSector_n
    obtain ⟨stop, t', heq, hstop, hgo⟩ := ih hnext hfat'
      (by rw [behindSector_fd]; omega) (by omega) (by omega)
    refine ⟨stop, t', hr.trans heq, fun hs r => ?_, fun hs => ?_⟩
    · rw [show 512 * (k + 1) + r = 512 + (512 * k + r) by omega]
      exact hgiven.trans (hstop hs r)
    · obtain ⟨hg, hn'', hat'⟩ := hgo hs
      rw [show 512 * (k + 1) = 512 + 512 * k by omega]
      exact ⟨hgiven.trans hg, by omega, hat'⟩

/-- What has been stored stays stored. -/
theorem readFullSectors_stored : t.stored.length ≤ (readFullSectors k t).2.stored.length := by
  induction k generalizing t with
  | zero => exact Nat.le_refl _
  | succ k ih =>
    rw [readFullSectors]
    rcases fileReadsector t.state t.fd with ⟨_ | sector, fd', s'⟩
    · exact Nat.le_refl _
    · refine Nat.le_trans ?_ ih
      simp

/-- The rest is stored behind what has been stored. -/
theorem readTail_stored : t.stored.length ≤ (readTail k t).stored.length := by
  induction k generalizing t with
  | zero => exact Nat.le_refl _
  | succ k ih =>
    rw [readTail]
    rcases fileReadbyte t.state t.fd with ⟨_ | c, fd', s'⟩
    · exact Nat.le_refl _
    · refine Nat.le_trans ?_ ih
      simp

/-- **Behind an end inside a sector the driver reads on.** When the whole sectors that are asked for
reach behind such an end, more bytes are stored than the file has.

**Proof sketch.** Induction on the number of sectors. The sector with the end is read as a whole. -/
theorem readFullSectors_overshoots (h : AtSector t)
    (hfat : WordsBelow t (t.fd.size - t.fd.fpos)) (hodd : t.fd.size % 512 ≠ 0)
    (hover : t.fd.size < t.fd.fpos + 512 * k) (hb : t.bytes + 512 * k < 65536)
    (hall : (bytesAhead t.state.diskInfo t.state.disk (t.fd.size - t.fd.fpos) t.fd.desc).1.length =
      t.fd.size - t.fd.fpos) :
    t.stored.length + (t.fd.size - t.fd.fpos) < (readFullSectors k t).2.stored.length := by
  induction k generalizing t with
  | zero =>
    have hle : t.fd.fpos ≤ t.fd.size := h.readable.le
    omega
  | succ k ih =>
    have hle₀ : t.fd.fpos ≤ t.fd.size := h.readable.le
    have hwithin : t.fd.fposWithinSector = t.fd.fpos % 512 := h.readable.within
    have hzero := h.within
    have hat : ¬ AtEnd t.fd.desc := by
      intro hat
      rw [bytesAhead_end hat] at hall
      have : 0 = t.fd.size - t.fd.fpos := hall
      omega
    by_cases hle : t.fd.fpos + 512 ≤ t.fd.size
    · obtain ⟨m, hm⟩ := Nat.exists_eq_add_of_le (show 512 ≤ t.fd.size - t.fd.fpos by omega)
      rw [hm] at hfat
      have hb' : t.bytes + 512 < 65536 := Nat.lt_of_le_of_lt (by omega) hb
      obtain ⟨fd', s', hr, hdesc, hcoh, hdisk, hinfo⟩ :=
        readFullSectors_succ h hat (fun i hi => hfat i (by omega)) k
      obtain ⟨hgiven, hnext, hfpos, hsize⟩ := h.next hat hle hdesc hcoh hdisk hinfo hb'
      have hfat' : WordsBelow (behindSector t fd' s') m := hfat.next h hdesc hdisk hinfo
      have hrest : (behindSector t fd' s').fd.size - (behindSector t fd' s').fd.fpos = m := by
        rw [behindSector_fd]
        omega
      have hall' : (bytesAhead t.state.diskInfo t.state.disk m fd'.desc).1.length = m := by
        have hadd := @bytesAhead_add t.state.diskInfo t.state.disk t.fd.desc 512 m
        have hsector := bytesAhead_sector (d := t.state.disk) h.readable hat h.within hle
        have hlen : (bytesAhead t.state.diskInfo t.state.disk 512 t.fd.desc).1.length = 512 := by
          rw [hsector, Sector.length_slice]
        have hbehind : (bytesAhead t.state.diskInfo t.state.disk 512 t.fd.desc).2 = fd'.desc := by
          rw [hsector, hdesc]
        rw [hm, hadd, List.length_append, hlen, hbehind] at hall
        omega
      have hbytes : (behindSector t fd' s').bytes = t.bytes + 512 := by
        rw [behindSector_bytes]
        omega
      have hstored : (behindSector t fd' s').stored.length = t.stored.length + 512 := by
        rw [behindSector_stored, List.length_append, Sector.length_slice]
      have hlong := ih hnext (by rwa [hrest]) (by rwa [behindSector_fd, hsize])
        (by rw [behindSector_fd, hsize]; omega) (by omega)
        (by rw [hrest, behindSector_state, behindSector_fd, hinfo, hdisk]; exact hall')
      rw [hstored, hrest] at hlong
      rw [hr]
      omega
    · -- the sector with the end
      obtain ⟨hfpos, hc⟩ := not_or.mp (mt atEnd_desc.mpr hat)
      rw [readFullSectors]
      unfold fileReadsector
      simp only [if_neg hfpos, if_neg hc]
      refine Nat.lt_of_lt_of_le ?_ readFullSectors_stored
      simp only [List.length_append, Sector.length_slice]
      omega

/-! ## The last bytes -/

/-- **The last bytes** of a read, which do not reach the end of a sector.

**Proof sketch.** Induction on the number of bytes. All of them are in one sector. -/
theorem readTail_given (hb : t.state.diskInfo.bytesPerSector = 512)
    (hw : t.fd.fposWithinSector + k < 512)
    (hs : Serves t.state (t.fd.sectorNumber t.state.diskInfo))
    (hlt : t.bytes + k < 65536) : Given k t (readTail k t) := by
  induction k generalizing t with
  | zero => exact .refl t
  | succ k ih =>
    by_cases hend : AtEnd t.fd.desc
    · rw [readTail, fileReadbyte_end hend]
      exact .of_end hend _
    obtain ⟨fd', hr, hdesc, hsame, hnext⟩ := fileReadbyte_inside hend hb (by omega) hs
    have hone : bytesAhead t.state.diskInfo t.state.disk 1 t.fd.desc =
        ([t.fd.desc.byteAt t.state.diskInfo t.state.disk],
          t.fd.desc.advanced t.state.diskInfo t.state.disk) := by
      rw [bytesAhead, if_neg hend]
      rfl
    have hmod : (t.bytes + 1) % 65536 = t.bytes + 1 := Nat.mod_eq_of_lt (by omega)
    rw [readTail, hr, Nat.add_comm k 1]
    refine (show Given 1 t _ from ⟨?_, ?_, ?_, ?_, ?_⟩).trans (ih ?_ ?_ ?_ ?_)
    · rw [hone]
      exact hmod
    · rw [hone]
    · rw [hone]
      exact hdesc
    · exact readSectorCached_disk
    · exact readSectorCached_diskInfo
    · simpa using hb
    · show fd'.fposWithinSector + k < 512
      omega
    · simp only [readSectorCached_diskInfo, hsame]
      exact hs.again
    · show (t.bytes + 1) % 65536 + k < 65536
      omega

end

end Z80OS.Loader
