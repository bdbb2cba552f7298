import Z80OS.File.Ownership

set_option relaxedAutoImplicit false
set_option autoImplicit false

/-!
# Reading byte by byte

`file_read` has three phases: single bytes up to the next sector boundary, whole sectors straight
from the disk, and single bytes again. This file says what a descriptor reads when it reads one byte
after the other, as a function of the disk and the descriptor alone, and shows that the three phases
read just that.

## Main definitions

* `Z80OS.FileDescriptor.byteAt`, `Z80OS.FileDescriptor.advanced` — the next byte, and the descriptor
  behind it.
* `Z80OS.bytesAhead` — the bytes that a descriptor reads one after the other.
* `Z80OS.Readable` — the descriptors that stand at a position of a file.
* `Z80OS.Gives` — a part of a read has given some bytes.

## Main results

* `Z80OS.bytesAhead_add` — reading on from where a read has ended.
* `Z80OS.readPhases_gives` — the three phases of a read.
* `Z80OS.FileState.Reads.read` — a request.
-/

namespace Z80OS

instance (file : FileDescriptor) : Decidable (AtEnd file) :=
  inferInstanceAs (Decidable (file.fpos = file.size ∨ file.currentCluster = clusterEof))

/-- The cluster that the driver finds behind a cluster. -/
def linkOf (g : DiskInfo) (d : Disk) (c : ℕ) : ℕ := (d (fatSectorOf g c)).word (fatOffsetOf g c)

namespace FileDescriptor

/-- The descriptor behind its sector, which may be in the next cluster. -/
def crossed (g : DiskInfo) (d : Disk) (file : FileDescriptor) : FileDescriptor :=
  if file.nextSector.sector = g.sectorsPerCluster then
    file.nextSector.enterCluster (linkOf g d file.currentCluster)
  else file.nextSector

/-- The byte that the descriptor stands at. -/
def byteAt (g : DiskInfo) (d : Disk) (file : FileDescriptor) : UInt8 :=
  (d (file.sectorNumber g)).get file.fposWithinSector

/-- The descriptor behind the byte that it stands at. -/
def advanced (g : DiskInfo) (d : Disk) (file : FileDescriptor) : FileDescriptor :=
  if file.skipByte.fposWithinSector = 512 then file.skipByte.atSectorStart.crossed g d
  else file.skipByte

end FileDescriptor

/-- The next `n` bytes that a descriptor reads one after the other, and the descriptor behind them.
They are fewer at the end of the file. -/
def bytesAhead (g : DiskInfo) (d : Disk) : ℕ → FileDescriptor → List UInt8 × FileDescriptor
  | 0, file => ([], file)
  | n + 1, file =>
    if AtEnd file then ([], file)
    else
      let r := bytesAhead g d n (file.advanced g d)
      (file.byteAt g d :: r.1, r.2)

section

variable {g : DiskInfo} {d : Disk} {file : FileDescriptor} {m n i : ℕ}

/-! ## The bytes ahead -/

/-- At the end of the file there are no bytes ahead. -/
theorem bytesAhead_end (h : AtEnd file) : bytesAhead g d n file = ([], file) := by
  cases n with
  | zero => rfl
  | succ n => rw [bytesAhead, if_pos h]

/-- **Reading on.** A descriptor that has read some bytes reads those behind them. At the end of the
file it stays there. -/
theorem bytesAhead_add : bytesAhead g d (m + n) file =
    ((bytesAhead g d m file).1 ++ (bytesAhead g d n (bytesAhead g d m file).2).1,
      (bytesAhead g d n (bytesAhead g d m file).2).2) := by
  induction m generalizing file with
  | zero => rw [Nat.zero_add]; rfl
  | succ m ih =>
    by_cases hend : AtEnd file
    · rw [bytesAhead_end hend, bytesAhead_end hend, bytesAhead_end hend]
      rfl
    · rw [Nat.succ_add, bytesAhead, bytesAhead, if_neg hend, if_neg hend, ih]
      rfl

/-- There are at most as many bytes ahead as are asked for. -/
theorem length_bytesAhead_le : (bytesAhead g d n file).1.length ≤ n := by
  induction n generalizing file with
  | zero => exact le_refl 0
  | succ n ih =>
    rw [bytesAhead]
    split_ifs
    · exact Nat.zero_le _
    · exact Nat.succ_le_succ ih

/-- Fewer bytes are the first ones of more. -/
theorem take_bytesAhead :
    (bytesAhead g d (m + n) file).1.take m = (bytesAhead g d m file).1 := by
  induction m generalizing file with
  | zero => rw [List.take_zero]; rfl
  | succ m ih =>
    rw [Nat.succ_add, bytesAhead, bytesAhead]
    split_ifs
    · rfl
    · rw [List.take_succ_cons, ih]

/-! ## Positions of a file -/

/-- The descriptor stands at a position of its file: its position is not behind the end, the
position in the sector agrees with it, and the sector is one of the cluster. -/
structure Readable (g : DiskInfo) (file : FileDescriptor) : Prop where
  le : file.fpos ≤ file.size
  size_lt : file.size < 4294967296
  within : file.fposWithinSector = file.fpos % 512
  sector : file.sector < g.sectorsPerCluster
  spc : g.sectorsPerCluster < 256

namespace Readable

/-- A descriptor that reads stands inside of its sector. -/
theorem within_lt (h : Readable g file) : file.fposWithinSector < 512 := by
  rw [h.within]
  exact Nat.mod_lt _ (by decide)

/-- In front of the end the position is smaller than the size. -/
theorem lt_of_not_end (h : Readable g file) (hend : ¬ AtEnd file) : file.fpos < file.size :=
  lt_of_le_of_ne h.le fun he => hend (.inl he)

/-- To skip a byte moves the position in the sector by one. -/
theorem skipByte_fposWithinSector (h : Readable g file) :
    file.skipByte.fposWithinSector = file.fposWithinSector + 1 := by
  have := h.within_lt
  rw [FileDescriptor.skipByte_fposWithinSector]
  omega

/-- To skip a sector moves the sector by one. -/
theorem nextSector_sector (h : Readable g file) :
    file.nextSector.sector = file.sector + 1 := by
  have := h.sector
  have := h.spc
  rw [FileDescriptor.nextSector_sector]
  omega

end Readable

/-- The second descriptor stands `m` bytes behind the first one, in the same file. -/
structure StandsBehind (g : DiskInfo) (m : ℕ) (file file' : FileDescriptor) : Prop where
  mode : file'.mode = file.mode
  size : file'.size = file.size
  fpos : file'.fpos = file.fpos + m
  readable : Readable g file'

/-- The descriptor behind the next byte stands at the next position. -/
theorem Readable.advanced (h : Readable g file) (hend : ¬ AtEnd file) :
    StandsBehind g 1 file (file.advanced g d) := by
  have hlt := h.lt_of_not_end hend
  have hsize := h.size_lt
  have hwithin := h.within
  have hsector := h.sector
  have hpos : file.skipByte.fpos = file.fpos + 1 := by
    rw [FileDescriptor.skipByte_fpos]
    omega
  have hskip := h.skipByte_fposWithinSector
  have hnext : file.skipByte.atSectorStart.nextSector.sector = file.sector + 1 :=
    h.nextSector_sector
  unfold FileDescriptor.advanced
  split_ifs with hfull
  · have hstart : 0 = file.skipByte.fpos % 512 := by omega
    unfold FileDescriptor.crossed
    rw [hnext]
    split_ifs with hcluster
    · exact ⟨rfl, rfl, hpos, hpos ▸ hlt, hsize, hstart, Nat.zero_lt_of_lt hsector, h.spc⟩
    · exact ⟨rfl, rfl, hpos, hpos ▸ hlt, hsize, hstart, by rw [hnext]; omega, h.spc⟩
  · exact ⟨rfl, rfl, hpos, hpos ▸ hlt, hsize, by rw [hpos]; omega, hsector, h.spc⟩

/-- The descriptor behind the next bytes stands behind as many as have been read. -/
theorem Readable.standsBehind (h : Readable g file) :
    StandsBehind g (bytesAhead g d n file).1.length file (bytesAhead g d n file).2 := by
  induction n generalizing file with
  | zero => exact ⟨rfl, rfl, rfl, h⟩
  | succ n ih =>
    rw [bytesAhead]
    split_ifs with hend
    · exact ⟨rfl, rfl, rfl, h⟩
    · have hnext : StandsBehind g 1 file (file.advanced g d) := h.advanced hend
      have hrest := ih hnext.readable
      refine ⟨hrest.mode.trans hnext.mode, hrest.size.trans hnext.size, ?_, hrest.readable⟩
      rw [hrest.fpos, hnext.fpos, List.length_cons]
      omega

/-- No more bytes are read than are left. -/
theorem Readable.length_le_left (h : Readable g file) :
    (bytesAhead g d n file).1.length ≤ file.size - file.fpos := by
  have hstands : StandsBehind g _ file _ := h.standsBehind (d := d) (n := n)
  have hle := hstands.readable.le
  rw [hstands.fpos, hstands.size] at hle
  omega

/-- When fewer bytes come than are asked for, the descriptor is at the end. -/
theorem atEnd_of_length_lt (h : (bytesAhead g d n file).1.length < n) :
    AtEnd (bytesAhead g d n file).2 := by
  induction n generalizing file with
  | zero => exact absurd h (Nat.not_lt_zero _)
  | succ n ih =>
    rw [bytesAhead] at h ⊢
    split_ifs at h ⊢ with hend
    · exact hend
    · exact ih (Nat.lt_of_succ_lt_succ h)

/-- Asking for more bytes than are left gives those that are left. -/
theorem Readable.bytesAhead_min (h : Readable g file) :
    bytesAhead g d (min n (file.size - file.fpos)) file = bytesAhead g d n file := by
  rcases Nat.le_total n (file.size - file.fpos) with hle | hge
  · rw [Nat.min_eq_left hle]
  obtain ⟨k, rfl⟩ := Nat.exists_eq_add_of_le hge
  have hend : AtEnd (bytesAhead g d (file.size - file.fpos) file).2 := by
    have hstands : StandsBehind g _ file _ := h.standsBehind (d := d) (n := file.size - file.fpos)
    rcases Nat.lt_or_ge (bytesAhead g d (file.size - file.fpos) file).1.length
      (file.size - file.fpos) with hlt | hfull
    · exact atEnd_of_length_lt hlt
    · refine .inl ?_
      have hle := h.length_le_left (d := d) (n := file.size - file.fpos)
      have := h.le
      rw [hstands.fpos, hstands.size]
      omega
  rw [Nat.min_eq_right hge, bytesAhead_add, bytesAhead_end hend, List.append_nil]

/-! ## A whole sector -/

/-- The descriptor at another byte of the sector at whose start it stands. -/
def FileDescriptor.inSector (file : FileDescriptor) (i : ℕ) : FileDescriptor :=
  { file with fpos := file.fpos + i, fposWithinSector := i }

/-- From the start of a sector its bytes are read in turn. -/
theorem bytesAhead_inSector (hc : file.currentCluster ≠ clusterEof)
    (hw : file.fposWithinSector = 0) (hle : file.fpos + i < file.size)
    (hlt : file.size < 4294967296) (hi : i < 512) :
    bytesAhead g d i file = ((d (file.sectorNumber g)).slice 0 i, file.inSector i) := by
  induction i with
  | zero =>
    have hsame : file.inSector 0 = file := by rw [FileDescriptor.inSector, Nat.add_zero, ← hw]
    rw [hsame]
    rfl
  | succ i ih =>
    have hend : ¬ AtEnd (file.inSector i) := by
      rintro (hend | hend)
      · have : file.fpos + i = file.size := hend
        omega
      · exact hc hend
    have hskip : (file.inSector i).skipByte = file.inSector (i + 1) := by
      simp only [FileDescriptor.skipByte, FileDescriptor.inSector]
      rw [Nat.mod_eq_of_lt (by omega), Nat.mod_eq_of_lt (by omega), add_assoc]
    have hone : bytesAhead g d 1 (file.inSector i) =
        ([(d (file.sectorNumber g)).get i], file.inSector (i + 1)) := by
      rw [bytesAhead, if_neg hend, FileDescriptor.advanced, hskip,
        if_neg (show ¬ (file.inSector (i + 1)).fposWithinSector = 512 from hi.ne)]
      rfl
    rw [bytesAhead_add, ih (by omega) (by omega), hone, Sector.slice_succ, Nat.zero_add]

/-- **A whole sector** is read as its 512 bytes. -/
theorem bytesAhead_sector (h : Readable g file) (hend : ¬ AtEnd file)
    (hw : file.fposWithinSector = 0) (hle : file.fpos + 512 ≤ file.size) :
    bytesAhead g d 512 file =
      ((d (file.sectorNumber g)).slice 0 512, (file.countSector 512).crossed g d) := by
  obtain ⟨-, hc⟩ := not_or.mp hend
  have hlt := h.size_lt
  have hend' : ¬ AtEnd (file.inSector 511) := by
    rintro (he | he)
    · have : file.fpos + 511 = file.size := he
      omega
    · exact hc he
  have hskip : (file.inSector 511).skipByte.atSectorStart = file.countSector 512 := by
    simp only [FileDescriptor.skipByte, FileDescriptor.inSector, FileDescriptor.atSectorStart,
      FileDescriptor.countSector, hw, add_assoc]
  have hone : bytesAhead g d 1 (file.inSector 511) =
      ([(d (file.sectorNumber g)).get 511], (file.countSector 512).crossed g d) := by
    rw [bytesAhead, if_neg hend', FileDescriptor.advanced,
      if_pos (show (file.inSector 511).skipByte.fposWithinSector = 512 from rfl), hskip]
    rfl
  calc bytesAhead g d (511 + 1) file
      = ((d (file.sectorNumber g)).slice 0 511 ++ [(d (file.sectorNumber g)).get 511],
          (file.countSector 512).crossed g d) := by
        rw [bytesAhead_add, bytesAhead_inSector hc hw (by omega) hlt (by decide), hone]
    _ = _ := by rw [← Nat.zero_add 511, ← Sector.slice_succ]

end

/-! ## The driver -/

/-- The bytes that the driver has ahead of a descriptor, and the descriptor behind them. -/
def FileState.ahead (s : FileState) (fd : Fin fileLimit) (n : ℕ) : List UInt8 × FileDescriptor :=
  bytesAhead s.diskInfo s.disk n (s.fdtable fd)

/-- The state is one in which a descriptor reads: the cache is coherent, the sectors have 512 bytes,
and the descriptor stands at a position of its file. -/
structure FileState.Reads (s : FileState) (fd : Fin fileLimit) : Prop where
  coherent : s.Coherent
  bytesPerSector : s.diskInfo.bytesPerSector = 512
  readable : Readable s.diskInfo (s.fdtable fd)

/-- Between two points of a read the next `m` bytes of the descriptor have been given. -/
structure Gives (fd : Fin fileLimit) (m : ℕ) (t t' : Transfer) : Prop where
  bytes : t'.bytes = t.bytes + (t.state.ahead fd m).1.length
  stored : t'.stored = t.stored ++ (t.state.ahead fd m).1
  state : ∃ j, t'.state = (t.state.cached j).setFd fd (t.state.ahead fd m).2

section

variable {M : Machine} {s : FileState} {fd : Fin fileLimit} {file file' : FileDescriptor}
  {t t₁ t' : Transfer} {c j k m n ptr : ℕ}

/-- Of two values that a descriptor is set to the last one counts. -/
theorem FileState.setFd_setFd : (s.setFd fd file).setFd fd file' = s.setFd fd file' := by
  simp [setFd]

/-- A descriptor that is set to what it was leaves the state. -/
theorem FileState.setFd_self : s.setFd fd (s.fdtable fd) = s := by
  simp [setFd]

/-- A fetch and the change of a descriptor can be exchanged. -/
theorem FileState.cached_setFd : (s.setFd fd file).cached j = (s.cached j).setFd fd file := rfl

/-- The driver reads the word that links a cluster. -/
theorem tempWord_linkOf (h : s.diskInfo.bytesPerSector = 512) :
    (s.cached (fatSectorOf s.diskInfo c)).tempWord (fatOffsetOf s.diskInfo c) =
      linkOf s.diskInfo s.disk c := by
  have hoff : fatOffsetOf s.diskInfo c + 1 < 512 := by
    rw [fatOffsetOf, h]
    omega
  simp only [FileState.tempWord, FileState.tempByte, FileState.cached_tempSector]
  rw [if_pos (by omega), if_pos hoff]
  rfl

/-- Up to a fetch, the driver crosses into the next sector as the descriptor does. -/
theorem readNextSector_eq (fd : Fin fileLimit) (hs : s.Coherent)
    (h : s.diskInfo.bytesPerSector = 512) :
    ∃ j, readNextSector s fd =
      (s.cached j).setFd fd ((s.fdtable fd).crossed s.diskInfo s.disk) := by
  have hword : ((s.setFd fd (s.fdtable fd).nextSector).cached
      (fatSectorOf s.diskInfo (s.fdtable fd).currentCluster)).tempWord
      (fatOffsetOf s.diskInfo (s.fdtable fd).currentCluster) =
      linkOf s.diskInfo s.disk (s.fdtable fd).currentCluster :=
    tempWord_linkOf (s := s.setFd fd (s.fdtable fd).nextSector) h
  unfold readNextSector FileDescriptor.crossed
  simp only [fatNextCluster_eq hs.setFd, FileState.setFd_diskInfo,
    FileDescriptor.nextSector_currentCluster, hword]
  split_ifs with hcluster
  · refine ⟨fatSectorOf s.diskInfo (s.fdtable fd).currentCluster, ?_⟩
    rw [FileState.cached_setFd, FileState.setFd_setFd]
  · refine ⟨s.currentCacheSector, ?_⟩
    rw [hs.eq_cached]

/-- In front of the end the driver reads the byte that the descriptor stands at. -/
theorem FileState.Reads.readbyte (h : s.Reads fd) (hend : ¬ AtEnd (s.fdtable fd)) :
    ∃ j, fileReadbyte s fd = (some ((s.fdtable fd).byteAt s.diskInfo s.disk),
      (s.cached j).setFd fd ((s.fdtable fd).advanced s.diskInfo s.disk)) := by
  obtain ⟨hfpos, hc⟩ := not_or.mp hend
  have hbyte : (s.cached ((s.fdtable fd).sectorNumber s.diskInfo)).tempByte
      (s.fdtable fd).fposWithinSector = (s.fdtable fd).byteAt s.diskInfo s.disk := by
    rw [FileState.tempByte, if_pos h.readable.within_lt]
    rfl
  unfold fileReadbyte FileDescriptor.advanced
  simp only [if_neg hfpos, if_neg hc, readSectorCached_eq h.coherent, hbyte,
    FileState.cached_diskInfo, h.bytesPerSector]
  split_ifs with hfull
  · obtain ⟨j, hj⟩ := readNextSector_eq (M := M)
      (s := (s.cached ((s.fdtable fd).sectorNumber s.diskInfo)).setFd fd
        (s.fdtable fd).skipByte.atSectorStart) fd FileState.coherent_cached.setFd h.bytesPerSector
    refine ⟨j, ?_⟩
    rw [hj, FileState.cached_setFd, FileState.setFd_setFd, FileState.setFd_fdtable_self]
    rfl
  · exact ⟨_, rfl⟩

/-- From the start of a sector the driver reads it. -/
theorem FileState.Reads.readsector (h : s.Reads fd) (hend : ¬ AtEnd (s.fdtable fd))
    (hw : (s.fdtable fd).fposWithinSector = 0)
    (hle : (s.fdtable fd).fpos + 512 ≤ (s.fdtable fd).size) :
    ∃ j, fileReadsector s fd = (some (s.ahead fd 512).1,
      (s.cached j).setFd fd (s.ahead fd 512).2) := by
  obtain ⟨hfpos, hc⟩ := not_or.mp hend
  unfold fileReadsector
  simp only [if_neg hfpos, if_neg hc, h.bytesPerSector]
  obtain ⟨j, hj⟩ := readNextSector_eq (M := M)
    (s := s.setFd fd ((s.fdtable fd).countSector 512)) fd h.coherent.setFd h.bytesPerSector
  refine ⟨j, ?_⟩
  rw [hj, FileState.cached_setFd, FileState.setFd_setFd, FileState.setFd_fdtable_self,
    FileState.ahead, bytesAhead_sector h.readable hend hw hle, FileState.setFd_diskInfo,
    FileState.setFd_disk]

/-! ## Parts of a read -/

/-- Behind a part of a read the descriptor still reads. -/
theorem Gives.reads (h : t.state.Reads fd) (hg : Gives fd m t t') : t'.state.Reads fd := by
  obtain ⟨j, hj⟩ := hg.state
  rw [hj]
  refine ⟨FileState.coherent_cached.setFd, h.bytesPerSector, ?_⟩
  rw [FileState.setFd_fdtable_self]
  exact h.readable.standsBehind.readable

/-- No bytes have been given from a point to itself. -/
theorem Gives.refl (h : t.state.Coherent) : Gives fd 0 t t :=
  ⟨rfl, (List.append_nil _).symm, t.state.currentCacheSector, by
    rw [h.eq_cached]
    exact FileState.setFd_self.symm⟩

/-- Behind a part of a read the bytes ahead are those behind the ones that have been given. -/
theorem Gives.ahead (h : Gives fd m t t') : t'.state.ahead fd n =
    bytesAhead t.state.diskInfo t.state.disk n (t.state.ahead fd m).2 := by
  obtain ⟨j, hj⟩ := h.state
  rw [hj, FileState.ahead, FileState.setFd_fdtable_self]
  rfl

/-- What has been given between three points is what has been given between the outer two. -/
theorem Gives.trans (h₁ : Gives fd m t t₁) (h₂ : Gives fd n t₁ t') : Gives fd (m + n) t t' := by
  have hadd : t.state.ahead fd (m + n) =
      ((t.state.ahead fd m).1 ++ (t₁.state.ahead fd n).1, (t₁.state.ahead fd n).2) := by
    rw [h₁.ahead]
    exact bytesAhead_add
  refine ⟨?_, ?_, ?_⟩
  · rw [h₂.bytes, h₁.bytes, hadd, List.length_append, add_assoc]
  · rw [h₂.stored, h₁.stored, hadd, List.append_assoc]
  · obtain ⟨i, hi⟩ := h₁.state
    obtain ⟨j, hj⟩ := h₂.state
    refine ⟨j, ?_⟩
    rw [hj, hi, hadd, FileState.cached_setFd, FileState.setFd_setFd, ← hi]
    rfl

/-- At the end a read gives all the bytes that there are. -/
theorem Gives.of_end (h : t.state.Coherent) (hend : AtEnd (t.state.fdtable fd)) :
    Gives fd n t t := by
  have hnil : t.state.ahead fd n = t.state.ahead fd 0 := by
    rw [FileState.ahead, FileState.ahead, bytesAhead_end hend, bytesAhead_end hend]
  have hrefl : Gives fd 0 t t := .refl h
  exact ⟨hnil ▸ hrefl.bytes, hnil ▸ hrefl.stored, hnil ▸ hrefl.state⟩

/-- The number of bytes counted. -/
theorem Gives.bytes_le (h : Gives fd m t t') : t'.bytes ≤ t.bytes + m := by
  have hle : (t.state.ahead fd m).1.length ≤ m := length_bytesAhead_le
  rw [h.bytes]
  omega

/-- A byte has been read in front of the end. -/
theorem Gives.byte (h : t.state.Reads fd) (hend : ¬ AtEnd (t.state.fdtable fd))
    (hb : t.bytes + 1 < 65536) :
    ∃ c s', fileReadbyte t.state fd = (some c, s') ∧ ∀ n', Gives fd 1 t
      { n := n', bytes := (t.bytes + 1) % 65536, stored := t.stored ++ [c], state := s' } := by
  have hone : t.state.ahead fd 1 = ([(t.state.fdtable fd).byteAt t.state.diskInfo t.state.disk],
      (t.state.fdtable fd).advanced t.state.diskInfo t.state.disk) := by
    rw [FileState.ahead, bytesAhead, if_neg hend]
    rfl
  obtain ⟨j, hj⟩ := h.readbyte (M := M) hend
  refine ⟨_, _, hj, fun n' => ⟨?_, ?_, j, ?_⟩⟩
  · rw [hone]
    exact Nat.mod_eq_of_lt hb
  · rw [hone]
  · rw [hone]

/-! ## The phases -/

/-- The last phase reads byte by byte. -/
theorem readTail_gives (h : t.state.Reads fd) (hb : t.bytes + k < 65536) :
    Gives fd k t (readTail fd k t) := by
  induction k generalizing t with
  | zero => exact .refl h.coherent
  | succ k ih =>
    by_cases hend : AtEnd (t.state.fdtable fd)
    · rw [readTail_end hend]
      exact .of_end h.coherent hend
    · obtain ⟨c, s', hr, hgives⟩ := Gives.byte (M := M) h hend (by omega)
      have hbytes := (hgives t.n).bytes_le
      simp only at hbytes
      rw [readTail, hr, add_comm k 1]
      exact (hgives t.n).trans (ih (Gives.reads h (hgives t.n)) (by simp only; omega))

/-- The first phase reads to the next sector boundary, or what is asked for.

**Proof sketch.** By induction on the bound of the loop. The phase is over at the start of a sector,
stops at the end of the file, and otherwise reads one byte (`Gives.byte`), after which the position
within the sector is one further or zero; the induction hypothesis reads the rest
(`Gives.trans`). -/
theorem readToBoundary_gives (h : t.state.Reads fd) (hpos : 0 < t.n) (hb : t.bytes + t.n < 65536)
    (hk : (t.state.fdtable fd).fposWithinSector = 0 ∧ 0 < k ∨
      512 < (t.state.fdtable fd).fposWithinSector + k) :
    ∃ m stop t', readToBoundary fd k t = (stop, t') ∧ m ≤ t.n ∧ Gives fd m t t' ∧
      (stop = true → m = t.n) ∧
      (stop = false → t'.n = t.n - m ∧ (t'.state.fdtable fd).fposWithinSector = 0) := by
  induction k generalizing t with
  | zero =>
    have := h.readable.within_lt
    omega
  | succ k ih =>
    by_cases hw : (t.state.fdtable fd).fposWithinSector = 0
    · refine ⟨0, false, t, ?_, Nat.zero_le _, .refl h.coherent, by simp, fun _ => ⟨rfl, hw⟩⟩
      rw [readToBoundary, if_pos hw]
    by_cases hend : AtEnd (t.state.fdtable fd)
    · refine ⟨t.n, true, t, ?_, le_refl _, .of_end h.coherent hend, fun _ => rfl, by simp⟩
      rw [readToBoundary, if_neg hw, fileReadbyte_end hend]
    obtain ⟨c, s', hr, hgives⟩ := Gives.byte (M := M) h hend (by omega)
    have hn' : (t.n + 65535) % 65536 = t.n - 1 := by omega
    rw [readToBoundary, if_neg hw, hr]
    simp only [hn']
    split_ifs with hzero
    · exact ⟨1, true, _, rfl, hpos, hgives _, fun _ => by omega, by simp⟩
    · have hone := hgives (t.n - 1)
      have hbytes := hone.bytes_le
      -- the position in the sector is one further, or at the start of the next one
      have hnext := h.readable.advanced (d := t.state.disk) hend
      have hfd : (s'.fdtable fd).fpos = (t.state.fdtable fd).fpos + 1 ∧
          (s'.fdtable fd).fposWithinSector = (s'.fdtable fd).fpos % 512 := by
        obtain ⟨j, hj⟩ := hone.state
        simp only at hj
        rw [hj, FileState.setFd_fdtable_self, FileState.ahead, bytesAhead, if_neg hend]
        exact ⟨hnext.fpos, hnext.readable.within⟩
      have hwithin := h.readable.within
      simp only at hbytes
      obtain ⟨m, stop, t', heq, hm, hg, hstop, hgo⟩ := ih (Gives.reads h hone)
        (by simp only; omega) (by simp only; omega) (by simp only; omega)
      simp only at hm hstop hgo
      refine ⟨1 + m, stop, t', heq, by omega, hone.trans hg, fun hs => ?_, fun hs => ?_⟩
      · have := hstop hs
        omega
      · obtain ⟨hn, hw'⟩ := hgo hs
        exact ⟨by omega, hw'⟩

/-- The second phase reads whole sectors.

**Proof sketch.** By induction on the number of whole sectors. At the end of the file the phase
stops. Otherwise one sector is read and gives the 512 bytes ahead, the descriptor is at the start of
a sector again, and the induction hypothesis continues from there (`Gives.trans`). -/
theorem readFullSectors_gives (h : t.state.Reads fd)
    (hw : (t.state.fdtable fd).fposWithinSector = 0) (hk : 512 * k ≤ t.n)
    (hle : (t.state.fdtable fd).fpos + t.n ≤ (t.state.fdtable fd).size)
    (hb : t.bytes + t.n < 65536) :
    ∃ stop t', readFullSectors fd k t = (stop, t') ∧
      (stop = true → Gives fd t.n t t') ∧
      (stop = false → Gives fd (512 * k) t t' ∧ t'.n = t.n - 512 * k) := by
  induction k generalizing t with
  | zero => exact ⟨false, t, rfl, by simp, fun _ => ⟨.refl h.coherent, rfl⟩⟩
  | succ k ih =>
    by_cases hend : AtEnd (t.state.fdtable fd)
    · refine ⟨true, t, ?_, fun _ => .of_end h.coherent hend, by simp⟩
      rw [readFullSectors, fileReadsector_end hend]
    obtain ⟨j, hj⟩ := h.readsector (M := M) hend hw (by omega)
    have hlen : (t.state.ahead fd 512).1.length = 512 := by
      rw [FileState.ahead, bytesAhead_sector h.readable hend hw (by omega), Sector.length_slice]
    have hone : Gives fd 512 t
        { n := t.n - 512, bytes := (t.bytes + 512) % 65536
          stored := t.stored ++ (t.state.ahead fd 512).1
          state := (t.state.cached j).setFd fd (t.state.ahead fd 512).2 } :=
      ⟨by rw [hlen]; exact Nat.mod_eq_of_lt (by omega), rfl, j, rfl⟩
    have hstands : StandsBehind t.state.diskInfo 512 (t.state.fdtable fd)
        (t.state.ahead fd 512).2 := by
      have := h.readable.standsBehind (d := t.state.disk) (n := 512)
      rwa [show (bytesAhead t.state.diskInfo t.state.disk 512 (t.state.fdtable fd)).1.length = 512
        from hlen] at this
    have hbytes := hone.bytes_le
    have hwithin := h.readable.within
    simp only at hbytes
    have hw' : (t.state.ahead fd 512).2.fposWithinSector = 0 := by
      rw [hstands.readable.within, hstands.fpos]
      omega
    have hle' : (t.state.ahead fd 512).2.fpos + (t.n - 512) ≤ (t.state.ahead fd 512).2.size := by
      rw [hstands.fpos, hstands.size]
      omega
    obtain ⟨stop, t', heq, hstop, hgo⟩ := ih (Gives.reads h hone)
      (by rw [FileState.setFd_fdtable_self]; exact hw') (by simp only; omega)
      (by rw [FileState.setFd_fdtable_self]; exact hle') (by simp only; omega)
    refine ⟨stop, t', ?_, fun hs => ?_, fun hs => ?_⟩
    · rw [readFullSectors, hj]
      simp only [h.bytesPerSector]
      exact heq
    · have := hone.trans (hstop hs)
      simp only at this
      rwa [Nat.add_sub_cancel' (by omega)] at this
    · obtain ⟨hg, hn⟩ := hgo hs
      simp only at hn
      rw [show 512 * (k + 1) = 512 + 512 * k by omega]
      exact ⟨hone.trans hg, by omega⟩

/-- **The phases of a read** give what the descriptor reads byte by byte.

**Proof sketch.** The three phases one after the other: to the sector boundary
(`readToBoundary_gives`), the whole sectors (`readFullSectors_gives`) and the rest
(`readTail_gives`), each of which stops at the end of the file or hands over to the next
(`Gives.trans`). -/
theorem readPhases_gives (h : t.state.Reads fd) (hpos : 0 < t.n)
    (hle : (t.state.fdtable fd).fpos + t.n ≤ (t.state.fdtable fd).size)
    (hb : t.bytes + t.n < 65536) : Gives fd t.n t (readPhases fd t) := by
  have hturns := M.turns_ge
  obtain ⟨m, stop, t₁, heq, hm, hgives, hstop, hgo⟩ :=
    readToBoundary_gives (M := M) (k := M.turns) h hpos hb (by omega)
  unfold readPhases
  simp only [heq, h.bytesPerSector]
  cases stop with
  | true =>
    rw [← hstop rfl]
    exact hgives
  | false =>
    obtain ⟨hn, hw⟩ := hgo rfl
    have hreads := Gives.reads h hgives
    have hbytes := hgives.bytes_le
    have hpos₁ : (t₁.state.fdtable fd).fpos + t₁.n ≤ (t₁.state.fdtable fd).size := by
      obtain ⟨j, hj⟩ := hgives.state
      have hstands : StandsBehind t.state.diskInfo _ (t.state.fdtable fd) (t.state.ahead fd m).2 :=
        h.readable.standsBehind
      have hlen : (bytesAhead t.state.diskInfo t.state.disk m (t.state.fdtable fd)).1.length ≤ m :=
        length_bytesAhead_le
      rw [hj, FileState.setFd_fdtable_self, hstands.fpos, hstands.size]
      omega
    obtain ⟨stop', t₂, heq₂, hstop₂, hgo₂⟩ := readFullSectors_gives (M := M) (k := t₁.n / 512)
      hreads hw (by omega) hpos₁ (by omega)
    simp only [heq₂]
    cases stop' with
    | true =>
      have := hgives.trans (hstop₂ rfl)
      rwa [hn, Nat.add_sub_cancel' hm] at this
    | false =>
      obtain ⟨hgives₂, hn₂⟩ := hgo₂ rfl
      have hbytes₂ := hgives₂.bytes_le
      have htail : Gives fd t₂.n t₂ (readTail fd t₂.n t₂) :=
        readTail_gives (Gives.reads hreads hgives₂) (by omega)
      have := (hgives.trans hgives₂).trans htail
      rwa [show m + 512 * (t₁.n / 512) + t₂.n = t.n by omega] at this

/-! ## A request -/

/-- **A request for some bytes** gives what the descriptor reads byte by byte.

**Proof sketch.** The request is cut to what is left of the file, which changes nothing of what lies
ahead (`Readable.bytesAhead_min`). At the end of the file the phases read nothing
(`readPhases_end`), and in front of it they give what was asked for (`readPhases_gives`). -/
theorem FileState.Reads.read (ptr n : ℕ) (h : s.Reads fd) (hmode : (s.fdtable fd).mode = fmodeRead)
    (hptr : 0x6000 ≤ ptr % 65536) (hpos : 0 < n) (hn : n < 65536) :
    ∃ j, fileRead s ptr n fd = (((s.ahead fd n).1.length, (s.ahead fd n).1),
      (s.cached j).setFd fd (s.ahead fd n).2) := by
  have hle := h.readable.le
  have hsize := h.readable.size_lt
  have hleft : ((s.fdtable fd).size + 4294967296 - (s.fdtable fd).fpos) % 4294967296 =
      (s.fdtable fd).size - (s.fdtable fd).fpos := by omega
  have hmin : s.ahead fd (min n ((s.fdtable fd).size - (s.fdtable fd).fpos)) = s.ahead fd n :=
    h.readable.bytesAhead_min
  have hgives : Gives fd (min n ((s.fdtable fd).size - (s.fdtable fd).fpos))
      ⟨min n ((s.fdtable fd).size - (s.fdtable fd).fpos), 0, [], s⟩
      (readPhases fd ⟨min n ((s.fdtable fd).size - (s.fdtable fd).fpos), 0, [], s⟩) := by
    rcases Nat.eq_zero_or_pos ((s.fdtable fd).size - (s.fdtable fd).fpos) with hzero | hrest
    · have hend : AtEnd (s.fdtable fd) := .inl (by omega)
      rw [readPhases_end hend]
      exact .of_end h.coherent hend
    · exact readPhases_gives (t := ⟨_, 0, [], s⟩) h (by simp only; omega) (by simp only; omega)
        (by simp only; omega)
  obtain ⟨j, hj⟩ := hgives.state
  have hbytes := hgives.bytes
  have hstored := hgives.stored
  simp only [hmin, Nat.zero_add, List.nil_append] at hj hbytes hstored
  refine ⟨j, ?_⟩
  unfold fileRead
  simp only [if_neg (show ¬ ptr % 65536 < 0x6000 by omega), descriptor?_cast, hmode, ne_eq,
    not_true_eq_false, if_false, hleft]
  rw [show (if (s.fdtable fd).size - (s.fdtable fd).fpos < n then
      (s.fdtable fd).size - (s.fdtable fd).fpos else n) =
      min n ((s.fdtable fd).size - (s.fdtable fd).fpos) by split_ifs <;> omega, hbytes, hstored, hj]

/-- A buffer below the memory of the processes is refused. -/
theorem fileRead_refused (hptr : ptr % 65536 < 0x6000) :
    fileRead s ptr n fd = ((0, []), s) := if_pos hptr

/-- Behind a read the descriptor still reads. -/
theorem FileState.Reads.behind (h : s.Reads fd) :
    ((s.cached j).setFd fd (s.ahead fd n).2).Reads fd := by
  refine ⟨FileState.coherent_cached.setFd, h.bytesPerSector, ?_⟩
  rw [FileState.setFd_fdtable_self]
  exact h.readable.standsBehind.readable

/-! ## Opening -/

/-- The entry that a lookup answers with has been read from the disk. -/
theorem filesystemGetDirectoryEntry_ofBytes {filename : List UInt8} {entry : DirectoryEntry}
    {s' : FileState} (h : filesystemGetDirectoryEntry s filename = some (.ok entry, s')) :
    ∃ b, entry = .ofBytes b := by
  unfold filesystemGetDirectoryEntry at h
  split at h
  · simp at h
  · simp at h
  · simp only [Option.some.injEq, Prod.mk.injEq, Except.ok.injEq] at h
    exact ⟨_, h.1.symm⟩

/-- A descriptor that has been opened for reading reads from the start of its file. -/
theorem fileOpen_reads {filename : List UInt8} {s' : FileState} (hs : s.Coherent)
    (hb : s.diskInfo.bytesPerSector = 512) (hpos : 0 < s.diskInfo.sectorsPerCluster)
    (hlt : s.diskInfo.sectorsPerCluster < 256)
    (h : fileOpen s filename fmodeRead = some (.ok fd, s')) :
    s'.Reads fd ∧ (s'.fdtable fd).mode = fmodeRead ∧ (s'.fdtable fd).fpos = 0 := by
  have hcoherent := fileOpen_coherent hs h
  have hinfo := (fileOpen_frame h).diskInfo
  cases fileOpen_cases h with
  | read hfd _ hopen =>
    cases fileOpenRead_cases hopen with
    | opened hget =>
      obtain ⟨b, rfl⟩ := filesystemGetDirectoryEntry_ofBytes hget
      refine ⟨⟨hcoherent, hinfo ▸ hb, ?_⟩, ?_⟩
      all_goals rw [FileState.setFd_fdtable_self]
      · refine ⟨Nat.zero_le _, ?_, rfl, hinfo ▸ hpos, hinfo ▸ hlt⟩
        have h₁ := word16_lt (b 28) (b 29)
        have h₂ := word16_lt (b 30) (b 31)
        show word32 (b 28) (b 29) (b 30) (b 31) < 4294967296
        unfold word32
        omega
      · exact ⟨rfl, rfl⟩
  | write _ hmode => exact absurd hmode (by decide)

end

end Z80OS
