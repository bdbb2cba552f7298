import Z80OS.File.Bytewise
import Z80OS.File.Contents
import Z80OS.File.Writing

set_option relaxedAutoImplicit false
set_option autoImplicit false

/-!
# Reading a file

A descriptor that reads stands at a position of its file. Since the chain reaches one cluster behind
the full ones, the descriptor points into a cluster of the chain even at the end of the file. This
file has the invariant of a reader, and shows that the bytes ahead of it, which `file_read` gives,
are those of the contents from its position on.

## Main definitions

* `Z80OS.Reading` — the invariant of a reader.

## Main results

* `Z80OS.Reading.readbyte`, `Z80OS.Reading.ahead` — one byte, and those that follow.
* `Z80OS.Reading.read` — one call of `file_read`.
-/

namespace Z80OS

/-- The state of a reader at the position `p` of a file: the disk holds the file, and the descriptor
stands in the sector of the position. -/
structure Reading (g : DiskInfo) (d₀ d : Disk) (f : ℕ) (e : DirectoryEntry) (fd : Fin fileLimit)
    (l : List ℕ) (data : List UInt8) (p : ℕ) (s : FileState) : Prop where
  coherent : s.Coherent
  diskInfo : s.diskInfo = g
  disk : s.disk = d
  file : NewFile g d₀ d f e l data
  eager : l.length = data.length / 512 / g.sectorsPerCluster + 1
  le : p ≤ data.length
  mode : (s.fdtable fd).mode = fmodeRead
  size : (s.fdtable fd).size = data.length
  fpos : (s.fdtable fd).fpos = p
  cluster : (s.fdtable fd).currentCluster = l.getD (p / 512 / g.sectorsPerCluster) 0
  sector : (s.fdtable fd).sector = p / 512 % g.sectorsPerCluster
  within : (s.fdtable fd).fposWithinSector = p % 512

/-- The descriptor in a sector of a cluster. -/
@[simps]
def FileDescriptor.moveTo (file : FileDescriptor) (cluster sector : ℕ) : FileDescriptor :=
  { file with currentCluster := cluster, sector := sector }

section

variable {M : Machine} {g : DiskInfo} {d₀ d : Disk} {f p n : ℕ} {e : DirectoryEntry}
  {fd : Fin fileLimit} {l : List ℕ} {data : List UInt8} {s : FileState}

/-! ## The next byte -/

/-- A descriptor that crosses into the next sector leaves the disk. -/
theorem readNextSector_disk (h : s.Coherent) : (readNextSector s fd).disk = s.disk := by
  unfold readNextSector
  simp only [fatNextCluster_eq h.setFd]
  split_ifs <;> rfl

/-- Behind a sector of the chain comes the next one.

**Proof sketch.** At the end of a cluster the driver follows its word, which by
`LinkTable.Chain.getD_succ` leads to the next cluster of the chain. -/
theorem readNextSector_fdtable {a : ℕ} (hg : Geometry g) (hs : s.Coherent) (hi : s.diskInfo = g)
    (h : NewFile g d₀ s.disk f e l data) (ha : (a + 1) / g.sectorsPerCluster < l.length)
    (hc : (s.fdtable fd).currentCluster = l.getD (a / g.sectorsPerCluster) 0)
    (hsec : (s.fdtable fd).sector = a % g.sectorsPerCluster) :
    (readNextSector s fd).fdtable fd = (s.fdtable fd).moveTo
      (l.getD ((a + 1) / g.sectorsPerCluster) 0) ((a + 1) % g.sectorsPerCluster) := by
  have hmod := Nat.mod_lt a hg.spc_pos
  have hle := hg.spc_le
  have hnext : (s.fdtable fd).nextSector.sector = a % g.sectorsPerCluster + 1 := by
    rw [FileDescriptor.nextSector_sector, hsec]
    omega
  unfold readNextSector
  simp only [hnext, FileState.setFd_diskInfo, hi]
  split_ifs with heq
  · obtain ⟨hdiv, hmod'⟩ := succ_div_mod_of_eq hg.spc_pos heq
    have hlt : a / g.sectorsPerCluster < l.length := by omega
    have hmem : l.getD (a / g.sectorsPerCluster) 0 ∈ l := by
      rw [List.getD_eq_getElem _ _ hlt]
      exact List.getElem_mem hlt
    have hu : Usable g (s.fdtable fd).currentCluster := hc ▸ h.usable _ hmem
    have hword := h.chain.getD_succ hlt
    rw [List.getD_eq_getElem _ _ hlt, ← List.getD_eq_getElem _ 0 hlt, ← hdiv,
      List.getD_eq_getElem _ _ ha, ← List.getD_eq_getElem _ 0 ha, ← hc] at hword
    have htemp : ((s.setFd fd (s.fdtable fd).nextSector).cached
        (fatSectorOf g (s.fdtable fd).currentCluster)).tempWord
        (fatOffsetOf g (s.fdtable fd).currentCluster) =
          l.getD ((a + 1) / g.sectorsPerCluster) 0 := by
      have := tempWord_fatEntry (M := M) (s := s.setFd fd (s.fdtable fd).nextSector)
        (c := (s.fdtable fd).currentCluster) (by simpa [hi] using hg)
        (by simpa [hi] using hu.hasWord)
      simpa [hi, hword] using this
    simp only [fatNextCluster_eq hs.setFd, FileState.setFd_diskInfo, hi,
      FileDescriptor.nextSector_currentCluster, FileState.setFd_fdtable_self, htemp]
    rw [hmod']
    rfl
  · obtain ⟨hdiv, hmod'⟩ := succ_div_mod_of_lt (show a % g.sectorsPerCluster + 1 < _ by omega)
    rw [FileState.setFd_fdtable_self, hdiv, hmod', ← hc, ← hnext]
    rfl

namespace Reading

/-- The current cluster is one of the file. -/
theorem cluster_mem (h : Reading g d₀ d f e fd l data p s) :
    (s.fdtable fd).currentCluster ∈ l := by
  have hle : p / 512 / g.sectorsPerCluster ≤ data.length / 512 / g.sectorsPerCluster :=
    Nat.div_le_div_right (Nat.div_le_div_right h.le)
  have hlt : p / 512 / g.sectorsPerCluster < l.length := by
    rw [h.eager]
    omega
  rw [h.cluster, List.getD_eq_getElem _ _ hlt]
  exact List.getElem_mem hlt

/-- The descriptor is positioned in the sector of its position. -/
theorem sectorNumber (hg : Geometry g) (h : Reading g d₀ d f e fd l data p s) :
    (s.fdtable fd).sectorNumber g = dataSector g l (p / 512) := by
  have hlt : (s.fdtable fd).sector < 256 := by
    have := Nat.mod_lt (p / 512) hg.spc_pos
    have := hg.spc_le
    rw [h.sector]
    omega
  rw [sectorNumber_eq hg (h.file.usable _ h.cluster_mem) hlt, h.cluster, h.sector, dataSector]

/-- In front of the end the driver does read. -/
theorem not_atEnd (h : Reading g d₀ d f e fd l data p s)
    (hp : p < data.length) : ¬ AtEnd (s.fdtable fd) := by
  rintro (hend | hend)
  · rw [h.fpos, h.size] at hend
    omega
  · exact h.file.chain.ne_eof h.cluster_mem hend

/-- The descriptor goes on from the end of a sector. -/
theorem next {q : ℕ} {s₁ : FileState} (hg : Geometry g) (h : Reading g d₀ d f e fd l data p s)
    (hs : s₁.Coherent) (hi : s₁.diskInfo = g) (hd : s₁.disk = d)
    (hq : q ≤ data.length) (hdiv : q / 512 = p / 512 + 1) (hmod : q % 512 = 0)
    (hmode : (s₁.fdtable fd).mode = fmodeRead) (hsize : (s₁.fdtable fd).size = data.length)
    (hfpos : (s₁.fdtable fd).fpos = q)
    (hc : (s₁.fdtable fd).currentCluster = (s.fdtable fd).currentCluster)
    (hsec : (s₁.fdtable fd).sector = (s.fdtable fd).sector)
    (hw : (s₁.fdtable fd).fposWithinSector = 0) :
    Reading g d₀ d f e fd l data q (readNextSector s₁ fd) := by
  have hlt : (p / 512 + 1) / g.sectorsPerCluster < l.length := by
    have : q / 512 / g.sectorsPerCluster ≤ data.length / 512 / g.sectorsPerCluster :=
      Nat.div_le_div_right (Nat.div_le_div_right hq)
    rw [← hdiv, h.eager]
    omega
  have hfd := readNextSector_fdtable (M := M) hg hs hi (hd ▸ h.file) hlt (hc.trans h.cluster)
    (hsec.trans h.sector)
  refine ⟨readNextSector_coherent hs, readNextSector_moves.frame.diskInfo.trans hi,
    (readNextSector_disk hs).trans hd, h.file, h.eager, hq, ?_, ?_, ?_, ?_, ?_, ?_⟩
  all_goals rw [hfd]
  · exact hmode
  · exact hsize
  · exact hfpos
  · rw [hdiv]
    rfl
  · rw [hdiv]
    rfl
  · rw [hmod]
    exact hw

/-- **One byte.** In front of the end of the file the next byte is read.

**Proof sketch.** In front of the end the byte of the cached sector is returned, which is the byte
of the file at the position. Within a sector only the two positions go up; at its end the descriptor
enters the next sector (`Reading.next`). -/
theorem readbyte (hg : Geometry g) (h : Reading g d₀ d f e fd l data p s) (hp : p < data.length) :
    (fileReadbyte s fd).1 = some (data.getD p 0) ∧
      Reading g d₀ d f e fd l data (p + 1) (fileReadbyte s fd).2 := by
  have hlen := h.file.length_lt hg
  obtain ⟨hfpos, heof⟩ := not_or.mp (h.not_atEnd hp)
  have hbyte : (s.cached (dataSector g l (p / 512))).tempByte (p % 512) = data.getD p 0 := by
    rw [FileState.tempByte, if_pos (by omega), FileState.cached_tempSector, h.disk]
    exact h.file.content p hp
  have hfpos' : (s.fdtable fd).skipByte.fpos = p + 1 := by
    rw [FileDescriptor.skipByte_fpos, h.fpos]
    omega
  have hwithin : (s.fdtable fd).skipByte.fposWithinSector = p % 512 + 1 := by
    rw [FileDescriptor.skipByte_fposWithinSector, h.within]
    omega
  unfold fileReadbyte
  simp only [if_neg hfpos, if_neg heof, readSectorCached_eq h.coherent, h.diskInfo,
    h.sectorNumber hg, h.within, hwithin, hbyte, FileState.cached_diskInfo, hg.bytesPerSector]
  split_ifs with hend
  · refine ⟨rfl, h.next hg FileState.coherent_cached.setFd h.diskInfo h.disk hp (by omega)
      (by omega) ?_ ?_ ?_ ?_ ?_ ?_⟩
    all_goals rw [FileState.setFd_fdtable_self]
    · exact h.mode
    · exact h.size
    · exact hfpos'
    · rfl
    · rfl
    · rfl
  · have hdiv : (p + 1) / 512 = p / 512 := by omega
    refine ⟨rfl, FileState.coherent_cached.setFd, h.diskInfo, h.disk, h.file, h.eager, hp, ?_, ?_,
      ?_, ?_, ?_, ?_⟩
    all_goals rw [FileState.setFd_fdtable_self]
    · exact h.mode
    · exact h.size
    · exact hfpos'
    · rw [hdiv]
      exact h.cluster
    · rw [hdiv]
      exact h.sector
    · rw [hwithin]
      omega

/-- The driver reads from the descriptor. -/
theorem canRead (hg : Geometry g) (h : Reading g d₀ d f e fd l data p s) : s.Reads fd := by
  have hlen := h.file.length_lt hg
  have hspc := hg.spc_le
  refine ⟨h.coherent, by rw [h.diskInfo, hg.bytesPerSector], ?_, ?_, ?_, ?_, ?_⟩
  · rw [h.fpos, h.size]
    exact h.le
  · rw [h.size]
    omega
  · rw [h.within, h.fpos]
  · rw [h.sector, h.diskInfo]
    exact Nat.mod_lt _ hg.spc_pos
  · rw [h.diskInfo]
    omega

/-- A reader does not depend on the cache. -/
theorem with_cached {j : ℕ} (h : Reading g d₀ d f e fd l data p s) :
    Reading g d₀ d f e fd l data p ((s.cached j).setFd fd (s.fdtable fd)) := by
  rw [← FileState.cached_fdtable, FileState.setFd_self]
  exact ⟨FileState.coherent_cached, h.diskInfo, h.disk, h.file, h.eager, h.le, h.mode, h.size,
    h.fpos, h.cluster, h.sector, h.within⟩

include M in
/-- The bytes ahead are the contents from the position on, and behind them the reader goes on.

**Proof sketch.** Induction on the number of bytes. In front of the end `readbyte` gives the first
of them and a reader at the next position. -/
theorem ahead (hg : Geometry g) (h : Reading g d₀ d f e fd l data p s) :
    (s.ahead fd n).1 = (data.drop p).take n ∧
      ∀ j, Reading g d₀ d f e fd l data (p + (s.ahead fd n).1.length)
        ((s.cached j).setFd fd (s.ahead fd n).2) := by
  induction n generalizing s p with
  | zero => exact ⟨rfl, fun j => h.with_cached⟩
  | succ n ih =>
    rcases Nat.eq_or_lt_of_le h.le with hp | hlt
    · have hend : AtEnd (s.fdtable fd) := .inl (by rw [h.fpos, h.size, hp])
      have hnil : s.ahead fd (n + 1) = ([], s.fdtable fd) := bytesAhead_end hend
      rw [hnil, List.drop_eq_nil_of_le hp.ge, List.take_nil]
      exact ⟨rfl, fun j => h.with_cached⟩
    · have hend := h.not_atEnd hlt
      obtain ⟨j₀, hj₀⟩ := (h.canRead hg).readbyte (M := M) hend
      obtain ⟨hbyte, hread⟩ := h.readbyte (M := M) hg hlt
      rw [hj₀] at hbyte hread
      have hrest : ((s.cached j₀).setFd fd ((s.fdtable fd).advanced s.diskInfo s.disk)).ahead fd n =
          bytesAhead s.diskInfo s.disk n ((s.fdtable fd).advanced s.diskInfo s.disk) := by
        rw [FileState.ahead, FileState.setFd_fdtable_self]
        rfl
      have hsucc : s.ahead fd (n + 1) = (data.getD p 0 :: (bytesAhead s.diskInfo s.disk n
          ((s.fdtable fd).advanced s.diskInfo s.disk)).1, (bytesAhead s.diskInfo s.disk n
          ((s.fdtable fd).advanced s.diskInfo s.disk)).2) := by
        rw [FileState.ahead, bytesAhead, if_neg hend, Option.some.inj hbyte]
      obtain ⟨hbytes, hnext⟩ := ih hread
      rw [hrest] at hbytes hnext
      rw [hsucc]
      refine ⟨?_, fun j => ?_⟩
      · rw [hbytes, List.drop_eq_getElem_cons hlt, List.take_succ_cons,
          List.getD_eq_getElem _ _ hlt]
      · have hj := hnext j
        rw [FileState.cached_setFd, FileState.setFd_setFd] at hj
        rw [List.length_cons, Nat.add_comm _ 1, ← Nat.add_assoc]
        exact hj

end Reading

/-- **One read.** A read gives as many bytes as it is asked for, or as many as are left. -/
theorem Reading.read {ptr : ℕ} (hg : Geometry g) (h : Reading g d₀ d f e fd l data p s)
    (hptr : 0x6000 ≤ ptr % 65536) (hpos : 0 < n) (hn : n < 65536) :
    ∃ s', fileRead s ptr n fd = ((min n (data.length - p), (data.drop p).take n), s') ∧
      Reading g d₀ d f e fd l data (p + min n (data.length - p)) s' := by
  obtain ⟨j, hj⟩ := (h.canRead hg).read (M := M) _ _ h.mode hptr hpos hn
  obtain ⟨hbytes, hnext⟩ := h.ahead (M := M) (n := n) hg
  have hlen : (s.ahead fd n).1.length = min n (data.length - p) := by
    rw [hbytes, List.length_take, List.length_drop]
  refine ⟨_, hj.trans ?_, hlen ▸ hnext j⟩
  rw [hlen, hbytes]

end

end Z80OS
