import Z80OS.File.Volume

set_option relaxedAutoImplicit false
set_option autoImplicit false

/-!
# The ways a sector write can go

Writing into the current sector changes the sector, moves the descriptor on, and at the end of a
cluster follows or extends the chain. This file lists the states in which that can end. A write is a
sequence of such sector writes, each of which ends with its sector, except for the last one.

## Main definitions

* `Z80OS.FileState.written` — the state in which the data is on the disk and counted.
* `Z80OS.NextSector`, `Z80OS.WriteSector` — the ways of `file_writesector`.
* `Z80OS.WriteChunks` — the sector writes of a write.

## Main results

* `Z80OS.writeNextCluster_cases`, `Z80OS.fileWritesector_cases`.
* `Z80OS.fileWrite_chunks` — the phases of `file_write` are such a sequence.
-/

namespace Z80OS

/-- The state after data has been written into the sector that a descriptor is positioned in, and
has been counted. -/
def FileState.written (s : FileState) (fd : Fin fileLimit) (data : List UInt8) (off : ℕ) :
    FileState :=
  let sector := (s.fdtable fd).sectorNumber s.diskInfo
  ((s.recordWrite fd sector).store sector ((s.disk sector).memcpy off data)).setFd fd
    ((s.fdtable fd).grow data.length)

section

variable [Machine]

/-- The ways in which a descriptor that writes gets to the next sector, with `s` the state in which
it has been moved on already. -/
inductive NextSector (s : FileState) (fd : Fin fileLimit) : ℤ → FileState → Prop
  | inCluster (hs : (s.fdtable fd).sector ≠ s.diskInfo.sectorsPerCluster) : NextSector s fd 0 s
  | linked {next} (hs : (s.fdtable fd).sector = s.diskInfo.sectorsPerCluster)
      (hnext : next = ((s.cached (fatSectorOf s.diskInfo (s.fdtable fd).currentCluster)).tempWord
        (fatOffsetOf s.diskInfo (s.fdtable fd).currentCluster)))
      (hne : next ≠ clusterEof) (j : ℕ) :
      NextSector s fd 0 ((s.cached j).setFd fd ((s.fdtable fd).enterCluster next))
  | full (hs : (s.fdtable fd).sector = s.diskInfo.sectorsPerCluster)
      (hnext : ((s.cached (fatSectorOf s.diskInfo (s.fdtable fd).currentCluster)).tempWord
        (fatOffsetOf s.diskInfo (s.fdtable fd).currentCluster)) = clusterEof)
      (hfree : freeCluster s = 0) (j : ℕ) :
      NextSector s fd FileError.diskFull.code ((s.cached j).recordSearch 0)
  | allocated {c} (hs : (s.fdtable fd).sector = s.diskInfo.sectorsPerCluster)
      (hnext : ((s.cached (fatSectorOf s.diskInfo (s.fdtable fd).currentCluster)).tempWord
        (fatOffsetOf s.diskInfo (s.fdtable fd).currentCluster)) = clusterEof)
      (hc : c = freeCluster s) (h0 : c ≠ 0) :
      NextSector s fd 0
        ((((s.recordSearch c).link (s.fdtable fd).currentCluster c).link c clusterEof).setFd fd
          ((s.fdtable fd).enterCluster c))

/-- The ways in which `file_writesector` returns. -/
inductive WriteSector (s : FileState) (fd : Fin fileLimit) (data : List UInt8) (off : ℕ) :
    ℤ → FileState → Prop
  | refused (h : s.diskInfo.bytesPerSector < (off + data.length) % 65536) :
      WriteSector s fd data off 1 s
  | inSector (h : (off + data.length) % 65536 ≤ s.diskInfo.bytesPerSector)
      (hpos : ((s.fdtable fd).fposWithinSector + data.length) % 65536 ≠ s.diskInfo.bytesPerSector) :
      WriteSector s fd data off 0 (s.written fd data off)
  | next {e s'} (h : (off + data.length) % 65536 ≤ s.diskInfo.bytesPerSector)
      (hpos : ((s.fdtable fd).fposWithinSector + data.length) % 65536 = s.diskInfo.bytesPerSector)
      (hnext : NextSector ((s.written fd data off).setFd fd
        ((s.fdtable fd).grow data.length).atSectorStart.nextSector) fd e s') :
      WriteSector s fd data off e s'

/-- The sector writes by which a descriptor writes some bytes, up to the end or to the first one
that fails. Each of them ends with the sector, or with the bytes. -/
inductive WriteChunks (fd : Fin fileLimit) : FileState → List UInt8 → ℤ → FileState → Prop
  | nil {s} : WriteChunks fd s [] 0 s
  | chunk {s c s₁ bs e s'} (hle : (s.fdtable fd).fposWithinSector + c.length ≤ 512)
      (hends : bs = [] ∨ (s.fdtable fd).fposWithinSector + c.length = 512)
      (hw : fileWritesector s c (s.fdtable fd).fposWithinSector fd = (0, s₁))
      (hrest : WriteChunks fd s₁ bs e s') : WriteChunks fd s (c ++ bs) e s'
  | stop {s c e s₁ bs} (hle : (s.fdtable fd).fposWithinSector + c.length ≤ 512)
      (hw : fileWritesector s c (s.fdtable fd).fposWithinSector fd = (e, s₁)) (he : e ≠ 0) :
      WriteChunks fd s (c ++ bs) e s₁

end

variable {M : Machine} {s s' : FileState} {fd : Fin fileLimit} {data : List UInt8} {off : ℕ} {e : ℤ}

/-- The buffer is coherent once bytes have been written to the sector of a descriptor. -/
theorem FileState.coherent_written : (s.written fd data off).Coherent := coherent_store

/-- Written bytes leave the layout. -/
@[simp] theorem FileState.written_diskInfo : (s.written fd data off).diskInfo = s.diskInfo := rfl

/-- The trace after a sector has been written. -/
@[simp] theorem FileState.written_trace : (s.written fd data off).trace =
    .write s.disk fd ((s.fdtable fd).sectorNumber s.diskInfo) :: s.trace := rfl

/-- Written bytes are in the sector of the descriptor. -/
@[simp] theorem FileState.written_disk : (s.written fd data off).disk =
    Function.update s.disk ((s.fdtable fd).sectorNumber s.diskInfo)
      ((s.disk ((s.fdtable fd).sectorNumber s.diskInfo)).memcpy off data) := rfl

/-- The descriptor grows by the bytes written. -/
@[simp] theorem FileState.written_fdtable_self :
    (s.written fd data off).fdtable fd = (s.fdtable fd).grow data.length :=
  FileState.setFd_fdtable_self

/-- The driver gets to the next sector in one of the ways. -/
theorem writeNextCluster_cases (hs : s.Coherent) :
    NextSector s fd (writeNextCluster s fd).1 (writeNextCluster s fd).2 := by
  unfold writeNextCluster
  simp only [fatNextCluster_eq hs]
  generalize hj : fatSectorOf s.diskInfo (s.fdtable fd).currentCluster = j
  rcases ha : fatAllocateCluster (s.cached j) (s.fdtable fd).currentCluster with ⟨c, s₁⟩
  obtain ⟨hc, halloc⟩ := fatAllocateCluster_cases FileState.coherent_cached ha
  rw [freeCluster_cached hs] at hc
  subst hj
  split_ifs with hsector hnext hfree
  · obtain ⟨-, i, rfl⟩ := halloc.resolve_right fun h => h.1 hfree
    exact .full hsector hnext (hc.symm.trans hfree) i
  · obtain ⟨h0, rfl⟩ := halloc.resolve_left fun h => hfree h.1
    exact .allocated hsector hnext hc h0
  · exact .linked hsector rfl hnext _
  · exact .inCluster hsector

/-- The driver writes a sector in one of the ways. -/
theorem fileWritesector_cases (hs : s.Coherent) :
    WriteSector s fd data off (fileWritesector s data off fd).1
      (fileWritesector s data off fd).2 := by
  unfold fileWritesector
  simp only [readSectorCached_eq hs, diskWrite_recordWrite_eq]
  split_ifs with h hpos
  · exact .refused h
  · refine .next (not_lt.mp h) hpos ?_
    have hcases : NextSector ((s.written fd data off).setFd fd
        ((s.written fd data off).fdtable fd).atSectorStart.nextSector) fd
        (writeNextSector (s.written fd data off) fd).1
        (writeNextSector (s.written fd data off) fd).2 :=
      writeNextCluster_cases FileState.coherent_written.setFd
    rw [FileState.written_fdtable_self] at hcases
    exact hcases
  · exact .inSector (not_lt.mp h) hpos

/-- Getting to the next sector loses no event. -/
theorem NextSector.trace_suffix (h : NextSector s fd e s') : s.trace <:+ s'.trace := by
  cases h with
  | inCluster => exact List.suffix_refl _
  | linked => exact List.suffix_refl _
  | full => exact List.suffix_cons _ _
  | allocated => exact List.suffix_cons _ _

/-- Getting to the next sector changes the cluster and the sector of the descriptor. -/
theorem NextSector.file (h : NextSector s fd e s') :
    ∃ c k, s'.fdtable fd = { s.fdtable fd with currentCluster := c, sector := k } := by
  cases h with
  | inCluster => exact ⟨_, _, rfl⟩
  | linked => exact ⟨_, _, FileState.setFd_fdtable_self⟩
  | full => exact ⟨_, _, rfl⟩
  | allocated => exact ⟨_, _, FileState.setFd_fdtable_self⟩

/-- A sequence of sector writes loses no event. -/
theorem WriteChunks.trace_suffix {bs : List UInt8} (h : WriteChunks fd s bs e s') :
    s.trace <:+ s'.trace := by
  have hstep : ∀ {s c e s₁}, fileWritesector s c (s.fdtable fd).fposWithinSector fd = (e, s₁) →
      s.trace <:+ s₁.trace := by
    intro s c e s₁ hw
    have hmoves : Moves fd s (fileWritesector s c (s.fdtable fd).fposWithinSector fd).2 :=
      fileWritesector_moves
    rw [hw] at hmoves
    exact hmoves.frame.trace
  induction h with
  | nil => exact List.suffix_refl _
  | chunk _ _ hw _ ih => exact (hstep hw).trans ih
  | stop _ hw _ => exact hstep hw

/-! ## The phases of a write -/

section

variable {s₁ : FileState} {c bs : List UInt8} {k bytes : ℕ}

/-- The descriptor after a sector write, which may have failed behind the sector. -/
theorem fileWritesector_file (hs : s.Coherent) (hbps : s.diskInfo.bytesPerSector = 512)
    (hle : (s.fdtable fd).fposWithinSector + c.length ≤ 512)
    (hw : fileWritesector s c (s.fdtable fd).fposWithinSector fd = (e, s₁)) :
    ∃ b k, s₁.fdtable fd = { (s.fdtable fd).grow c.length with
      currentCluster := b, sector := k
      fposWithinSector := ((s.fdtable fd).fposWithinSector + c.length) % 512 } := by
  have hcases : WriteSector s fd c (s.fdtable fd).fposWithinSector
      (fileWritesector s c (s.fdtable fd).fposWithinSector fd).1
      (fileWritesector s c (s.fdtable fd).fposWithinSector fd).2 := fileWritesector_cases hs
  rw [hw] at hcases
  simp only at hcases
  cases hcases with
  | refused hlt => omega
  | inSector _ hpos =>
    have hmod : ((s.fdtable fd).fposWithinSector + c.length) % 512 =
        ((s.fdtable fd).fposWithinSector + c.length) % 65536 := by omega
    exact ⟨_, _, by rw [FileState.written_fdtable_self, hmod]; rfl⟩
  | next _ hpos hnext =>
    obtain ⟨b, k, hfile⟩ := hnext.file
    have hmod : ((s.fdtable fd).fposWithinSector + c.length) % 512 = 0 := by omega
    refine ⟨b, k, ?_⟩
    rw [hfile, FileState.setFd_fdtable_self, hmod]
    rfl

/-- The size after a sector write. -/
theorem fileWritesector_size (hs : s.Coherent) (hbps : s.diskInfo.bytesPerSector = 512)
    (hle : (s.fdtable fd).fposWithinSector + c.length ≤ 512)
    (hsize : (s.fdtable fd).size + c.length < 4294967296)
    (hw : fileWritesector s c (s.fdtable fd).fposWithinSector fd = (e, s₁)) :
    (s₁.fdtable fd).size = (s.fdtable fd).size + c.length := by
  obtain ⟨b, k, hfile⟩ := fileWritesector_file hs hbps hle hw
  rw [hfile]
  exact Nat.mod_eq_of_lt hsize

/-- The position in the sector after a sector write. -/
theorem fileWritesector_within (hs : s.Coherent) (hbps : s.diskInfo.bytesPerSector = 512)
    (hle : (s.fdtable fd).fposWithinSector + c.length ≤ 512)
    (hw : fileWritesector s c (s.fdtable fd).fposWithinSector fd = (e, s₁)) :
    (s₁.fdtable fd).fposWithinSector = ((s.fdtable fd).fposWithinSector + c.length) % 512 := by
  obtain ⟨b, k, hfile⟩ := fileWritesector_file hs hbps hle hw
  rw [hfile]

/-- The whole sectors of a write are sector writes, and the rest follows them.

**Proof sketch.** By induction on the number of whole sectors. Each is one sector write at the start
of a sector, which fails and ends the write, or leaves the descriptor at the start of a sector again
(`fileWritesector_within`), from where the induction hypothesis goes on. -/
theorem writeFullSectors_chunks (bytes : ℕ) (hs : s.Coherent)
    (hbps : s.diskInfo.bytesPerSector = 512)
    (hw : (s.fdtable fd).fposWithinSector = 0) (hk : 512 * k ≤ bs.length) :
    (∃ e s₁ bs₁ n, writeFullSectors fd k s bs bytes = (true, s₁, bs₁, n) ∧ e ≠ 0 ∧
      WriteChunks fd s bs e s₁) ∨
    ∃ s₁, writeFullSectors fd k s bs bytes = (false, s₁, bs.drop (512 * k), bytes + 512 * k) ∧
      s₁.Coherent ∧ s₁.diskInfo = s.diskInfo ∧ (s₁.fdtable fd).fposWithinSector = 0 ∧
      ∀ e s', WriteChunks fd s₁ (bs.drop (512 * k)) e s' → WriteChunks fd s bs e s' := by
  induction k generalizing s bs bytes with
  | zero => exact .inr ⟨s, rfl, hs, rfl, hw, fun _ _ h => h⟩
  | succ k ih =>
    have htake : (bs.take 512).length = 512 := by
      rw [List.length_take]
      omega
    have hdrop : bs.take 512 ++ bs.drop 512 = bs := List.take_append_drop 512 bs
    have hle : (s.fdtable fd).fposWithinSector + (bs.take 512).length ≤ 512 := by omega
    rcases hr : fileWritesector s (bs.take 512) 0 fd with ⟨e, s₁⟩
    have hr' : fileWritesector s (bs.take 512) (s.fdtable fd).fposWithinSector fd = (e, s₁) := by
      rw [hw, hr]
    simp only [writeFullSectors, hbps, hr]
    by_cases he : e = 0
    · subst he
      have hs₁ : s₁.Coherent := by
        have hcoherent : (fileWritesector s (bs.take 512) 0 fd).2.Coherent :=
          fileWritesector_coherent hs
        rwa [hr] at hcoherent
      have hinfo : s₁.diskInfo = s.diskInfo := by
        have hmoves : Moves fd s (fileWritesector s (bs.take 512) 0 fd).2 := fileWritesector_moves
        rw [hr] at hmoves
        exact hmoves.frame.diskInfo
      have hw₁ : (s₁.fdtable fd).fposWithinSector = 0 := by
        rw [fileWritesector_within hs hbps hle hr', hw, htake]
      have hchunk : ∀ e s', WriteChunks fd s₁ (bs.drop 512) e s' → WriteChunks fd s bs e s' := by
        intro e s' hrest
        rw [← hdrop]
        exact .chunk hle (.inr (by omega)) hr' hrest
      have hlen : 512 * k ≤ (bs.drop 512).length := by
        rw [List.length_drop]
        omega
      rcases ih (bytes + 512) hs₁ (hinfo ▸ hbps) hw₁ hlen with
        ⟨e', s₂, bs₂, n, heq, he', hstop⟩ | ⟨s₂, heq, hs₂, hinfo₂, hw₂, hgo⟩
      · exact .inl ⟨e', s₂, bs₂, n, heq, he', hchunk _ _ hstop⟩
      · have hsum : 512 + 512 * k = 512 * (k + 1) := by omega
        rw [List.drop_drop, hsum] at heq hgo
        rw [add_assoc, hsum] at heq
        exact .inr ⟨s₂, heq, hs₂, hinfo₂.trans hinfo, hw₂, fun e s' h => hchunk e s' (hgo e s' h)⟩
    · refine .inl ⟨e, s₁, bs, bytes, ?_, he, ?_⟩
      · split
        · rename_i heq
          exact absurd (congrArg Prod.fst heq) he
        · rename_i heq
          rw [Prod.mk.injEq] at heq
          rw [← heq.2]
      · rw [← hdrop]
        exact .stop hle hr' he

/-- A sector write that does not reach the end of the sector does not fail. -/
theorem fileWritesector_inside (hs : s.Coherent) (hbps : s.diskInfo.bytesPerSector = 512)
    (hlt : (s.fdtable fd).fposWithinSector + c.length < 512)
    (hw : fileWritesector s c (s.fdtable fd).fposWithinSector fd = (e, s₁)) : e = 0 := by
  have hcases : WriteSector s fd c (s.fdtable fd).fposWithinSector
      (fileWritesector s c (s.fdtable fd).fposWithinSector fd).1
      (fileWritesector s c (s.fdtable fd).fposWithinSector fd).2 := fileWritesector_cases hs
  rw [hw] at hcases
  simp only at hcases
  cases hcases with
  | refused hgt => omega
  | inSector => rfl
  | next _ hpos => omega

/-- A write from the start of a sector consists of sector writes. When one of them fails the answer
is `0`: this is not the last one, which does not fill its sector.

**Proof sketch.** The whole sectors are written first (`writeFullSectors_chunks`). What is left is
shorter than a sector and is one more sector write, which does not leave its sector and so does not
fail (`fileWritesector_inside`). -/
theorem writeAligned_chunks (bytes : ℕ) (hs : s.Coherent) (hbps : s.diskInfo.bytesPerSector = 512)
    (hw : bs = [] ∨ (s.fdtable fd).fposWithinSector = 0) :
    ∃ e, WriteChunks fd s bs e (writeAligned s bs bytes fd).2 ∧
      (e = 0 → (writeAligned s bs bytes fd).1 = bytes + bs.length) ∧
      (e ≠ 0 → (writeAligned s bs bytes fd).1 = 0) := by
  unfold writeAligned
  by_cases hnil : bs = []
  · subst hnil
    rw [if_pos rfl]
    exact ⟨0, .nil, fun _ => rfl, fun h => absurd rfl h⟩
  have hw := hw.resolve_left hnil
  rw [if_neg hnil, hbps]
  rcases writeFullSectors_chunks (M := M) bytes hs hbps hw
    (show 512 * (bs.length / 512) ≤ bs.length by omega) with
    ⟨e, s₁, bs₁, n, heq, he, hstop⟩ | ⟨s₁, heq, hs₁, hinfo, hw₁, hgo⟩
  · simp only [heq]
    exact ⟨e, hstop, fun h0 => absurd h0 he, fun _ => trivial⟩
  · have hlen : (bs.drop (512 * (bs.length / 512))).length = bs.length % 512 := by
      rw [List.length_drop]
      omega
    simp only [heq]
    split_ifs with hrest
    · refine ⟨0, hgo _ _ (hrest ▸ .nil), fun _ => ?_, fun h => absurd rfl h⟩
      rw [hrest, List.length_nil] at hlen
      show bytes + 512 * (bs.length / 512) = bytes + bs.length
      omega
    · rcases hr : fileWritesector s₁ (bs.drop (512 * (bs.length / 512))) 0 fd with ⟨e, s₂⟩
      have hr' : fileWritesector s₁ (bs.drop (512 * (bs.length / 512)))
          (s₁.fdtable fd).fposWithinSector fd = (e, s₂) := by rw [hw₁, hr]
      have hle : (s₁.fdtable fd).fposWithinSector +
          (bs.drop (512 * (bs.length / 512))).length ≤ 512 := by omega
      obtain rfl : e = 0 := fileWritesector_inside hs₁ (hinfo ▸ hbps) (by omega) hr'
      refine ⟨0, hgo _ _ ?_, fun _ => ?_, fun h => absurd rfl h⟩
      · rw [← List.append_nil (bs.drop (512 * (bs.length / 512)))]
        exact .chunk hle (.inl rfl) hr' .nil
      · simp only [hlen]
        omega

/-- **The phases of a write** are sector writes one after the other. When none of them fails the
number of the bytes is returned, and otherwise `0`.

**Proof sketch.** The first one fills up the current sector. If anything is left, the descriptor
then stands at the start of a sector. -/
theorem fileWrite_phases (bs : List UInt8) (hs : s.Coherent)
    (hbps : s.diskInfo.bytesPerSector = 512)
    (hmode : (s.fdtable fd).mode = fmodeWrite) (hw : (s.fdtable fd).fposWithinSector < 512) :
    ∃ e, WriteChunks fd s bs e (fileWrite s bs fd).2 ∧
      (e = 0 → (fileWrite s bs fd).1 = bs.length) ∧ (e ≠ 0 → (fileWrite s bs fd).1 = 0) := by
  unfold fileWrite
  simp only [descriptor?_cast, hmode, ne_eq, not_true_eq_false, if_false, hbps]
  by_cases hmid : (s.fdtable fd).fposWithinSector = 0
  · rw [if_neg (not_not.mpr hmid)]
    obtain ⟨e, hchunks, hcount, hfail⟩ := writeAligned_chunks (M := M) 0 hs hbps (.inr hmid)
    exact ⟨e, hchunks, fun h0 => by rw [hcount h0, Nat.zero_add], hfail⟩
  rw [if_pos hmid]
  generalize hn : (if bs.length < (512 + 65536 - (s.fdtable fd).fposWithinSector) % 65536 then
    bs.length else (512 + 65536 - (s.fdtable fd).fposWithinSector) % 65536) = n
  have hn' : n ≤ bs.length ∧ (s.fdtable fd).fposWithinSector + n ≤ 512 ∧
      (n = bs.length ∨ (s.fdtable fd).fposWithinSector + n = 512) := by
    split_ifs at hn <;> omega
  have hlen : (bs.take n).length = n := by
    rw [List.length_take]
    omega
  have hle : (s.fdtable fd).fposWithinSector + (bs.take n).length ≤ 512 := by omega
  have hdrop : bs.take n ++ bs.drop n = bs := List.take_append_drop n bs
  rcases hr : fileWritesector s (bs.take n) (s.fdtable fd).fposWithinSector fd with ⟨e, s₁⟩
  by_cases he : e = 0
  · subst he
    have hs₁ : s₁.Coherent := by
      have hcoherent :
          (fileWritesector s (bs.take n) (s.fdtable fd).fposWithinSector fd).2.Coherent :=
        fileWritesector_coherent hs
      rwa [hr] at hcoherent
    have hinfo : s₁.diskInfo = s.diskInfo := by
      have hmoves :
          Moves fd s (fileWritesector s (bs.take n) (s.fdtable fd).fposWithinSector fd).2 :=
        fileWritesector_moves
      rw [hr] at hmoves
      exact hmoves.frame.diskInfo
    have hstart : bs.drop n = [] ∨ (s₁.fdtable fd).fposWithinSector = 0 := by
      rw [List.drop_eq_nil_iff, fileWritesector_within hs hbps hle hr]
      omega
    obtain ⟨e, hchunks, hcount, hfail⟩ := writeAligned_chunks (M := M) n hs₁
      (hinfo ▸ hbps) hstart
    refine ⟨e, ?_, fun h0 => ?_, hfail⟩
    · rw [← hdrop]
      refine .chunk hle ?_ hr (by rw [hdrop]; exact hchunks)
      rw [List.drop_eq_nil_iff]
      omega
    · show (writeAligned s₁ (bs.drop n) n fd).1 = bs.length
      rw [hcount h0, List.length_drop]
      omega
  · split
    · rename_i heq
      exact absurd (congrArg Prod.fst heq) he
    · -- a sector write that has failed ends the write
      rename_i heq
      rw [Prod.mk.injEq] at heq
      refine ⟨e, ?_, fun h0 => absurd h0 he, fun _ => rfl⟩
      rw [← hdrop, ← heq.2]
      exact .stop hle hr he

/-- A write whose sector writes do not fail returns the number of the bytes. -/
theorem fileWrite_chunks (bs : List UInt8) (hs : s.Coherent)
    (hbps : s.diskInfo.bytesPerSector = 512)
    (hmode : (s.fdtable fd).mode = fmodeWrite) (hw : (s.fdtable fd).fposWithinSector < 512) :
    ∃ e, WriteChunks fd s bs e (fileWrite s bs fd).2 ∧
      (e = 0 → (fileWrite s bs fd).1 = bs.length) := by
  obtain ⟨e, hchunks, hcount, -⟩ := fileWrite_phases (M := M) bs hs hbps hmode hw
  exact ⟨e, hchunks, hcount⟩

end

end Z80OS
