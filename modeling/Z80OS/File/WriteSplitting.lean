import Z80OS.File.Bytewise
import Z80OS.File.Lifecycle
import Z80OS.File.Search

set_option relaxedAutoImplicit false
set_option autoImplicit false

/-!
# Writing byte by byte

`file_write` writes its bytes in chunks that end with the sectors. This file says what a descriptor
that writes one byte after the other does to the disk and to itself, as a function of these two
alone, and shows that a write does just that as long as every search for a free cluster finds one of
the first ones. So a write can be split anywhere.

## Main definitions

* `Z80OS.lowestFree` — the cluster that the search finds.
* `Z80OS.putByte`, `Z80OS.putBytes` — a disk and a descriptor after bytes have been written.
* `Z80OS.SearchesFind` — every search of a step finds one of the first clusters.
* `Z80OS.Wrote` — a step has written some bytes.

## Main results

* `Z80OS.WriteChunks.wrote` — a sequence of sector writes.
* `Z80OS.fileWrite_split` — one write, or two.
-/

namespace Z80OS

/-- The free cluster among the clusters 2 to 255 that the search finds, or `0`. Without a FAT in
front of the root directory the search looks at cluster 2 only. -/
def lowestFree (g : DiskInfo) (d : Disk) : ℕ :=
  if g.fatRegion = g.rootRegion then if fatEntry g d 2 = clusterFree then 2 else 0
  else (freeClusters g d).headD 0

/-- The disk after the word that links a cluster has been replaced. -/
def relinked (g : DiskInfo) (d : Disk) (c w : ℕ) : Disk :=
  Function.update d (fatSectorOf g c) ((d (fatSectorOf g c)).memcpy (fatOffsetOf g c) (bytes16 w))

/-- A disk and a descriptor that has come to the next sector. Behind the last one of a cluster it
goes on in the next cluster, which is allocated when the cluster has none. -/
def enterNext (g : DiskInfo) (d : Disk) (file : FileDescriptor) : Option (Disk × FileDescriptor) :=
  if file.sector = g.sectorsPerCluster then
    if linkOf g d file.currentCluster = clusterEof then
      if lowestFree g d = 0 then none
      else some (relinked g (relinked g d file.currentCluster (lowestFree g d)) (lowestFree g d)
        clusterEof, file.enterCluster (lowestFree g d))
    else some (d, file.enterCluster (linkOf g d file.currentCluster))
  else some (d, file)

/-- A disk and a descriptor after some bytes have been written into the current sector, or `none`
when there is no free cluster to go on in. -/
def putChunk (g : DiskInfo) (c : List UInt8) (x : Disk × FileDescriptor) :
    Option (Disk × FileDescriptor) :=
  let sector := x.2.sectorNumber g
  let d := Function.update x.1 sector ((x.1 sector).memcpy x.2.fposWithinSector c)
  let file := x.2.grow c.length
  if file.fposWithinSector = 512 then enterNext g d file.atSectorStart.nextSector
  else some (d, file)

/-- A disk and a descriptor after a byte has been written. -/
def putByte (g : DiskInfo) (b : UInt8) (x : Disk × FileDescriptor) :
    Option (Disk × FileDescriptor) := putChunk g [b] x

/-- A disk and a descriptor after bytes have been written one after the other. -/
def putBytes (g : DiskInfo) : List UInt8 → Disk × FileDescriptor → Option (Disk × FileDescriptor)
  | [], x => some x
  | b :: bs, x => (putByte g b x).bind (putBytes g bs)

/-- The counters of the descriptor are in their ranges. -/
structure Positioned (file : FileDescriptor) : Prop where
  within : file.fposWithinSector < 512
  fpos : file.fpos < 4294967296
  size : file.size < 4294967296

section

variable {g : DiskInfo} {d : Disk} {file : FileDescriptor} {b : UInt8} {c bs bs' : List UInt8}
  {x : Disk × FileDescriptor} {m n : ℕ}

/-- Two lists of bytes are put one after the other. -/
theorem putBytes_append :
    putBytes g (bs ++ bs') x = (putBytes g bs x).bind (putBytes g bs') := by
  induction bs generalizing x with
  | nil => rfl
  | cons b bs ih =>
    rw [List.cons_append, putBytes, putBytes, Option.bind_assoc]
    congr 1
    funext y
    exact ih

/-- Counting bytes in two steps. -/
theorem FileDescriptor.grow_grow : (file.grow m).grow n = file.grow (m + n) := by
  simp only [grow, FileDescriptor.mk.injEq, true_and]
  refine ⟨?_, ?_, ?_⟩
  all_goals omega

/-- **Bytes in one sector** are written one after the other or all at once.

**Proof sketch.** Induction on the bytes. In front of the last one the sector is not full. -/
theorem putBytes_chunk (hfile : Positioned x.2) (hle : x.2.fposWithinSector + c.length ≤ 512) :
    putBytes g c x = putChunk g c x := by
  obtain ⟨d, file⟩ := x
  induction c generalizing d file with
  | nil =>
    have hwithin : file.fposWithinSector < 512 := hfile.within
    have hsame : file.grow 0 = file := by
      simp only [FileDescriptor.grow, Nat.add_zero]
      rw [Nat.mod_eq_of_lt hfile.fpos, Nat.mod_eq_of_lt hfile.size, Nat.mod_eq_of_lt (by omega)]
    simp only [putBytes, putChunk, List.length_nil, hsame, Sector.memcpy_nil,
      Function.update_eq_self, if_neg (show ¬ file.fposWithinSector = 512 by omega)]
  | cons b bs ih =>
    simp only [List.length_cons] at hle
    rcases Nat.eq_zero_or_pos bs.length with hnil | hpos
    · rw [List.length_eq_zero_iff] at hnil
      subst hnil
      rw [putBytes, putByte]
      cases putChunk g [b] (d, file) <;> rfl
    -- the first byte does not fill the sector
    have hgrow : (file.grow 1).fposWithinSector = file.fposWithinSector + 1 := by
      rw [FileDescriptor.grow_fposWithinSector]
      omega
    have hfirst : putByte g b (d, file) = some (Function.update d (file.sectorNumber g)
        ((d (file.sectorNumber g)).memcpy file.fposWithinSector [b]), file.grow 1) := by
      simp only [putByte, putChunk, List.length_singleton]
      rw [if_neg (by omega)]
    have hgrow' : (file.grow 1).sectorNumber g = file.sectorNumber g := rfl
    have hpositioned : Positioned (file.grow 1) :=
      ⟨by omega, Nat.mod_lt _ (by decide), Nat.mod_lt _ (by decide)⟩
    have hle' : (file.grow 1).fposWithinSector + bs.length ≤ 512 := by omega
    rw [putBytes, hfirst, Option.bind_some, ih _ (file.grow 1) hpositioned hle']
    simp only [putChunk, hgrow', FileDescriptor.grow_grow, Function.update_self, hgrow,
      Function.update_idem, List.length_cons]
    rw [show file.fposWithinSector + 1 = file.fposWithinSector + [b].length from rfl,
      Sector.memcpy_append, Nat.add_comm 1 bs.length]
    rfl

end

/-! ## The searches of a step -/

/-- The event is not a search that finds something else than one of the clusters 2 to 255. -/
def Event.Finds (g : DiskInfo) : Event → Prop
  | .search d c => 2 ≤ c ∧ c < 256 ∧ fatEntry g d c = clusterFree
  | .write _ _ _ => True

instance {g : DiskInfo} : DecidablePred (Event.Finds g) := fun ev =>
  match ev with
  | .search d c => inferInstanceAs (Decidable (2 ≤ c ∧ c < 256 ∧ fatEntry g d c = clusterFree))
  | .write _ _ _ => inferInstanceAs (Decidable True)

/-- Whenever the step searches for a free cluster, it finds one of the clusters 2 to 255. -/
def SearchesFind (g : DiskInfo) (s s' : FileState) : Prop := ∀ ev ∈ newEvents s s', ev.Finds g

instance {g : DiskInfo} {s s' : FileState} : Decidable (SearchesFind g s s') :=
  inferInstanceAs (Decidable (∀ ev ∈ newEvents s s', ev.Finds g))

/-- The searches of the step find free clusters, or there are free clusters for the bytes in the
first place. -/
def Supplied (fd : Fin fileLimit) (bs : List UInt8) (s s' : FileState) : Prop :=
  SearchesFind s.diskInfo s s' ∨
    (putBytes s.diskInfo bs (s.disk, s.fdtable fd)).isSome = true

/-- The step has written the bytes, as the descriptor writes them one after the other. -/
structure Wrote (fd : Fin fileLimit) (bs : List UInt8) (s s' : FileState) : Prop where
  coherent : s'.Coherent
  diskInfo : s'.diskInfo = s.diskInfo
  put : putBytes s.diskInfo bs (s.disk, s.fdtable fd) = some (s'.disk, s'.fdtable fd)

section

variable {M : Machine} {g : DiskInfo} {s s₁ s' : FileState} {fd : Fin fileLimit} {c n : ℕ} {e : ℤ}
  {bs bs' : List UInt8}

/-- Where all searches of a step find a cluster, those of its first part do. -/
theorem SearchesFind.left (h : SearchesFind g s s') (h₁ : s.trace <:+ s₁.trace)
    (h₂ : s₁.trace <:+ s'.trace) : SearchesFind g s s₁ :=
  fun ev hin => h ev (mem_newEvents_left h₁ h₂ hin)

/-- Where all searches of a step find a cluster, those of its second part do. -/
theorem SearchesFind.right (h : SearchesFind g s s') (h₁ : s.trace <:+ s₁.trace)
    (h₂ : s₁.trace <:+ s'.trace) : SearchesFind g s₁ s' :=
  fun ev hin => h ev (mem_newEvents_right h₁ h₂ hin)

/-- Two steps that write one after the other write their bytes one after the other. -/
theorem Wrote.trans (h₁ : Wrote fd bs s s₁) (h₂ : Wrote fd bs' s₁ s') :
    Wrote fd (bs ++ bs') s s' := by
  refine ⟨h₂.coherent, h₂.diskInfo.trans h₁.diskInfo, ?_⟩
  rw [putBytes_append, h₁.put, Option.bind_some, ← h₁.diskInfo, h₂.put]

/-- What is supplied for a step is supplied for its first part. -/
theorem Supplied.left (h : Supplied fd (bs ++ bs') s s') (h₁ : s.trace <:+ s₁.trace)
    (h₂ : s₁.trace <:+ s'.trace) : Supplied fd bs s s₁ := by
  refine h.imp (fun h => h.left h₁ h₂) fun h => ?_
  rw [putBytes_append] at h
  exact Option.isSome_of_isSome_bind h

/-- What is supplied for a step is supplied for its second part, once the first one has written. -/
theorem Supplied.right (h : Supplied fd (bs ++ bs') s s') (hw : Wrote fd bs s s₁)
    (h₁ : s.trace <:+ s₁.trace) (h₂ : s₁.trace <:+ s'.trace) : Supplied fd bs' s₁ s' := by
  unfold Supplied
  rw [hw.diskInfo]
  refine h.imp (fun h => h.right h₁ h₂) fun h => ?_
  rwa [putBytes_append, hw.put, Option.bind_some] at h

/-! ## The search -/

/-- The search answers with the lowest free cluster when there is one. -/
theorem freeCluster_eq_lowestFree (hs : s.Coherent) (hbps : s.diskInfo.bytesPerSector = 512)
    (h : lowestFree s.diskInfo s.disk ≠ 0) : freeCluster s = lowestFree s.diskInfo s.disk := by
  unfold lowestFree at h ⊢
  split_ifs at h ⊢ with hroot hfree
  · rw [freeCluster_of_root hs hbps hroot, if_pos hfree]
  · exact absurd rfl h
  · cases hcs : freeClusters s.diskInfo s.disk with
    | nil =>
      rw [hcs] at h
      exact absurd rfl h
    | cons c cs =>
      have hmem : c ∈ freeClusters s.diskInfo s.disk := hcs ▸ List.mem_cons_self
      obtain ⟨hlt, h2, hfree⟩ := mem_freeClusters.mp hmem
      rw [List.headD_cons]
      refine freeCluster_eq_first hs hbps hroot h2 hlt ?_ fun b hb hbc hb0 => ?_
      · rw [← fatEntry_of_lt hlt]
        exact hfree
      · -- a smaller free cluster would stand in front of it
        have hb' : b ∈ freeClusters s.diskInfo s.disk := mem_freeClusters.mpr ⟨by omega, hb, by
          rw [fatEntry_of_lt (by omega)]
          exact hb0⟩
        have hsorted : (freeClusters s.diskInfo s.disk).Pairwise (· < ·) :=
          List.pairwise_lt_range.filter _
        rw [hcs] at hb' hsorted
        rcases List.mem_cons.mp hb' with rfl | hin
        · exact lt_irrefl _ hbc
        · exact lt_asymm hbc (List.rel_of_pairwise_cons hsorted hin)

/-- A search that answers with one of the first free clusters answers with the lowest one. -/
theorem lowestFree_eq_freeCluster (hs : s.Coherent) (hbps : s.diskInfo.bytesPerSector = 512)
    (h2 : 2 ≤ freeCluster s) (hlt : freeCluster s < 256)
    (hfree : fatEntry s.diskInfo s.disk (freeCluster s) = clusterFree) :
    lowestFree s.diskInfo s.disk = freeCluster s := by
  refine (freeCluster_eq_lowestFree hs hbps ?_).symm
  unfold lowestFree
  split_ifs with hroot h0
  · decide
  · rw [freeCluster_of_root hs hbps hroot, if_neg h0] at h2
    omega
  · have hmem : freeCluster s ∈ freeClusters s.diskInfo s.disk :=
      mem_freeClusters.mpr ⟨hlt, h2, hfree⟩
    cases hcs : freeClusters s.diskInfo s.disk with
    | nil =>
      rw [hcs] at hmem
      exact absurd hmem List.not_mem_nil
    | cons c cs =>
      have hc : c ∈ freeClusters s.diskInfo s.disk := hcs ▸ List.mem_cons_self
      have := (mem_freeClusters.mp hc).2.1
      rw [List.headD_cons]
      omega

/-! ## Sector writes -/

/-- Getting to the next sector.

**Proof sketch.** By cases on the way to the next sector: within the cluster, along the link, or
into a cluster that is allocated. In the last case the search finds the lowest free cluster
(`lowestFree_eq_freeCluster`); that the disk is full contradicts either form of `hfind`. -/
theorem NextSector.entered (hs : s.Coherent) (hbps : s.diskInfo.bytesPerSector = 512)
    (h : NextSector s fd e s') (hfind : SearchesFind s.diskInfo s s' ∨
      (enterNext s.diskInfo s.disk (s.fdtable fd)).isSome = true) :
    e = 0 ∧ s'.Coherent ∧ s'.diskInfo = s.diskInfo ∧
      enterNext s.diskInfo s.disk (s.fdtable fd) = some (s'.disk, s'.fdtable fd) := by
  cases h with
  | inCluster hsector =>
    refine ⟨rfl, hs, rfl, ?_⟩
    rw [enterNext, if_neg hsector]
  | linked hsector hnext hne j =>
    rw [tempWord_linkOf hbps] at hnext
    subst hnext
    refine ⟨rfl, FileState.coherent_cached.setFd, rfl, ?_⟩
    rw [enterNext, if_pos hsector, if_neg hne, FileState.setFd_fdtable_self]
    rfl
  | full hsector hnext hfree j =>
    exfalso
    rw [tempWord_linkOf hbps] at hnext
    rcases hfind with hfind | hsome
    · have := (hfind (.search s.disk 0) (mem_newEvents_singleton rfl)).1
      omega
    · rw [enterNext, if_pos hsector, if_pos hnext] at hsome
      split_ifs at hsome with h0
      · exact absurd hsome (by decide)
      · rw [← freeCluster_eq_lowestFree (M := M) hs hbps h0, hfree] at h0
        exact h0 rfl
  | @allocated c hsector hnext hc h0 =>
    rw [tempWord_linkOf hbps] at hnext
    have hlowest : lowestFree s.diskInfo s.disk = c := by
      rcases hfind with hfind | hsome
      · obtain ⟨h2, hlt, hfree⟩ := hfind (.search s.disk c) (mem_newEvents_singleton rfl)
        rw [hc] at h2 hlt hfree ⊢
        exact lowestFree_eq_freeCluster hs hbps h2 hlt hfree
      · rw [enterNext, if_pos hsector, if_pos hnext] at hsome
        split_ifs at hsome with hzero
        · exact absurd hsome (by decide)
        · rw [hc, freeCluster_eq_lowestFree hs hbps hzero]
    refine ⟨rfl, FileState.coherent_link.setFd, rfl, ?_⟩
    rw [enterNext, if_pos hsector, if_pos hnext, hlowest, if_neg h0, FileState.setFd_fdtable_self]
    rfl

/-- **One sector write** does not fail, and writes the bytes one after the other.

**Proof sketch.** By cases on the sector write. Within the sector the bytes are put one behind the
other (`putBytes_chunk`). At its end the driver goes on to the same sector as the abstract write
(`NextSector.entered`). -/
theorem fileWritesector_wrote (hs : s.Coherent) (hbps : s.diskInfo.bytesPerSector = 512)
    (hfile : Positioned (s.fdtable fd))
    (hle : (s.fdtable fd).fposWithinSector + bs.length ≤ 512)
    (hw : fileWritesector s bs (s.fdtable fd).fposWithinSector fd = (e, s'))
    (hfind : Supplied fd bs s s') : e = 0 ∧ Wrote fd bs s s' := by
  have hcases : WriteSector s fd bs (s.fdtable fd).fposWithinSector
      (fileWritesector s bs (s.fdtable fd).fposWithinSector fd).1
      (fileWritesector s bs (s.fdtable fd).fposWithinSector fd).2 := fileWritesector_cases hs
  rw [hw] at hcases
  have hput := putBytes_chunk (g := s.diskInfo) (x := (s.disk, s.fdtable fd)) hfile hle
  unfold Supplied at hfind
  rw [hput] at hfind
  simp only at hcases
  cases hcases with
  | refused hlt => omega
  | inSector _ hpos =>
    refine ⟨rfl, FileState.coherent_written, rfl, ?_⟩
    rw [hput, putChunk, FileState.written_fdtable_self]
    rw [hbps] at hpos
    exact if_neg hpos
  | next _ hpos hnext =>
    rw [hbps] at hpos
    have hchunk : putChunk s.diskInfo bs (s.disk, s.fdtable fd) =
        enterNext s.diskInfo (s.written fd bs (s.fdtable fd).fposWithinSector).disk
          ((s.fdtable fd).grow bs.length).atSectorStart.nextSector := if_pos hpos
    have hentered := hnext.entered (M := M) FileState.coherent_written.setFd hbps
    rw [FileState.setFd_fdtable_self] at hentered
    obtain ⟨he, hs', hinfo, hplace⟩ := hentered (hfind.imp
      (fun hfind => hfind.right (List.suffix_cons _ _) hnext.trace_suffix)
      fun hsome => by rwa [hchunk] at hsome)
    exact ⟨he, hs', hinfo, by rw [hput, hchunk]; exact hplace⟩

/-- A sector write keeps the counters in their ranges. -/
theorem fileWritesector_positioned (hs : s.Coherent) (hbps : s.diskInfo.bytesPerSector = 512)
    (hle : (s.fdtable fd).fposWithinSector + bs.length ≤ 512)
    (hw : fileWritesector s bs (s.fdtable fd).fposWithinSector fd = (e, s')) :
    Positioned (s'.fdtable fd) := by
  obtain ⟨b, k, hfile⟩ := fileWritesector_file hs hbps hle hw
  rw [hfile]
  exact ⟨Nat.mod_lt _ (by decide), Nat.mod_lt _ (by decide), Nat.mod_lt _ (by decide)⟩

/-- What a sector write keeps. -/
theorem fileWritesector_keeps {off : ℕ} (hs : s.Coherent)
    (hw : fileWritesector s bs off fd = (e, s')) :
    s'.Coherent ∧ s'.diskInfo = s.diskInfo ∧ s.trace <:+ s'.trace := by
  have hcoherent : (fileWritesector s bs off fd).2.Coherent := fileWritesector_coherent hs
  have hmoves : Moves fd s (fileWritesector s bs off fd).2 := fileWritesector_moves
  rw [hw] at hcoherent hmoves
  exact ⟨hcoherent, hmoves.frame.diskInfo, hmoves.frame.trace⟩

namespace WriteChunks

/-- Sector writes keep the counters in their ranges. -/
theorem positioned (h : WriteChunks fd s bs e s') (hs : s.Coherent)
    (hbps : s.diskInfo.bytesPerSector = 512) (hfile : Positioned (s.fdtable fd)) :
    Positioned (s'.fdtable fd) := by
  induction h with
  | nil => exact hfile
  | chunk hle _ hw _ ih =>
    obtain ⟨hs₁, hinfo, -⟩ := fileWritesector_keeps hs hw
    exact ih hs₁ (hinfo ▸ hbps) (fileWritesector_positioned hs hbps hle hw)
  | stop hle hw _ => exact fileWritesector_positioned hs hbps hle hw

/-- **Sector writes one after the other** do not fail, and write the bytes one after the other.

**Proof sketch.** Induction on the sequence; each sector write is `fileWritesector_wrote`. -/
theorem wrote (h : WriteChunks fd s bs e s') (hs : s.Coherent)
    (hbps : s.diskInfo.bytesPerSector = 512) (hfile : Positioned (s.fdtable fd))
    (hfind : Supplied fd bs s s') : e = 0 ∧ Wrote fd bs s s' := by
  induction h with
  | nil => exact ⟨rfl, hs, rfl, rfl⟩
  | chunk hle _ hw hrest ih =>
    obtain ⟨hs₁, hinfo, htrace⟩ := fileWritesector_keeps hs hw
    obtain ⟨-, hfirst⟩ := fileWritesector_wrote hs hbps hfile hle hw
      (hfind.left htrace hrest.trace_suffix)
    obtain ⟨he, hsecond⟩ := ih hs₁ (hinfo ▸ hbps) (fileWritesector_positioned hs hbps hle hw)
      (hfind.right hfirst htrace hrest.trace_suffix)
    exact ⟨he, hfirst.trans hsecond⟩
  | stop hle hw he =>
    obtain ⟨-, -, htrace⟩ := fileWritesector_keeps hs hw
    exact absurd (fileWritesector_wrote hs hbps hfile hle hw
      (hfind.left htrace (List.suffix_refl _))).1 he

end WriteChunks

/-- A state in which a descriptor writes: the cache is coherent, the sectors have 512 bytes, and the
counters of the descriptor, which is open for writing, are in their ranges. -/
structure FileState.Writes (s : FileState) (fd : Fin fileLimit) : Prop where
  coherent : s.Coherent
  bytesPerSector : s.diskInfo.bytesPerSector = 512
  mode : (s.fdtable fd).mode = fmodeWrite
  positioned : Positioned (s.fdtable fd)

/-- Behind a write the descriptor still writes. -/
theorem FileState.Writes.behind (h : s.Writes fd) : (fileWrite s bs fd).2.Writes fd := by
  obtain ⟨e, hchunks, -⟩ := fileWrite_chunks (M := M) bs h.coherent h.bytesPerSector h.mode
    h.positioned.within
  have hmoves : Moves fd s (fileWrite s bs fd).2 := fileWrite_moves_self
  exact ⟨fileWrite_coherent h.coherent, hmoves.frame.diskInfo ▸ h.bytesPerSector,
    hmoves.same.mode.trans h.mode, hchunks.positioned h.coherent h.bytesPerSector h.positioned⟩

/-- **One write** returns the number of its bytes, and writes them one after the other. -/
theorem FileState.Writes.write (h : s.Writes fd) (hfind : Supplied fd bs s (fileWrite s bs fd).2) :
    (fileWrite s bs fd).1 = bs.length ∧ Wrote fd bs s (fileWrite s bs fd).2 := by
  obtain ⟨e, hchunks, hcount⟩ := fileWrite_chunks (M := M) bs h.coherent h.bytesPerSector
    h.mode h.positioned.within
  obtain ⟨he, hwrote⟩ := hchunks.wrote h.coherent h.bytesPerSector h.positioned hfind
  exact ⟨hcount he, hwrote⟩

end

/-! ## Reachable states -/

/-- The call opens a file or writes to one. -/
def FileCall.OpensOrWrites : FileCall → Prop
  | .open .. | .write .. => True
  | _ => False

/-- The counters of a descriptor that is open for writing are in their ranges. -/
def Settled (fd : Fin fileLimit) (s : FileState) : Prop :=
  (s.fdtable fd).mode = fmodeWrite → Positioned (s.fdtable fd)

section

variable {M : Machine} {s s' : FileState} {fd : Fin fileLimit} {a : FileCall} {r : FileAnswer}
  {calls : List FileCall} {answers : List FileAnswer}

/-- Opening returns a descriptor at the start of its file, which is empty when it is to be written,
or gives a descriptor a name and flags.

**Proof sketch.** If another descriptor is assigned, this one is not written. If this one is, then
by cases on the way the call ends: a failure and a bad mode release the descriptor, with the name
and new flags; a success starts it with the entry, which is new and empty when it is to be
written. -/
theorem fileOpen_descriptor (fd : Fin fileLimit) {filename : List UInt8} {mode : UInt8}
    {r : Except FileError (Fin fileLimit)} (h : fileOpen s filename mode = some (r, s')) :
    (r ≠ .ok fd ∧
      ∃ name flags, s'.fdtable fd = { s.fdtable fd with name := name, flags := flags }) ∨
      r = .ok fd ∧ ∃ file entry, s'.fdtable fd = FileDescriptor.start file entry mode ∧
        (mode = fmodeWrite → entry.size = 0) := by
  by_cases hfd : filesystemAssignFd s = some fd
  · have hnamed : (s.named fd filename).fdtable fd =
        { s.fdtable fd with name := filenameUpper filename } := FileState.setFd_fdtable_self
    cases fileOpen_cases h with
    | noFd hno => exact absurd (hno.symm.trans hfd) (by simp)
    | @readError fd₁ e s₁ hfd₁ hmode hopen =>
      obtain rfl : fd₁ = fd := Option.some.inj (hfd₁.symm.trans hfd)
      have hframe : Frame ∅ (s.named fd₁ filename) s₁ := by
        cases fileOpenRead_cases hopen with
        | missing hget => exact filesystemGetDirectoryEntry_frame hget
      refine .inl ⟨by simp, filenameUpper filename, (s.fdtable fd₁).flags &&& ~~~fdFlagsClaimed, ?_⟩
      rw [FileState.release, FileState.setFd_fdtable_self, hframe.fdtable_eq, hnamed]
      rfl
    | @read fd₁ s₁ hfd₁ hmode hopen =>
      obtain rfl : fd₁ = fd := Option.some.inj (hfd₁.symm.trans hfd)
      refine .inr ⟨rfl, ?_⟩
      cases fileOpenRead_cases hopen with
      | opened =>
        exact ⟨_, _, by rw [FileState.setFd_fdtable_self, hmode], fun hw => absurd
          (hmode.symm.trans hw) (by decide)⟩
    | @writeError fd₁ e s₁ hfd₁ hmode hopen =>
      obtain rfl : fd₁ = fd := Option.some.inj (hfd₁.symm.trans hfd)
      have hframe : Frame ∅ (s.named fd₁ filename) s₁ := fileOpenWrite_error_frame hopen
      refine .inl ⟨by simp, filenameUpper filename, (s.fdtable fd₁).flags &&& ~~~fdFlagsClaimed, ?_⟩
      rw [FileState.release, FileState.setFd_fdtable_self, hframe.fdtable_eq, hnamed]
      rfl
    | @write fd₁ s₁ hfd₁ hmode hopen =>
      obtain rfl : fd₁ = fd := Option.some.inj (hfd₁.symm.trans hfd)
      refine .inr ⟨rfl, ?_⟩
      cases fileOpenWrite_cases hopen with
      | created => exact ⟨_, _, by rw [FileState.setFd_fdtable_self, hmode], fun _ => rfl⟩
    | @badMode fd₁ hfd₁ =>
      obtain rfl : fd₁ = fd := Option.some.inj (hfd₁.symm.trans hfd)
      exact .inl ⟨by simp, _, (s.fdtable fd₁).flags, hnamed⟩
  · exact .inl ⟨fun hr => hfd (fileOpen_assigned (hr ▸ h)), (s.fdtable fd).name,
      (s.fdtable fd).flags, (fileOpen_frame h).fdtable fd hfd⟩

/-- A call that opens or writes keeps the counters in their ranges, and a successful opening sets
them.

**Proof sketch.** Opening starts the descriptor with its counters at zero, or leaves them as they
are (`fileOpen_descriptor`). A write through this descriptor moves it by what is written
(`FileState.Writes.behind`), and one through another descriptor leaves it alone. -/
theorem call_settled (fd : Fin fileLimit) (ha : a.OpensOrWrites) (hs : s.Coherent)
    (hbps : s.diskInfo.bytesPerSector = 512) (h : call s a = some (r, s'))
    (hset : Settled fd s ∨ r = .open (.ok fd)) : Settled fd s' := by
  cases a with
  | «open» filename mode =>
    simp only [call, Option.map_eq_some_iff, Prod.mk.injEq] at h
    obtain ⟨⟨r', s₁⟩, hopen, rfl, rfl⟩ := h
    intro hmode
    simp only at hset hmode ⊢
    rcases fileOpen_descriptor fd hopen with ⟨hr, name, flags, hfile⟩ |
      ⟨-, file, entry, hfile, hempty⟩
    · have hset := hset.resolve_right fun h => hr (by simpa using h)
      rw [hfile] at hmode ⊢
      exact ⟨(hset hmode).within, (hset hmode).fpos, (hset hmode).size⟩
    · rw [hfile] at hmode ⊢
      have hsize : (file.start entry mode).size = 0 := hempty hmode
      refine ⟨?_, ?_, ?_⟩
      · exact Nat.zero_lt_succ _
      · exact Nat.zero_lt_succ _
      · rw [hsize]
        exact Nat.zero_lt_succ _
  | write data i =>
    simp only [call, Option.some.injEq, Prod.mk.injEq] at h
    obtain ⟨rfl, rfl⟩ := h
    have hset := hset.resolve_right (by simp)
    intro hmode
    by_cases hfd : descriptor? i = some fd
    · have hi : fileWrite s data i = fileWrite s data fd := by
        unfold fileWrite
        rw [hfd, descriptor?_cast]
      have hmoves : Moves fd s (fileWrite s data fd).2 := fileWrite_moves_self
      rw [hi] at hmode ⊢
      have hbefore : (s.fdtable fd).mode = fmodeWrite := hmoves.same.mode.symm.trans hmode
      have hwrites : s.Writes fd := ⟨hs, hbps, hbefore, hset hbefore⟩
      exact hwrites.behind.positioned
    · rw [fileWrite_frame.fdtable fd hfd] at hmode ⊢
      exact hset hmode
  | _ => exact ha.elim

/-- After a run of openings and writes that has returned the descriptor, its counters are in their
ranges.

**Proof sketch.** Induction on the run. Before the descriptor is returned nothing is known of it,
and from then on every call keeps the counters in their ranges. -/
theorem run_settled (hs : s.Coherent) (hbps : s.diskInfo.bytesPerSector = 512)
    (hrun : Run.exec call s calls = some (answers, s')) (hcalls : ∀ a ∈ calls, a.OpensOrWrites)
    (hset : Settled fd s ∨ .open (.ok fd) ∈ answers) : Settled fd s' := by
  induction calls generalizing s answers with
  | nil =>
    simp only [Run.exec_nil, Option.some.injEq, Prod.mk.injEq] at hrun
    obtain ⟨rfl, rfl⟩ := hrun
    exact hset.resolve_right List.not_mem_nil
  | cons a calls ih =>
    obtain ⟨r, answers', s₁, hcall, hrest, rfl⟩ := Run.exec_cons_eq_some hrun
    have hstep := call_settled fd (hcalls a List.mem_cons_self) hs hbps hcall
    refine ih (call_coherent hs hcall) ((call_frame hcall).diskInfo ▸ hbps) hrest
      (fun b hb => hcalls b (List.mem_cons_of_mem _ hb)) ?_
    rcases hset with hset | hin
    · exact .inl (hstep (.inl hset))
    · rcases List.mem_cons.mp hin with hr | hin
      · exact .inl (hstep (.inr hr.symm))
      · exact .inr hin

/-- **Splitting a write.** In every state that openings and writes reach, for a descriptor that has
been returned and is open for writing: when every search for a free cluster finds one of the
clusters 2 to 255, be it in one write or in two, then writing some bytes and writing others behind
them leaves the same disk and the same descriptors, and returns the same count, as writing them all
at once.

**Proof sketch.** Each write puts its bytes one after the other, so both ways put the same bytes. -/
theorem fileWrite_split {s₀ : FileState} {xs ys : List UInt8}
    (hrun : Run.exec call (filesystemInit s₀) calls = some (answers, s))
    (hcalls : ∀ a ∈ calls, a.OpensOrWrites) (h512 : (s₀.disk 0).word 0x0b = 512)
    (hopen : .open (.ok fd) ∈ answers) (hmode : (s.fdtable fd).mode = fmodeWrite) :
    let whole := fileWrite s (xs ++ ys) fd
    let first := fileWrite s xs fd
    let second := fileWrite first.2 ys fd
    SearchesFind s.diskInfo s whole.2 ∨
        SearchesFind s.diskInfo s first.2 ∧ SearchesFind s.diskInfo first.2 second.2 →
      whole.2.disk = second.2.disk ∧ whole.2.fdtable = second.2.fdtable ∧
        whole.1 = first.1 + second.1 := by
  intro whole first second hfind
  obtain ⟨hs, hinfo⟩ := run_sound hrun
  have hbps : s.diskInfo.bytesPerSector = 512 := by rw [hinfo]; exact h512
  have hsettled : Settled fd s :=
    run_settled filesystemInit_coherent h512 hrun hcalls (.inr hopen)
  have hwrites : s.Writes fd := ⟨hs.coherent, hbps, hmode, hsettled hmode⟩
  have hfirst : Supplied fd xs s first.2 → first.1 = xs.length ∧ Wrote fd xs s first.2 :=
    hwrites.write
  have hsecond : Supplied fd ys first.2 second.2 →
      second.1 = ys.length ∧ Wrote fd ys first.2 second.2 := hwrites.behind.write
  have hwhole : Supplied fd (xs ++ ys) s whole.2 →
      whole.1 = (xs ++ ys).length ∧ Wrote fd (xs ++ ys) s whole.2 := hwrites.write
  -- the bytes can be put, however the searches are known to succeed
  obtain ⟨y, hput⟩ : ∃ y, putBytes s.diskInfo (xs ++ ys) (s.disk, s.fdtable fd) = some y := by
    rcases hfind with hfind | ⟨hfind₁, hfind₂⟩
    · exact ⟨_, (hwhole (.inl hfind)).2.put⟩
    · have hwrote := (hfirst (.inl hfind₁)).2
      rw [← hwrote.diskInfo] at hfind₂
      exact ⟨_, (hwrote.trans (hsecond (.inl hfind₂)).2).put⟩
  have hput₁ : (putBytes s.diskInfo xs (s.disk, s.fdtable fd)).isSome = true := by
    rw [putBytes_append] at hput
    exact Option.isSome_of_isSome_bind (Option.isSome_of_eq_some hput)
  obtain ⟨hcount₁, hwrote₁⟩ := hfirst (.inr hput₁)
  have hput₂ : (putBytes first.2.diskInfo ys (first.2.disk, first.2.fdtable fd)).isSome = true := by
    rw [putBytes_append, hwrote₁.put, Option.bind_some, ← hwrote₁.diskInfo] at hput
    exact Option.isSome_of_eq_some hput
  obtain ⟨hcount₂, hwrote₂⟩ := hsecond (.inr hput₂)
  obtain ⟨hcount, hwrote⟩ := hwhole (.inr (Option.isSome_of_eq_some hput))
  have hsame := Option.some.inj (hwrote.put.symm.trans (hwrote₁.trans hwrote₂).put)
  rw [Prod.mk.injEq] at hsame
  refine ⟨hsame.1, funext fun fd' => ?_, ?_⟩
  · by_cases hfd : fd' = fd
    · rw [hfd]
      exact hsame.2
    · have hkeep : ∀ {t bs}, (fileWrite t bs fd).2.fdtable fd' = t.fdtable fd' :=
        fun {t bs} => fileWrite_moves_self.frame.fdtable fd' hfd
      show (fileWrite s (xs ++ ys) fd).2.fdtable fd' = _
      rw [hkeep, hkeep, hkeep]
  · rw [hcount, hcount₁, hcount₂, List.length_append]

end

/-! ## A small disk -/

section

attribute [local instance] Machine.linked

/-- The bytes of two writes, the second of which goes over the end of a cluster. -/
def firstBytes : List UInt8 := List.replicate 300 0x41

/-- More bytes than a sector has, all different from those in front. -/
def secondBytes : List UInt8 := List.replicate 700 0x42

/-- Two writes to a new file, or one. -/
theorem fileWrite_split_small :
    ∃ s, (fileOpen smallState nameAB fmodeWrite).map Prod.snd = some s ∧
      (fileWrite s (firstBytes ++ secondBytes) 0).2.disk =
        (fileWrite (fileWrite s firstBytes 0).2 secondBytes 0).2.disk := by
  have h : (fileOpen smallState nameAB fmodeWrite).map (fun r =>
      (r.1.toOption, decide ((r.2.fdtable firstFd).mode = fmodeWrite),
        decide (SearchesFind r.2.diskInfo r.2
          (fileWrite r.2 (firstBytes ++ secondBytes) firstFd).2))) =
      some (some firstFd, true, true) := by
    decide +kernel
  obtain ⟨⟨r, s⟩, hopen, h⟩ := Option.map_eq_some_iff.mp h
  simp only [Prod.mk.injEq, decide_eq_true_eq] at h
  obtain ⟨hr, hmode, hfind⟩ := h
  have hr : r = .ok firstFd := by
    cases r with
    | error => simp [Except.toOption] at hr
    | ok fd => simpa [Except.toOption] using hr
  subst hr
  refine ⟨s, by rw [hopen]; rfl, ?_⟩
  have hcall : Run.exec call (filesystemInit (.zeroed (formattedDisk 1 1 1)))
      [.open nameAB fmodeWrite] = some ([.open (.ok firstFd)], s) := by
    have hstep : call smallState (.open nameAB fmodeWrite) = some (.open (.ok firstFd), s) := by
      rw [call, hopen]
      rfl
    exact Run.exec_cons_of_some hstep
  exact (fileWrite_split hcall (by simp [FileCall.OpensOrWrites]) (by decide +kernel)
    (List.mem_singleton_self _) hmode (.inl hfind)).1

end

end Z80OS
