import Z80OS.File.Outgrown

set_option relaxedAutoImplicit false
set_option autoImplicit false

/-!
# Where a sector write leads

A descriptor in its file writes into the sector in which the contents end. This file lists where it
stands afterwards: in the same cluster or in the next one of the chain, in a cluster that has been
appended, in one that does not continue the chain, or behind the last one.

## Main definitions

* `Z80OS.Continues` — a cluster that the chain can be continued with.
* `Z80OS.Overruns` — the search goes on behind the first sector of the FAT.
* `Z80OS.Advances` — the ways in which a sector write ends.

## Main results

* `Z80OS.AtBoundary.next` — behind a sector that has been filled.
* `Z80OS.InFile.step` — what a sector write does.
-/

namespace Z80OS

/-- The chain can be continued with the cluster. -/
structure Continues (g : DiskInfo) (l : List ℕ) (c : ℕ) : Prop where
  usable : Usable g c
  notMem : c ∉ l

/-- The descriptor has filled a sector and stands behind it. -/
structure AtBoundary (g : DiskInfo) (fd : Fin fileLimit) (l : List ℕ) (data : List UInt8) (a : ℕ)
    (s : FileState) : Prop extends Writer g fd l data s where
  length : data.length = 512 * (a + 1)
  inside : a / g.sectorsPerCluster < l.length
  cluster : (s.fdtable fd).currentCluster = l.getD (a / g.sectorsPerCluster) 0
  sector : (s.fdtable fd).sector = a % g.sectorsPerCluster + 1

/-- The search goes on behind the first sector of the FAT and answers with the cluster, in a state
with the same upper sectors. -/
structure Overruns [Machine] (g : DiskInfo) (s : FileState) (c : ℕ) : Prop where
  none : freeClusters g s.disk = []
  answer : ∃ s₀ : FileState, s₀.Coherent ∧ s₀.diskInfo = g ∧ SameUpper g s.disk s₀.disk ∧
    c = behindFirst s₀

/-- The ways in which a sector write of a descriptor in its file ends, with `data` the contents
behind it. -/
inductive Advances [Machine] (g : DiskInfo) (fd : Fin fileLimit) (l : List ℕ) (data : List UInt8)
    (s s₁ : FileState) : ℤ → Prop
  | inside (h : InFile g fd l data s₁) (hfree : freeClusters g s₁.disk = freeClusters g s.disk)
      (hupper : SameUpper g s.disk s₁.disk) : Advances g fd l data s s₁ 0
  | low {c} (hfull : l.length ≤ data.length / 512 / g.sectorsPerCluster)
      (hc : c ∈ freeClusters g s.disk) (h : InFile g fd (l ++ [c]) data s₁)
      (hlen : (freeClusters g s₁.disk).length + 1 = (freeClusters g s.disk).length)
      (hfree : ∀ x, x ∈ freeClusters g s₁.disk ↔ x ∈ freeClusters g s.disk ∧ x ≠ c)
      (hupper : SameUpper g s.disk s₁.disk) : Advances g fd l data s s₁ 0
  | high {c} (hfull : l.length ≤ data.length / 512 / g.sectorsPerCluster) (hc : Overruns g s c)
      (hgood : Continues g l c) (h : InFile g fd (l ++ [c]) data s₁)
      (hnone : freeClusters g s₁.disk = []) : Advances g fd l data s s₁ 0
  | lost {c} (hfull : l.length ≤ data.length / 512 / g.sectorsPerCluster) (hc : Overruns g s c)
      (hbad : ¬ Continues g l c) (h : Outgrown g fd s₁) : Advances g fd l data s s₁ 0
  | full {e} (hfull : l.length ≤ data.length / 512 / g.sectorsPerCluster) (hc : Overruns g s 0)
      (he : e ≠ 0) (hsize : (s₁.fdtable fd).size = data.length) : Advances g fd l data s s₁ e

section

variable {M : Machine} {g : DiskInfo} {fd : Fin fileLimit} {l l' : List ℕ}
  {data bs c : List UInt8} {s s' s₁ t : FileState} {e : ℤ} {a b k : ℕ}

/-- A descriptor that has been moved to another sector still writes the file. -/
theorem Writer.moved (h : Writer g fd l data s) (hs : s₁.Coherent) (hi : s₁.diskInfo = g)
    (hcontents : FileContents g s₁.disk (s.fdtable fd).startCluster l' data)
    (hfd : s₁.fdtable fd = { s.fdtable fd with currentCluster := b, sector := k }) :
    Writer g fd l' data s₁ := by
  refine ⟨hs, hi, ?_, ?_, ?_, ?_, ?_⟩
  all_goals rw [hfd]
  · exact hcontents
  · exact h.mode
  · exact h.size
  · exact h.fpos
  · exact h.within

/-- The descriptor is positioned in the sector in which the contents end. -/
theorem InFile.sectorNumber (hg : Geometry g) (h : InFile g fd l data s) :
    (s.fdtable fd).sectorNumber s.diskInfo = dataSector g l (data.length / 512) := by
  have hlt : (s.fdtable fd).sector < 256 := by
    have := Nat.mod_lt (data.length / 512) hg.spc_pos
    have := hg.spc_le
    rw [h.sector]
    omega
  have hmem : (s.fdtable fd).currentCluster ∈ l := by
    rw [h.cluster, List.getD_eq_getElem _ _ h.inside]
    exact List.getElem_mem h.inside
  rw [h.diskInfo, sectorNumber_eq hg (h.contents.usable _ hmem) hlt, h.cluster,
    h.sector, dataSector]

/-- The contents after bytes have been written into the current sector. -/
theorem InFile.written_contents (hg : Geometry g) (h : InFile g fd l data s)
    (hc : data.length % 512 + c.length ≤ 512) :
    FileContents g (s.written fd c (data.length % 512)).disk (s.fdtable fd).startCluster l
      (data ++ c) := by
  have hroom : data.length / 512 < g.sectorsPerCluster * l.length := by
    have := h.inside
    rwa [Nat.div_lt_iff_lt_mul hg.spc_pos, mul_comm] at this
  rw [FileState.written_disk, h.sectorNumber hg]
  exact h.contents.write hg hroom hc

/-- A data sector that is written does not change the FAT. -/
theorem freeClusters_written (hg : Geometry g) (hi : s.diskInfo = g)
    (hs : (s.fdtable fd).sector < 256) :
    freeClusters g (s.written fd c k).disk = freeClusters g s.disk := by
  refine freeClusters_congr fun x hx => ?_
  have := hg.fat_lt
  have := hg.root_lt
  have := sectorNumber_ge hg hs
  rw [FileState.written_disk, hi, fatEntry_of_lt hx, fatEntry_of_lt hx,
    Function.update_of_ne (by omega)]

/-- Bytes written to a sector of a file leave the upper sectors of the FAT. -/
theorem sameUpper_written (hg : Geometry g) (hi : s.diskInfo = g)
    (hs : (s.fdtable fd).sector < 256) : SameUpper g s.disk (s.written fd c k).disk := by
  intro x _ hin
  rw [FileState.written_disk, hi, fatEntry_update_data hg (sectorNumber_ge hg hs) hin]

namespace AtBoundary

/-- The driver reads the word of the current cluster: the next cluster of the chain, or the end
mark. -/
theorem tempWord (hg : Geometry g) (h : AtBoundary g fd l data a s) :
    (s.cached (fatSectorOf s.diskInfo (s.fdtable fd).currentCluster)).tempWord
      (fatOffsetOf s.diskInfo (s.fdtable fd).currentCluster) =
        l.getD (a / g.sectorsPerCluster + 1) clusterEof := by
  have hmem : (s.fdtable fd).currentCluster ∈ l := by
    rw [h.cluster, List.getD_eq_getElem _ _ h.inside]
    exact List.getElem_mem h.inside
  have hu := h.contents.usable _ hmem
  have hword := h.contents.chain.getD_succ h.inside
  rw [List.getD_eq_getElem _ _ h.inside, ← List.getD_eq_getElem _ 0 h.inside, ← h.cluster] at hword
  rw [tempWord_fatEntry (h.diskInfo ▸ hg) (h.diskInfo ▸ hu.hasWord), h.diskInfo, hword]

/-- At the end of the chain the current cluster is the last one. -/
theorem last (h : AtBoundary g fd l data a s)
    (hend : l.getD (a / g.sectorsPerCluster + 1) clusterEof = clusterEof) :
    l.length = a / g.sectorsPerCluster + 1 ∧
      ∃ l₀, l₀.length = a / g.sectorsPerCluster ∧ l = l₀ ++ [(s.fdtable fd).currentCluster] := by
  have hin := h.inside
  have hlen : l.length = a / g.sectorsPerCluster + 1 := by
    by_contra hne
    have hlt : a / g.sectorsPerCluster + 1 < l.length := by omega
    rw [List.getD_eq_getElem _ _ hlt] at hend
    exact h.contents.chain.ne_eof (List.getElem_mem hlt) hend
  obtain ⟨l₀, hl₀, hl⟩ := eq_append_getD hlen
  exact ⟨hlen, l₀, hl₀, by rw [h.cluster]; exact hl⟩

/-- The descriptor goes on in another sector of the file. -/
theorem enter (h : AtBoundary g fd l data a s) (hs : s₁.Coherent) (hi : s₁.diskInfo = g)
    (hcontents : FileContents g s₁.disk (s.fdtable fd).startCluster l' data)
    (hfd : s₁.fdtable fd = { s.fdtable fd with currentCluster := b, sector := k })
    (hin : (a + 1) / g.sectorsPerCluster < l'.length)
    (hb : b = l'.getD ((a + 1) / g.sectorsPerCluster) 0) (hk : k = (a + 1) % g.sectorsPerCluster) :
    InFile g fd l' data s₁ := by
  have hdiv : data.length / 512 = a + 1 := by have := h.length; omega
  refine ⟨h.moved hs hi hcontents hfd, by rwa [hdiv], ?_, ?_⟩
  all_goals rw [hdiv, hfd]
  · exact hb
  · exact hk

/-- The disk after a cluster has been linked behind the current one. -/
theorem allocated_disk (hg : Geometry g) (h : AtBoundary g fd l data a s)
    (hmem : (s.fdtable fd).currentCluster ∈ l) (hb : Usable g b) :
    (((s.recordSearch b).link (s.fdtable fd).currentCluster b).link b clusterEof).disk =
      linked g (linked g s.disk (s.fdtable fd).currentCluster b) b clusterEof := by
  have hi := h.diskInfo
  have hu := h.contents.usable _ hmem
  rw [link_disk (s := (s.recordSearch b).link (s.fdtable fd).currentCluster b) (hi ▸ hg)
    (hi ▸ hb.hasWord), link_disk (s := s.recordSearch b) (hi ▸ hg) (hi ▸ hu.hasWord)]
  simp only [FileState.link_diskInfo, FileState.recordSearch_diskInfo, hi,
    FileState.recordSearch_disk]

/-- The descriptor goes on in a cluster that has been appended to the chain. -/
theorem allocate (hg : Geometry g) (h : AtBoundary g fd l data a s)
    (hend : l.getD (a / g.sectorsPerCluster + 1) clusterEof = clusterEof)
    (hsector : a % g.sectorsPerCluster + 1 = g.sectorsPerCluster) (hb : Continues g l b) :
    InFile g fd (l ++ [b]) data
      ((((s.recordSearch b).link (s.fdtable fd).currentCluster b).link b clusterEof).setFd fd
        ((s.fdtable fd).enterCluster b)) := by
  obtain ⟨hlen, l₀, -, hl⟩ := h.last hend
  obtain ⟨hdiv, hmod⟩ := succ_div_mod_of_eq hg.spc_pos hsector
  have hmem : (s.fdtable fd).currentCluster ∈ l := by rw [hl]; simp
  have hcontents := h.contents
  rw [hl] at hcontents
  have hextended := hcontents.extend hg hb.usable (hl ▸ hb.notMem)
  have hassoc : l₀ ++ [(s.fdtable fd).currentCluster, b] = l ++ [b] := by
    calc l₀ ++ [(s.fdtable fd).currentCluster, b]
        = (l₀ ++ [(s.fdtable fd).currentCluster]) ++ [b] := by simp
      _ = l ++ [b] := by rw [← hl]
  rw [hassoc] at hextended
  refine h.enter FileState.coherent_link.setFd h.diskInfo ?_ FileState.setFd_fdtable_self ?_ ?_ ?_
  · rw [FileState.setFd_disk, h.allocated_disk hg hmem hb.usable]
    exact hextended
  · rw [hdiv, List.length_append, ← hlen]
    exact Nat.lt_succ_self _
  · rw [hdiv, ← hlen, List.getD_append_right _ _ _ _ (le_refl _), Nat.sub_self]
    rfl
  · rw [hmod]

/-- The descriptor goes on in a cluster that the chain already has, or that the driver cannot use:
the file has outgrown its chain.

**Proof sketch.** A walk that goes on from the last cluster of the chain visits the whole chain, and
then a cluster that continues it. -/
theorem misled (hg : Geometry g) (h : AtBoundary g fd l data a s)
    (hend : l.getD (a / g.sectorsPerCluster + 1) clusterEof = clusterEof)
    (hsector : a % g.sectorsPerCluster + 1 = g.sectorsPerCluster) (hb : ¬ Continues g l b)
    (hlt : b < 65536) :
    Outgrown g fd
      ((((s.recordSearch b).link (s.fdtable fd).currentCluster b).link b clusterEof).setFd fd
        ((s.fdtable fd).enterCluster b)) := by
  obtain ⟨hlen, l₀, -, hl⟩ := h.last hend
  obtain ⟨hdiv, -⟩ := succ_div_mod_of_eq hg.spc_pos hsector
  have hmem : (s.fdtable fd).currentCluster ∈ l := by rw [hl]; simp
  have hfd : ((((s.recordSearch b).link (s.fdtable fd).currentCluster b).link b clusterEof).setFd fd
      ((s.fdtable fd).enterCluster b)).fdtable fd = (s.fdtable fd).enterCluster b :=
    FileState.setFd_fdtable_self
  have hmod : (s.fdtable fd).currentCluster % 32768 = (s.fdtable fd).currentCluster := by
    have := (h.contents.usable _ hmem).lt
    omega
  -- the contents fill the clusters of the chain
  have hfull : data.length = 512 * (g.sectorsPerCluster * l.length) := by
    have hsum := Nat.div_add_mod a g.sectorsPerCluster
    have hsucc : g.sectorsPerCluster * (a / g.sectorsPerCluster + 1) =
      g.sectorsPerCluster * (a / g.sectorsPerCluster) + g.sectorsPerCluster := Nat.mul_succ _ _
    rw [hlen, h.length]
    omega
  have hwithin : (s.fdtable fd).fposWithinSector = 0 := by
    rw [h.within, h.length, Nat.mul_mod_right]
  refine .of_enter hg FileState.coherent_link.setFd h.diskInfo (by rw [hfd]; rfl)
    (by rw [hfd]; exact hwithin) fun q hq => ?_
  have hle : q.length ≤ l.length := by
    rcases hq.of_link (s := s.recordSearch b) hg h.diskInfo hlt rfl (by rw [hfd]; rfl) with
      hold | ⟨m, rfl, hold⟩
    · exact (h.prefix_of_walk (hold.of_same rfl rfl)).length_le
    · rw [hmod] at hq hold
      have hpre := h.prefix_of_walk (hold.of_same rfl rfl)
      have hwhole : m ++ [(s.fdtable fd).currentCluster] = l := by
        rw [hl] at hpre ⊢
        refine (List.prefix_concat_iff.mp hpre).resolve_right fun hin => ?_
        have hnd := h.contents.nodup
        rw [hl, List.nodup_append] at hnd
        exact hnd.2.2 _ (hin.subset (by simp)) _ (List.mem_singleton_self _) rfl
      refine absurd ⟨hq.usable b (by simp), fun hin => ?_⟩ hb
      have hnd := hq.nodup
      rw [show m ++ [(s.fdtable fd).currentCluster, b] =
        (m ++ [(s.fdtable fd).currentCluster]) ++ [b] by simp, hwhole, List.nodup_append] at hnd
      exact hnd.2.2 _ hin _ (List.mem_singleton_self _) rfl
  rw [hfd, FileDescriptor.enterCluster_size, h.size, hfull]
  exact Nat.mul_le_mul_left _ (Nat.mul_le_mul_left _ hle)

/-- No cluster of the file is free. -/
theorem used (h : AtBoundary g fd l data a s) : ∀ x ∈ l, fatEntry g s.disk x ≠ clusterFree :=
  fun _ hx => h.contents.chain.next_ne (fun h0 => absurd (h.contents.two_le _ h0) (by decide))
    (by decide) hx

/-- The descriptor goes on in the cluster that the search has answered with.

**Proof sketch.** If no cluster is free the search answers from behind the FAT, with a cluster that
can be used or with one that misleads the file. Otherwise it answers with a free one, which is not
in the chain, and one cluster less is free afterwards (`length_freeClusters_link`). -/
theorem allocated (hg : Geometry g) (h : AtBoundary g fd l data a s)
    (hend : l.getD (a / g.sectorsPerCluster + 1) clusterEof = clusterEof)
    (hsector : a % g.sectorsPerCluster + 1 = g.sectorsPerCluster)
    (hfull : l.length ≤ data.length / 512 / g.sectorsPerCluster) (hb : b = freeCluster s) :
    Advances g fd l data s
      ((((s.recordSearch b).link (s.fdtable fd).currentCluster b).link b clusterEof).setFd fd
        ((s.fdtable fd).enterCluster b)) 0 := by
  have hmem : (s.fdtable fd).currentCluster ∈ l := by
    obtain ⟨-, l₀, -, hl⟩ := h.last hend
    rw [hl]
    simp
  by_cases hnone : freeClusters g s.disk = []
  · have hanswer := freeCluster_of_nil (M := M) hg h.coherent h.diskInfo hnone
    have hover : Overruns g s b := ⟨hnone, s, h.coherent, h.diskInfo, .refl, hb.trans hanswer⟩
    by_cases hgood : Continues g l b
    · refine .high hfull hover hgood (h.allocate hg hend hsector hgood) ?_
      rw [FileState.setFd_disk, h.allocated_disk hg hmem hgood.usable,
        List.eq_nil_iff_forall_not_mem]
      intro x hx
      rw [mem_freeClusters_link hgood.usable.two_le (by have := hgood.usable.lt; omega),
        hnone] at hx
      exact List.not_mem_nil hx.1
    · exact .lost hfull hover hgood (h.misled hg hend hsector hgood (hb ▸ freeCluster_lt))
  · have hfree : b ∈ freeClusters g s.disk := by
      rw [hb]
      exact freeCluster_mem hg h.coherent h.diskInfo hnone
    obtain ⟨hlt, h2, h0⟩ := mem_freeClusters.mp hfree
    have hgood : Continues g l b := ⟨.of_lt hg h2 hlt, fun hin => h.used b hin h0⟩
    have hcur : (s.fdtable fd).currentCluster ∉ freeClusters g s.disk := fun hc =>
      h.used _ hmem (mem_freeClusters.mp hc).2.2
    refine .low hfull hfree (h.allocate hg hend hsector hgood) ?_ (fun x => ?_) ?_
    all_goals rw [FileState.setFd_disk, h.allocated_disk hg hmem hgood.usable]
    · exact length_freeClusters_link hfree hcur
    · rw [mem_freeClusters_link h2 (by omega)]
      exact ⟨fun hx => ⟨hx.1, hx.2.2⟩, fun hx => ⟨hx.1, fun hc => hcur (hc ▸ hx.1), hx.2⟩⟩
    · exact .link h2 hlt (h.used _ hmem)

/-- The descriptor gets to the next sector.

**Proof sketch.** In the middle of a cluster the position just goes on, and behind a full cluster of
the chain in the next one. Behind the last one it goes on where the search says. -/
theorem next (hg : Geometry g) (h : AtBoundary g fd l data a s) (hn : NextSector s fd e s₁) :
    Advances g fd l data s s₁ e := by
  have hword := h.tempWord (M := M) hg
  have hdiv : data.length / 512 = a + 1 := by have := h.length; omega
  have hin := h.inside
  have hcluster : (s.fdtable fd).sector = s.diskInfo.sectorsPerCluster →
      a % g.sectorsPerCluster + 1 = g.sectorsPerCluster := fun hs => by
    rw [← h.sector, hs, h.diskInfo]
  have hfull : a % g.sectorsPerCluster + 1 = g.sectorsPerCluster →
      l.getD (a / g.sectorsPerCluster + 1) clusterEof = clusterEof →
      l.length ≤ data.length / 512 / g.sectorsPerCluster := fun hs hend => by
    rw [hdiv, (succ_div_mod_of_eq hg.spc_pos hs).1, (h.last hend).1]
  cases hn with
  | inCluster hs =>
    have hlt : a % g.sectorsPerCluster + 1 < g.sectorsPerCluster := by
      have := Nat.mod_lt a hg.spc_pos
      rw [h.sector, h.diskInfo] at hs
      omega
    obtain ⟨hquot, hmod⟩ := succ_div_mod_of_lt hlt
    exact .inside (h.enter h.coherent h.diskInfo h.contents rfl (by rwa [hquot])
      (by rw [hquot]; exact h.cluster) (by rw [hmod]; exact h.sector)) rfl .refl
  | linked hs hnext hne j =>
    rw [hword] at hnext
    obtain ⟨hquot, hmod⟩ := succ_div_mod_of_eq hg.spc_pos (hcluster hs)
    have hlt : a / g.sectorsPerCluster + 1 < l.length := by
      by_contra hge
      rw [List.getD_eq_default _ _ (by omega)] at hnext
      exact hne hnext
    rw [List.getD_eq_getElem _ _ hlt, ← List.getD_eq_getElem _ 0 hlt] at hnext
    exact .inside (h.enter FileState.coherent_cached.setFd h.diskInfo h.contents
      FileState.setFd_fdtable_self (by rwa [hquot]) (by rw [hquot]; exact hnext) hmod.symm)
        rfl .refl
  | full hs hnext hfree j =>
    rw [hword] at hnext
    have hnone : freeClusters g s.disk = [] := by
      by_contra hne
      have hmem := freeCluster_mem (M := M) hg h.coherent h.diskInfo hne
      rw [hfree, mem_freeClusters] at hmem
      omega
    have hanswer := freeCluster_of_nil (M := M) hg h.coherent h.diskInfo hnone
    exact .full (hfull (hcluster hs) hnext)
      ⟨hnone, s, h.coherent, h.diskInfo, .refl, hfree.symm.trans hanswer⟩ (by decide) h.size
  | allocated hs hnext hb _ =>
    rw [hword] at hnext
    exact h.allocated hg hnext (hcluster hs) (hfull (hcluster hs) hnext) hb

end AtBoundary

/-- The searches after a data sector has been written answer as before. -/
theorem Advances.of_same (h : Advances g fd l data t s₁ e)
    (hfree : freeClusters g t.disk = freeClusters g s.disk) (hupper : SameUpper g s.disk t.disk) :
    Advances g fd l data s s₁ e := by
  have hover : ∀ {b}, Overruns g t b → Overruns g s b := by
    rintro b ⟨hnone, s₀, hs₀, hi₀, hsame, hb⟩
    exact ⟨hfree ▸ hnone, s₀, hs₀, hi₀, hupper.trans hsame, hb⟩
  cases h with
  | inside h hfree₁ hupper₁ => exact .inside h (hfree₁.trans hfree) (hupper.trans hupper₁)
  | low hfull hc h hlen hfree₁ hupper₁ =>
    rw [hfree] at hc hlen
    exact .low hfull hc h hlen (fun x => by rw [hfree₁, hfree]) (hupper.trans hupper₁)
  | high hfull hc hgood h hnone => exact .high hfull (hover hc) hgood h hnone
  | lost hfull hc hbad h => exact .lost hfull (hover hc) hbad h
  | full hfull hc he hsize => exact .full hfull (hover hc) he hsize

/-- **One sector write** of a descriptor in its file.

**Proof sketch.** The bytes go into the sector in which the contents end. If they fill it, the
descriptor goes on as `AtBoundary.next` says. -/
theorem InFile.step (hg : Geometry g) (h : InFile g fd l data s)
    (hle : (s.fdtable fd).fposWithinSector + c.length ≤ 512)
    (hw : fileWritesector s c (s.fdtable fd).fposWithinSector fd = (e, s₁)) :
    Advances g fd l (data ++ c) s s₁ e := by
  have hbps : s.diskInfo.bytesPerSector = 512 := by rw [h.diskInfo, hg.bytesPerSector]
  have hslt : (s.fdtable fd).sector < 256 := by
    have := Nat.mod_lt (data.length / 512) hg.spc_pos
    have := hg.spc_le
    rw [h.sector]
    omega
  have hlen : (data ++ c).length = data.length + c.length := List.length_append
  have hwithin := h.within
  have hcontents : FileContents g (s.written fd c (s.fdtable fd).fposWithinSector).disk
      (s.fdtable fd).startCluster l (data ++ c) := by
    rw [hwithin]
    exact h.written_contents hg (hwithin ▸ hle)
  have hbound := hcontents.length_le hg
  have hgrow : ∀ n, n = data.length → (n + c.length) % 4294967296 = (data ++ c).length := by
    intro n hn
    omega
  have hcases : WriteSector s fd c (s.fdtable fd).fposWithinSector
      (fileWritesector s c (s.fdtable fd).fposWithinSector fd).1
      (fileWritesector s c (s.fdtable fd).fposWithinSector fd).2 := fileWritesector_cases h.coherent
  rw [hw] at hcases
  simp only at hcases
  cases hcases with
  | refused hlt => omega
  | inSector _ hpos =>
    have hdiv : (data ++ c).length / 512 = data.length / 512 := by omega
    refine .inside ⟨⟨FileState.coherent_written, h.diskInfo, ?_, ?_, ?_, ?_, ?_⟩,
      by rw [hdiv]; exact h.inside, ?_, ?_⟩ (freeClusters_written hg h.diskInfo hslt)
      (sameUpper_written hg h.diskInfo hslt)
    all_goals rw [FileState.written_fdtable_self]
    · exact hcontents
    · exact h.mode
    · exact hgrow _ h.size
    · exact hgrow _ h.fpos
    · rw [FileDescriptor.grow_fposWithinSector]
      omega
    · rw [hdiv]
      exact h.cluster
    · rw [hdiv]
      exact h.sector
  | next _ hpos hnext =>
    have hfd : ((s.written fd c (s.fdtable fd).fposWithinSector).setFd fd
        ((s.fdtable fd).grow c.length).atSectorStart.nextSector).fdtable fd =
        ((s.fdtable fd).grow c.length).atSectorStart.nextSector := FileState.setFd_fdtable_self
    refine Advances.of_same (AtBoundary.next (a := data.length / 512) hg ?_ hnext)
      (freeClusters_written hg h.diskInfo hslt) (sameUpper_written hg h.diskInfo hslt)
    refine ⟨⟨FileState.coherent_written.setFd, h.diskInfo, ?_, ?_, ?_, ?_, ?_⟩, by omega, h.inside,
      ?_, ?_⟩
    all_goals rw [hfd]
    · exact hcontents
    · exact h.mode
    · exact hgrow _ h.size
    · exact hgrow _ h.fpos
    · show 0 = _
      omega
    · exact h.cluster
    · have := Nat.mod_lt (data.length / 512) hg.spc_pos
      have := hg.spc_le
      rw [FileDescriptor.nextSector_sector, FileDescriptor.atSectorStart_sector,
        FileDescriptor.grow_sector, h.sector]
      omega

end

end Z80OS
