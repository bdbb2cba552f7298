import Z80OS.File.Overrun
import Z80OS.File.Writing

set_option relaxedAutoImplicit false
set_option autoImplicit false

/-!
# Files that have outgrown their chain

A write that fills a cluster and finds no free one leaves its descriptor behind the last cluster of
the chain. What is written from there on is counted but does not get into the file. The same happens
when the search leads the descriptor into a cluster that does not continue the chain. This file says
where a descriptor that is open for writing can stand, and follows one whose size says more than its
chain can hold.

## Main definitions

* `Z80OS.InFile`, `Z80OS.BehindFile` — the places of a descriptor that is open for writing.
* `Z80OS.FileWalk` — the clusters that a walk along the FAT visits first.
* `Z80OS.Outgrown` — the size says more than the chain can hold.

## Main results

* `Z80OS.Outgrown.not_open` — such a descriptor does not stand at the end of a file.
* `Z80OS.Outgrown.run`, `Z80OS.BehindFile.run` — no write helps it.
-/

namespace Z80OS

/-! ## Descriptors that are open for writing -/

/-- A descriptor writes the file that has the contents `data` in the clusters `l`: its size and its
position are the length of the contents. -/
structure Writer (g : DiskInfo) (fd : Fin fileLimit) (l : List ℕ) (data : List UInt8)
    (s : FileState) : Prop where
  coherent : s.Coherent
  diskInfo : s.diskInfo = g
  contents : FileContents g s.disk (s.fdtable fd).startCluster l data
  mode : (s.fdtable fd).mode = fmodeWrite
  size : (s.fdtable fd).size = data.length
  fpos : (s.fdtable fd).fpos = data.length
  within : (s.fdtable fd).fposWithinSector = data.length % 512

/-- The descriptor stands in the cluster in which the next byte belongs. -/
structure InFile (g : DiskInfo) (fd : Fin fileLimit) (l : List ℕ) (data : List UInt8)
    (s : FileState) : Prop extends Writer g fd l data s where
  inside : data.length / 512 / g.sectorsPerCluster < l.length
  cluster : (s.fdtable fd).currentCluster = l.getD (data.length / 512 / g.sectorsPerCluster) 0
  sector : (s.fdtable fd).sector = data.length / 512 % g.sectorsPerCluster

/-- The clusters are full, and the descriptor stands behind the last one of them. A write that has
found no free cluster leaves it there. -/
structure BehindFile (g : DiskInfo) (fd : Fin fileLimit) (l : List ℕ) (data : List UInt8)
    (s : FileState) : Prop extends Writer g fd l data s where
  full : data.length = 512 * (g.sectorsPerCluster * l.length)
  cluster : l.getLast? = some (s.fdtable fd).currentCluster
  sector : (s.fdtable fd).sector = g.sectorsPerCluster

/-- The descriptor is open for writing. -/
def OpenForWriting (g : DiskInfo) (fd : Fin fileLimit) (l : List ℕ) (data : List UInt8)
    (s : FileState) : Prop := InFile g fd l data s ∨ BehindFile g fd l data s

/-! ## Files that have outgrown their chain -/

/-- The walk along the FAT from the first cluster of the file starts with these clusters. -/
structure FileWalk (g : DiskInfo) (fd : Fin fileLimit) (s : FileState) (q : List ℕ) : Prop where
  walk : LinkTable.Walk (fatEntry g s.disk) (s.fdtable fd).startCluster q
  nodup : q.Nodup
  usable : ∀ c ∈ q, Usable g c

/-- The number of sectors between the end of the chain and the descriptor, or a smaller one. -/
def FileDescriptor.lag (file : FileDescriptor) (g : DiskInfo) : ℕ :=
  if file.sector < g.sectorsPerCluster then file.sector else file.sector - g.sectorsPerCluster

/-- The size is not smaller than what the clusters of the chain hold and the descriptor has written
behind them. -/
structure Bounded (g : DiskInfo) (fd : Fin fileLimit) (s : FileState) : Prop where
  coherent : s.Coherent
  diskInfo : s.diskInfo = g
  sector_lt : (s.fdtable fd).sector < 256
  within_lt : (s.fdtable fd).fposWithinSector < 512
  exceeds : ∀ q, FileWalk g fd s q → 512 * (g.sectorsPerCluster * q.length) +
    512 * (s.fdtable fd).lag g + (s.fdtable fd).fposWithinSector ≤ (s.fdtable fd).size

/-- The size says more than the clusters of the chain hold, or the descriptor is not where it
belongs. -/
structure Outgrown (g : DiskInfo) (fd : Fin fileLimit) (s : FileState) : Prop
    extends Bounded g fd s where
  beyond : (s.fdtable fd).sector = g.sectorsPerCluster → (s.fdtable fd).fposWithinSector = 0 →
    ∀ q, FileWalk g fd s q → 512 * (g.sectorsPerCluster * q.length) < (s.fdtable fd).size

section

variable {M : Machine} {g : DiskInfo} {fd : Fin fileLimit} {l q : List ℕ} {data bs c : List UInt8}
  {s s' s₁ : FileState} {d : Disk} {e : ℤ} {b w k : ℕ}

/-- The clusters of a file are a walk. -/
theorem Writer.walk (h : Writer g fd l data s) : FileWalk g fd s l :=
  ⟨h.contents.chain.walk, h.contents.nodup, h.contents.usable⟩

/-- A walk along the FAT does not leave the chain of the file. -/
theorem Writer.prefix_of_walk (h : Writer g fd l data s) (hq : FileWalk g fd s q) : q <+: l :=
  hq.walk.prefix_of_chain (fun c hc => by
    have := (hq.usable c hc).lt
    simp only [clusterEof]
    omega) h.contents.chain

/-- A descriptor whose file has outgrown its chain does not stand at the end of its file. -/
theorem Outgrown.not_open (hg : Geometry g) (h : Outgrown g fd s) :
    ¬ OpenForWriting g fd l data s := by
  rintro (hin | hbehind)
  · have hroom := h.exceeds l hin.walk
    have hlt : data.length / 512 < g.sectorsPerCluster * l.length := by
      have := hin.inside
      rwa [Nat.div_lt_iff_lt_mul hg.spc_pos, mul_comm] at this
    rw [hin.size] at hroom
    omega
  · have hroom := h.beyond hbehind.sector ?_ l hbehind.walk
    · rw [hbehind.size, hbehind.full] at hroom
      exact absurd hroom (lt_irrefl _)
    · rw [hbehind.within, hbehind.full, Nat.mul_mod_right]

/-- A write into a data sector does not change the FAT. -/
theorem sectorNumber_ge (hg : Geometry g) {file : FileDescriptor} (hs : file.sector < 256) :
    g.dataRegion ≤ file.sectorNumber g := by
  have hdata := hg.data_lt
  have hlt : (file.currentCluster + 65534) % 65536 * g.sectorsPerCluster % 65536 < 65536 :=
    Nat.mod_lt _ (by decide)
  rw [FileDescriptor.sectorNumber, fileStartSector, sectorNumbers, Nat.mod_add_mod,
    Nat.mod_eq_of_lt (by omega), add_assoc]
  exact Nat.le_add_right _ _

/-- The words of the clusters in range do not lie in a data sector. -/
theorem fatEntry_update_data (hg : Geometry g) {t : Sector} {x : ℕ} (hk : g.dataRegion ≤ k)
    (hx : InRange g x) : fatEntry g (Function.update d k t) x = fatEntry g d x := by
  have := hg.root_lt
  have := hx.fat_lt
  rw [fatEntry, fatEntry, Function.update_of_ne (by omega)]

/-- A walk along the FAT after a sector has been written. -/
theorem FileWalk.of_written (hg : Geometry g) (hi : s.diskInfo = g)
    (hs : (s.fdtable fd).sector < 256) (h : FileWalk g fd (s.written fd c k) q) :
    FileWalk g fd s q := by
  refine ⟨?_, h.nodup, h.usable⟩
  have hwalk := h.walk
  rw [FileState.written_disk, FileState.written_fdtable_self, hi] at hwalk
  exact hwalk.congr fun x hx =>
    (fatEntry_update_data hg (sectorNumber_ge hg hs) (h.usable x hx).toInRange).symm

/-- A walk along the FAT depends on the FAT and on the first cluster. -/
theorem FileWalk.of_same (h : FileWalk g fd s' q) (hd : s'.disk = s.disk)
    (hstart : (s'.fdtable fd).startCluster = (s.fdtable fd).startCluster) : FileWalk g fd s q :=
  ⟨by rw [← hd, ← hstart]; exact h.walk, h.nodup, h.usable⟩

/-- **A walk after a cluster has been linked** is an old one, or it goes on from an old one to that
cluster. -/
theorem FileWalk.of_link (h : FileWalk g fd s' q) (hg : Geometry g) (hi : s.diskInfo = g)
    (hw : w < 65536) (hd : s'.disk = ((s.link b w).link w clusterEof).disk)
    (hstart : (s'.fdtable fd).startCluster = (s.fdtable fd).startCluster) :
    FileWalk g fd s q ∨ ∃ m, q = m ++ [b % 32768, w] ∧ FileWalk g fd s (m ++ [b % 32768]) := by
  have hfat : fatEntry g s'.disk = Function.update (Function.update (fatEntry g s.disk)
      (b % 32768) w) (w % 32768) clusterEof := by
    rw [hd, link_disk_mod (s := s.link b w) (hi ▸ hg), link_disk_mod (hi ▸ hg),
      FileState.link_diskInfo, hi, fatEntry_linked (by decide), fatEntry_linked hw]
  have hwalk := h.walk
  rw [hfat, hstart] at hwalk
  have hne : ∀ x ∈ q, x ≠ clusterEof := fun x hx => by
    have := (h.usable x hx).lt
    simp only [clusterEof]
    omega
  have hmod : w ∈ q → w % 32768 = w := fun hin => by
    have := (h.usable w hin).lt
    omega
  rcases hwalk.of_relink hne hmod with hold | ⟨m, rfl, hold⟩
  · exact .inl ⟨hold, h.nodup, h.usable⟩
  · refine .inr ⟨m, rfl, hold, ?_, fun x hx => h.usable x ?_⟩
    · have hnd := h.nodup
      rw [show m ++ [b % 32768, w] = (m ++ [b % 32768]) ++ [w] by simp] at hnd
      exact (List.nodup_append.mp hnd).1
    · rcases List.mem_append.mp hx with hx | hx
      · exact List.mem_append_left _ hx
      · exact List.mem_append_right _ (List.mem_singleton.mp hx ▸ List.mem_cons_self)

/-- A descriptor that has entered a cluster which the chain does not have room for. -/
theorem Outgrown.of_enter (hg : Geometry g) (hs : s.Coherent) (hi : s.diskInfo = g)
    (hsector : (s.fdtable fd).sector = 0) (hwithin : (s.fdtable fd).fposWithinSector = 0)
    (hroom : ∀ q, FileWalk g fd s q →
      512 * (g.sectorsPerCluster * q.length) ≤ (s.fdtable fd).size) : Outgrown g fd s := by
  have hpos := hg.spc_pos
  have hlag : (s.fdtable fd).lag g = 0 := by
    rw [FileDescriptor.lag, if_pos (by omega), hsector]
  refine ⟨⟨hs, hi, by omega, by omega, fun q hq => ?_⟩, fun heq => by omega⟩
  have := hroom q hq
  omega

/-- The descriptor behind a sector that it has filled.

**Proof sketch.** In the middle of a cluster the descriptor has come one sector further, and so has
the size. At the end of a cluster the size has grown by the cluster, and the chain by one at
most. -/
theorem Bounded.next (hg : Geometry g) (h : Bounded g fd s) (hn : NextSector s₁ fd e s')
    (hlen : (s.fdtable fd).fposWithinSector + c.length = 512)
    (hsize : (s.fdtable fd).size + c.length < 4294967296) (hi : s₁.diskInfo = g)
    (hs : s₁.Coherent)
    (hfd : s₁.fdtable fd = ((s.fdtable fd).grow c.length).atSectorStart.nextSector)
    (hwalk : ∀ {q}, FileWalk g fd s₁ q → FileWalk g fd s q) : Outgrown g fd s' := by
  have hpos := hg.spc_pos
  have hspc := hg.spc_le
  have hsector : (s₁.fdtable fd).sector = ((s.fdtable fd).sector + 1) % 256 := by rw [hfd]; rfl
  have hsize₁ : (s₁.fdtable fd).size = (s.fdtable fd).size + c.length := by
    rw [hfd]
    exact Nat.mod_eq_of_lt hsize
  have hwithin₁ : (s₁.fdtable fd).fposWithinSector = 0 := by rw [hfd]; rfl
  have hslt := h.sector_lt
  have hcluster : (s₁.fdtable fd).sector = g.sectorsPerCluster → ∀ q, FileWalk g fd s q →
      512 * (g.sectorsPerCluster * q.length) + 512 * g.sectorsPerCluster ≤
        (s₁.fdtable fd).size := by
    intro hend q hq
    have hroom := h.exceeds q hq
    rw [FileDescriptor.lag, if_pos (by omega)] at hroom
    omega
  cases hn with
  | inCluster hend =>
    rw [hi] at hend
    refine ⟨⟨hs, hi, by omega, by omega, fun q hq => ?_⟩, fun heq => absurd heq hend⟩
    have hroom := h.exceeds q (hwalk hq)
    have hlag : (s'.fdtable fd).lag g ≤ (s.fdtable fd).lag g + 1 := by
      simp only [FileDescriptor.lag]
      split_ifs <;> omega
    omega
  | @linked next hend _ _ j =>
    have hfd' : ((s₁.cached j).setFd fd ((s₁.fdtable fd).enterCluster next)).fdtable fd =
        (s₁.fdtable fd).enterCluster next := FileState.setFd_fdtable_self
    refine .of_enter hg FileState.coherent_cached.setFd hi (by rw [hfd']; rfl)
      (by rw [hfd']; exact hwithin₁) fun q hq => ?_
    have hq' : FileWalk g fd s₁ q := hq.of_same rfl (by rw [hfd']; rfl)
    have hroom := hcluster (hi ▸ hend) q (hwalk hq')
    rw [hfd', FileDescriptor.enterCluster_size]
    omega
  | full hend _ _ j =>
    rw [hi] at hend
    have hroom : ∀ q, FileWalk g fd ((s₁.cached j).recordSearch 0) q →
        512 * (g.sectorsPerCluster * q.length) + 512 * g.sectorsPerCluster ≤
          (s₁.fdtable fd).size :=
      fun q hq => hcluster hend q (hwalk (hq.of_same rfl rfl))
    have hlag : (s₁.fdtable fd).lag g = 0 := by
      rw [FileDescriptor.lag, if_neg (by omega), hend, Nat.sub_self]
    refine ⟨⟨FileState.coherent_cached, hi, ?_, ?_, fun q hq => ?_⟩, fun _ _ q hq => ?_⟩
    · show (s₁.fdtable fd).sector < 256
      omega
    · show (s₁.fdtable fd).fposWithinSector < 512
      omega
    · have := hroom q hq
      show _ + 512 * (s₁.fdtable fd).lag g + (s₁.fdtable fd).fposWithinSector ≤
        (s₁.fdtable fd).size
      omega
    · have := hroom q hq
      show _ < (s₁.fdtable fd).size
      omega
  | @allocated w hend _ hw _ =>
    rw [hi] at hend
    let s₂ := ((s₁.recordSearch w).link (s₁.fdtable fd).currentCluster w).link w clusterEof
    have hfd' : (s₂.setFd fd ((s₁.fdtable fd).enterCluster w)).fdtable fd =
        (s₁.fdtable fd).enterCluster w := FileState.setFd_fdtable_self
    refine .of_enter hg FileState.coherent_link.setFd hi (by rw [hfd']; rfl)
      (by rw [hfd']; exact hwithin₁) fun q hq => ?_
    have hlt : w < 65536 := hw ▸ freeCluster_lt
    rw [hfd', FileDescriptor.enterCluster_size]
    rcases hq.of_link (s := s₁.recordSearch w) hg hi hlt rfl (by rw [hfd']; rfl) with
      hold | ⟨m, rfl, hold⟩
    · have hroom := hcluster hend q (hwalk (hold.of_same rfl rfl))
      omega
    · have hroom := hcluster hend _ (hwalk (hold.of_same rfl rfl))
      simp only [List.length_append, List.length_cons, List.length_nil] at hroom ⊢
      rw [← Nat.mul_add, ← Nat.mul_succ] at hroom
      exact hroom

/-- **One sector write** of a descriptor whose file has outgrown its chain. Bytes that are written
from behind the last cluster make a file that was full outgrow its chain.

**Proof sketch.** By cases on the sector write. A write that stays within the sector adds its bytes
to the size and to the position alike. One that fills the sector goes on to the next
(`Bounded.next`). The bytes written are in a data sector, so that the walk along the links is the
same before and after it (`FileWalk.of_written`). -/
theorem Bounded.writesector (hg : Geometry g) (h : Bounded g fd s)
    (hc : c = [] → Outgrown g fd s)
    (hle : (s.fdtable fd).fposWithinSector + c.length ≤ 512)
    (hsize : (s.fdtable fd).size + c.length < 4294967296)
    (hw : fileWritesector s c (s.fdtable fd).fposWithinSector fd = (e, s₁)) :
    Outgrown g fd s₁ := by
  have hbps : s.diskInfo.bytesPerSector = 512 := by rw [h.diskInfo, hg.bytesPerSector]
  have hcases : WriteSector s fd c (s.fdtable fd).fposWithinSector
      (fileWritesector s c (s.fdtable fd).fposWithinSector fd).1
      (fileWritesector s c (s.fdtable fd).fposWithinSector fd).2 := fileWritesector_cases h.coherent
  rw [hw] at hcases
  simp only at hcases
  cases hcases with
  | refused hlt => omega
  | inSector _ hpos =>
    have hfd : (s.written fd c (s.fdtable fd).fposWithinSector).fdtable fd =
        (s.fdtable fd).grow c.length := FileState.written_fdtable_self
    have hwithin : ((s.fdtable fd).fposWithinSector + c.length) % 65536 =
        (s.fdtable fd).fposWithinSector + c.length := Nat.mod_eq_of_lt (by omega)
    have hsize' : ((s.fdtable fd).size + c.length) % 4294967296 =
        (s.fdtable fd).size + c.length := Nat.mod_eq_of_lt hsize
    refine ⟨⟨FileState.coherent_written, h.diskInfo, ?_, ?_, fun q hq => ?_⟩,
      fun hend h0 q hq => ?_⟩
    all_goals rw [hfd] at *
    · exact h.sector_lt
    · rw [FileDescriptor.grow_fposWithinSector]
      omega
    · have hroom := h.exceeds q (hq.of_written hg h.diskInfo h.sector_lt)
      rw [FileDescriptor.grow_fposWithinSector, FileDescriptor.grow_size, hwithin, hsize']
      show _ + 512 * (s.fdtable fd).lag g + _ ≤ _
      omega
    · rw [FileDescriptor.grow_fposWithinSector, hwithin] at h0
      have hnil : c = [] := List.length_eq_zero_iff.mp (by omega)
      have hroom := (hc hnil).beyond hend (by omega) q (hq.of_written hg h.diskInfo h.sector_lt)
      rw [FileDescriptor.grow_size, hsize']
      omega
  | next _ hpos hnext =>
    have hfd : ((s.written fd c (s.fdtable fd).fposWithinSector).setFd fd
        ((s.fdtable fd).grow c.length).atSectorStart.nextSector).fdtable fd =
        ((s.fdtable fd).grow c.length).atSectorStart.nextSector := FileState.setFd_fdtable_self
    refine h.next hg hnext (by omega) hsize h.diskInfo FileState.coherent_written.setFd hfd
      fun hq => ?_
    refine FileWalk.of_written hg h.diskInfo h.sector_lt (hq.of_same rfl ?_)
    rw [hfd, FileState.written_fdtable_self]
    rfl

/-- A write of a descriptor whose file has outgrown its chain. -/
theorem Outgrown.run (hg : Geometry g) (h : Outgrown g fd s) (hchunks : WriteChunks fd s bs e s')
    (hsize : (s.fdtable fd).size + bs.length < 4294967296) : Outgrown g fd s' := by
  induction hchunks with
  | nil => exact h
  | @chunk s c s₁ bs e s' hle _ hw _ ih =>
    rw [List.length_append] at hsize
    refine ih (h.writesector hg (fun _ => h) hle (by omega) hw) ?_
    rw [fileWritesector_size h.coherent (by rw [h.diskInfo, hg.bytesPerSector]) hle (by omega) hw]
    omega
  | @stop s c e s₁ bs hle hw _ =>
    rw [List.length_append] at hsize
    exact h.writesector hg (fun _ => h) hle (by omega) hw

/-- A descriptor behind its file stands at the start of a sector. -/
theorem BehindFile.within_eq (h : BehindFile g fd l data s) :
    (s.fdtable fd).fposWithinSector = 0 := by
  rw [h.within, h.full, Nat.mul_mod_right]

/-- A descriptor behind its file has as many bytes in it as its clusters hold. -/
theorem BehindFile.bounded (hg : Geometry g) (h : BehindFile g fd l data s) : Bounded g fd s := by
  have hspc := hg.spc_le
  have hwithin := h.within_eq
  have hsector := h.sector
  refine ⟨h.coherent, h.diskInfo, by omega, by omega, fun q hq => ?_⟩
  have hlag : (s.fdtable fd).lag g = 0 := by
    rw [FileDescriptor.lag, if_neg (by omega), hsector, Nat.sub_self]
  rw [hlag, hwithin, h.size, h.full]
  exact Nat.mul_le_mul_left _ (Nat.mul_le_mul_left _ (h.prefix_of_walk hq).length_le)

/-- The sector writes of a descriptor behind its file. -/
theorem BehindFile.run (hg : Geometry g) (h : BehindFile g fd l data s) (hne : bs ≠ [])
    (hchunks : WriteChunks fd s bs e s') (hsize : data.length + bs.length < 4294967296) :
    Outgrown g fd s' := by
  have hwithin := h.within_eq
  have hbps : s.diskInfo.bytesPerSector = 512 := by rw [h.diskInfo, hg.bytesPerSector]
  rw [← h.size] at hsize
  cases hchunks with
  | nil => exact absurd rfl hne
  | @chunk _ c s₁ bs _ _ hle hends hw hrest =>
    rw [List.length_append] at hsize
    have hc : c = [] → Outgrown g fd s := by
      rintro rfl
      rw [List.nil_append] at hne
      have := hends.resolve_left hne
      rw [hwithin] at this
      exact absurd this (by decide)
    refine ((h.bounded hg).writesector hg hc hle (by omega) hw).run hg hrest ?_
    rw [fileWritesector_size h.coherent hbps hle (by omega) hw]
    omega
  | @stop _ c _ _ bs hle hw he =>
    rw [List.length_append] at hsize
    refine (h.bounded hg).writesector hg (fun hc => ?_) hle (by omega) hw
    subst hc
    have hzero := fileWritesector_inside h.coherent hbps (by rw [hwithin]; decide) hw
    exact absurd hzero he

end

end Z80OS
