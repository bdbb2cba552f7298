import Z80OS.File.Contents
import Z80OS.File.Events
import Z80OS.File.WriteCases

set_option relaxedAutoImplicit false
set_option autoImplicit false

/-!
# Writing a file

A descriptor that writes stands at the end of the contents of its file. A cluster that is full gets
its successor at once, so the descriptor always points into a cluster of the chain. This file has
the invariant of a writer, and shows that `file_write` appends its data to the contents however the
data is cut.

## Main definitions

* `Z80OS.Writing` — the invariant of a writer.

## Main results

* `Z80OS.Writing.writesector` — one sector write.
* `Z80OS.Writing.write` — one call of `file_write`.
-/

namespace Z80OS

/-- The state of a writer: the disk is `d₀` with a new file that has the contents `data`, the chain
reaches one cluster behind the full ones, and the descriptor stands at the end of the contents. -/
structure Writing (g : DiskInfo) (d₀ : Disk) (f : ℕ) (e : DirectoryEntry) (fd : Fin fileLimit)
    (l : List ℕ) (data : List UInt8) (s : FileState) : Prop where
  coherent : s.Coherent
  diskInfo : s.diskInfo = g
  file : NewFile g d₀ s.disk f e l data
  low : ∀ c ∈ l, c < 256
  eager : l.length = data.length / 512 / g.sectorsPerCluster + 1
  mode : (s.fdtable fd).mode = fmodeWrite
  size : (s.fdtable fd).size = data.length
  cluster : (s.fdtable fd).currentCluster = l.getD (data.length / 512 / g.sectorsPerCluster) 0
  sector : (s.fdtable fd).sector = data.length / 512 % g.sectorsPerCluster
  within : (s.fdtable fd).fposWithinSector = data.length % 512

/-! ## Arithmetic of positions -/

section

variable {a m : ℕ}

/-- The next sector in the same cluster. -/
theorem succ_div_mod_of_lt (h : a % m + 1 < m) : (a + 1) / m = a / m ∧ (a + 1) % m = a % m + 1 := by
  have ha : a + 1 = m * (a / m) + (a % m + 1) := by rw [← add_assoc, Nat.div_add_mod]
  have hm : 0 < m := by omega
  rw [ha, Nat.mul_add_div hm, Nat.mul_add_mod, Nat.div_eq_of_lt h, Nat.mod_eq_of_lt h]
  exact ⟨rfl, rfl⟩

/-- The next sector after the last one of a cluster. -/
theorem succ_div_mod_of_eq (hm : 0 < m) (h : a % m + 1 = m) :
    (a + 1) / m = a / m + 1 ∧ (a + 1) % m = 0 := by
  have ha : a + 1 = m * (a / m + 1) := by
    rw [Nat.mul_add, mul_one]
    calc a + 1 = m * (a / m) + a % m + 1 := by rw [Nat.div_add_mod]
      _ = m * (a / m) + m := by omega
  rw [ha, Nat.mul_div_cancel_left _ hm, Nat.mul_mod_right]
  exact ⟨rfl, rfl⟩

/-- A list is its first elements and its last one. -/
theorem eq_append_getD {l : List ℕ} {n : ℕ} (h : l.length = n + 1) :
    ∃ l₀, l₀.length = n ∧ l = l₀ ++ [l.getD n 0] := by
  refine ⟨l.take n, by simp [h], ?_⟩
  have hn : n < l.length := by omega
  rw [List.getD_eq_getElem _ _ hn, ← List.take_succ_eq_append_getElem hn, List.take_of_length_le]
  omega

end

section

variable {M : Machine} {g : DiskInfo} {d₀ : Disk} {f : ℕ} {e : DirectoryEntry}
  {fd : Fin fileLimit} {l : List ℕ} {data bs : List UInt8} {s s' : FileState}

/-- A file has at most `2 ^ 31` bytes. -/
theorem NewFile.length_lt {d : Disk} (hg : Geometry g) (h : NewFile g d₀ d f e l data) :
    data.length ≤ 2147483648 := h.contents.length_le hg

namespace Writing

/-- The current sector is one of the sectors of the file. -/
theorem room (hg : Geometry g) (h : Writing g d₀ f e fd l data s) :
    data.length / 512 < g.sectorsPerCluster * l.length := by
  rw [h.eager]
  exact Nat.lt_mul_div_succ _ hg.spc_pos

/-- A descriptor that writes stands in a cluster of its file. -/
theorem cluster_mem (hg : Geometry g) (h : Writing g d₀ f e fd l data s) :
    (s.fdtable fd).currentCluster ∈ l := by
  rw [h.cluster]
  exact getD_mem (h.room hg)

/-- The descriptor is positioned in the sector in which the contents end. -/
theorem sectorNumber (hg : Geometry g) (h : Writing g d₀ f e fd l data s) :
    (s.fdtable fd).sectorNumber s.diskInfo = dataSector g l (data.length / 512) := by
  have hlt : (s.fdtable fd).sector < 256 := by
    have := Nat.mod_lt (data.length / 512) hg.spc_pos
    have := hg.spc_le
    rw [h.sector]
    omega
  rw [h.diskInfo, sectorNumber_eq hg (h.file.usable _ (h.cluster_mem hg)) hlt, h.cluster, h.sector,
    dataSector]

/-- The file after bytes have been written into the current sector. -/
theorem written_file (hg : Geometry g) (h : Writing g d₀ f e fd l data s)
    (hbs : data.length % 512 + bs.length ≤ 512) :
    NewFile g d₀ (s.written fd bs (data.length % 512)).disk f e l (data ++ bs) := by
  rw [FileState.written_disk, h.sectorNumber hg]
  exact h.file.write hg (h.room hg) hbs

/-- The size after bytes have been counted. -/
theorem grow_size (hg : Geometry g) (h : Writing g d₀ f e fd l data s) (hbs : bs.length ≤ 512) :
    ((s.fdtable fd).grow bs.length).size = (data ++ bs).length := by
  have := h.file.length_lt hg
  simp only [FileDescriptor.grow_size, h.size, List.length_append]
  omega

end Writing

/-- The descriptor has filled a sector and stands behind it. -/
structure Filled (g : DiskInfo) (d₀ : Disk) (f : ℕ) (e : DirectoryEntry) (fd : Fin fileLimit)
    (l : List ℕ) (data : List UInt8) (a : ℕ) (s : FileState) : Prop where
  coherent : s.Coherent
  diskInfo : s.diskInfo = g
  file : NewFile g d₀ s.disk f e l data
  length : data.length = 512 * (a + 1)
  low : ∀ c ∈ l, c < 256
  eager : l.length = a / g.sectorsPerCluster + 1
  mode : (s.fdtable fd).mode = fmodeWrite
  size : (s.fdtable fd).size = data.length
  cluster : (s.fdtable fd).currentCluster = l.getD (a / g.sectorsPerCluster) 0
  sector : (s.fdtable fd).sector = a % g.sectorsPerCluster + 1
  within : (s.fdtable fd).fposWithinSector = 0

/-- A disk that had more free clusters than the new file has clusters still has a free one. -/
theorem NewFile.someFree {d : Disk} (hg : Geometry g) (h : NewFile g d₀ d f e l data)
    (hlt : l.length < (freeClusters g d₀).length) : SomeFree g d := by
  have hnd : (freeClusters g d₀).Nodup := List.nodup_range.filter _
  obtain ⟨c, hc, hcl⟩ : ∃ c ∈ freeClusters g d₀, c ∉ l := by
    by_contra hall
    push Not at hall
    have := hnd.length_le_of_subset hall
    omega
  obtain ⟨hlow, h2, hfree⟩ := mem_freeClusters.mp hc
  have hu := Usable.of_lt hg h2 hlow
  refine ⟨c, h2, hlow, ?_⟩
  rw [← hfree]
  refine fatEntry_congr fun k i hw => h.frame k i ?_
  rintro (⟨b, hb, hwb⟩ | hent | ⟨b, hb, hcl'⟩)
  · exact hcl (hw.inj hwb ▸ hb)
  · exact hw.not_inEntry hu.toInRange hent
  · exact hw.not_inCluster hg hu.toInRange hcl'

/-- The search at the end of a cluster finds a free one. -/
theorem Filled.someFree {a c : ℕ} (hg : Geometry g) (h : Filled g d₀ f e fd l data a s)
    (hs : (s.fdtable fd).sector = s.diskInfo.sectorsPerCluster)
    (hfind : Enough g d₀ data.length s s')
    (htrace : s'.trace = [Event.search s.disk c] ++ s.trace) :
    SomeFree s.diskInfo s.disk := by
  rw [h.diskInfo]
  rcases hfind with hfind | hfind
  · exact hfind.of_mem htrace (List.mem_singleton_self _)
  · have heq : a % g.sectorsPerCluster + 1 = g.sectorsPerCluster := by
      rw [← h.sector, hs, h.diskInfo]
    have ha : data.length / 512 = a + 1 := by have := h.length; omega
    rw [ha, (succ_div_mod_of_eq hg.spc_pos heq).1, ← h.eager] at hfind
    exact h.file.someFree hg hfind

/-- Behind a filled sector comes the next sector of the cluster, or the first one of a new
cluster.

**Proof sketch.** In the middle of a cluster the position just goes on. At its end the cluster is
the last one of the chain, so its word is the end mark; the search finds a free cluster, and
`NewFile.extend` appends it. -/
theorem Filled.next {a : ℕ} {code : ℤ} (hg : Geometry g) (h : Filled g d₀ f e fd l data a s)
    (hn : NextSector s fd code s') (hfind : Enough g d₀ data.length s s') :
    code = 0 ∧ ∃ l', Writing g d₀ f e fd l' data s' := by
  have ha : data.length / 512 = a + 1 := by have := h.length; omega
  have ha' : data.length % 512 = 0 := by have := h.length; omega
  obtain ⟨l₀, hl₀, hl⟩ := eq_append_getD h.eager
  rw [← h.cluster] at hl
  have hmem : (s.fdtable fd).currentCluster ∈ l := by rw [hl]; simp
  have husable := h.file.usable _ hmem
  have hword : ∀ {M : Machine},
      (s.cached (fatSectorOf s.diskInfo (s.fdtable fd).currentCluster)).tempWord
        (fatOffsetOf s.diskInfo (s.fdtable fd).currentCluster) = clusterEof := by
    intro M
    rw [tempWord_fatEntry (h.diskInfo ▸ hg) (h.diskInfo ▸ husable.hasWord), h.diskInfo]
    have hchain := h.file.chain
    rw [hl] at hchain
    exact hchain.next_last
  have hsector := h.sector
  cases hn with
  | inCluster hs =>
    have hlt : a % g.sectorsPerCluster + 1 < g.sectorsPerCluster := by
      have := Nat.mod_lt a hg.spc_pos
      rw [hsector, h.diskInfo] at hs
      omega
    obtain ⟨hdiv, hmod⟩ := succ_div_mod_of_lt hlt
    exact ⟨rfl, l, h.coherent, h.diskInfo, h.file, h.low, by rw [ha, hdiv, h.eager], h.mode, h.size,
      by rw [ha, hdiv, h.cluster], by rw [ha, hmod, hsector], by rw [ha', h.within]⟩
  | linked _ hnext hne => exact absurd (hnext.trans hword) hne
  | full hs _ hfree j =>
    have hsome := h.someFree hg hs hfind rfl
    obtain ⟨hu, -⟩ := hsome.freeCluster (M := M) (h.diskInfo ▸ hg) h.coherent
    rw [hfree] at hu
    exact absurd hu.two_le (by decide)
  | @allocated c hs _ hc _ =>
    have hsome := h.someFree hg hs hfind rfl
    obtain ⟨hu, hlow, hfree⟩ := hsome.freeCluster (M := M) (h.diskInfo ▸ hg) h.coherent
    rw [← hc, h.diskInfo] at hu hfree
    rw [← hc] at hlow
    have heq : a % g.sectorsPerCluster + 1 = g.sectorsPerCluster := by
      rw [← hsector, hs, h.diskInfo]
    obtain ⟨hdiv, hmod⟩ := succ_div_mod_of_eq hg.spc_pos heq
    have hfile := h.file
    rw [hl] at hfile
    refine ⟨rfl, l₀ ++ [(s.fdtable fd).currentCluster, c], FileState.coherent_link, h.diskInfo, ?_,
      ?_, ?_, ?_, ?_, ?_, ?_, ?_⟩
    · have hdisk : ((((s.recordSearch c).link (s.fdtable fd).currentCluster c).link c
          clusterEof).setFd fd ((s.fdtable fd).enterCluster c)).disk =
          linked g (linked g s.disk (s.fdtable fd).currentCluster c) c clusterEof := by
        rw [FileState.setFd_disk, link_disk (h.diskInfo ▸ hg) (h.diskInfo ▸ hu.hasWord),
          link_disk (h.diskInfo ▸ hg) (h.diskInfo ▸ husable.hasWord)]
        simp only [FileState.link_diskInfo, FileState.recordSearch_diskInfo, h.diskInfo,
          FileState.recordSearch_disk]
      rw [hdisk]
      exact hfile.extend hg hu hfree
    · intro b hb
      rcases List.mem_append.mp (show b ∈ (l₀ ++ [_]) ++ [c] by simpa using hb) with hb | hb
      · exact h.low b (hl ▸ hb)
      · exact List.mem_singleton.mp hb ▸ hlow
    · rw [ha, hdiv]
      simp [hl₀]
    · rw [FileState.setFd_fdtable_self]
      exact h.mode
    · rw [FileState.setFd_fdtable_self]
      exact h.size
    · rw [FileState.setFd_fdtable_self, ha, hdiv, FileDescriptor.enterCluster_currentCluster,
        List.getD_append_right _ _ _ _ (by omega), hl₀]
      simp
    · rw [FileState.setFd_fdtable_self, ha, hmod]
      rfl
    · rw [FileState.setFd_fdtable_self, ha']
      exact h.within

/-- **One sector write.** Bytes that fit into the current sector are appended to the contents.

**Proof sketch.** The bytes go into the sector by `NewFile.write`. If they fill it, the descriptor
goes on as `Filled.next` says. -/
theorem Writing.writesector (bs : List UInt8) (hg : Geometry g) (h : Writing g d₀ f e fd l data s)
    (hbs : data.length % 512 + bs.length ≤ 512)
    (hfind : Enough g d₀ (data ++ bs).length s (fileWritesector s bs (data.length % 512) fd).2) :
    (fileWritesector s bs (data.length % 512) fd).1 = 0 ∧
      ∃ l', Writing g d₀ f e fd l' (data ++ bs)
        (fileWritesector s bs (data.length % 512) fd).2 := by
  have hbps : s.diskInfo.bytesPerSector = 512 := by rw [h.diskInfo, hg.bytesPerSector]
  have hfile := h.written_file hg hbs
  have hsize := h.grow_size hg (show bs.length ≤ 512 by omega)
  have hlen : (data ++ bs).length = data.length + bs.length := List.length_append
  have hcases : WriteSector s fd bs (data.length % 512)
      (fileWritesector s bs (data.length % 512) fd).1
      (fileWritesector s bs (data.length % 512) fd).2 := fileWritesector_cases h.coherent
  generalize fileWritesector s bs (data.length % 512) fd = r at hfind hcases ⊢
  obtain ⟨code, s'⟩ := r
  simp only at hfind hcases ⊢
  cases hcases with
  | refused hlt => omega
  | inSector _ hpos =>
    rw [h.within, hbps] at hpos
    have hdiv : (data ++ bs).length / 512 = data.length / 512 := by omega
    refine ⟨rfl, l, FileState.coherent_written, h.diskInfo, hfile, h.low,
      by rw [hdiv]; exact h.eager, ?_, ?_, ?_, ?_, ?_⟩
    · rw [FileState.written_fdtable_self]
      exact h.mode
    · rw [FileState.written_fdtable_self]
      exact hsize
    · rw [FileState.written_fdtable_self, hdiv]
      exact h.cluster
    · rw [FileState.written_fdtable_self, hdiv]
      exact h.sector
    · rw [FileState.written_fdtable_self, FileDescriptor.grow_fposWithinSector, h.within]
      omega
  | next _ hpos hnext =>
    rw [h.within, hbps] at hpos
    have hfd : (((s.written fd bs (data.length % 512)).setFd fd
        ((s.fdtable fd).grow bs.length).atSectorStart.nextSector).fdtable fd) =
        ((s.fdtable fd).grow bs.length).atSectorStart.nextSector := FileState.setFd_fdtable_self
    have hfilled : Filled g d₀ f e fd l (data ++ bs) (data.length / 512)
        ((s.written fd bs (data.length % 512)).setFd fd
          ((s.fdtable fd).grow bs.length).atSectorStart.nextSector) := by
      refine ⟨FileState.coherent_written.setFd, h.diskInfo, hfile, by omega, h.low, h.eager, ?_, ?_,
        ?_, ?_, ?_⟩
      · rw [hfd]
        exact h.mode
      · rw [hfd]
        exact hsize
      · rw [hfd]
        exact h.cluster
      · have := Nat.mod_lt (data.length / 512) hg.spc_pos
        have := hg.spc_le
        rw [hfd, FileDescriptor.nextSector_sector, FileDescriptor.atSectorStart_sector,
          FileDescriptor.grow_sector, h.sector]
        omega
      · rw [hfd]
        rfl
    exact hfilled.next hg hnext
      (hfind.right (List.suffix_cons _ _) hnext.trace_suffix (le_refl _))

/-- **A sequence of sector writes** does not fail, and appends the bytes to the contents.

**Proof sketch.** Induction on the sequence; each sector write is `Writing.writesector`. -/
theorem Writing.chunks {code : ℤ} (hg : Geometry g) (h : Writing g d₀ f e fd l data s)
    (hchunks : WriteChunks fd s bs code s') (hfind : Enough g d₀ (data ++ bs).length s s') :
    code = 0 ∧ ∃ l', Writing g d₀ f e fd l' (data ++ bs) s' := by
  induction hchunks generalizing l data with
  | nil => exact ⟨rfl, l, by simpa using h⟩
  | @chunk s c s₁ bs code s' hle _ hw hrest ih =>
    have hmoves : Moves fd s (fileWritesector s c (s.fdtable fd).fposWithinSector fd).2 :=
      fileWritesector_moves
    have hstep := h.writesector (M := M) c hg (h.within ▸ hle)
    rw [← h.within, hw] at hstep
    rw [hw] at hmoves
    have hlen : (data ++ c).length ≤ (data ++ (c ++ bs)).length := by
      simp only [List.length_append]
      omega
    obtain ⟨-, l₁, hw₁⟩ := hstep (hfind.left hmoves.frame.trace hrest.trace_suffix hlen)
    rw [← List.append_assoc] at hfind ⊢
    exact ih hw₁ (hfind.right hmoves.frame.trace hrest.trace_suffix (le_refl _))
  | @stop s c code s₁ bs hle hw he =>
    have hstep := h.writesector (M := M) c hg (h.within ▸ hle)
    rw [← h.within, hw] at hstep
    have hlen : (data ++ c).length ≤ (data ++ (c ++ bs)).length := by
      simp only [List.length_append]
      omega
    exact absurd (hstep (hfind.mono hlen)).1 he

/-- **One write.** A write returns the number of its bytes and appends them to the contents. -/
theorem Writing.write (hg : Geometry g) (h : Writing g d₀ f e fd l data s)
    (hfind : Enough g d₀ (data ++ bs).length s (fileWrite s bs fd).2) :
    (fileWrite s bs fd).1 = bs.length ∧
      ∃ l', Writing g d₀ f e fd l' (data ++ bs) (fileWrite s bs fd).2 := by
  have hbps : s.diskInfo.bytesPerSector = 512 := by rw [h.diskInfo, hg.bytesPerSector]
  have hwithin : (s.fdtable fd).fposWithinSector < 512 := by
    rw [h.within]
    exact Nat.mod_lt _ (by decide)
  obtain ⟨code, hchunks, hcount⟩ := fileWrite_chunks (M := M) bs h.coherent hbps h.mode
    hwithin
  obtain ⟨hcode, hwriting⟩ := h.chunks hg hchunks hfind
  exact ⟨hcount hcode, hwriting⟩

end

end Z80OS
