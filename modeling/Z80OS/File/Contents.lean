import Z80OS.File.Volume

set_option relaxedAutoImplicit false
set_option autoImplicit false

/-!
# A file on the disk

The contents of a file lie in the sectors of the clusters of its chain, in this order. This file
says when a disk holds a file that has been added to an earlier disk, and what the steps of a writer
do to it: writing bytes behind the contents, appending a cluster to the chain, and replacing the
entry. None of them touches a byte that does not belong to the file.

## Main definitions

* `Z80OS.dataSector` — the `j`-th sector of a file.
* `Z80OS.FileContents` — a chain of clusters has some contents.
* `Z80OS.Touched` — the bytes of the disk that belong to a file.
* `Z80OS.NewFile` — the disk is an earlier one with a file added.

## Main results

* `Z80OS.dataSector_inj` — a file has no sector twice.
* `Z80OS.FileContents.write`, `Z80OS.FileContents.extend` — what a writer does to the contents.
* `Z80OS.NewFile.write`, `Z80OS.NewFile.extend`, `Z80OS.NewFile.replaceEntry` — the steps of a
  writer.
-/

namespace Z80OS

/-- The `j`-th sector of the file with the clusters `l`. -/
def dataSector (g : DiskInfo) (l : List ℕ) (j : ℕ) : ℕ :=
  clusterSector g (l.getD (j / g.sectorsPerCluster) 0) + j % g.sectorsPerCluster

/-- The file that starts with the given cluster has the clusters `l`, and they have the contents
`data`. -/
structure FileContents (g : DiskInfo) (d : Disk) (start : ℕ) (l : List ℕ) (data : List UInt8) :
    Prop where
  chain : LinkTable.Chain (fatEntry g d) clusterEof start l
  usable : ∀ c ∈ l, Usable g c
  room : data.length ≤ 512 * (g.sectorsPerCluster * l.length)
  content : ∀ q < data.length, (d (dataSector g l (q / 512))).get (q % 512) = data.getD q 0

/-- The bytes of the disk that belong to the file with the `f`-th entry and the clusters `l`: the
words of its clusters, its entry, and its sectors. -/
def Touched (g : DiskInfo) (f : ℕ) (l : List ℕ) (k i : ℕ) : Prop :=
  (∃ c ∈ l, InWord g c k i) ∨ InEntry g f k i ∨ ∃ c ∈ l, InCluster g c k

/-- The disk `d` is the disk `d₀` with a file added: the file has the `f`-th entry `e`, which had
been free, the clusters `l`, which had been free, and the contents `data`. -/
structure NewFile (g : DiskInfo) (d₀ d : Disk) (f : ℕ) (e : DirectoryEntry) (l : List ℕ)
    (data : List UInt8) : Prop where
  slot : f < slots g
  chain : LinkTable.Chain (fatEntry g d) clusterEof e.startingCluster l
  usable : ∀ c ∈ l, Usable g c
  fresh : ∀ c ∈ l, fatEntry g d₀ c = clusterFree
  room : data.length ≤ 512 * (g.sectorsPerCluster * l.length)
  content : ∀ q < data.length, (d (dataSector g l (q / 512))).get (q % 512) = data.getD q 0
  entry : ∀ j < 32, entryAt d g.rootRegion f j = e.toBytes.getD j 0
  frame : ∀ k i, ¬ Touched g f l k i → (d k).get i = (d₀ k).get i

variable {g : DiskInfo} {d₀ d d' : Disk} {f c k i j : ℕ} {e e' : DirectoryEntry} {l : List ℕ}
  {data bs : List UInt8}

/-! ## The sectors of a file -/

/-- The sectors of a file lie in its clusters. -/
theorem dataSector_inCluster (hpos : 0 < g.sectorsPerCluster) :
    InCluster g (l.getD (j / g.sectorsPerCluster) 0) (dataSector g l j) :=
  ⟨Nat.le_add_right .., Nat.add_lt_add_left (Nat.mod_lt _ hpos) _⟩

/-- The cluster of a sector of the file is one of the chain. -/
theorem getD_mem (hj : j < g.sectorsPerCluster * l.length) :
    l.getD (j / g.sectorsPerCluster) 0 ∈ l := by
  have hlt : j / g.sectorsPerCluster < l.length := Nat.div_lt_of_lt_mul hj
  rw [List.getD_eq_getElem _ _ hlt]
  exact List.getElem_mem hlt

/-- No sector of a file is another one of its sectors. -/
theorem dataSector_inj (hpos : 0 < g.sectorsPerCluster) (hnd : l.Nodup) (h2 : ∀ c ∈ l, 2 ≤ c)
    (hi : i < g.sectorsPerCluster * l.length) (hj : j < g.sectorsPerCluster * l.length)
    (h : dataSector g l i = dataSector g l j) : i = j := by
  have hc : l.getD (i / g.sectorsPerCluster) 0 = l.getD (j / g.sectorsPerCluster) 0 := by
    refine clusterSector_inj hpos (h2 _ (getD_mem hi)) (h2 _ (getD_mem hj))
      (dataSector_inCluster hpos) ?_
    rw [h]
    exact dataSector_inCluster hpos
  have hdiv : i / g.sectorsPerCluster = j / g.sectorsPerCluster := by
    have hi' : i / g.sectorsPerCluster < l.length := Nat.div_lt_of_lt_mul hi
    have hj' : j / g.sectorsPerCluster < l.length := Nat.div_lt_of_lt_mul hj
    rw [List.getD_eq_getElem _ _ hi', List.getD_eq_getElem _ _ hj'] at hc
    exact (List.Nodup.getElem_inj_iff hnd).mp hc
  have hmod : i % g.sectorsPerCluster = j % g.sectorsPerCluster := by
    simp only [dataSector, hc] at h
    omega
  rw [← Nat.div_add_mod i g.sectorsPerCluster, hdiv, hmod, Nat.div_add_mod]

/-- The sectors that a file has do not depend on the clusters behind them. -/
theorem dataSector_append (hj : j < g.sectorsPerCluster * l.length) :
    dataSector g (l ++ [c]) j = dataSector g l j := by
  rw [dataSector, dataSector, List.getD_append _ _ _ _ (Nat.div_lt_of_lt_mul hj)]

/-! ## The regions of the disk -/

/-- A sector of a cluster has no byte of a word of the FAT. -/
theorem InWord.not_inCluster (hg : Geometry g) (hc : InRange g c) (h : InWord g c k i) {c' : ℕ} :
    ¬ InCluster g c' k := by
  intro h'
  have := h.lt_root hc
  have := h'.data_le
  have := hg.root_lt
  omega

/-- A byte of a word of the FAT is no byte of an entry. -/
theorem InWord.not_inEntry (hc : InRange g c) (h : InWord g c k i) : ¬ InEntry g f k i := by
  intro h'
  have := h.lt_root hc
  have := h'.root_le
  omega

/-- A byte of an entry is not in the sectors of a cluster. -/
theorem InEntry.not_inCluster (hf : f < slots g) (h : InEntry g f k i) {c' : ℕ} :
    ¬ InCluster g c' k := by
  intro h'
  have := h.lt_data hf
  have := h'.data_le
  omega

/-! ## The steps of a writer -/

/-- The disk after bytes have been written into the sector in which the contents end. -/
def withData (g : DiskInfo) (d : Disk) (l : List ℕ) (n : ℕ) (bs : List UInt8) : Disk :=
  Function.update d (dataSector g l (n / 512))
    ((d (dataSector g l (n / 512))).memcpy (n % 512) bs)

/-- Data in the sector of a file changes that sector alone. -/
theorem withData_get_of_ne {n : ℕ} (h : k ≠ dataSector g l (n / 512)) :
    (withData g d l n bs k).get i = (d k).get i := by
  rw [withData, Function.update_of_ne h]

/-- The FAT after a cluster has been linked behind another one. -/
theorem fatEntry_linked_linked (hc : c < 65536) {b : ℕ} :
    fatEntry g (linked g (linked g d b c) k clusterEof) =
      Function.update (Function.update (fatEntry g d) b c) k clusterEof := by
  rw [fatEntry_linked (by decide), fatEntry_linked hc]

/-- Linking a cluster behind another one changes the words of the two. -/
theorem linked_linked_get_of_not {b w : ℕ} (hb : ¬ InWord g b k i) (hc : ¬ InWord g c k i) :
    (linked g (linked g d b c) c w k).get i = (d k).get i := by
  rw [linked_get_of_not hc, linked_get_of_not hb]

namespace FileContents

variable {start : ℕ}

/-- No cluster comes twice in the chain of a file. -/
theorem nodup (h : FileContents g d start l data) : l.Nodup := h.chain.nodup

/-- The clusters of a file are 2 and above. -/
theorem two_le (h : FileContents g d start l data) : ∀ c ∈ l, 2 ≤ c :=
  fun c hc => (h.usable c hc).two_le

/-- A byte of the file lies in one of its sectors. -/
theorem div_lt (h : FileContents g d start l data) {q : ℕ} (hq : q < data.length) :
    q / 512 < g.sectorsPerCluster * l.length := by
  have := h.room
  omega

/-- Bytes are written behind the contents, in the sector in which they end.

**Proof sketch.** The sector belongs to the last cluster with contents, so the chain is not
concerned. A byte of the old contents lies in another sector or in front of the new bytes. -/
theorem write (hg : Geometry g) (h : FileContents g d start l data)
    (hroom : data.length / 512 < g.sectorsPerCluster * l.length)
    (hbs : data.length % 512 + bs.length ≤ 512) :
    FileContents g (withData g d l data.length bs) start l (data ++ bs) := by
  have hin : InCluster g (l.getD (data.length / 512 / g.sectorsPerCluster) 0)
      (dataSector g l (data.length / 512)) := dataSector_inCluster hg.spc_pos
  refine ⟨?_, h.usable, ?_, ?_⟩
  · refine h.chain.congr fun c hc => fatEntry_congr fun k i hw => withData_get_of_ne ?_
    rintro rfl
    exact hw.not_inCluster hg (h.usable c hc).toInRange hin
  · rw [List.length_append]
    omega
  · intro q hq
    rw [List.length_append] at hq
    have hsame : ∀ {q'}, q' / 512 < g.sectorsPerCluster * l.length →
        dataSector g l (q' / 512) = dataSector g l (data.length / 512) →
        q' / 512 = data.length / 512 :=
      fun hq' he => dataSector_inj hg.spc_pos h.nodup h.two_le hq' hroom he
    rcases Nat.lt_or_ge q data.length with hlt | hge
    · rw [List.getD_append _ _ _ _ hlt, ← h.content q hlt]
      by_cases he : dataSector g l (q / 512) = dataSector g l (data.length / 512)
      · have := hsame (h.div_lt hlt) he
        rw [he, withData, Function.update_self, Sector.get_memcpy_of_not (by omega)]
      · exact withData_get_of_ne he
    · have hdiv : q / 512 = data.length / 512 := by omega
      rw [hdiv, withData, Function.update_self, Sector.get_memcpy (by omega), if_pos (by omega),
        List.getD_append_right _ _ _ _ hge]
      congr 1
      omega

/-- A cluster that the chain does not have is appended to it.

**Proof sketch.** The chain grows by `LinkTable.Chain.snoc`. The two words that change lie in front
of the root directory, so the contents are not concerned. -/
theorem extend (hg : Geometry g) (h : FileContents g d start (l ++ [c]) data) {c' : ℕ}
    (hc' : Usable g c') (hnotin : c' ∉ l ++ [c]) :
    FileContents g (linked g (linked g d c c') c' clusterEof) start (l ++ [c, c']) data := by
  have hassoc : l ++ [c, c'] = (l ++ [c]) ++ [c'] := by simp
  have hc : c ∈ l ++ [c] := by simp
  refine ⟨?_, ?_, ?_, ?_⟩
  · rw [fatEntry_linked_linked (by have := hc'.lt; omega)]
    exact h.chain.snoc hnotin (by have := hc'.lt; simp only [clusterEof]; omega)
  · rw [hassoc]
    intro b hb
    rcases List.mem_append.mp hb with hb | hb
    · exact h.usable b hb
    · exact List.mem_singleton.mp hb ▸ hc'
  · refine h.room.trans (Nat.mul_le_mul_left _ (Nat.mul_le_mul_left _ ?_))
    simp
  · intro q hq
    rw [hassoc, dataSector_append (h.div_lt hq), ← h.content q hq]
    have hin : InCluster g _ (dataSector g (l ++ [c]) (q / 512)) := dataSector_inCluster hg.spc_pos
    exact linked_linked_get_of_not (fun hw => hw.not_inCluster hg (h.usable c hc).toInRange hin)
      (fun hw => hw.not_inCluster hg hc'.toInRange hin)

/-- A file has at most `2 ^ 31` bytes. -/
theorem length_le (hg : Geometry g) (h : FileContents g d start l data) :
    data.length ≤ 2147483648 := by
  have hsub : l ⊆ List.range 32768 := fun c hc => by
    have := (h.usable c hc).lt
    rw [List.mem_range]
    omega
  have hlen : l.length ≤ 32768 := by
    have := h.nodup.length_le_of_subset hsub
    rwa [List.length_range] at this
  calc data.length ≤ 512 * (g.sectorsPerCluster * l.length) := h.room
    _ ≤ 512 * (128 * 32768) := Nat.mul_le_mul_left _ (Nat.mul_le_mul hg.spc_le hlen)
    _ = 2147483648 := by decide

end FileContents

namespace NewFile

/-- No cluster comes twice in the chain of a new file. -/
theorem nodup (h : NewFile g d₀ d f e l data) : l.Nodup := h.chain.nodup

/-- The clusters of a new file are 2 and above. -/
theorem two_le (h : NewFile g d₀ d f e l data) : ∀ c ∈ l, 2 ≤ c :=
  fun c hc => (h.usable c hc).two_le

/-- The contents of the file. -/
theorem contents (h : NewFile g d₀ d f e l data) :
    FileContents g d e.startingCluster l data := ⟨h.chain, h.usable, h.room, h.content⟩

/-- A byte of the file lies in one of its sectors. -/
theorem div_lt (h : NewFile g d₀ d f e l data) {q : ℕ} (hq : q < data.length) :
    q / 512 < g.sectorsPerCluster * l.length := h.contents.div_lt hq

/-- Bytes are written behind the contents, in the sector in which they end.

**Proof sketch.** `FileContents.write`. The sector belongs to the last cluster with contents, so the
entry and the frame are not concerned. -/
theorem write (hg : Geometry g) (h : NewFile g d₀ d f e l data)
    (hroom : data.length / 512 < g.sectorsPerCluster * l.length)
    (hbs : data.length % 512 + bs.length ≤ 512) :
    NewFile g d₀ (withData g d l data.length bs) f e l (data ++ bs) := by
  have hin : InCluster g (l.getD (data.length / 512 / g.sectorsPerCluster) 0)
      (dataSector g l (data.length / 512)) := dataSector_inCluster hg.spc_pos
  have hmem := getD_mem hroom
  obtain ⟨hchain, husable, hroom', hcontent⟩ := h.contents.write hg hroom hbs
  refine ⟨h.slot, hchain, husable, h.fresh, hroom', hcontent, ?_, ?_⟩
  · intro j hj
    rw [← h.entry j hj]
    refine entryAt_congr hg h.slot (fun k i hk => withData_get_of_ne ?_) hj
    rintro rfl
    exact hk.not_inCluster h.slot hin
  · intro k i hk
    rw [← h.frame k i hk]
    refine withData_get_of_ne ?_
    rintro rfl
    exact hk (.inr (.inr ⟨_, hmem, hin⟩))

/-- A free cluster is appended to the chain.

**Proof sketch.** A free cluster is not on the chain, so `FileContents.extend` appends it. The two
words that change belong to the file, before and after. -/
theorem extend (hg : Geometry g) (h : NewFile g d₀ d f e (l ++ [c]) data) {c' : ℕ}
    (hc' : Usable g c') (hfree : fatEntry g d c' = clusterFree) :
    NewFile g d₀ (linked g (linked g d c c') c' clusterEof) f e (l ++ [c, c']) data := by
  have hzero : ∀ b ∈ l ++ [c], fatEntry g d b ≠ clusterFree := fun b hb =>
    h.chain.next_ne (fun h0 => absurd (h.two_le _ h0) (by decide)) (by decide) hb
  have hnotin : c' ∉ l ++ [c] := fun hin => hzero c' hin hfree
  have hassoc : l ++ [c, c'] = (l ++ [c]) ++ [c'] := by simp
  have hc : c ∈ l ++ [c] := by simp
  have hfresh : fatEntry g d₀ c' = clusterFree := by
    rw [← hfree]
    refine (fatEntry_congr fun k i hw => h.frame k i ?_).symm
    rintro (⟨b, hb, hwb⟩ | hent | ⟨b, hb, hcl⟩)
    · exact hnotin (hw.inj hwb ▸ hb)
    · exact hw.not_inEntry hc'.toInRange hent
    · exact hw.not_inCluster hg hc'.toInRange hcl
  obtain ⟨hchain, husable, hroom, hcontent⟩ := h.contents.extend hg hc' hnotin
  refine ⟨h.slot, hchain, husable, ?_, hroom, hcontent, ?_, ?_⟩
  · rw [hassoc]
    intro b hb
    rcases List.mem_append.mp hb with hb | hb
    · exact h.fresh b hb
    · exact List.mem_singleton.mp hb ▸ hfresh
  · intro j hj
    rw [← h.entry j hj]
    exact entryAt_congr hg h.slot (fun k i hk => linked_linked_get_of_not
      (fun hw => hw.not_inEntry (h.usable c hc).toInRange hk)
      (fun hw => hw.not_inEntry hc'.toInRange hk)) hj
  · intro k i hk
    rw [← h.frame k i ?_]
    · exact linked_linked_get_of_not (fun hw => hk (.inl ⟨c, by simp, hw⟩))
        (fun hw => hk (.inl ⟨c', by simp, hw⟩))
    · rintro (⟨b, hb, hw⟩ | hent | ⟨b, hb, hcl⟩)
      · exact hk (.inl ⟨b, by rw [hassoc]; exact List.mem_append_left _ hb, hw⟩)
      · exact hk (.inr (.inl hent))
      · exact hk (.inr (.inr ⟨b, by rw [hassoc]; exact List.mem_append_left _ hb, hcl⟩))

/-- The entry is replaced by another one with the same first cluster. -/
theorem replaceEntry (hg : Geometry g) (h : NewFile g d₀ d f e l data)
    (hstart : e'.startingCluster = e.startingCluster) :
    NewFile g d₀ (withEntry g d f e'.toBytes) f e' l data := by
  have hget : ∀ k i, ¬ InEntry g f k i →
      (withEntry g d f e'.toBytes k).get i = (d k).get i :=
    fun k i => withEntry_get_of_not hg h.slot (by simp)
  refine ⟨h.slot, ?_, h.usable, h.fresh, h.room, ?_, ?_, ?_⟩
  · rw [hstart]
    exact h.chain.congr fun c hc => fatEntry_congr fun k i hw =>
      hget k i (hw.not_inEntry (h.usable c hc).toInRange)
  · intro q hq
    rw [← h.content q hq]
    exact hget _ _ fun hent => hent.not_inCluster h.slot (dataSector_inCluster hg.spc_pos)
  · intro j hj
    rw [entryAt_withEntry hj, if_pos (by simpa using hj)]
  · intro k i hk
    rw [hget k i fun hent => hk (.inr (.inl hent)), h.frame k i hk]

/-- A disk with a new, empty file that has one cluster. -/
theorem create (hg : Geometry g) (hf : f < slots g) (hc : Usable g e.startingCluster)
    (hfree : fatEntry g d₀ e.startingCluster = clusterFree) :
    NewFile g d₀ (withEntry g (linked g d₀ e.startingCluster clusterEof) f e.toBytes) f e
      [e.startingCluster] [] := by
  have hget : ∀ k i, ¬ InEntry g f k i →
      (withEntry g (linked g d₀ e.startingCluster clusterEof) f e.toBytes k).get i =
        (linked g d₀ e.startingCluster clusterEof k).get i :=
    fun k i => withEntry_get_of_not hg hf (by simp)
  refine ⟨hf, ?_, ?_, ?_, by simp, by simp, ?_, ?_⟩
  · refine LinkTable.chain_singleton ?_ ?_
    · have := hc.lt
      simp only [clusterEof]
      omega
    · have hw : fatEntry g (withEntry g (linked g d₀ e.startingCluster clusterEof) f e.toBytes)
          e.startingCluster = fatEntry g (linked g d₀ e.startingCluster clusterEof)
            e.startingCluster :=
        fatEntry_congr fun k i hw => hget k i (hw.not_inEntry hc.toInRange)
      rw [hw, fatEntry_linked (by decide), Function.update_self]
  · exact fun c hmem => List.mem_singleton.mp hmem ▸ hc
  · exact fun c hmem => List.mem_singleton.mp hmem ▸ hfree
  · intro j hj
    rw [entryAt_withEntry hj, if_pos (by simpa using hj)]
  · intro k i hk
    rw [hget k i fun hent => hk (.inr (.inl hent)),
      linked_get_of_not fun hw => hk (.inl ⟨_, List.mem_singleton_self _, hw⟩)]

end NewFile

end Z80OS
