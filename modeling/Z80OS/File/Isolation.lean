import Z80OS.File.Session

set_option relaxedAutoImplicit false
set_option autoImplicit false

/-!
# Isolation of files

Creating and writing a file does not change the other files, and the new file shares no cluster with
them.

## Main definitions

* `Z80OS.KeepsFile` — a step of the disk keeps a file.

## Main results

* `Z80OS.NewFile.keepsFile` — a disk with a file added keeps the files that it had.
* `Z80OS.file_isolation` — creating a file keeps the other files.
-/

namespace Z80OS

/-- Between the disks `d` and `d'` the `i`-th entry, the words of its chain and the sectors of its
clusters have not changed. -/
structure KeepsFile (g : DiskInfo) (d d' : Disk) (i : ℕ) : Prop where
  entry : ∀ j < 32, entryAt d' g.rootRegion i j = entryAt d g.rootRegion i j
  chain : ∀ l, HasChain g d i l → ∀ c ∈ l, fatEntry g d' c = fatEntry g d c
  sectors : ∀ l, HasChain g d i l → ∀ c ∈ l, ∀ k, InCluster g c k → d' k = d k

section

variable {g : DiskInfo} {d₀ d d' : Disk} {f i : ℕ} {e : DirectoryEntry} {l m : List ℕ}
  {data name : List UInt8}

/-- The first cluster of a kept file is the same. -/
theorem KeepsFile.hasChain (h : KeepsFile g d d' i) (hl : HasChain g d i l) :
    HasChain g d' i l := by
  rw [HasChain, h.entry 26 (by decide), h.entry 27 (by decide)]
  exact LinkTable.Chain.congr hl (h.chain l hl)

/-- No cluster of a chain in range is free. -/
theorem HasChain.ne_free (h : HasChain g d i l) (hr : ∀ c ∈ l, InRange g c) :
    ∀ c ∈ l, fatEntry g d c ≠ clusterFree := fun _ hc =>
  LinkTable.Chain.next_ne h (fun h0 => absurd (hr _ h0).two_le (by decide)) (by decide) hc

/-- An entry that can be taken is not one of a file. -/
theorem IsFile.not_takable (h : IsFile g d i) : ¬ Takable (entryAt d g.rootRegion i) := by
  rintro (h0 | hdel)
  · exact h.used h0
  · have hfile := h.file
    rw [skipsEntry, hdel] at hfile
    simp at hfile

/-- The place of a new file is not one of a file that is there. -/
theorem Placed.ne (h : Placed g d name f) (hi : IsFile g d i) : i ≠ f := by
  rintro rfl
  exact hi.not_takable h.takable.2

namespace NewFile

/-- The clusters of the new file are not clusters of the files that were there. -/
theorem disjoint (h : NewFile g d₀ d f e l data) (hm : HasChain g d₀ i m)
    (hr : ∀ c ∈ m, InRange g c) : l.Disjoint m :=
  fun c hl hc => hm.ne_free hr c hc (h.fresh c hl)

/-- The other entries of the root directory are unchanged. -/
theorem entry_of_ne {j : ℕ} (hg : Geometry g) (h : NewFile g d₀ d f e l data) (hi : i < slots g)
    (hne : i ≠ f) (hj : j < 32) :
    entryAt d g.rootRegion i j = entryAt d₀ g.rootRegion i j := by
  refine entryAt_congr hg hi (fun k b hk => h.frame k b ?_) hj
  rintro (⟨c, hc, hw⟩ | hent | ⟨c, hc, hcl⟩)
  · exact hw.not_inEntry (h.usable c hc).toInRange hk
  · exact hne (hk.inj hent)
  · exact hk.not_inCluster hi hcl

/-- **A file is added without touching the others.**

**Proof sketch.** A byte that changes belongs to the new file. A byte of another file lies in
another word, another entry or another cluster. -/
theorem keepsFile (hg : Geometry g) (h : NewFile g d₀ d f e l data) (hi : i < slots g) (hne : i ≠ f)
    (hr : ∀ m, HasChain g d₀ i m → ∀ c ∈ m, InRange g c) : KeepsFile g d₀ d i := by
  refine ⟨fun j hj => h.entry_of_ne hg hi hne hj, fun m hm c hc => ?_, fun m hm c hc k hk => ?_⟩
  · refine fatEntry_congr fun k b hw => h.frame k b ?_
    rintro (⟨c', hc', hw'⟩ | hent | ⟨c', hc', hcl⟩)
    · exact h.disjoint hm (hr m hm) hc' (hw.inj hw' ▸ hc)
    · exact hw.not_inEntry (hr m hm c hc) hent
    · exact hw.not_inCluster hg (hr m hm c hc) hcl
  · refine Sector.ext_get fun b _ => h.frame k b ?_
    rintro (⟨c', hc', hw'⟩ | hent | ⟨c', hc', hcl⟩)
    · exact hw'.not_inCluster hg (h.usable c' hc').toInRange hk
    · exact hent.not_inCluster h.slot hk
    · have heq := clusterSector_inj hg.spc_pos (hr m hm c hc).two_le (h.two_le c' hc') hk hcl
      exact h.disjoint hm (hr m hm) hc' (heq ▸ hc)

end NewFile

/-! ## The files of the new disk -/

/-- Whether an entry is one of a file, and of which, depends on its bytes. -/
theorem IsFile.congr (h : IsFile g d i)
    (he : ∀ j < 32, entryAt d' g.rootRegion i j = entryAt d g.rootRegion i j) : IsFile g d' i :=
  ⟨h.lt, by rw [he 0 (by decide)]; exact h.used,
    by rw [skipsEntry_congr fun j hj => he j (by omega)]; exact h.file⟩

/-- The name of a file is told by its entry. -/
theorem fileName_congr
    (he : ∀ j < 32, entryAt d' g.rootRegion i j = entryAt d g.rootRegion i j) :
    fileName g d' i = fileName g d i := filesystemFilename_congr fun j hj => he j (by omega)

namespace NewFile

/-- The new file is a file of the disk, with its name and its chain. -/
theorem isFile (h : NewFile g d₀ d f e l data) (hn : Names (fun j => e.toBytes.getD j 0) name) :
    IsFile g d f ∧ fileName g d f = name := by
  have hn' : Names (entryAt d g.rootRegion f) name :=
    hn.congr fun j hj => h.entry j (by omega)
  exact ⟨⟨h.slot, hn'.used, hn'.file⟩, hn'.name_eq⟩

/-- The first cluster of a new file fits into the word of its entry. -/
theorem startingCluster_lt (h : NewFile g d₀ d f e l data) (hpos : 0 < l.length) :
    e.startingCluster < 65536 := by
  obtain ⟨c, l', rfl⟩ := List.exists_cons_of_length_pos hpos
  have hlt := (h.usable c List.mem_cons_self).lt
  have hc : e.startingCluster = c := h.chain.1
  omega

/-- The chain of a new file is the one of its entry. -/
theorem hasChain (h : NewFile g d₀ d f e l data) (hpos : 0 < l.length) : HasChain g d f l := by
  have hofBytes := DirectoryEntry.ofBytes_startingCluster h.entry
  rw [Nat.mod_eq_of_lt (h.startingCluster_lt hpos)] at hofBytes
  rw [HasChain, show word16 _ _ = e.startingCluster from hofBytes]
  exact h.chain

/-- Another file of the new disk had been there. -/
theorem isFile_of_ne (hg : Geometry g) (h : NewFile g d₀ d f e l data) (hi : IsFile g d i)
    (hne : i ≠ f) : IsFile g d₀ i ∧ fileName g d i = fileName g d₀ i :=
  ⟨hi.congr fun _ hj => (h.entry_of_ne hg hi.lt hne hj).symm,
    fileName_congr fun _ hj => h.entry_of_ne hg hi.lt hne hj⟩

/-- A name that had not been there and that is not the one of the new file is not there. -/
theorem absent {other : List UInt8} (hg : Geometry g) (h : NewFile g d₀ d f e l data)
    (hn : Names (fun j => e.toBytes.getD j 0) name) (habs : Absent g d₀ other)
    (hne : other ≠ name) : Absent g d other := by
  intro i hi
  by_cases hif : i = f
  · rw [hif, (h.isFile hn).2]
    exact hne.symm
  · obtain ⟨hold, hname⟩ := h.isFile_of_ne hg hi hif
    rw [hname]
    exact habs i hold

/-- The end marker moves by at most one entry. -/
theorem endsAt {z : ℕ} (hg : Geometry g) (h : NewFile g d₀ d f e l data)
    (hn : Names (fun j => e.toBytes.getD j 0) name) (hz : EndsAt g d₀ z) (hfz : f ≤ z)
    (hlt : z + 1 < slots g) : ∃ z' ≤ z + 1, EndsAt g d z' := by
  have hused := (h.isFile hn).1.used
  have hother : ∀ {i}, i < slots g → i ≠ f →
      entryAt d g.rootRegion i 0 = entryAt d₀ g.rootRegion i 0 :=
    fun hi hne => h.entry_of_ne hg hi hne (by decide)
  have hbefore : ∀ i ≤ z, i ≠ z ∨ i = f → entryAt d g.rootRegion i 0 ≠ 0 := by
    intro i hi hiz
    by_cases hif : i = f
    · rw [hif]
      exact hused
    · rw [hother (by omega) hif]
      exact hz.before i (by omega)
  rcases Nat.lt_or_ge f z with hf | hf
  · refine ⟨z, Nat.le_succ z, hz.lt, fun i hi => hbefore i hi.le (.inl hi.ne), fun i hi hs => ?_⟩
    rw [hother hs (by omega)]
    exact hz.behind i hi hs
  · refine ⟨z + 1, le_refl _, hlt, fun i hi => hbefore i (by omega) (by omega), fun i hi hs => ?_⟩
    rw [hother hs (by omega)]
    exact hz.behind i (by omega) hs

/-- **A disk with a file added is well-formed**, if there is room for another end marker.

**Proof sketch.** A file of the new disk is the new one, with the new chain, or an old one with its
old chain (`KeepsFile`). The new chain is disjoint from the old ones and its name is none of theirs,
so that disjointness and distinct names are checked for two files by whether either is the new
one. -/
theorem wellFormed {z : ℕ} (h : NewFile g d₀ d f e l data)
    (hn : Names (fun j => e.toBytes.getD j 0) name) (hwf : WellFormed g d₀) (hz : EndsAt g d₀ z)
    (hfz : f ≤ z) (hlt : z + 2 < slots g) (hp : Placed g d₀ name f) (habs : Absent g d₀ name)
    (hpos : 0 < l.length)
    (hr : ∀ i, IsFile g d₀ i → ∀ m, HasChain g d₀ i m → ∀ c ∈ m, InRange g c) :
    WellFormed g d ∧ ∀ i, IsFile g d i → ∀ m, HasChain g d i m → ∀ c ∈ m, InRange g c := by
  have hg := hwf.geometry
  -- the chain of a file is the new one, or one that has been there
  have hchain : ∀ i, IsFile g d i → ∃ m, HasChain g d i m ∧
      (i = f ∧ m = l ∨ i ≠ f ∧ IsFile g d₀ i ∧ HasChain g d₀ i m) := by
    intro i hi
    by_cases hif : i = f
    · exact ⟨l, hif ▸ h.hasChain hpos, .inl ⟨hif, rfl⟩⟩
    · have hold := (h.isFile_of_ne hg hi hif).1
      obtain ⟨m, hm⟩ := hwf.chain i hold
      exact ⟨m, (h.keepsFile hg hi.lt (hp.ne hold) (hr i hold)).hasChain hm, .inr ⟨hif, hold, hm⟩⟩
  obtain ⟨z', hz', hends⟩ := h.endsAt hg hn hz hfz (by omega)
  refine ⟨⟨hg, ⟨z', hends, by omega⟩, fun i hi => (hchain i hi).imp fun m hm => hm.1, ?_, ?_⟩, ?_⟩
  · intro i j hi hj hne m m' hm hm'
    obtain ⟨mi, hmi, hci⟩ := hchain i hi
    obtain ⟨mj, hmj, hcj⟩ := hchain j hj
    obtain rfl := LinkTable.Chain.unique hm hmi
    obtain rfl := LinkTable.Chain.unique hm' hmj
    rcases hci with ⟨rfl, rfl⟩ | ⟨hif, hoi, hci⟩
    · rcases hcj with ⟨rfl, rfl⟩ | ⟨-, hoj, hcj⟩
      · exact absurd rfl hne
      · exact h.disjoint hcj (hr j hoj m' hcj)
    · rcases hcj with ⟨rfl, rfl⟩ | ⟨-, hoj, hcj⟩
      · exact List.disjoint_symm (h.disjoint hci (hr i hoi m hci))
      · exact hwf.disjoint i j hoi hoj hne m m' hci hcj
  · intro i j hi hj hname
    by_cases hif : i = f
    · by_cases hjf : j = f
      · rw [hif, hjf]
      · obtain ⟨hoj, hnj⟩ := h.isFile_of_ne hg hj hjf
        rw [hif, (h.isFile hn).2, hnj] at hname
        exact absurd hname.symm (habs j hoj)
    · obtain ⟨hoi, hni⟩ := h.isFile_of_ne hg hi hif
      by_cases hjf : j = f
      · rw [hjf, (h.isFile hn).2, hni] at hname
        exact absurd hname (habs i hoi)
      · obtain ⟨hoj, hnj⟩ := h.isFile_of_ne hg hj hjf
        exact hwf.distinct i j hoi hoj (by rw [← hni, ← hnj, hname])
  · intro i hi m hm
    obtain ⟨m', hm', hc⟩ := hchain i hi
    obtain rfl := LinkTable.Chain.unique hm hm'
    rcases hc with ⟨rfl, rfl⟩ | ⟨-, hold, hc⟩
    · exact fun c hc => (h.usable c hc).toInRange
    · exact hr i hold m hc

end NewFile

end

/-- **Isolation of files.** Let the driver have been initialised and have made any calls since, and
let the disk be well-formed, with the clusters of its files in range, and not have the name. When
every search for a free cluster finds one, creating, writing and closing a file keeps every other
file. The chain of the new file ends, is acyclic, and is disjoint from the other chains.

**Proof sketch.** The session ends in a disk with the file added, by `writeSession_stored`. The
clusters of the new file were free, and a cluster of another file is not free. -/
theorem file_isolation {M : Machine} {s₀ s : FileState} {calls : List FileCall}
    {answers : List FileAnswer} {filename : List UInt8} {chunks : List (List UInt8)}
    (hrun : Run.exec call (filesystemInit s₀) calls = some (answers, s))
    (hwf : WellFormed s.diskInfo s.disk)
    (hrange : ∀ i, IsFile s.diskInfo s.disk i → ∀ l, HasChain s.diskInfo s.disk i l →
      ∀ c ∈ l, InRange s.diskInfo c)
    (hvalid : ValidName (cString filename))
    (habs : Absent s.diskInfo s.disk (filenameUpper filename))
    (hfind : Run.Always call (fun t _ _ t' => AllocationsFind s.diskInfo t t') s
      (writeSession filename chunks)) :
    ∃ s' f l, Run.exec call s (writeSession filename chunks) = some (writeAnswers chunks, s') ∧
      (∀ i, IsFile s.diskInfo s.disk i → KeepsFile s.diskInfo s.disk s'.disk i) ∧
      IsFile s.diskInfo s'.disk f ∧ fileName s.diskInfo s'.disk f = filenameUpper filename ∧
      HasChain s.diskInfo s'.disk f l ∧ l.Nodup ∧
      ∀ i, IsFile s.diskInfo s'.disk i → i ≠ f → ∀ m, HasChain s.diskInfo s'.disk i m →
        l.Disjoint m := by
  obtain ⟨hs, -⟩ := run_sound hrun
  obtain ⟨z, hz, -⟩ := hwf.ends
  have hg := hwf.geometry
  obtain ⟨s', f, e, l, hwrite, -, hst, -, -, heager, -⟩ :=
    writeSession_stored hs (run_flagsClear hrun) rfl hg hz hvalid habs
      (hfind.mono fun _ _ _ _ => .inl)
  have hkeeps : ∀ i, IsFile s.diskInfo s.disk i → KeepsFile s.diskInfo s.disk s'.disk i :=
    fun i hi => hst.file.keepsFile hg hi.lt (hst.placed.ne hi) (hrange i hi)
  obtain ⟨hfile, hname⟩ := hst.file.isFile hst.names
  refine ⟨s', f, l, hwrite, hkeeps, hfile, hname, hst.file.hasChain (heager ▸ Nat.succ_pos _),
    hst.file.nodup, ?_⟩
  intro i hi hne m hm
  -- another file of the new disk was a file of the old one, with the same chain
  have hold := (hst.file.isFile_of_ne hg hi hne).1
  obtain ⟨m', hm'⟩ := hwf.chain i hold
  obtain rfl : m = m' := LinkTable.Chain.unique hm ((hkeeps i hold).hasChain hm')
  exact hst.file.disjoint hm' (hrange i hold m hm')

/-! ## A small disk -/

section

attribute [local instance] Machine.linked

/-- The second file of a small disk: creating it keeps the first one.

**Proof sketch.** The formatted disk is well-formed and has no file. The first session leaves one
file on it (`writeSession_stored`), after which the disk is well-formed again
(`NewFile.wellFormed`); that every search for a free cluster in both sessions finds one is decided
by running them. -/
theorem file_isolation_second :
    ∃ s s' f l,
      Run.exec call smallState (writeSession nameAB [[1], [2]]) =
        some (writeAnswers [[1], [2]], s) ∧
      (∃ i, IsFile s.diskInfo s.disk i) ∧
      Run.exec call s (writeSession nameCD [[3]]) = some (writeAnswers [[3]], s') ∧
      (∀ i, IsFile s.diskInfo s.disk i → KeepsFile s.diskInfo s.disk s'.disk i) ∧
      IsFile s.diskInfo s'.disk f ∧ fileName s.diskInfo s'.disk f = filenameUpper nameCD ∧
      HasChain s.diskInfo s'.disk f l ∧ l.Nodup ∧
      ∀ i, IsFile s.diskInfo s'.disk i → i ≠ f → ∀ m, HasChain s.diskInfo s'.disk i m →
        l.Disjoint m := by
  have hwf : WellFormed smallState.diskInfo smallState.disk :=
    wellFormed_formattedDisk (by decide) (by decide) (by decide) (by decide) (by decide)
      (by decide)
  have hz : EndsAt smallState.diskInfo smallState.disk 0 :=
    endsAt_formattedDisk (by decide) (by decide) (by decide) (by decide) (by decide)
  have hnone : ∀ {i}, ¬ IsFile smallState.diskInfo smallState.disk i :=
    not_isFile_formattedDisk (by decide) (by decide) (by decide) (by decide)
  have hrun : Run.exec call (filesystemInit (.zeroed (formattedDisk 1 1 1))) [] =
      some ([], smallState) := rfl
  have hfind : ∀ {s calls}, Run.check call (fun t _ _ t' => staysFree smallState.diskInfo 255 t t')
      s calls = true →
      Run.Always call (fun t _ _ t' => AllocationsFind smallState.diskInfo t t') s calls := fun h =>
    Run.Always.of_check (fun _ _ _ _ => AllocationsFind.of_staysFree (by decide) (by decide)) h
  -- the first session
  have hfirst :
      Run.Always call (fun t _ _ t' => AllocationsFind smallState.diskInfo t t') smallState
      (writeSession nameAB [[1], [2]]) := hfind (by decide +kernel)
  obtain ⟨s, f, e, l, hwrite, hfz, hst, -, -, heager, -⟩ := writeSession_stored (run_sound hrun).1
    (run_flagsClear hrun) rfl hwf.geometry hz validName_nameAB (fun i hi => absurd hi hnone)
    (hfirst.mono fun _ _ _ _ => .inl)
  obtain ⟨hwf', hrange⟩ := hst.file.wellFormed hst.names hwf hz hfz (by decide) hst.placed
    (fun i hi => absurd hi hnone) (heager ▸ Nat.succ_pos _) fun i hi => absurd hi hnone
  have habs : Absent smallState.diskInfo s.disk (filenameUpper nameCD) :=
    hst.file.absent hwf.geometry hst.names (fun i hi => absurd hi hnone) (by decide)
  -- the second session
  have hcheck : ((Run.exec call smallState (writeSession nameAB [[1], [2]])).map fun r =>
      Run.check call (fun t _ _ t' => staysFree smallState.diskInfo 255 t t') r.2
        (writeSession nameCD [[3]])) = some true := by decide +kernel
  rw [hwrite, Option.map_some, Option.some.injEq] at hcheck
  rw [← hst.diskInfo] at hwf' hrange habs hfind hcheck
  obtain ⟨s', f', l', h⟩ := file_isolation
    (show Run.exec call (filesystemInit (.zeroed (formattedDisk 1 1 1))) _ = _ from hwrite)
    hwf' hrange validName_nameCD habs (hfind hcheck)
  refine ⟨s, s', f', l', hwrite, ⟨f, ?_⟩, h⟩
  rw [hst.diskInfo]
  exact (hst.file.isFile hst.names).1

end

end Z80OS
