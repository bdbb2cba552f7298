import Z80OS.File.Allocation
import Z80OS.File.Format

set_option relaxedAutoImplicit false
set_option autoImplicit false

/-!
# Failing calls and the disk

A call that creates a file allocates its first cluster before it looks at the form of the name and
before it looks for room in the directory. When one of these fails, the cluster stays allocated.
In every other case a failing call leaves the disk alone.

## Main definitions

* `Z80OS.LosesCluster` — the states in which a creation fails after the allocation.

## Main results

* `Z80OS.fileOpenWrite_error_disk` — the disk after a creation that fails.
* `Z80OS.failed_create_keeps_disk_iff` — when `file_open` and `file_new` that fail leave the disk
  alone.
-/

namespace Z80OS

/-- The word of a cluster is the end mark already, in those bytes that lie in its sector. -/
def WordMarked (info : DiskInfo) (d : Disk) (cluster : ℕ) : Prop :=
  ∀ i, fatOffsetOf info cluster ≤ i → i < fatOffsetOf info cluster + 2 → i < 512 →
    (d (fatSectorOf info cluster)).get i = 0xff

/-- The disk with the end mark in the word of a cluster. -/
def markedDisk (info : DiskInfo) (d : Disk) (cluster : ℕ) : Disk :=
  Function.update d (fatSectorOf info cluster)
    ((d (fatSectorOf info cluster)).memcpy (fatOffsetOf info cluster) (bytes16 clusterEof))

/-- A creation through the descriptor fails after it has allocated a cluster: the name is not in
the directory, there is a free cluster whose word is not the end mark, and then the name has no dot
or no entry of the root directory can be taken. -/
structure LosesCluster [Machine] (s : FileState) (fd : Fin fileLimit) : Prop where
  missing : ∃ n, s.StopsAt (s.fdtable fd).name n ∧ s.rootEntry n 0 = 0
  found : freeCluster s ≠ 0
  unmarked : ¬ WordMarked s.diskInfo s.disk (freeCluster s)
  rejected : 0x2e ∉ (s.fdtable fd).name ∨
    DirectoryFull s.diskInfo (markedDisk s.diskInfo s.disk (freeCluster s))

section

variable {M : Machine} {s s' : FileState} {fd : Fin fileLimit} {filename : List UInt8}
  {e : FileError}

/-- Writing the end mark changes the disk unless it is there already. -/
theorem markedDisk_eq_iff {info : DiskInfo} {d : Disk} {c : ℕ} :
    markedDisk info d c = d ↔ WordMarked info d c := by
  have hbytes : ∀ i, fatOffsetOf info c ≤ i → i < fatOffsetOf info c + 2 →
      (bytes16 clusterEof).getD (i - fatOffsetOf info c) 0 = 0xff := by
    intro i h₁ h₂
    have hi : i - fatOffsetOf info c = 0 ∨ i - fatOffsetOf info c = 1 := by omega
    rcases hi with hi | hi <;> rw [hi] <;> rfl
  constructor
  · intro h i h₁ h₂ h₃
    have hs := congrFun h (fatSectorOf info c)
    rw [markedDisk, Function.update_self] at hs
    rw [← hs, Sector.get_memcpy h₃, if_pos ⟨h₁, h₂⟩, hbytes i h₁ h₂]
  · intro h
    refine Function.update_eq_self_iff.mpr (Sector.ext_get fun i hi => ?_)
    rw [Sector.get_memcpy hi]
    split_ifs with hin
    · rw [hbytes i hin.1 hin.2, h i hin.1 hin.2 hi]
    · rfl

/-- A name without a dot cannot be split, and no other. -/
theorem splitName_eq_none {name : List UInt8} : splitName name = none ↔ 0x2e ∉ name := by
  unfold splitName
  split_ifs with h <;> simp [h]

/-- The state after a first cluster has been allocated. -/
theorem allocated_disk {n c : ℕ} (h : s.Coherent)
    (ha : fatAllocateStartCluster (s.lookedAt n) = (c, s')) (hc : c ≠ 0) :
    c = freeCluster s ∧ s'.disk = markedDisk s.diskInfo s.disk c ∧
      s'.diskInfo = s.diskInfo ∧ s'.Coherent := by
  obtain ⟨hc', ⟨h0, -⟩ | ⟨-, rfl⟩⟩ := fatAllocateStartCluster_cases FileState.coherent_cached ha
  · exact absurd h0 hc
  · exact ⟨hc'.trans (freeCluster_cached h), rfl, rfl, FileState.coherent_link⟩

/-- **The disk after a creation that fails** is the disk before it, unless the creation fails after
the allocation.

**Proof sketch.** The ways in which a creation fails are gone through. When the name exists or
there is no free cluster, nothing has been written and a hypothesis of `LosesCluster` fails. When
the name has no dot or there is no room, one word has been written. -/
theorem fileOpenWrite_error_disk (hs : s.Sound)
    (h : fileOpenWrite s fd = some (.error e, s')) :
    s'.disk = s.disk ↔ ¬ LosesCluster s fd := by
  cases fileOpenWrite_cases h with
  | «exists» hget =>
    obtain ⟨n, hn, rfl, ⟨-, he⟩ | ⟨h0, -⟩⟩ := filesystemGetDirectoryEntry_cases hs hget
    · simp at he
    · refine ⟨fun _ hl => ?_, fun _ => rfl⟩
      obtain ⟨m, hm, hm0⟩ := hl.missing
      rw [← hn.unique hm] at hm0
      exact h0 hm0
  | diskFull hget halloc =>
    obtain ⟨n, hn, rfl, -⟩ := filesystemGetDirectoryEntry_cases hs hget
    obtain ⟨hc, ⟨-, j, rfl⟩ | ⟨h0, -⟩⟩ :=
      fatAllocateStartCluster_cases FileState.coherent_cached halloc
    · refine ⟨fun _ hl => hl.found ?_, fun _ => rfl⟩
      rw [hc]
      exact (freeCluster_cached hs.coherent).symm
    · exact absurd rfl h0
  | badName hget halloc hc hsplit =>
    obtain ⟨n, hn, rfl, ⟨h0, -⟩ | ⟨-, he⟩⟩ := filesystemGetDirectoryEntry_cases hs hget
    · obtain ⟨rfl, hd, -⟩ := allocated_disk hs.coherent halloc hc
      have hfd := (allocated_frame halloc).fdtable_eq
      have hname : 0x2e ∉ (s.fdtable fd).name := by
        rw [splitName_eq_none, hfd] at hsplit
        exact hsplit
      rw [hd, markedDisk_eq_iff]
      exact ⟨fun hm hl => hl.unmarked hm,
        fun hl => by_contra fun hm => hl ⟨⟨n, hn, h0⟩, hc, hm, .inl hname⟩⟩
    · simp at he
  | dirFull hget halloc hc hsplit hcreate =>
    obtain ⟨n, hn, rfl, ⟨h0, -⟩ | ⟨-, he⟩⟩ := filesystemGetDirectoryEntry_cases hs hget
    · obtain ⟨rfl, hd, hi, hcoh⟩ := allocated_disk hs.coherent halloc hc
      obtain ⟨-, hfull, j, rfl⟩ | ⟨hb, -⟩ := fileCreate_cases ⟨hcoh, hi ▸ hs.root_lt⟩ hcreate
      · rw [hi, hd] at hfull
        rw [FileState.cached_disk, hd, markedDisk_eq_iff]
        exact ⟨fun hm hl => hl.unmarked hm,
          fun hl => by_contra fun hm => hl ⟨⟨n, hn, h0⟩, hc, hm, .inr hfull⟩⟩
      · simp at hb
    · simp at he

/-- **When a failing call leaves the disk alone.** After any run from the initialisation, a
`file_open` or `file_new` that fails leaves every sector as it was, if and only if it does not
create a file in a state in which a creation loses a cluster.

**Proof sketch.** Both calls create a file with `file_open_write` on the descriptor that they have
named, and what they do besides leaves the disk. An error of this one leaves the disk exactly when
no cluster is lost (`fileOpenWrite_error_disk`). The other errors come in front of any store. -/
theorem failed_create_keeps_disk_iff {s₀ : FileState} {calls : List FileCall}
    {answers : List FileAnswer}
    (hrun : Run.exec call (filesystemInit s₀) calls = some (answers, s)) (filename : List UInt8)
    (mode : UInt8) :
    (∀ e s', fileOpen s filename mode = some (.error e, s') →
      (s'.disk = s.disk ↔ ¬ (mode = fmodeWrite ∧
        ∃ fd, filesystemAssignFd s = some fd ∧ LosesCluster (s.named fd filename) fd))) ∧
    (∀ e s', fileNew s filename = some (.error e, s') →
      (s'.disk = s.disk ↔ ¬ ∃ fd, filesystemAssignFd s = some fd ∧
        LosesCluster (s.named fd filename) fd)) := by
  have hsound := (run_sound hrun).1
  have hnamed : ∀ fd, (s.named fd filename).Sound :=
    fun _ => ⟨hsound.coherent, hsound.root_lt⟩
  have hcreate : ∀ {fd e s₁}, filesystemAssignFd s = some fd →
      fileOpenWrite (s.named fd filename) fd = some (.error e, s₁) →
      (s₁.disk = s.disk ↔ ¬ ∃ fd, filesystemAssignFd s = some fd ∧
        LosesCluster (s.named fd filename) fd) := by
    intro fd e s₁ hfd hopen
    have hiff := fileOpenWrite_error_disk (hnamed fd) hopen
    refine hiff.trans (not_congr ⟨fun hl => ⟨fd, hfd, hl⟩, ?_⟩)
    rintro ⟨fd', hfd', hl⟩
    rw [hfd, Option.some.injEq] at hfd'
    exact hfd' ▸ hl
  constructor
  · intro e s' h
    cases fileOpen_cases h with
    | noFd hfd =>
      refine ⟨fun _ => ?_, fun _ => rfl⟩
      rintro ⟨-, fd, hfd', -⟩
      simp [hfd] at hfd'
    | readError hfd hmode hopen =>
      refine ⟨fun _ => ?_, fun _ => ?_⟩
      · rintro ⟨hmode', -⟩
        exact absurd (hmode.symm.trans hmode') (by decide)
      · cases fileOpenRead_cases hopen with
        | missing hget =>
          obtain ⟨n, -, rfl, -⟩ := filesystemGetDirectoryEntry_cases (hnamed _) hget
          rfl
    | writeError hfd hmode hopen =>
      rw [FileState.release_disk, hcreate hfd hopen]
      exact not_congr ⟨fun hl => ⟨hmode, hl⟩, fun hl => hl.2⟩
    | badMode hfd hread hwrite =>
      exact ⟨fun _ hl => hwrite hl.1, fun _ => rfl⟩
  · intro e s' h
    cases fileNew_cases h with
    | noFd hfd =>
      refine ⟨fun _ => ?_, fun _ => rfl⟩
      rintro ⟨fd, hfd', -⟩
      simp [hfd] at hfd'
    | ran hfd hopen =>
      rw [FileState.release_disk]
      exact hcreate hfd hopen

end

/-- The name `FOO`, which has no dot. -/
def dotlessName : List UInt8 := [0x46, 0x4f, 0x4f]

attribute [local instance] Machine.linked

/-- Creating `FOO` on the small formatted disk fails, and the word of cluster 2 is then the end
mark. -/
theorem fileNew_dotless :
    ∃ e s', fileNew smallState dotlessName = some (.error e, s') ∧ s'.disk ≠ smallState.disk := by
  have h : (fileNew smallState dotlessName).map (fun r => (r.1.isOk, (r.2.disk 1).get 4)) =
      some (false, 0xff) := by decide +kernel
  have h₀ : (smallState.disk 1).get 4 = 0 := by decide +kernel
  obtain ⟨⟨r, s'⟩, hr, he⟩ := Option.map_eq_some_iff.mp h
  simp only [Prod.mk.injEq] at he
  cases r with
  | ok => simp [Except.isOk, Except.toBool] at he
  | error e =>
    refine ⟨e, s', hr, fun hd => ?_⟩
    rw [hd, h₀] at he
    exact absurd he.2 (by decide)

/-- The small formatted disk is a state in which creating `FOO` loses a cluster. -/
theorem failed_create_keeps_disk_iff_dotless :
    ∃ fd, filesystemAssignFd smallState = some fd ∧
      LosesCluster (smallState.named fd dotlessName) fd := by
  obtain ⟨e, s', hr, hd⟩ := fileNew_dotless
  by_contra hno
  exact hd (((failed_create_keeps_disk_iff Run.exec_nil dotlessName
    fmodeWrite).2 e s' hr).mpr hno)

/-- Not every creation that fails leaves the disk alone. -/
theorem not_failed_create_keeps_disk :
    ¬ ∀ (s₀ : FileState) (filename : List UInt8) (e : FileError) (s' : FileState),
      fileNew (filesystemInit s₀) filename = some (.error e, s') →
      s'.disk = (filesystemInit s₀).disk := by
  intro hall
  obtain ⟨e, s', hr, hd⟩ := fileNew_dotless
  exact hd (hall _ _ _ _ hr)

end Z80OS
