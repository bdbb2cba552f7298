import Z80OS.File.Operations

set_option relaxedAutoImplicit false
set_option autoImplicit false

/-!
# The ways a call can go

Each directory operation of the driver is a sequence of lookups, allocations and early returns.
For each of them this file lists, as an inductive predicate, the ways in which it can go, with the
answers of the functions it calls on the way, and shows that a call that returns has gone one of
these ways. Later arguments go through the ways and do not open the functions.

## Main results

* `Z80OS.fileOpenRead_cases`, `Z80OS.fileOpenWrite_cases`, `Z80OS.fileOpen_cases`,
  `Z80OS.fileNew_cases`, `Z80OS.fileClose_cases`, `Z80OS.fileDelete_cases`.
-/

namespace Z80OS

section

variable [Machine]

/-- The ways in which `file_open_read` returns. -/
inductive OpenRead (s : FileState) (fd : Fin fileLimit) : Except FileError Unit → FileState → Prop
  | missing {e s₁}
      (hget : filesystemGetDirectoryEntry s (s.fdtable fd).name = some (.error e, s₁)) :
      OpenRead s fd (.error e) s₁
  | opened {entry s₁}
      (hget : filesystemGetDirectoryEntry s (s.fdtable fd).name = some (.ok entry, s₁)) :
      OpenRead s fd (.ok ()) (s₁.setFd fd ((s₁.fdtable fd).start entry fmodeRead))

/-- The ways in which `file_open_write` returns. -/
inductive OpenWrite (s : FileState) (fd : Fin fileLimit) : Except FileError Unit → FileState → Prop
  | exists {entry s₁}
      (hget : filesystemGetDirectoryEntry s (s.fdtable fd).name = some (.ok entry, s₁)) :
      OpenWrite s fd (.error .fileExist) s₁
  | diskFull {e s₁ s₂}
      (hget : filesystemGetDirectoryEntry s (s.fdtable fd).name = some (.error e, s₁))
      (halloc : fatAllocateStartCluster s₁ = (0, s₂)) :
      OpenWrite s fd (.error .diskFull) s₂
  | badName {e s₁ c s₂}
      (hget : filesystemGetDirectoryEntry s (s.fdtable fd).name = some (.error e, s₁))
      (halloc : fatAllocateStartCluster s₁ = (c, s₂)) (hc : c ≠ 0)
      (hsplit : splitName (s₂.fdtable fd).name = none) :
      OpenWrite s fd (.error .invalidFilename) s₂
  | dirFull {e s₁ c s₂ name ext s₃}
      (hget : filesystemGetDirectoryEntry s (s.fdtable fd).name = some (.error e, s₁))
      (halloc : fatAllocateStartCluster s₁ = (c, s₂)) (hc : c ≠ 0)
      (hsplit : splitName (s₂.fdtable fd).name = some (name, ext))
      (hcreate : fileCreate s₂ (newEntry name ext c) = some (true, s₃)) :
      OpenWrite s fd (.error .dirFull) s₃
  | created {e s₁ c s₂ name ext s₃}
      (hget : filesystemGetDirectoryEntry s (s.fdtable fd).name = some (.error e, s₁))
      (halloc : fatAllocateStartCluster s₁ = (c, s₂)) (hc : c ≠ 0)
      (hsplit : splitName (s₂.fdtable fd).name = some (name, ext))
      (hcreate : fileCreate s₂ (newEntry name ext c) = some (false, s₃)) :
      OpenWrite s fd (.ok ()) (s₃.setFd fd ((s₃.fdtable fd).start (newEntry name ext c) fmodeWrite))

/-- The ways in which `file_open` returns. -/
inductive Open (s : FileState) (filename : List UInt8) (mode : UInt8) :
    Except FileError (Fin fileLimit) → FileState → Prop
  | noFd (hfd : filesystemAssignFd s = none) : Open s filename mode (.error .fileLimit) s
  | readError {fd e s₁} (hfd : filesystemAssignFd s = some fd) (hmode : mode = fmodeRead)
      (hopen : fileOpenRead (s.named fd filename) fd = some (.error e, s₁)) :
      Open s filename mode (.error e) (s₁.release fd)
  | read {fd s₁} (hfd : filesystemAssignFd s = some fd) (hmode : mode = fmodeRead)
      (hopen : fileOpenRead (s.named fd filename) fd = some (.ok (), s₁)) :
      Open s filename mode (.ok fd) s₁
  | writeError {fd e s₁} (hfd : filesystemAssignFd s = some fd) (hmode : mode = fmodeWrite)
      (hopen : fileOpenWrite (s.named fd filename) fd = some (.error e, s₁)) :
      Open s filename mode (.error e) (s₁.release fd)
  | write {fd s₁} (hfd : filesystemAssignFd s = some fd) (hmode : mode = fmodeWrite)
      (hopen : fileOpenWrite (s.named fd filename) fd = some (.ok (), s₁)) :
      Open s filename mode (.ok fd) s₁
  | badMode {fd} (hfd : filesystemAssignFd s = some fd) (hread : mode ≠ fmodeRead)
      (hwrite : mode ≠ fmodeWrite) :
      Open s filename mode (.error .invalidMode) (s.named fd filename)

/-- The ways in which `file_new` returns. -/
inductive New (s : FileState) (filename : List UInt8) : Except FileError Unit → FileState → Prop
  | noFd (hfd : filesystemAssignFd s = none) : New s filename (.error .fileLimit) s
  | ran {fd r s₁} (hfd : filesystemAssignFd s = some fd)
      (hopen : fileOpenWrite (s.named fd filename) fd = some (r, s₁)) :
      New s filename r (s₁.release fd)

/-- The ways in which `file_close` returns. -/
inductive Close (s : FileState) (fd : Fin fileLimit) : FileState → Prop
  | notWriting (hmode : (s.fdtable fd).mode ≠ fmodeWrite) : Close s fd (s.release fd)
  | writing {r s₁ entry r' s₂} (hmode : (s.fdtable fd).mode = fmodeWrite)
      (hget : filesystemGetDirectoryEntry s (s.fdtable fd).name = some (r, s₁))
      (hentry : ∀ e, r = .ok e → entry = e.withSize (s.fdtable fd).size)
      (hset : filesystemSetDirectoryEntry (s₁.saveEntry entry) entry (s.fdtable fd).name =
        some (r', s₂)) :
      Close s fd (s₂.release fd)

/-- The ways in which `file_delete` returns. -/
inductive Delete (s : FileState) (filename : List UInt8) :
    Except FileError Unit → FileState → Prop
  | missing {e s₁}
      (hget : filesystemGetDirectoryEntry s (filenameUpper filename) = some (.error e, s₁)) :
      Delete s filename (.error e) s₁
  | freed {entry s₁ s₂ r s₃}
      (hget : filesystemGetDirectoryEntry s (filenameUpper filename) = some (.ok entry, s₁))
      (hfree : deallocateChain Machine.turns s₁ entry.startingCluster = some s₂)
      (hmark : filesystemMarkDirectoryEntryFree s₂ (filenameUpper filename) = some (r, s₃)) :
      Delete s filename r s₃

end

variable {M : Machine} {s s' : FileState} {fd : Fin fileLimit} {filename : List UInt8}

/-- `file_open_read` returns in one of the ways. -/
theorem fileOpenRead_cases {r : Except FileError Unit} (hr : fileOpenRead s fd = some (r, s')) :
    OpenRead s fd r s' := by
  unfold fileOpenRead at hr
  rcases hget : filesystemGetDirectoryEntry s (s.fdtable fd).name with _ | ⟨_ | _, s₁⟩
  all_goals simp only [hget, Option.some.injEq, Prod.mk.injEq, reduceCtorEq] at hr
  all_goals obtain ⟨rfl, rfl⟩ := hr
  · exact .missing hget
  · exact .opened hget

/-- `file_open_write` returns in one of the ways. -/
theorem fileOpenWrite_cases {r : Except FileError Unit} (hr : fileOpenWrite s fd = some (r, s')) :
    OpenWrite s fd r s' := by
  unfold fileOpenWrite at hr
  rcases hget : filesystemGetDirectoryEntry s (s.fdtable fd).name with _ | ⟨_ | _, s₁⟩
  · simp only [hget, reduceCtorEq] at hr
  · rcases halloc : fatAllocateStartCluster s₁ with ⟨c, s₂⟩
    simp only [hget, halloc] at hr
    by_cases hc : c = 0
    · simp only [if_pos hc, Option.some.injEq, Prod.mk.injEq] at hr
      obtain ⟨rfl, rfl⟩ := hr
      exact .diskFull hget (hc ▸ halloc)
    rcases hsplit : splitName (s₂.fdtable fd).name with _ | ⟨name, ext⟩
    · simp only [if_neg hc, hsplit, Option.some.injEq, Prod.mk.injEq] at hr
      obtain ⟨rfl, rfl⟩ := hr
      exact .badName hget halloc hc hsplit
    rcases hcreate : fileCreate s₂ (newEntry name ext c) with _ | ⟨_ | _, s₃⟩
    all_goals
      simp only [if_neg hc, hsplit, hcreate, Option.some.injEq, Prod.mk.injEq, reduceCtorEq] at hr
    all_goals obtain ⟨rfl, rfl⟩ := hr
    · exact .created hget halloc hc hsplit hcreate
    · exact .dirFull hget halloc hc hsplit hcreate
  · simp only [hget, Option.some.injEq, Prod.mk.injEq] at hr
    obtain ⟨rfl, rfl⟩ := hr
    exact .exists hget

/-- `file_open` returns in one of the ways. -/
theorem fileOpen_cases {mode : UInt8} {r : Except FileError (Fin fileLimit)}
    (hr : fileOpen s filename mode = some (r, s')) : Open s filename mode r s' := by
  unfold fileOpen at hr
  rcases hfd : filesystemAssignFd s with _ | fd
  · simp only [hfd, Option.some.injEq, Prod.mk.injEq] at hr
    obtain ⟨rfl, rfl⟩ := hr
    exact .noFd hfd
  simp only [hfd] at hr
  by_cases hread : mode = fmodeRead
  · rcases hopen : fileOpenRead (s.named fd filename) fd with _ | ⟨_ | _, s₁⟩
    all_goals
      simp only [if_pos hread, hopen, Option.some.injEq, Prod.mk.injEq, reduceCtorEq] at hr
    all_goals obtain ⟨rfl, rfl⟩ := hr
    · exact .readError hfd hread hopen
    · exact .read hfd hread hopen
  by_cases hwrite : mode = fmodeWrite
  · rcases hopen : fileOpenWrite (s.named fd filename) fd with _ | ⟨_ | _, s₁⟩
    all_goals
      simp only [if_neg hread, if_pos hwrite, hopen, Option.some.injEq, Prod.mk.injEq,
        reduceCtorEq] at hr
    all_goals obtain ⟨rfl, rfl⟩ := hr
    · exact .writeError hfd hwrite hopen
    · exact .write hfd hwrite hopen
  · simp only [if_neg hread, if_neg hwrite, Option.some.injEq, Prod.mk.injEq] at hr
    obtain ⟨rfl, rfl⟩ := hr
    exact .badMode hfd hread hwrite

/-- `file_new` returns in one of the ways. -/
theorem fileNew_cases {r : Except FileError Unit} (hr : fileNew s filename = some (r, s')) :
    New s filename r s' := by
  unfold fileNew at hr
  rcases hfd : filesystemAssignFd s with _ | fd
  · simp only [hfd, Option.some.injEq, Prod.mk.injEq] at hr
    obtain ⟨rfl, rfl⟩ := hr
    exact .noFd hfd
  simp only [hfd] at hr
  rcases hopen : fileOpenWrite (s.named fd filename) fd with _ | ⟨r', s₁⟩
  all_goals simp only [hopen, Option.some.injEq, Prod.mk.injEq, reduceCtorEq] at hr
  obtain ⟨rfl, rfl⟩ := hr
  exact .ran hfd hopen

/-- `file_close` returns for a descriptor of the table alone, in one of the ways. -/
theorem fileClose_cases {i : ℤ} {r : Unit} (hr : fileClose s i = some (r, s')) :
    ∃ fd, descriptor? i = some fd ∧ Close s fd s' := by
  unfold fileClose at hr
  rcases hfd : descriptor? i with _ | fd
  · simp only [hfd, reduceCtorEq] at hr
  refine ⟨fd, rfl, ?_⟩
  simp only [hfd] at hr
  by_cases hmode : (s.fdtable fd).mode = fmodeWrite
  · rcases hget : filesystemGetDirectoryEntry s (s.fdtable fd).name with _ | ⟨r₁, s₁⟩
    · simp only [if_pos hmode, hget, reduceCtorEq] at hr
    simp only [if_pos hmode, hget] at hr
    split at hr
    · simp at hr
    · rename_i hset
      simp only [Option.some.injEq, Prod.mk.injEq, true_and] at hr
      subst hr
      refine .writing hmode hget ?_ hset
      rintro e rfl
      rfl
  · simp only [if_neg hmode, Option.some.injEq, Prod.mk.injEq, true_and] at hr
    subst hr
    exact .notWriting hmode

/-- `file_delete` returns in one of the ways. -/
theorem fileDelete_cases {r : Except FileError Unit} (hr : fileDelete s filename = some (r, s')) :
    Delete s filename r s' := by
  unfold fileDelete at hr
  rcases hget : filesystemGetDirectoryEntry s (filenameUpper filename) with _ | ⟨_ | entry, s₁⟩
  · simp only [hget, reduceCtorEq] at hr
  · simp only [hget, Option.some.injEq, Prod.mk.injEq] at hr
    obtain ⟨rfl, rfl⟩ := hr
    exact .missing hget
  · rcases hfree : deallocateChain Machine.turns s₁ entry.startingCluster with _ | s₂
    all_goals simp only [hget, hfree, reduceCtorEq] at hr
    exact .freed hget hfree hr

end Z80OS
