import Mathlib.Data.List.Infix
import Z80OS.File.Calls
import Z80OS.File.Lookup

set_option relaxedAutoImplicit false
set_option autoImplicit false

/-!
# What a call leaves alone

No call of the driver changes the geometry of the disk, and none loses an event. A call that works
through a descriptor changes no other one; a call that works with names alone changes none.

## Main definitions

* `Z80OS.Frame` — the frame of a step, for the set of the descriptors that it may change.
* `Z80OS.Moves` — the frame of a step that reads or writes.

## Main results

* the lemmas `*_frame` and `*_moves`, for every function of the driver.
* `Z80OS.call_frame` — the frame of a call.
* `Z80OS.run_sound` — after every run the lookups find a sound state.
-/

namespace Z80OS

/-- The step from `s` to `s'` keeps the geometry, the events so far, and every descriptor outside
`touched`. -/
structure Frame (touched : Set (Fin fileLimit)) (s s' : FileState) : Prop where
  diskInfo : s'.diskInfo = s.diskInfo
  fdtable : ∀ fd ∉ touched, s'.fdtable fd = s.fdtable fd
  trace : s.trace <:+ s'.trace

namespace Frame

variable {touched touched' : Set (Fin fileLimit)} {s s₁ s' : FileState} {fd : Fin fileLimit}
  {file : FileDescriptor} {k : ℕ} {t : Sector}

/-- No step touches nothing. -/
theorem refl : Frame touched s s := ⟨rfl, fun _ _ => rfl, List.suffix_refl _⟩

/-- Two steps one after the other. -/
theorem trans (h₁ : Frame touched s s₁) (h₂ : Frame touched s₁ s') : Frame touched s s' :=
  ⟨h₂.diskInfo.trans h₁.diskInfo, fun fd hfd => (h₂.fdtable fd hfd).trans (h₁.fdtable fd hfd),
    h₁.trace.trans h₂.trace⟩

/-- A step may be said to touch more. -/
theorem mono (h : Frame touched s s') (hsub : touched ⊆ touched') : Frame touched' s s' :=
  ⟨h.diskInfo, fun fd hfd => h.fdtable fd fun hin => hfd (hsub hin), h.trace⟩

/-- A step that touches no descriptor keeps the table. -/
theorem fdtable_eq (h : Frame ∅ s s') : s'.fdtable = s.fdtable :=
  funext fun fd => h.fdtable fd (Set.notMem_empty fd)

/-- A step that touches no descriptor. -/
theorem of_none (h : Frame ∅ s s') : Frame touched s s' := h.mono (Set.empty_subset _)

/-- The entry of the touched descriptor may be set. -/
theorem setFd (h : Frame {fd} s s') : Frame {fd} s (s'.setFd fd file) :=
  ⟨h.diskInfo, fun fd' hfd => (Function.update_of_ne hfd _ _).trans (h.fdtable fd' hfd), h.trace⟩

/-- The touched descriptor may be released. -/
theorem release (h : Frame {fd} s s') : Frame {fd} s (s'.release fd) := h.setFd

/-- An entry of the directory may be kept for later. -/
theorem saveEntry {e : DirectoryEntry} (h : Frame touched s s') :
    Frame touched s (s'.saveEntry e) := ⟨h.diskInfo, h.fdtable, h.trace⟩

/-- A sector may be written. -/
theorem diskWrite (h : Frame touched s s') : Frame touched s (diskWrite s' k) :=
  ⟨h.diskInfo, h.fdtable, h.trace⟩

/-- The buffer may be changed. -/
theorem poke {off : ℕ} {src : List UInt8} (h : Frame touched s s') :
    Frame touched s (s'.poke off src) := ⟨h.diskInfo, h.fdtable, h.trace⟩

/-- An event may be noted. -/
theorem event {e : Event} (h : Frame touched s s') :
    Frame touched s { s' with trace := e :: s'.trace } :=
  ⟨h.diskInfo, h.fdtable, h.trace.trans (List.suffix_cons _ _)⟩

end Frame

variable {M : Machine} {s s' : FileState} {fd : Fin fileLimit} {cluster next sector k : ℕ}
  {filename : List UInt8} {entry : DirectoryEntry} {e : Except FileError Unit}

/-! ## The cache and the FAT -/

/-- A fetch touches no descriptor. -/
theorem readSectorCached_frame {force : Bool} : Frame ∅ s (readSectorCached s k force) := by
  unfold readSectorCached
  split_ifs
  · exact ⟨rfl, fun _ _ => rfl, List.suffix_refl _⟩
  · exact .refl

/-- The look at the word of a cluster touches no descriptor. -/
theorem fatNextCluster_frame : Frame ∅ s (fatNextCluster s cluster).2 := readSectorCached_frame

/-- The store of the word of a cluster touches no descriptor. -/
theorem fatSetCluster_frame : Frame ∅ s (fatSetCluster s cluster next) :=
  readSectorCached_frame.poke.diskWrite

/-- The search for a free word touches no descriptor. -/
theorem findFreeLoop_frame {c i : ℕ} : Frame ∅ s (findFreeLoop k s c i sector).2 := by
  induction k generalizing s c i sector with
  | zero => exact .refl
  | succ k ih =>
    simp only [findFreeLoop]
    split_ifs
    all_goals first | exact readSectorCached_frame | exact readSectorCached_frame.trans ih

/-- The search for a free cluster touches no descriptor. -/
theorem fatFindFreeCluster_frame : Frame ∅ s (fatFindFreeCluster s).2 := findFreeLoop_frame.event

/-- The allocation of a first cluster touches no descriptor. -/
theorem fatAllocateStartCluster_frame : Frame ∅ s (fatAllocateStartCluster s).2 := by
  have hf : Frame ∅ s (fatFindFreeCluster s).2 := fatFindFreeCluster_frame
  unfold fatAllocateStartCluster
  simp only
  split_ifs
  · exact hf
  · exact hf.trans fatSetCluster_frame

/-- The allocation of a further cluster touches no descriptor. -/
theorem fatAllocateCluster_frame : Frame ∅ s (fatAllocateCluster s cluster).2 := by
  have hf : Frame ∅ s (fatFindFreeCluster s).2 := fatFindFreeCluster_frame
  unfold fatAllocateCluster
  simp only
  split_ifs
  · exact hf
  · exact (hf.trans fatSetCluster_frame).trans fatSetCluster_frame

/-- The release of a chain touches no descriptor. -/
theorem deallocateChain_frame (h : deallocateChain k s cluster = some s') : Frame ∅ s s' := by
  induction k generalizing s cluster with
  | zero => simp [deallocateChain] at h
  | succ k ih =>
    simp only [deallocateChain] at h
    split_ifs at h
    · exact Option.some.inj h ▸ .refl
    · exact (fatNextCluster_frame.trans fatSetCluster_frame).trans (ih h)

/-! ## The directory -/

/-- The search through the sectors of the directory touches no descriptor. -/
theorem searchSectors_frame {r : Option (ℕ × ℕ)}
    (h : searchSectors filename k s sector = some (r, s')) : Frame ∅ s s' := by
  induction k generalizing s sector with
  | zero => simp [searchSectors] at h
  | succ k ih =>
    simp only [searchSectors] at h
    split at h
    · simp only [Option.some.injEq, Prod.mk.injEq] at h
      exact h.2 ▸ readSectorCached_frame
    · simp only [Option.some.injEq, Prod.mk.injEq] at h
      exact h.2 ▸ readSectorCached_frame
    · exact readSectorCached_frame.trans (ih h)

/-- The search through the directory touches no descriptor. -/
theorem searchDirectory_frame {r : Option (ℕ × ℕ)}
    (h : searchDirectory s filename = some (r, s')) : Frame ∅ s s' := by
  unfold searchDirectory at h
  exact searchSectors_frame h

/-- The lookup of an entry touches no descriptor. -/
theorem filesystemGetDirectoryEntry_frame {r : Except FileError DirectoryEntry}
    (h : filesystemGetDirectoryEntry s filename = some (r, s')) : Frame ∅ s s' := by
  unfold filesystemGetDirectoryEntry at h
  split at h
  · simp at h
  all_goals
    rename_i hs
    simp only [Option.some.injEq, Prod.mk.injEq] at h
    exact h.2 ▸ searchDirectory_frame hs

/-- The change of an entry touches no descriptor. -/
theorem filesystemSetDirectoryEntry_frame
    (h : filesystemSetDirectoryEntry s entry filename = some (e, s')) : Frame ∅ s s' := by
  unfold filesystemSetDirectoryEntry at h
  split at h
  · simp at h
  all_goals
    rename_i hs
    simp only [Option.some.injEq, Prod.mk.injEq] at h
  · exact h.2 ▸ searchDirectory_frame hs
  · exact h.2 ▸ (searchDirectory_frame hs).poke.diskWrite

/-- The release of an entry touches no descriptor. -/
theorem filesystemMarkDirectoryEntryFree_frame
    (h : filesystemMarkDirectoryEntryFree s filename = some (e, s')) : Frame ∅ s s' := by
  unfold filesystemMarkDirectoryEntryFree at h
  split at h
  · simp at h
  all_goals
    rename_i hs
    simp only [Option.some.injEq, Prod.mk.injEq] at h
  · exact h.2 ▸ searchDirectory_frame hs
  · exact h.2 ▸ (searchDirectory_frame hs).poke.diskWrite

/-- The search for a free entry touches no descriptor. -/
theorem createSectors_frame {b : Bool} (h : createSectors entry k s sector = some (b, s')) :
    Frame ∅ s s' := by
  induction k generalizing s sector with
  | zero => simp [createSectors] at h
  | succ k ih =>
    simp only [createSectors] at h
    split at h
    · simp only [Option.some.injEq, Prod.mk.injEq] at h
      exact h.2 ▸ readSectorCached_frame.poke.diskWrite
    · split_ifs at h
      · simp only [Option.some.injEq, Prod.mk.injEq] at h
        exact h.2 ▸ readSectorCached_frame
      · exact readSectorCached_frame.trans (ih h)

/-- The creation of an entry touches no descriptor. -/
theorem fileCreate_frame {b : Bool} (h : fileCreate s entry = some (b, s')) : Frame ∅ s s' := by
  unfold fileCreate at h
  exact createSectors_frame h

/-- The count of the entries sector by sector touches no descriptor. -/
theorem countSectors_frame {entries n : ℕ} (h : countSectors k s sector entries = some (n, s')) :
    Frame ∅ s s' := by
  induction k generalizing s sector entries with
  | zero => simp [countSectors] at h
  | succ k ih =>
    simp only [countSectors] at h
    split_ifs at h
    · simp only [Option.some.injEq, Prod.mk.injEq] at h
      exact h.2 ▸ .refl
    · split at h
      · simp only [Option.some.injEq, Prod.mk.injEq] at h
        exact h.2 ▸ readSectorCached_frame
      · exact readSectorCached_frame.trans (ih h)

/-- The search for an entry by its number touches no descriptor. -/
theorem nthSectors_frame {n m : ℕ} {r : Except FileError (List UInt8)}
    (h : nthSectors m k s sector n = some (r, s')) : Frame ∅ s s' := by
  induction k generalizing s sector n with
  | zero => simp [nthSectors] at h
  | succ k ih =>
    simp only [nthSectors] at h
    split_ifs at h
    · simp only [Option.some.injEq, Prod.mk.injEq] at h
      exact h.2 ▸ .refl
    · split at h
      · simp only [Option.some.injEq, Prod.mk.injEq] at h
        exact h.2 ▸ readSectorCached_frame
      · simp only [Option.some.injEq, Prod.mk.injEq] at h
        exact h.2 ▸ readSectorCached_frame
      · exact readSectorCached_frame.trans (ih h)

/-! ## Opening, creating, closing and deleting -/

/-- Opening for reading touches the given descriptor only. -/
theorem fileOpenRead_frame (h : fileOpenRead s fd = some (e, s')) : Frame {fd} s s' := by
  cases fileOpenRead_cases h with
  | missing hget => exact (filesystemGetDirectoryEntry_frame hget).of_none
  | opened hget => exact (filesystemGetDirectoryEntry_frame hget).of_none.setFd

/-- The allocation of a first cluster, by its result. -/
theorem allocated_frame {c : ℕ} (h : fatAllocateStartCluster s = (c, s')) : Frame ∅ s s' := by
  have := fatAllocateStartCluster_frame (M := M) (s := s)
  rwa [h] at this

/-- A creation that fails changes no descriptor. -/
theorem fileOpenWrite_error_frame {error : FileError}
    (h : fileOpenWrite s fd = some (.error error, s')) : Frame ∅ s s' := by
  cases fileOpenWrite_cases h with
  | «exists» hget => exact filesystemGetDirectoryEntry_frame hget
  | diskFull hget halloc =>
    exact (filesystemGetDirectoryEntry_frame hget).trans (allocated_frame halloc)
  | badName hget halloc =>
    exact (filesystemGetDirectoryEntry_frame hget).trans (allocated_frame halloc)
  | dirFull hget halloc _ _ hcreate =>
    exact ((filesystemGetDirectoryEntry_frame hget).trans (allocated_frame halloc)).trans
      (fileCreate_frame hcreate)

/-- Opening for writing touches the given descriptor only. -/
theorem fileOpenWrite_frame (h : fileOpenWrite s fd = some (e, s')) : Frame {fd} s s' := by
  cases e with
  | error error => exact (fileOpenWrite_error_frame h).of_none
  | ok =>
    cases fileOpenWrite_cases h with
    | created hget halloc _ _ hcreate =>
      exact (((filesystemGetDirectoryEntry_frame hget).trans (allocated_frame halloc)).trans
        (fileCreate_frame hcreate)).of_none.setFd

/-- Opening touches the descriptor that it picks. -/
theorem fileOpen_frame {mode : UInt8} {r : Except FileError (Fin fileLimit)}
    (h : fileOpen s filename mode = some (r, s')) :
    Frame {fd | filesystemAssignFd s = some fd} s s' := by
  have hsub : ∀ {fd}, filesystemAssignFd s = some fd →
      ({fd} : Set (Fin fileLimit)) ⊆ {fd | filesystemAssignFd s = some fd} :=
    fun hfd _ hin => (Set.mem_singleton_iff.mp hin) ▸ hfd
  have hnamed : ∀ fd, Frame {fd} s (s.named fd filename) := fun _ => Frame.refl.setFd
  cases fileOpen_cases h with
  | noFd => exact .refl
  | readError hfd _ hopen =>
    exact ((hnamed _).trans (fileOpenRead_frame hopen)).release.mono (hsub hfd)
  | read hfd _ hopen => exact ((hnamed _).trans (fileOpenRead_frame hopen)).mono (hsub hfd)
  | writeError hfd _ hopen =>
    exact ((hnamed _).trans (fileOpenWrite_frame hopen)).release.mono (hsub hfd)
  | write hfd _ hopen => exact ((hnamed _).trans (fileOpenWrite_frame hopen)).mono (hsub hfd)
  | badMode hfd => exact (hnamed _).mono (hsub hfd)

/-- The creation of a file touches the descriptor only that it uses for a moment. -/
theorem fileNew_frame (h : fileNew s filename = some (e, s')) :
    Frame {fd | filesystemAssignFd s = some fd} s s' := by
  cases fileNew_cases h with
  | noFd => exact .refl
  | @ran fd _ _ hfd hopen =>
    have hnamed : Frame {fd} s (s.named fd filename) := Frame.refl.setFd
    exact (hnamed.trans (fileOpenWrite_frame hopen)).release.mono
      fun _ hin => (Set.mem_singleton_iff.mp hin) ▸ hfd

/-- Closing touches the given descriptor only. -/
theorem fileClose_frame {i : ℤ} {r : Unit} (h : fileClose s i = some (r, s')) :
    Frame {fd | descriptor? i = some fd} s s' := by
  obtain ⟨fd, hfd, hclose⟩ := fileClose_cases h
  have hsub : ({fd} : Set (Fin fileLimit)) ⊆ {fd | descriptor? i = some fd} :=
    fun _ hin => (Set.mem_singleton_iff.mp hin) ▸ hfd
  refine Frame.mono ?_ hsub
  cases hclose with
  | notWriting => exact Frame.refl.release
  | writing _ hget _ hset =>
    exact ((filesystemGetDirectoryEntry_frame hget).saveEntry.trans
      (filesystemSetDirectoryEntry_frame hset)).of_none.release

/-- Deleting touches no descriptor. -/
theorem fileDelete_frame (h : fileDelete s filename = some (e, s')) : Frame ∅ s s' := by
  cases fileDelete_cases h with
  | missing hget => exact filesystemGetDirectoryEntry_frame hget
  | freed hget hfree hmark =>
    exact ((filesystemGetDirectoryEntry_frame hget).trans (deallocateChain_frame hfree)).trans
      (filesystemMarkDirectoryEntryFree_frame hmark)

/-! ## Reading and writing -/

/-- Two descriptors stand for the same open file, wherever they are positioned in it. -/
structure SameFile (file file' : FileDescriptor) : Prop where
  name : file'.name = file.name
  flags : file'.flags = file.flags
  mode : file'.mode = file.mode
  startCluster : file'.startCluster = file.startCluster

/-- A descriptor stands for the same file as itself. -/
theorem SameFile.refl (file : FileDescriptor) : SameFile file file := ⟨rfl, rfl, rfl, rfl⟩

/-- Two descriptors that stand for the same file as a third one. -/
theorem SameFile.trans {file₁ file₂ file₃ : FileDescriptor} (h₁ : SameFile file₁ file₂)
    (h₂ : SameFile file₂ file₃) : SameFile file₁ file₃ :=
  ⟨h₂.name.trans h₁.name, h₂.flags.trans h₁.flags, h₂.mode.trans h₁.mode,
    h₂.startCluster.trans h₁.startCluster⟩

/-- A step that changes nothing but the position of one descriptor and the size of its file, as far
as the descriptors go. -/
structure Moves (fd : Fin fileLimit) (s s' : FileState) : Prop where
  frame : Frame {fd} s s'
  same : SameFile (s.fdtable fd) (s'.fdtable fd)

namespace Moves

variable {s₁ : FileState} {file : FileDescriptor}

/-- No step moves nothing. -/
theorem refl : Moves fd s s := ⟨.refl, .refl _⟩

/-- Two steps one after the other. -/
theorem trans (h₁ : Moves fd s s₁) (h₂ : Moves fd s₁ s') : Moves fd s s' :=
  ⟨h₁.frame.trans h₂.frame, h₁.same.trans h₂.same⟩

/-- A step that touches no descriptor. -/
theorem of_frame (h : Frame ∅ s s') : Moves fd s s' :=
  ⟨h.of_none, h.fdtable_eq ▸ .refl _⟩

/-- The descriptor may get another entry for the same file. -/
theorem setFd (h : Moves fd s s') (hfile : SameFile (s.fdtable fd) file) :
    Moves fd s (s'.setFd fd file) :=
  ⟨h.frame.setFd, by rw [FileState.setFd_fdtable_self]; exact hfile⟩

/-- A sector may be written. -/
theorem diskWrite (h : Moves fd s s') : Moves fd s (diskWrite s' k) := ⟨h.frame.diskWrite, h.same⟩

/-- The buffer may be changed. -/
theorem poke {off : ℕ} {src : List UInt8} (h : Moves fd s s') : Moves fd s (s'.poke off src) :=
  ⟨h.frame.poke, h.same⟩

/-- Every descriptor stays with its file. -/
theorem sameFile (h : Moves fd s s') (fd' : Fin fileLimit) :
    SameFile (s.fdtable fd') (s'.fdtable fd') := by
  by_cases he : fd' = fd
  · exact he ▸ h.same
  · exact h.frame.fdtable fd' he ▸ .refl _

/-- A write to the file may be noted. -/
theorem recordWrite (h : Moves fd s s') : Moves fd s (s'.recordWrite fd k) :=
  ⟨h.frame.event, h.same⟩

end Moves

/-- The step of a reader to the next sector moves its descriptor. -/
theorem readNextSector_moves : Moves fd s (readNextSector s fd) := by
  have hset : Moves fd s (s.setFd fd (s.fdtable fd).nextSector) :=
    Moves.refl.setFd ⟨rfl, rfl, rfl, rfl⟩
  unfold readNextSector
  simp only
  split_ifs
  · exact (hset.trans (.of_frame fatNextCluster_frame)).setFd ⟨rfl, rfl, rfl, rfl⟩
  · exact hset

/-- The read of a byte moves its descriptor. -/
theorem fileReadbyte_moves : Moves fd s (fileReadbyte s fd).2 := by
  have hread : ∀ k, Moves fd s (readSectorCached s k false) :=
    fun _ => .of_frame readSectorCached_frame
  simp only [fileReadbyte]
  split_ifs
  · exact .refl
  · exact .refl
  · refine Moves.trans ?_ readNextSector_moves
    exact (hread _).setFd ⟨rfl, rfl, rfl, rfl⟩
  · exact (hread _).setFd ⟨rfl, rfl, rfl, rfl⟩

/-- The read of a sector moves its descriptor. -/
theorem fileReadsector_moves : Moves fd s (fileReadsector s fd).2 := by
  simp only [fileReadsector]
  split_ifs
  · exact .refl
  · exact .refl
  · refine Moves.trans ?_ readNextSector_moves
    exact Moves.refl.setFd ⟨rfl, rfl, rfl, rfl⟩

/-- The read up to the end of a sector moves its descriptor. -/
theorem readToBoundary_moves {t : Transfer} :
    Moves fd t.state (readToBoundary fd k t).2.state := by
  induction k generalizing t with
  | zero => exact .refl
  | succ k ih =>
    have hb : Moves fd t.state (fileReadbyte t.state fd).2 := fileReadbyte_moves
    unfold readToBoundary
    split_ifs
    · exact .refl
    · rcases hr : fileReadbyte t.state fd with ⟨_ | c, s₁⟩
      all_goals
        rw [hr] at hb
        simp only
      · exact hb
      · split_ifs
        · exact hb
        · exact hb.trans (ih (t := ⟨_, _, _, s₁⟩))

/-- The read of whole sectors moves its descriptor. -/
theorem readFullSectors_moves {t : Transfer} :
    Moves fd t.state (readFullSectors fd k t).2.state := by
  induction k generalizing t with
  | zero => exact .refl
  | succ k ih =>
    have hb : Moves fd t.state (fileReadsector t.state fd).2 := fileReadsector_moves
    unfold readFullSectors
    rcases hr : fileReadsector t.state fd with ⟨_ | c, s₁⟩
    all_goals
      rw [hr] at hb
      simp only
    · exact hb
    · exact hb.trans (ih (t := ⟨_, _, _, s₁⟩))

/-- The read of the rest moves its descriptor. -/
theorem readTail_moves {t : Transfer} : Moves fd t.state (readTail fd k t).state := by
  induction k generalizing t with
  | zero => exact .refl
  | succ k ih =>
    have hb : Moves fd t.state (fileReadbyte t.state fd).2 := fileReadbyte_moves
    unfold readTail
    rcases hr : fileReadbyte t.state fd with ⟨_ | c, s₁⟩
    all_goals
      rw [hr] at hb
      simp only
    · exact hb
    · exact hb.trans (ih (t := ⟨_, _, _, s₁⟩))

/-- The three parts of a read move its descriptor. -/
theorem readPhases_moves {t : Transfer} : Moves fd t.state (readPhases fd t).state := by
  have hb : Moves fd t.state (readToBoundary fd M.turns t).2.state := readToBoundary_moves
  unfold readPhases
  rcases hr : readToBoundary fd Machine.turns t with ⟨_ | _, t₁⟩
  all_goals
    rw [hr] at hb
    simp only
  · have hf : Moves fd t₁.state
      (readFullSectors fd (t₁.n / t.state.diskInfo.bytesPerSector) t₁).2.state :=
      readFullSectors_moves
    rcases hr' : readFullSectors fd (t₁.n / t.state.diskInfo.bytesPerSector) t₁ with ⟨_ | _, t₂⟩
    all_goals
      rw [hr'] at hf
      simp only
    · exact (hb.trans hf).trans readTail_moves
    · exact hb.trans hf
  · exact hb

/-- A number below the limit is that of a descriptor. -/
theorem descriptor?_cast : descriptor? (fd : ℤ) = some fd := by
  have hfd := fd.isLt
  simp [descriptor?, hfd]

/-- A read does nothing, or moves the descriptor that it names. -/
theorem fileRead_moves {ptr n : ℕ} {i : ℤ} :
    (fileRead s ptr n i).2 = s ∨ ∃ fd, descriptor? i = some fd ∧
      Moves fd s (fileRead s ptr n i).2 := by
  unfold fileRead
  split_ifs
  · exact .inl rfl
  rcases hfd : descriptor? i with _ | fd
  · exact .inl rfl
  simp only
  split_ifs
  · exact .inl rfl
  all_goals exact .inr ⟨fd, rfl, readPhases_moves (t := ⟨_, _, _, s⟩)⟩

/-- A read touches the given descriptor only. -/
theorem fileRead_frame {ptr n : ℕ} {i : ℤ} :
    Frame {fd | descriptor? i = some fd} s (fileRead s ptr n i).2 := by
  rcases fileRead_moves (s := s) (n := n) (i := i) with h | ⟨fd, hfd, h⟩
  · rw [h]
    exact .refl
  · exact h.frame.mono fun _ hin => (Set.mem_singleton_iff.mp hin) ▸ hfd

/-- The step of a writer to the next cluster moves its descriptor. -/
theorem writeNextCluster_moves : Moves fd s (writeNextCluster s fd).2 := by
  unfold writeNextCluster
  simp only
  split_ifs
  · exact (Moves.of_frame fatNextCluster_frame).trans (.of_frame fatAllocateCluster_frame)
  · exact ((Moves.of_frame fatNextCluster_frame).trans
      (.of_frame fatAllocateCluster_frame)).setFd ⟨rfl, rfl, rfl, rfl⟩
  · exact (Moves.of_frame fatNextCluster_frame).setFd ⟨rfl, rfl, rfl, rfl⟩
  · exact .refl

/-- The step of a writer to the next sector moves its descriptor. -/
theorem writeNextSector_moves : Moves fd s (writeNextSector s fd).2 := by
  refine Moves.trans ?_ writeNextCluster_moves
  exact Moves.refl.setFd ⟨rfl, rfl, rfl, rfl⟩

/-- The write of a part of a sector moves its descriptor. -/
theorem fileWritesector_moves {data : List UInt8} {off : ℕ} :
    Moves fd s (fileWritesector s data off fd).2 := by
  have hread : ∀ k, Moves fd s ((readSectorCached s k false).recordWrite fd k) :=
    fun _ => (Moves.of_frame readSectorCached_frame).recordWrite
  simp only [fileWritesector]
  split_ifs
  · exact .refl
  · refine Moves.trans ?_ writeNextSector_moves
    exact (hread _).poke.diskWrite.setFd ⟨rfl, rfl, rfl, rfl⟩
  · exact (hread _).poke.diskWrite.setFd ⟨rfl, rfl, rfl, rfl⟩

/-- The write of whole sectors moves its descriptor. -/
theorem writeFullSectors_moves {data : List UInt8} {bytes : ℕ} :
    Moves fd s (writeFullSectors fd k s data bytes).2.1 := by
  induction k generalizing s data bytes with
  | zero => exact .refl
  | succ k ih =>
    have hw : Moves fd s (fileWritesector s (data.take s.diskInfo.bytesPerSector) 0 fd).2 :=
      fileWritesector_moves
    simp only [writeFullSectors]
    split
    all_goals
      rename_i hr
      rw [hr] at hw
    · exact hw.trans ih
    · exact hw

/-- A write from the start of a sector on moves its descriptor. -/
theorem writeAligned_moves {data : List UInt8} {bytes : ℕ} :
    Moves fd s (writeAligned s data bytes fd).2 := by
  have hw : Moves fd s
    (writeFullSectors fd (data.length / s.diskInfo.bytesPerSector) s data bytes).2.1 :=
    writeFullSectors_moves
  unfold writeAligned
  split_ifs
  · exact .refl
  rcases hr : writeFullSectors fd (data.length / s.diskInfo.bytesPerSector) s data bytes with
    ⟨_ | _, s₁, data₁, bytes₁⟩
  all_goals
    rw [hr] at hw
    simp only
  · split_ifs
    · exact hw
    · exact hw.trans fileWritesector_moves
  · exact hw

/-- A write does nothing, or moves the descriptor that it names. -/
theorem fileWrite_moves (i : ℤ) {data : List UInt8} :
    (fileWrite s data i).2 = s ∨ ∃ fd, descriptor? i = some fd ∧
      Moves fd s (fileWrite s data i).2 := by
  unfold fileWrite
  rcases hfd : descriptor? i with _ | fd
  · exact .inl rfl
  simp only
  generalize (if data.length < _ then data.length else _) = n
  have hw : Moves fd s
    (fileWritesector s (data.take n) (s.fdtable fd).fposWithinSector fd).2 := fileWritesector_moves
  split_ifs
  · exact .inl rfl
  · refine .inr ⟨fd, rfl, ?_⟩
    split
    all_goals
      rename_i hr
      rw [hr] at hw
    · exact hw.trans writeAligned_moves
    · exact hw
  · exact .inr ⟨fd, rfl, writeAligned_moves⟩

/-- A write moves its descriptor. -/
theorem fileWrite_moves_self {data : List UInt8} : Moves fd s (fileWrite s data fd).2 := by
  rcases fileWrite_moves (fd : ℤ) with heq | ⟨fd', hfd', hmoves⟩
  · rw [heq]
    exact .refl
  · rw [descriptor?_cast, Option.some.injEq] at hfd'
    exact hfd' ▸ hmoves

/-- A write touches the given descriptor only. -/
theorem fileWrite_frame {data : List UInt8} {i : ℤ} :
    Frame {fd | descriptor? i = some fd} s (fileWrite s data i).2 := by
  rcases fileWrite_moves (s := s) i with h | ⟨fd, hfd, h⟩
  · rw [h]
    exact .refl
  · exact h.frame.mono fun _ hin => (Set.mem_singleton_iff.mp hin) ▸ hfd

/-- The information about a file touches no descriptor. -/
theorem fileInfo_frame {r : Except FileError FInfo} (h : fileInfo s filename = some (r, s')) :
    Frame ∅ s s' := by
  unfold fileInfo at h
  rcases hget : filesystemGetDirectoryEntry s (filenameUpper filename) with _ | ⟨_ | _, s₁⟩
  all_goals simp only [hget, Option.some.injEq, Prod.mk.injEq, reduceCtorEq] at h
  all_goals exact h.2 ▸ filesystemGetDirectoryEntry_frame hget

/-! ## Calls and runs -/

/-- The descriptors that a call may change. -/
def touchedBy (s : FileState) : FileCall → Set (Fin fileLimit)
  | .open .. | .new _ => {fd | filesystemAssignFd s = some fd}
  | .read _ _ i | .readbyte i | .write _ i | .close i => {fd | descriptor? i = some fd}
  | .delete _ | .info _ | .entries | .entry _ => ∅

/-- A call touches the descriptors only that it says. -/
theorem call_frame {a : FileCall} {r : FileAnswer} (h : call s a = some (r, s')) :
    Frame (touchedBy s a) s s' := by
  cases a with
  | read ptr n i =>
    simp only [call, Option.some.injEq, Prod.mk.injEq] at h
    exact h.2 ▸ fileRead_frame
  | write data i =>
    simp only [call, Option.some.injEq, Prod.mk.injEq] at h
    exact h.2 ▸ fileWrite_frame
  | readbyte i =>
    simp only [call, Option.map_eq_some_iff, Prod.mk.injEq] at h
    obtain ⟨fd, hfd, -, rfl⟩ := h
    refine fileReadbyte_moves.frame.mono fun _ hin => ?_
    rw [Set.mem_singleton_iff.mp hin]
    exact hfd
  | _ =>
    simp only [call, Option.map_eq_some_iff, Prod.mk.injEq] at h
    obtain ⟨⟨x, s₁⟩, hx, -, rfl⟩ := h
    first
      | exact fileOpen_frame hx
      | exact fileNew_frame hx
      | exact fileClose_frame hx
      | exact fileDelete_frame hx
      | exact fileInfo_frame hx
      | exact countSectors_frame hx
      | exact nthSectors_frame hx

/-- The root region that a boot sector declares has a sector number. -/
theorem bootDiskInfo_rootRegion_lt (boot : Sector) :
    (bootDiskInfo boot).rootRegion < sectorNumbers := by
  have := boot.word_lt (i := 0x0e)
  simp only [bootDiskInfo, sectorNumbers]
  omega

/-- After every run from the initialisation the state is sound, and the geometry is the one that
the boot sector declared. -/
theorem run_sound {s₀ : FileState} {calls : List FileCall} {answers : List FileAnswer}
    (h : Run.exec call (filesystemInit s₀) calls = some (answers, s)) :
    s.Sound ∧ s.diskInfo = bootDiskInfo (s₀.disk 0) := by
  have hinv : s.Coherent ∧ s.diskInfo = bootDiskInfo (s₀.disk 0) :=
    Run.invariant (I := fun s => s.Coherent ∧ s.diskInfo = bootDiskInfo (s₀.disk 0))
      (fun _ _ _ _ hs hr =>
        ⟨call_coherent hs.1 hr, (call_frame hr).diskInfo.trans hs.2⟩)
      ⟨filesystemInit_coherent, rfl⟩ h
  exact ⟨⟨hinv.1, hinv.2 ▸ bootDiskInfo_rootRegion_lt _⟩, hinv.2⟩

end Z80OS
