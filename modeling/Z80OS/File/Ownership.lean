import Z80OS.File.FailedCreate

set_option relaxedAutoImplicit false
set_option autoImplicit false

/-!
# Who owns a descriptor

A descriptor that `file_open` has returned is open until its `file_close`. No path of the driver
sets the claim flag, so the driver does not know which descriptors are open, and closing a
descriptor leaves its mode as it was. Ownership therefore rests on the order of the calls. This
file keeps a record of the open and the closed descriptors next to the driver, and shows which
calls respect it.

## Main definitions

* `Z80OS.Tracked`, `Z80OS.trackedCall` — the driver and the record.
* `Z80OS.OwnershipHolds` — what ownership demands of a call.
* `Z80OS.RespectsOwnership` — the calls that meet the demands.

## Main results

* `Z80OS.trackedCall_ownership` — a call that respects ownership meets the demands.
* `Z80OS.ownership_holds_of_respects` — so do runs.
-/

namespace Z80OS

/-! ## The record -/

/-- What has happened to a descriptor. -/
inductive Status
  | neverOpened
  | opened
  | closed
  deriving DecidableEq

/-- A state of the driver with the record of its descriptors. -/
abbrev Tracked : Type := FileState × (Fin fileLimit → Status)

/-- The record after a call with its answer. -/
def note (status : Fin fileLimit → Status) : FileCall → FileAnswer → Fin fileLimit → Status
  | .open .., .open (.ok fd) => Function.update status fd .opened
  | .close i, _ =>
    match descriptor? i with
    | some fd => Function.update status fd .closed
    | none => status
  | _, _ => status

/-- Executes a call and notes what it does to the descriptors. -/
def trackedCall [Machine] (t : Tracked) (a : FileCall) : Option (FileAnswer × Tracked) :=
  (call t.1 a).map fun r => (r.1, r.2, note t.2 a r.1)

/-- Opening closes no descriptor. -/
theorem note_open_ne_closed {status : Fin fileLimit → Status} {filename : List UInt8} {mode : UInt8}
    {r : FileAnswer} {fd : Fin fileLimit} (h : ∀ fd, status fd ≠ .closed) :
    note status (.open filename mode) r fd ≠ .closed := by
  rcases r with (e | fd') | _ | _ | _ | _ | _ | _ | _ | _ | _
  case open.ok =>
    by_cases he : fd = fd'
    · rw [he, note, Function.update_self]
      simp
    · rw [note, Function.update_of_ne he]
      exact h fd
  all_goals exact h fd

/-- The initialised driver; no descriptor has been opened. -/
def trackedInit (s₀ : FileState) : Tracked := (filesystemInit s₀, fun _ => .neverOpened)

/-- What ownership demands of a call: an open descriptor is not returned again, it is not altered
by `file_open` and `file_new` and stays with its file as long as it is open, `file_open` fails with
`E_FILELIMIT` when all descriptors are open, and reading and writing through a closed descriptor
return 0 and change nothing. -/
structure OwnershipHolds (t : Tracked) (a : FileCall) (r : FileAnswer) (t' : Tracked) : Prop where
  notReturned : ∀ fd, r = .open (.ok fd) → t.2 fd ≠ .opened
  notAltered : ∀ filename, (∃ mode, a = .open filename mode) ∨ a = .new filename →
    ∀ fd, t.2 fd = .opened → t'.1.fdtable fd = t.1.fdtable fd
  sameFile : ∀ fd, t.2 fd = .opened → t'.2 fd = .opened →
    SameFile (t.1.fdtable fd) (t'.1.fdtable fd)
  limit : ∀ filename mode, a = .open filename mode → (∀ fd, t.2 fd = .opened) →
    r = .open (.error .fileLimit)
  closedRead : ∀ ptr n i fd, a = .read ptr n i → descriptor? i = some fd → t.2 fd = .closed →
    r = .read 0 [] ∧ t'.1 = t.1
  closedWrite : ∀ data i fd, a = .write data i → descriptor? i = some fd → t.2 fd = .closed →
    r = .write 0 ∧ t'.1 = t.1

section

variable [Machine]

/-- Creating the file that a descriptor names stops before the descriptor is set up. -/
def CreationStops (s : FileState) (fd : Fin fileLimit) : Prop :=
  (∃ n, s.StopsAt (s.fdtable fd).name n ∧ s.rootEntry n 0 ≠ 0) ∨ freeCluster s = 0 ∨
    0x2e ∉ (s.fdtable fd).name ∨
    DirectoryFull s.diskInfo (markedDisk s.diskInfo s.disk (freeCluster s))

/-- The calls that respect the ownership of descriptors. The descriptor that `file_open` picks must
not be open. The one that `file_new` picks must not be open either, unless it stands for the same
name and the creation stops early. A closed descriptor is not read from and not written to, except
in ways in which the driver does nothing. -/
def RespectsOwnership (t : Tracked) : FileCall → Prop
  | .open _ _ => ∀ fd, filesystemAssignFd t.1 = some fd → t.2 fd ≠ .opened
  | .new filename => ∀ fd, filesystemAssignFd t.1 = some fd → t.2 fd = .opened →
      filenameUpper filename = (t.1.fdtable fd).name ∧ CreationStops t.1 fd
  | .read ptr n i => ∀ fd, descriptor? i = some fd → t.2 fd = .closed →
      ptr % 65536 < 0x6000 ∨ (t.1.fdtable fd).mode ≠ fmodeRead ∨
        (t.1.fdtable fd).fpos = (t.1.fdtable fd).size ∨
        (t.1.fdtable fd).currentCluster = clusterEof ∨
        n = 0 ∧ (t.1.fdtable fd).fposWithinSector = 0
  | .write data i => ∀ fd, descriptor? i = some fd → t.2 fd = .closed →
      (t.1.fdtable fd).mode ≠ fmodeWrite ∨ data = [] ∧ (t.1.fdtable fd).fposWithinSector = 0
  | _ => True

end

section

variable {M : Machine} {s s' : FileState} {fd : Fin fileLimit} {filename : List UInt8}

/-! ## Reads and writes that do nothing -/

/-- The descriptor is at the end of its file, or of its chain. -/
def AtEnd (file : FileDescriptor) : Prop := file.fpos = file.size ∨ file.currentCluster = clusterEof

/-- At the end of its file a descriptor gives no byte. -/
theorem fileReadbyte_end (h : AtEnd (s.fdtable fd)) : fileReadbyte s fd = (none, s) := by
  unfold fileReadbyte
  rcases h with h | h
  · exact if_pos h
  · simp only [if_pos h, ite_self]

/-- At the end of the file there is no sector to read. -/
theorem fileReadsector_end (h : AtEnd (s.fdtable fd)) : fileReadsector s fd = (none, s) := by
  unfold fileReadsector
  rcases h with h | h
  · exact if_pos h
  · simp only [if_pos h, ite_self]

/-- At the end of the file no full sectors are read. -/
theorem readFullSectors_end {t : Transfer} {k : ℕ} (h : AtEnd (t.state.fdtable fd)) :
    (readFullSectors fd k t).2 = t := by
  cases k with
  | zero => rfl
  | succ k => simp only [readFullSectors, fileReadsector_end h]

/-- At the end of the file nothing is read behind the full sectors. -/
theorem readTail_end {t : Transfer} {k : ℕ} (h : AtEnd (t.state.fdtable fd)) :
    readTail fd k t = t := by
  cases k with
  | zero => rfl
  | succ k => simp only [readTail, fileReadbyte_end h]

/-- At the end of the file nothing is read up to the end of the sector. -/
theorem readToBoundary_end {t : Transfer} {k : ℕ} (h : AtEnd (t.state.fdtable fd)) :
    (readToBoundary fd k t).2 = t := by
  cases k with
  | zero => rfl
  | succ k =>
    simp only [readToBoundary, fileReadbyte_end h]
    split_ifs <;> rfl

/-- At the end of its file a read stores nothing and changes nothing. -/
theorem readPhases_end {t : Transfer} (h : AtEnd (t.state.fdtable fd)) : readPhases fd t = t := by
  have hb : (readToBoundary fd Machine.turns t).2 = t := readToBoundary_end h
  unfold readPhases
  rcases hr : readToBoundary fd Machine.turns t with ⟨_ | _, t₁⟩
  all_goals
    rw [hr] at hb
    obtain rfl : t₁ = t := hb
    simp only
  have hf : (readFullSectors fd (t₁.n / t₁.state.diskInfo.bytesPerSector) t₁).2 = t₁ :=
    readFullSectors_end h
  rcases hr' : readFullSectors fd (t₁.n / t₁.state.diskInfo.bytesPerSector) t₁ with ⟨_ | _, t₂⟩
  all_goals
    rw [hr'] at hf
    obtain rfl : t₂ = t₁ := hf
    simp only
  exact readTail_end h

/-- A read of nothing at the start of a sector changes nothing. -/
theorem readPhases_zero {t : Transfer} (hn : t.n = 0)
    (h : (t.state.fdtable fd).fposWithinSector = 0) : readPhases fd t = t := by
  obtain ⟨k, hk⟩ : ∃ k, M.turns = k + 1 := ⟨M.turns - 1, by have := M.turns_ge; omega⟩
  have hb : readToBoundary fd Machine.turns t = (false, t) := by
    rw [hk]
    exact if_pos h
  unfold readPhases
  simp only [hb, hn, Nat.zero_div, readFullSectors, readTail]

/-- A read that is refused, is at the end of the file or asks for nothing leaves the driver as it
is. -/
theorem fileRead_idle {ptr n : ℕ} {i : ℤ} (hfd : descriptor? i = some fd)
    (h : ptr % 65536 < 0x6000 ∨ (s.fdtable fd).mode ≠ fmodeRead ∨
      (s.fdtable fd).fpos = (s.fdtable fd).size ∨ (s.fdtable fd).currentCluster = clusterEof ∨
      n = 0 ∧ (s.fdtable fd).fposWithinSector = 0) : fileRead s ptr n i = ((0, []), s) := by
  unfold fileRead
  split_ifs with hptr
  · rfl
  simp only [hfd]
  by_cases hmode : (s.fdtable fd).mode ≠ fmodeRead
  · rw [if_pos hmode]
  rw [if_neg hmode]
  rcases h with h | h | h | h | ⟨rfl, h⟩
  · exact absurd h hptr
  · exact absurd h hmode
  · rw [readPhases_end (.inl h)]
  · rw [readPhases_end (.inr h)]
  · rw [readPhases_zero (by simp) h]

/-- A write that is refused or is of nothing at the start of a sector leaves the driver as it is. -/
theorem fileWrite_idle {data : List UInt8} {i : ℤ} (hfd : descriptor? i = some fd)
    (h : (s.fdtable fd).mode ≠ fmodeWrite ∨ data = [] ∧ (s.fdtable fd).fposWithinSector = 0) :
    fileWrite s data i = (0, s) := by
  unfold fileWrite
  simp only [hfd]
  rcases h with h | ⟨rfl, h⟩
  · rw [if_pos h]
  · by_cases hmode : (s.fdtable fd).mode ≠ fmodeWrite
    · rw [if_pos hmode]
    · rw [if_neg hmode, if_neg (not_not.mpr h), writeAligned, if_pos rfl]

/-! ## The claim flags -/

/-- No descriptor is claimed, and no other flag is set. -/
def FlagsClear (s : FileState) : Prop := ∀ fd, (s.fdtable fd).flags = 0

/-- The flags stay clear when a descriptor is set to one without flags. -/
theorem FlagsClear.setFd {file : FileDescriptor} (h : FlagsClear s) (hfile : file.flags = 0) :
    FlagsClear (s.setFd fd file) := by
  intro fd'
  by_cases he : fd' = fd
  · rw [he, FileState.setFd_fdtable_self]
    exact hfile
  · rw [FileState.setFd_fdtable_of_ne he]
    exact h fd'

/-- A step that leaves all descriptors leaves the flags clear. -/
theorem FlagsClear.of_frame (h : FlagsClear s) (hf : Frame ∅ s s') : FlagsClear s' :=
  fun fd => by rw [hf.fdtable_eq]; exact h fd

/-- A step that only moves one descriptor leaves the flags clear. -/
theorem FlagsClear.of_moves (h : FlagsClear s) (hm : Moves fd s s') : FlagsClear s' := by
  intro fd'
  by_cases he : fd' = fd
  · rw [he, hm.same.flags]
    exact h fd
  · rw [hm.frame.fdtable fd' he]
    exact h fd'

/-- A release leaves the flags clear. -/
theorem FlagsClear.release (h : FlagsClear s) : FlagsClear (s.release fd) :=
  h.setFd (by rw [FileDescriptor.release, h fd]; rfl)

/-- Releasing a descriptor whose flags are clear changes nothing. -/
theorem FlagsClear.release_eq (h : FlagsClear s) : s.release fd = s := by
  have hfile : (s.fdtable fd).release = s.fdtable fd := by
    have hf : (s.fdtable fd).flags &&& ~~~fdFlagsClaimed = (s.fdtable fd).flags := by
      rw [h fd]
      rfl
    rw [FileDescriptor.release, hf]
  rw [FileState.release, hfile, FileState.setFd, Function.update_eq_self]

/-- An open to write leaves the flags clear. -/
theorem fileOpenWrite_flagsClear {e : Except FileError Unit} (h : FlagsClear s)
    (hr : fileOpenWrite s fd = some (e, s')) : FlagsClear s' := by
  cases e with
  | error error => exact h.of_frame (fileOpenWrite_error_frame hr)
  | ok =>
    cases fileOpenWrite_cases hr with
    | created hget halloc _ _ hcreate =>
      have h₃ := h.of_frame (((filesystemGetDirectoryEntry_frame hget).trans
        (allocated_frame halloc)).trans (fileCreate_frame hcreate))
      exact h₃.setFd (h₃ fd)

/-- An open to read leaves the flags clear. -/
theorem fileOpenRead_flagsClear {e : Except FileError Unit} (h : FlagsClear s)
    (hr : fileOpenRead s fd = some (e, s')) : FlagsClear s' := by
  cases fileOpenRead_cases hr with
  | missing hget => exact h.of_frame (filesystemGetDirectoryEntry_frame hget)
  | opened hget =>
    have h₁ := h.of_frame (filesystemGetDirectoryEntry_frame hget)
    exact h₁.setFd (h₁ fd)

/-- A name leaves the flags clear. -/
theorem FlagsClear.named (h : FlagsClear s) : FlagsClear (s.named fd filename) := h.setFd (h fd)

/-- No call sets a flag.

**Proof sketch.** By cases on the call. A call that opens a file changes its flags through `release`
or the opened modes only, a read or a write through the moves of its descriptor, and closing ends in
a `release`; the remaining calls do not touch the table (`call_frame`). -/
theorem call_flagsClear {a : FileCall} {r : FileAnswer} (h : FlagsClear s)
    (hr : call s a = some (r, s')) : FlagsClear s' := by
  cases a with
  | «open» filename mode =>
    simp only [call, Option.map_eq_some_iff, Prod.mk.injEq] at hr
    obtain ⟨⟨x, s₁⟩, hx, -, rfl⟩ := hr
    cases fileOpen_cases hx with
    | noFd => exact h
    | readError _ _ hopen => exact (fileOpenRead_flagsClear h.named hopen).release
    | read _ _ hopen => exact fileOpenRead_flagsClear h.named hopen
    | writeError _ _ hopen => exact (fileOpenWrite_flagsClear h.named hopen).release
    | write _ _ hopen => exact fileOpenWrite_flagsClear h.named hopen
    | badMode => exact h.named
  | new filename =>
    simp only [call, Option.map_eq_some_iff, Prod.mk.injEq] at hr
    obtain ⟨⟨x, s₁⟩, hx, -, rfl⟩ := hr
    cases fileNew_cases hx with
    | noFd => exact h
    | ran _ hopen => exact (fileOpenWrite_flagsClear h.named hopen).release
  | read ptr n i =>
    simp only [call, Option.some.injEq, Prod.mk.injEq] at hr
    rw [← hr.2]
    rcases fileRead_moves (s := s) (n := n) (i := i) with hm | ⟨fd, -, hm⟩
    · exact hm.symm ▸ h
    · exact h.of_moves hm
  | write data i =>
    simp only [call, Option.some.injEq, Prod.mk.injEq] at hr
    rw [← hr.2]
    rcases fileWrite_moves (s := s) i with hm | ⟨fd, -, hm⟩
    · exact hm.symm ▸ h
    · exact h.of_moves hm
  | readbyte i =>
    simp only [call, Option.map_eq_some_iff, Prod.mk.injEq] at hr
    obtain ⟨fd, -, -, rfl⟩ := hr
    exact h.of_moves fileReadbyte_moves
  | close i =>
    simp only [call, Option.map_eq_some_iff, Prod.mk.injEq] at hr
    obtain ⟨⟨x, s₁⟩, hx, -, rfl⟩ := hr
    obtain ⟨fd, -, hclose⟩ := fileClose_cases hx
    cases hclose with
    | notWriting => exact h.release
    | writing _ hget _ hset =>
      exact (h.of_frame ((filesystemGetDirectoryEntry_frame hget).saveEntry.trans
        (filesystemSetDirectoryEntry_frame hset))).release
  | _ => exact h.of_frame (call_frame hr)

/-! ## Calls and runs -/

/-- What ownership rests on: a sound state in which no claim flag is set. -/
structure TrackedSound (t : Tracked) : Prop where
  sound : t.1.Sound
  flags : FlagsClear t.1

/-- A tracked call is a call of the driver, with a note of what it gave or took back. -/
theorem trackedCall_eq_some {t t' : Tracked} {a : FileCall} {r : FileAnswer}
    (h : trackedCall t a = some (r, t')) : call t.1 a = some (r, t'.1) ∧ t'.2 = note t.2 a r := by
  unfold trackedCall at h
  simp only [Option.map_eq_some_iff, Prod.mk.injEq] at h
  obtain ⟨⟨r, s'⟩, hr, rfl, rfl⟩ := h
  exact ⟨hr, rfl⟩

/-- A tracked call keeps what ownership rests on. -/
theorem trackedCall_sound {t t' : Tracked} {a : FileCall} {r : FileAnswer} (ht : TrackedSound t)
    (h : trackedCall t a = some (r, t')) : TrackedSound t' := by
  obtain ⟨hr, -⟩ := trackedCall_eq_some h
  exact ⟨⟨call_coherent ht.sound.coherent hr, (call_frame hr).diskInfo ▸ ht.sound.root_lt⟩,
    call_flagsClear ht.flags hr⟩

/-- What ownership rests on holds once the driver has been initialised. -/
theorem trackedInit_sound {s₀ : FileState} : TrackedSound (trackedInit s₀) :=
  ⟨⟨filesystemInit_coherent, bootDiskInfo_rootRegion_lt _⟩, fun _ => rfl⟩

/-- `file_open` returns the descriptor that it picks. -/
theorem fileOpen_assigned {mode : UInt8} (h : fileOpen s filename mode = some (.ok fd, s')) :
    filesystemAssignFd s = some fd := by
  cases fileOpen_cases h with
  | read hfd => exact hfd
  | write hfd => exact hfd

/-- A creation that stops does not set the descriptor up. -/
theorem CreationStops.not_created {r : Unit} (hs : s.Sound) (hstop : CreationStops s fd)
    (h : fileOpenWrite s fd = some (.ok r, s')) : False := by
  cases fileOpenWrite_cases h with
  | created hget halloc hc hsplit hcreate =>
    obtain ⟨n, hn, rfl, ⟨h0, -⟩ | ⟨-, he⟩⟩ := filesystemGetDirectoryEntry_cases hs hget
    · obtain ⟨rfl, hd, hi, hcoh⟩ := allocated_disk hs.coherent halloc hc
      have hfd := (allocated_frame halloc).fdtable_eq
      rcases hstop with ⟨m, hm, hm0⟩ | h | h | h
      · rw [hm.unique hn] at hm0
        exact hm0 h0
      · exact hc h
      · rw [hfd] at hsplit
        exact absurd (splitName_eq_none.mpr h) (by rw [show (s.fdtable fd).name =
          ((s.lookedAt n).fdtable fd).name from rfl, hsplit]; simp)
      · obtain ⟨hb, -⟩ | ⟨-, m, hm, hdata, -⟩ := fileCreate_cases ⟨hcoh, hi ▸ hs.root_lt⟩ hcreate
        · simp at hb
        · rw [hd, hi] at hm
          obtain ⟨j, hj, he⟩ := DirectoryFull.not_firstTakable h hm
          rw [hi] at hdata
          exact hdata j hj he
    · simp at he

/-- `file_new` of the name that an open descriptor stands for leaves the descriptor alone when the
creation stops early. -/
theorem fileNew_same_name {r : Except FileError Unit} (hs : s.Sound) (hflags : FlagsClear s)
    (hfd : filesystemAssignFd s = some fd) (hname : filenameUpper filename = (s.fdtable fd).name)
    (hstop : CreationStops s fd) (h : fileNew s filename = some (r, s')) :
    s'.fdtable = s.fdtable := by
  have hnamed : s.named fd filename = s := by
    rw [FileState.named, hname, FileState.setFd, Function.update_eq_self]
  cases fileNew_cases h with
  | noFd => rfl
  | ran hfd' hopen =>
    obtain rfl := Option.some.inj (hfd.symm.trans hfd')
    rw [hnamed] at hopen
    cases r with
    | ok u => exact (hstop.not_created hs hopen).elim
    | error e =>
      have hframe := fileOpenWrite_error_frame hopen
      rw [(hflags.of_frame hframe).release_eq, hframe.fdtable_eq]

/-- **One call.** A call that respects the ownership of descriptors meets what ownership demands.

**Proof sketch.** `file_open` and `file_new` change the descriptor that they pick and no other, and
that one is not open. Reading and writing move one descriptor and keep its file. A closed
descriptor is used only where the driver returns at once. -/
theorem trackedCall_ownership {t t' : Tracked} {a : FileCall} {r : FileAnswer}
    (ht : TrackedSound t) (hc : RespectsOwnership t a) (h : trackedCall t a = some (r, t')) :
    OwnershipHolds t a r t' := by
  obtain ⟨hr, hnote⟩ := trackedCall_eq_some h
  have hframe := call_frame hr
  have hkept : ∀ filename, (∃ mode, a = .open filename mode) ∨ a = .new filename →
      ∀ fd, t.2 fd = .opened → t'.1.fdtable fd = t.1.fdtable fd := by
    rintro filename (⟨mode, rfl⟩ | rfl) fd hopen
    · exact hframe.fdtable fd fun hin => hc fd hin hopen
    · by_cases hin : filesystemAssignFd t.1 = some fd
      · obtain ⟨hname, hstop⟩ := hc fd hin hopen
        simp only [call, Option.map_eq_some_iff, Prod.mk.injEq] at hr
        obtain ⟨⟨x, s₁⟩, hx, -, rfl⟩ := hr
        rw [fileNew_same_name ht.sound ht.flags hin hname hstop hx]
      · exact hframe.fdtable fd hin
  refine ⟨?_, hkept, ?_, ?_, ?_, ?_⟩
  · rintro fd rfl
    cases a with
    | «open» filename mode =>
      simp only [call, Option.map_eq_some_iff, Prod.mk.injEq, FileAnswer.open.injEq] at hr
      obtain ⟨⟨x, s₁⟩, hx, rfl, -⟩ := hr
      exact hc fd (fileOpen_assigned hx)
    | _ => simp [call] at hr
  · intro fd hopen hopen'
    cases a with
    | «open» filename mode => rw [hkept filename (.inl ⟨mode, rfl⟩) fd hopen]; exact .refl _
    | new filename => rw [hkept filename (.inr rfl) fd hopen]; exact .refl _
    | read ptr n i =>
      simp only [call, Option.some.injEq, Prod.mk.injEq] at hr
      rw [← hr.2]
      rcases fileRead_moves (s := t.1) (n := n) (i := i) with hm | ⟨fd', -, hm⟩
      · rw [hm]; exact .refl _
      · exact hm.sameFile fd
    | write data i =>
      simp only [call, Option.some.injEq, Prod.mk.injEq] at hr
      rw [← hr.2]
      rcases fileWrite_moves (s := t.1) i with hm | ⟨fd', -, hm⟩
      · rw [hm]; exact .refl _
      · exact hm.sameFile fd
    | readbyte i =>
      simp only [call, Option.map_eq_some_iff, Prod.mk.injEq] at hr
      obtain ⟨fd', -, -, hm⟩ := hr
      exact hm ▸ fileReadbyte_moves.sameFile fd
    | close i =>
      -- the descriptor is still open, so it is not the one that has been closed
      have hne : descriptor? i ≠ some fd := by
        intro hfd
        rw [hnote, note, hfd] at hopen'
        simp at hopen'
      rw [hframe.fdtable fd hne]
      exact .refl _
    | _ => rw [hframe.fdtable fd (Set.notMem_empty fd)]; exact .refl _
  · rintro filename mode rfl hall
    simp only [call, Option.map_eq_some_iff, Prod.mk.injEq] at hr
    obtain ⟨⟨x, s₁⟩, hx, rfl, -⟩ := hr
    cases hfd : filesystemAssignFd t.1 with
    | some fd => exact absurd (hall fd) (hc fd hfd)
    | none =>
      simp only [fileOpen, hfd, Option.some.injEq, Prod.mk.injEq] at hx
      rw [← hx.1]
  · rintro ptr n i fd rfl hfd hclosed
    have hidle := hc fd hfd hclosed
    simp only [call, Option.some.injEq, Prod.mk.injEq] at hr
    rw [fileRead_idle hfd hidle] at hr
    exact ⟨hr.1.symm, hr.2.symm⟩
  · rintro data i fd rfl hfd hclosed
    have hidle := hc fd hfd hclosed
    simp only [call, Option.some.injEq, Prod.mk.injEq] at hr
    rw [fileWrite_idle hfd hidle] at hr
    exact ⟨hr.1.symm, hr.2.symm⟩

/-- **Ownership of descriptors.** In every run from the initialisation whose calls all respect the
ownership of descriptors, every call meets what ownership demands.

**Proof sketch.** A call that respects ownership meets the demands (`trackedCall_ownership`), and
every call leaves a state in which that is so for the next one (`trackedCall_sound`). -/
theorem ownership_holds_of_respects (s₀ : FileState) (calls : List FileCall)
    (hcalls : Run.Always (@trackedCall M) (fun t a _ _ => RespectsOwnership t a) (trackedInit s₀)
      calls) :
    Run.Always (@trackedCall M) OwnershipHolds (trackedInit s₀) calls :=
  Run.Always.of_invariant (I := TrackedSound)
    (fun _ _ _ _ ht hc h => ⟨trackedCall_ownership ht hc h, trackedCall_sound ht h⟩)
    trackedInit_sound hcalls

end

/-! ## Two files at once -/

section

attribute [local instance] Machine.linked

/-- A file is written and closed before the next one is opened, and the closed descriptor is used
only for a read to an address that the driver refuses. -/
theorem ownership_holds_of_respects_sequential :
    Run.Always trackedCall OwnershipHolds (trackedInit (.zeroed (formattedDisk 1 1 1)))
      [.open nameAB fmodeWrite, .write [1, 2, 3] 0, .close 0, .read 0 3 0,
        .open nameCD fmodeWrite] := by
  refine ownership_holds_of_respects _ _ fun r₁ t₁ h₁ => ⟨by simp [RespectsOwnership, trackedInit],
    fun r₂ t₂ h₂ => ⟨?_, fun r₃ t₃ h₃ => ⟨trivial,
      fun r₄ t₄ h₄ => ⟨fun _ _ _ => .inl (by decide), fun r₅ t₅ h₅ => ⟨?_, trivial⟩⟩⟩⟩⟩
  · -- after the first call no descriptor is closed
    intro fd _ hclosed
    rw [(trackedCall_eq_some h₁).2] at hclosed
    exact absurd hclosed (note_open_ne_closed fun _ => by simp [trackedInit])
  · -- the only descriptor has been closed by the third call
    intro fd _ hopen
    have hfd : descriptor? 0 = some fd := by
      rw [show fd = firstFd from Subsingleton.elim (α := Fin 1) _ _]
      rfl
    rw [(trackedCall_eq_some h₄).2, (trackedCall_eq_some h₃).2] at hopen
    simp [note, hfd] at hopen

/-- Two calls of `file_open` in a row both return descriptor 0. -/
theorem fileOpen_twice :
    ∃ s₁ s₂ fd, call smallState (.open nameAB fmodeWrite) = some (.open (.ok fd), s₁) ∧
      call s₁ (.open nameCD fmodeWrite) = some (.open (.ok fd), s₂) := by
  have h : ((fileOpen smallState nameAB fmodeWrite).bind fun r =>
      (fileOpen r.2 nameCD fmodeWrite).map fun r' => (r.1.toOption, r'.1.toOption)) =
      some (some firstFd, some firstFd) := by decide +kernel
  obtain ⟨⟨r, s₁⟩, hr, h⟩ := Option.bind_eq_some_iff.mp h
  obtain ⟨⟨r', s₂⟩, hr', h⟩ := Option.map_eq_some_iff.mp h
  simp only [Prod.mk.injEq] at h
  cases r with
  | error e => simp [Except.toOption] at h
  | ok fd =>
    cases r' with
    | error e => simp [Except.toOption] at h
    | ok fd' =>
      simp only [Except.toOption, Option.some.injEq] at h
      obtain ⟨rfl, rfl⟩ := h
      exact ⟨s₁, s₂, _, by rw [call, hr]; rfl, by rw [call, hr']; rfl⟩

/-- Not every run meets what ownership demands. -/
theorem not_ownership_holds :
    ¬ ∀ (s₀ : FileState) (calls : List FileCall),
      Run.Always trackedCall OwnershipHolds (trackedInit s₀) calls := by
  intro hall
  obtain ⟨s₁, s₂, fd, h₁, h₂⟩ := fileOpen_twice
  obtain ⟨-, hrest⟩ := hall (.zeroed (formattedDisk 1 1 1))
    [.open nameAB fmodeWrite, .open nameCD fmodeWrite] _
    (s₁, note (fun _ => .neverOpened) (.open nameAB fmodeWrite) (.open (.ok fd)))
    (by rw [trackedCall, trackedInit, ← smallState, h₁]; rfl)
  obtain ⟨hholds, -⟩ := hrest _ (s₂, note _ (.open nameCD fmodeWrite) (.open (.ok fd))) (by
    rw [trackedCall, h₂]; rfl)
  exact hholds.notReturned fd rfl (by simp [note])

end

end Z80OS
