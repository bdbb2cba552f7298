import Z80OS.File.Lifecycle
import Z80OS.File.Reading

set_option relaxedAutoImplicit false
set_option autoImplicit false

/-!
# Sessions

A process creates a file, writes it in chunks and closes it; later it opens the file and reads it in
pieces. This file follows the invariants of the writer and of the reader through these runs.

## Main definitions

* `Z80OS.writeSession` — the calls that create a file.
* `Z80OS.cut` — the answers of a reader.

## Main results

* `Z80OS.writeSession_stored` — the disk after the creation of a file.
* `Z80OS.Stored.openRead` — opening for reading.
* `Z80OS.Reading.reads` — a run of a reader.
-/

namespace Z80OS

/-- The calls of a process that creates a file, writes it in chunks and closes it. -/
def writeSession (filename : List UInt8) (chunks : List (List UInt8)) : List FileCall :=
  .open filename fmodeWrite :: (chunks.map fun c => .write c firstFd) ++ [.close firstFd]

/-- The answers to these calls when they succeed. -/
def writeAnswers (chunks : List (List UInt8)) : List FileAnswer :=
  .open (.ok firstFd) :: (chunks.map fun c => .write c.length) ++ [.close]

/-- The answers to reads of the given sizes, when `data` is what is left to read: every read gives
as many bytes as it is asked for, or as many as are left. -/
def cut : List UInt8 → List ℕ → List FileAnswer
  | _, [] => []
  | data, n :: ns => .read (min n data.length) (data.take n) :: cut (data.drop n) ns

section

variable {M : Machine} {g : DiskInfo} {d₀ d : Disk} {f z p : ℕ} {e : DirectoryEntry}
  {fd : Fin fileLimit} {l : List ℕ} {data name filename : List UInt8} {chunks : List (List UInt8)}
  {s s' : FileState}

/-- No run sets a flag. -/
theorem run_flagsClear {s₀ : FileState} {calls : List FileCall} {answers : List FileAnswer}
    (h : Run.exec call (filesystemInit s₀) calls = some (answers, s)) : FlagsClear s :=
  Run.invariant (I := FlagsClear) (fun _ _ _ _ hs hr => call_flagsClear hs hr) (fun _ => rfl) h

/-- A run of writes. -/
theorem Writing.writes (hg : Geometry g) (h : Writing g d₀ f e fd l data s)
    (hname : (s.fdtable fd).name = name)
    {n : ℕ} (hn : (data ++ chunks.flatten).length ≤ n)
    (hfind : Run.Always call (fun s _ _ s' => Enough g d₀ n s s') s
      (chunks.map fun c => .write c fd)) :
    ∃ l' s', Run.exec call s (chunks.map fun c => .write c fd) =
        some (chunks.map fun c => .write c.length, s') ∧
      Writing g d₀ f e fd l' (data ++ chunks.flatten) s' ∧ (s'.fdtable fd).name = name := by
  induction chunks generalizing s l data with
  | nil => exact ⟨l, s, rfl, by simpa using h, hname⟩
  | cons c chunks ih =>
    obtain ⟨hstep, hrest⟩ := hfind _ _ rfl
    rw [List.flatten_cons, ← List.append_assoc] at hn
    have hle : (data ++ c).length ≤ n := by
      rw [List.length_append] at hn
      exact le_of_add_le_left hn
    obtain ⟨hlen, l₁, hw⟩ := h.write (M := M) hg (hstep.mono hle)
    have hname' : ((fileWrite s c fd).2.fdtable fd).name = name := by
      have hmoves : Moves fd s (fileWrite s c fd).2 := fileWrite_moves_self
      rw [hmoves.same.name, hname]
    obtain ⟨l', s', hexec, hw', hname''⟩ := ih hw hname' hn hrest
    refine ⟨l', s', ?_, ?_, hname''⟩
    · rw [List.map_cons, Run.exec_cons_of_some rfl, hexec, hlen]
      rfl
    · rw [List.flatten_cons, ← List.append_assoc]
      exact hw'

/-- **Creating a file.** The calls succeed, every write returns the length of its chunk, and the
disk then has the file, with the concatenation of the chunks as its contents.

**Proof sketch.** The call that opens the file leaves it empty (`fileOpen_write`), the writes add
their chunks (`Writing.writes`), and closing stores the entry (`Writing.close`). The three parts of
the run are put together (`Run.exec_append`). -/
theorem writeSession_stored (hs : s.Sound) (hflags : FlagsClear s) (hi : s.diskInfo = g)
    (hg : Geometry g) (hz : EndsAt g s.disk z) (hvalid : ValidName (cString filename))
    (habs : Absent g s.disk (filenameUpper filename))
    (hfind : Run.Always call (fun t _ _ t' => Enough g s.disk chunks.flatten.length t t') s
      (writeSession filename chunks)) :
    ∃ s' f e l, Run.exec call s (writeSession filename chunks) = some (writeAnswers chunks, s') ∧
      f ≤ z ∧ Stored g s.disk f (filenameUpper filename) e l chunks.flatten s' ∧
      FlagsClear s' ∧ e.size = chunks.flatten.length ∧
      l.length = chunks.flatten.length / 512 / g.sectorsPerCluster + 1 ∧ ∀ c ∈ l, c < 256 := by
  obtain ⟨base, ext, hp, hname⟩ := hvalid.parts
  have hopens : ∀ r s', fileOpen s filename fmodeWrite = some (r, s') → Enough g s.disk 0 s s' :=
    fun r s' hr => (hfind _ _ (by rw [call, hr]; rfl)).1.mono (Nat.zero_le _)
  obtain ⟨s₁, f, c, hopen, hfz, hplaced, hw, hname₁⟩ :=
    fileOpen_write hs hflags hi hg hz hp hname habs hopens
  have hcall : call s (.open filename fmodeWrite) = some (.open (.ok firstFd), s₁) := by
    rw [call, hopen]
    rfl
  have hrest := (hfind _ _ hcall).2
  obtain ⟨l, s₂, hexec, hw₂, hname₂⟩ := hw.writes hg hname₁ (le_refl _) hrest.left
  rw [List.nil_append] at hw₂
  have hnames : Names (fun j => (newEntry base ext c).toBytes.getD j 0) (filenameUpper filename) :=
    hname ▸ hp.names rfl rfl rfl fun _ _ => rfl
  obtain ⟨s₃, hclose, hst⟩ := hw₂.close hg hplaced hnames hname₂
  have hcall₃ : call s₂ (.close firstFd) = some (.close, s₃) := by
    rw [call, hclose]
    rfl
  have hall : Run.exec call s (writeSession filename chunks) = some (writeAnswers chunks, s₃) := by
    rw [writeSession, List.cons_append, Run.exec_cons_of_some hcall, Run.exec_append hexec,
      Run.exec_cons_of_some hcall₃]
    rfl
  refine ⟨s₃, f, _, l, hall, hfz, hst, ?_, rfl, hw₂.eager, hw₂.low⟩
  exact Run.invariant (fun _ _ _ _ hs hr => call_flagsClear hs hr) hflags hall

/-! ## Reading a file that has been created -/

/-- **Opening for reading.** The descriptor stands at the start of the file.

**Proof sketch.** The search of the root directory finds the entry of the file
(`filesystemGetDirectoryEntry_found`). Its size and its first cluster are those of the file, so that
the descriptor that starts from it stands at the first byte; the sector buffer holds a sector of the
directory. -/
theorem Stored.openRead (hg : Geometry g) (h : Stored g d₀ f (filenameUpper filename) e l data s)
    (hflags : FlagsClear s) (hsize : e.size = data.length)
    (heager : l.length = data.length / 512 / g.sectorsPerCluster + 1) :
    ∃ s', fileOpen s filename fmodeRead = some (.ok firstFd, s') ∧
      Reading g d₀ s.disk f e firstFd l data 0 s' := by
  have hst : Stored g d₀ f (filenameUpper filename) e l data (s.named firstFd filename) :=
    ⟨h.coherent.setFd, h.diskInfo, h.file, h.placed, h.names⟩
  obtain ⟨hstop, h0⟩ := hst.stopsAt hg
  have hget := filesystemGetDirectoryEntry_found (M := M) (hst.sound hg) hstop h0
    (slot_turns hg h.placed.lt)
  have hentry : ∀ j < 32, (s.named firstFd filename).rootEntry f j = e.toBytes.getD j 0 :=
    fun j hj => by
      rw [FileState.rootEntry, hst.diskInfo]
      exact h.file.entry j hj
  have hname : ((s.named firstFd filename).fdtable firstFd).name = filenameUpper filename := by
    rw [FileState.named, FileState.setFd_fdtable_self]
  have hlen := h.file.length_lt hg
  -- the first cluster of the file
  obtain ⟨c, l', rfl⟩ := List.exists_cons_of_length_eq_add_one heager
  have hstart : e.startingCluster = c := h.file.chain.1
  have hlt := (h.file.usable c List.mem_cons_self).lt
  have hcluster :
      (DirectoryEntry.ofBytes ((s.named firstFd filename).rootEntry f)).startingCluster =
      c := by
    rw [DirectoryEntry.ofBytes_startingCluster hentry, hstart]
    omega
  have hsize' : (DirectoryEntry.ofBytes ((s.named firstFd filename).rootEntry f)).size =
      data.length := by
    rw [DirectoryEntry.ofBytes_size hentry, hsize]
    omega
  refine ⟨((s.named firstFd filename).lookedAt f).setFd firstFd
    (((s.named firstFd filename).fdtable firstFd).start
      (DirectoryEntry.ofBytes ((s.named firstFd filename).rootEntry f)) fmodeRead), ?_, ?_⟩
  · unfold fileOpen fileOpenRead
    simp only [hflags.assignFd, if_true, hname, hget]
    rfl
  · refine ⟨FileState.coherent_cached.setFd, h.diskInfo, rfl, h.file, heager, Nat.zero_le _, ?_, ?_,
      ?_, ?_, ?_, ?_⟩
    all_goals rw [FileState.setFd_fdtable_self]
    · rfl
    · exact hsize'
    · rfl
    · rw [Nat.zero_div]
      exact hcluster
    · rw [Nat.zero_div, Nat.zero_mod]
      rfl
    · rfl

/-- **A run of reads** gives the rest of the file, cut at the requested sizes. -/
theorem Reading.reads {reads : List (ℕ × ℕ)} (hg : Geometry g)
    (h : Reading g d₀ d f e fd l data p s)
    (hreads : ∀ r ∈ reads, 0x6000 ≤ r.1 % 65536 ∧ 0 < r.2 ∧ r.2 < 65536) :
    ∃ s', Run.exec call s (reads.map fun r => .read r.1 r.2 fd) =
      some (cut (data.drop p) (reads.map Prod.snd), s') := by
  induction reads generalizing s p with
  | nil => exact ⟨s, rfl⟩
  | cons r reads ih =>
    obtain ⟨hptr, hpos, hlt⟩ := hreads r List.mem_cons_self
    obtain ⟨s₁, hread, h₁⟩ := h.read (M := M) hg hptr hpos hlt
    obtain ⟨s', hexec⟩ := ih h₁ fun r hr => hreads r (List.mem_cons_of_mem _ hr)
    have hcall : call s (.read r.1 r.2 fd) =
        some (.read (min r.2 (data.length - p)) ((data.drop p).take r.2), s₁) := by
      rw [call, hread]
    have hdrop : data.drop (p + min r.2 (data.length - p)) = (data.drop p).drop r.2 := by
      rw [List.drop_drop]
      rcases Nat.le_total r.2 (data.length - p) with hle | hge
      · rw [Nat.min_eq_left hle]
      · rw [Nat.min_eq_right hge, List.drop_eq_nil_of_le (by omega),
          List.drop_eq_nil_of_le (by omega)]
    refine ⟨s', ?_⟩
    rw [List.map_cons, Run.exec_cons_of_some hcall, hexec, hdrop, List.map_cons, cut,
      List.length_drop]
    rfl

end

end Z80OS
