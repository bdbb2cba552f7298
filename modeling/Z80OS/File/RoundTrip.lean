import Z80OS.File.Session

set_option relaxedAutoImplicit false
set_option autoImplicit false

/-!
# The round trip of a file

What a process writes into a new file is what it reads back, however the writes and the reads are
cut.

## Main definitions

* `Z80OS.roundTrip` — the calls of a process that creates a file and reads it back.

## Main results

* `Z80OS.file_round_trip` — their answers.
-/

namespace Z80OS

/-- The calls of a process that creates a file, writes it in chunks, closes it, and reads it back in
pieces. A read is given by the address and the size. -/
def roundTrip (filename : List UInt8) (chunks : List (List UInt8)) (reads : List (ℕ × ℕ)) :
    List FileCall :=
  writeSession filename chunks ++
    .open filename fmodeRead :: reads.map fun r => .read r.1 r.2 firstFd

/-- **The round trip.** Let the driver have been initialised and have made any calls since, and let
the disk be well-formed and not have the name. When every search for a free cluster finds one, the
calls succeed, every write returns the length of its chunk, and the reads give the concatenation of
the chunks, cut at the requested sizes.

**Proof sketch.** The writer keeps `Writing`, and closing stores the size. The reader starts at
position 0 and keeps `Reading`. -/
theorem file_round_trip {M : Machine} {s₀ s : FileState} {calls : List FileCall}
    {answers : List FileAnswer} {filename : List UInt8} {chunks : List (List UInt8)}
    {reads : List (ℕ × ℕ)} (hrun : Run.exec call (filesystemInit s₀) calls = some (answers, s))
    (hwf : WellFormed s.diskInfo s.disk) (hvalid : ValidName (cString filename))
    (habs : Absent s.diskInfo s.disk (filenameUpper filename))
    (hreads : ∀ r ∈ reads, 0x6000 ≤ r.1 % 65536 ∧ 0 < r.2 ∧ r.2 < 65536)
    (hfind : Run.Always call (fun t _ _ t' => AllocationsFind s.diskInfo t t') s
      (roundTrip filename chunks reads)) :
    ∃ s', Run.exec call s (roundTrip filename chunks reads) =
      some (writeAnswers chunks ++
        .open (.ok firstFd) :: cut chunks.flatten (reads.map Prod.snd), s') := by
  obtain ⟨hs, -⟩ := run_sound hrun
  obtain ⟨z, hz, -⟩ := hwf.ends
  obtain ⟨s₁, f, e, l, hwrite, -, hst, hflags, hsize, heager, -⟩ :=
    writeSession_stored hs (run_flagsClear hrun) rfl hwf.geometry hz hvalid habs
      (hfind.left.mono fun _ _ _ _ => .inl)
  obtain ⟨s₂, hopen, hr⟩ := hst.openRead hwf.geometry hflags hsize heager
  obtain ⟨s₃, hread⟩ := hr.reads (M := M) hwf.geometry hreads
  have hcall : call s₁ (.open filename fmodeRead) = some (.open (.ok firstFd), s₂) := by
    rw [call, hopen]
    rfl
  refine ⟨s₃, ?_⟩
  rw [roundTrip, Run.exec_append hwrite, Run.exec_cons_of_some hcall, hread]
  rfl

/-! ## A small disk -/

section

attribute [local instance] Machine.linked

/-- A file of three bytes on a small disk, written in three chunks, one of them empty, and read in
two pieces, the second of which asks for more than is left. -/
theorem file_round_trip_small :
    ∃ s', Run.exec call smallState
        (roundTrip nameAB [[1, 2], [], [3]] [(0x8000, 1), (0x8000, 700)]) =
      some ([.open (.ok firstFd), .write 2, .write 0, .write 1, .close, .open (.ok firstFd),
        .read 1 [1], .read 2 [2, 3]], s') := by
  have hwf : WellFormed smallState.diskInfo smallState.disk :=
    wellFormed_formattedDisk (by decide) (by decide) (by decide) (by decide) (by decide)
      (by decide)
  have habs : Absent smallState.diskInfo smallState.disk (filenameUpper nameAB) := fun i hi =>
    absurd hi (not_isFile_formattedDisk (by decide) (by decide) (by decide) (by decide))
  refine file_round_trip (M := .linked)
    (show Run.exec call (filesystemInit (.zeroed (formattedDisk 1 1 1))) [] = _ from rfl)
    hwf validName_nameAB habs (by decide) ?_
  refine Run.Always.of_check (p := fun t _ _ t' => staysFree smallState.diskInfo 255 t t')
    (fun _ _ _ _ => AllocationsFind.of_staysFree (by decide) (by decide)) ?_
  decide +kernel

end

end Z80OS
