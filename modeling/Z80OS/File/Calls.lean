import Z80OS.Lib.Run
import Z80OS.File.Cache

set_option relaxedAutoImplicit false
set_option autoImplicit false

/-!
# Runs of the file driver

The kernel reaches the driver through its calls, one after the other, in any order and with any
arguments. A run is a list of calls, executed from the state that `filesystem_init` leaves.

## Main definitions

* `Z80OS.FileCall`, `Z80OS.FileAnswer`, `Z80OS.call` — the calls of the driver as a step function.

## Main results

* `Z80OS.call_coherent`, `Z80OS.call_forced` — a call keeps the cache coherent, and does the same
  when every read is forced.
* `Z80OS.sector_cache_coherent` — the same for runs.
-/

namespace Z80OS

/-- A call of the file driver with its arguments. -/
inductive FileCall
  | open (filename : List UInt8) (mode : UInt8)
  | new (filename : List UInt8)
  | read (ptr n : ℕ) (fd : ℤ)
  | readbyte (fd : ℤ)
  | write (data : List UInt8) (fd : ℤ)
  | close (fd : ℤ)
  | delete (filename : List UInt8)
  | info (filename : List UInt8)
  | entries
  | entry (n : ℕ)

/-- What a call of the file driver returns. For a read that is the number of bytes read, and the
bytes that it has stored. -/
inductive FileAnswer
  | open (r : Except FileError (Fin fileLimit))
  | new (r : Except FileError Unit)
  | read (n : ℕ) (stored : List UInt8)
  | readbyte (c : Option UInt8)
  | write (n : ℕ)
  | close
  | delete (r : Except FileError Unit)
  | info (r : Except FileError FInfo)
  | entries (n : ℕ)
  | entry (r : Except FileError (List UInt8))

/-- Executes a call. -/
def call [Machine] (s : FileState) : FileCall → Option (FileAnswer × FileState)
  | .open filename mode => (fileOpen s filename mode).map fun r => (.open r.1, r.2)
  | .new filename => (fileNew s filename).map fun r => (.new r.1, r.2)
  | .read ptr n fd =>
    let r := fileRead s ptr n fd
    some (.read r.1.1 r.1.2, r.2)
  | .readbyte fd =>
    (descriptor? fd).map fun fd =>
      let r := fileReadbyte s fd
      (.readbyte r.1, r.2)
  | .write data fd =>
    let r := fileWrite s data fd
    some (.write r.1, r.2)
  | .close fd => (fileClose s fd).map fun r => (.close, r.2)
  | .delete filename => (fileDelete s filename).map fun r => (.delete r.1, r.2)
  | .info filename => (fileInfo s filename).map fun r => (.info r.1, r.2)
  | .entries => (fileEntries s).map fun r => (.entries r.1, r.2)
  | .entry n => (fileEntry s n).map fun r => (.entry r.1, r.2)

variable {M : Machine} {s s' : FileState} {a : FileCall} {r : FileAnswer}

/-- A call keeps the cache coherent. -/
theorem call_coherent (h : s.Coherent) (hr : call s a = some (r, s')) : s'.Coherent := by
  cases a with
  | read ptr n fd =>
    simp only [call, Option.some.injEq, Prod.mk.injEq] at hr
    exact hr.2 ▸ fileRead_coherent h
  | write data fd =>
    simp only [call, Option.some.injEq, Prod.mk.injEq] at hr
    exact hr.2 ▸ fileWrite_coherent h
  | readbyte fd =>
    simp only [call, Option.map_eq_some_iff, Prod.mk.injEq] at hr
    obtain ⟨fd, -, -, rfl⟩ := hr
    exact fileReadbyte_coherent h
  | _ =>
    simp only [call, Option.map_eq_some_iff, Prod.mk.injEq] at hr
    obtain ⟨⟨x, s₁⟩, hx, -, rfl⟩ := hr
    first
      | exact fileOpen_coherent h hx
      | exact fileNew_coherent h hx
      | exact fileClose_coherent h hx
      | exact fileDelete_coherent h hx
      | exact fileInfo_coherent h hx
      | exact fileEntries_coherent h hx
      | exact fileEntry_coherent h hx

/-- In a coherent state a call does the same when every read is forced. -/
theorem call_forced (h : s.Coherent) : @call M.forced s a = @call M s a := by
  cases a <;> simp only [call, fileOpen_forced h, fileNew_forced h, fileRead_forced h,
    fileReadbyte_forced h, fileWrite_forced h, fileClose_forced h, fileDelete_forced h,
    fileInfo_forced h, fileEntries_forced h, fileEntry_forced h]

/-- The boot sector is in the buffer after the initialisation. -/
theorem filesystemInit_coherent : (filesystemInit s).Coherent := rfl

/-- **Coherence of the sector cache.** After every run from the initialisation the buffer holds
the sector that its tag names, and a driver that forces every read gives the same answers and
leaves the same state.

**Proof sketch.** The initialisation reads a sector, every call leaves the buffer coherent
(`call_coherent`), and from a coherent state a forced read gives what is in the buffer already
(`call_forced`). -/
theorem sector_cache_coherent (s₀ : FileState) (calls : List FileCall) :
    (∀ answers s, @Run.exec _ _ _ (@call M) (filesystemInit s₀) calls = some (answers, s) →
      s.tempSector = s.disk s.currentCacheSector) ∧
    @Run.exec _ _ _ (@call M.forced) (filesystemInit s₀) calls =
      @Run.exec _ _ _ (@call M) (filesystemInit s₀) calls :=
  ⟨fun _ _ h => Run.invariant (I := FileState.Coherent) (fun _ _ _ _ hs hr => call_coherent hs hr)
      filesystemInit_coherent h,
    Run.exec_congr (I := FileState.Coherent) (fun _ _ _ _ hs hr => call_coherent hs hr)
    (fun _ _ hs => call_forced hs)
      filesystemInit_coherent⟩

end Z80OS
