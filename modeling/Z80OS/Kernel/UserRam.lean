import Z80OS.File.Bytewise
import Z80OS.File.Lifecycle
import Z80OS.Kernel.Arguments
import Z80OS.Kernel.Loading

set_option relaxedAutoImplicit false
set_option autoImplicit false

/-!
# Loading into user memory

`process_load` reads the program to the base address that the header of the file names, whatever
fits into 28 KiB, and then stores the initial frame of the process at the end of its stack and of
its bank. The base address and the limit of the size do not depend on each other: a program with a
high base address runs into the frame, or around the end of the address space.

A process that loads another one does so on its own stack. The bank is changed before the program is
read, so that what is called to read it has its frames at the stack pointer of the caller, in the
bank of the new process. The kernel loads the first process on a stack below user memory.

## Main definitions

* `Z80OS.CallFrames` — what the calls have on their stack, as far as it lies in user memory.
* `Z80OS.frameStores` — the initial frame of a process.
* `Z80OS.processLoadInto` — a load, with what it stores into the bank of the process.
* `Z80OS.LoadStaysInside` — the load stays inside of user memory.
* `Z80OS.FitsBank` — there is room for the program at its base address.
* `Z80OS.CallFrames.Clear` — the program and the frames of the calls are apart.

## Main results

* `Z80OS.loadedInside_iff` — when the stores of a load stay inside.
* `Z80OS.load_stays_inside_iff` — when a load does.
* `Z80OS.not_load_stays_inside` — a program in the last page.
-/

namespace Z80OS

/-- What the calls of a load have on their stack while the bank of the new process is selected, as
far as the stack lies in user memory. Where and when is up to the compiler and to the caller. -/
structure CallFrames where
  /-- The bytes that are read again behind the store of the `i`-th byte of the program. -/
  live : ℕ → List (ℕ × UInt8)
  /-- What is pushed in front of the `i`-th byte, and behind the one in front of it. With the length
  of the program, what is pushed behind the last byte. -/
  pushed : ℕ → List (ℕ × UInt8)
  /-- What is pushed behind the initial frame, to select the bank of the caller again. -/
  last : List (ℕ × UInt8)
  pushed_inside : ∀ i, ∀ f ∈ pushed i, userRamStartPage * 256 ≤ f.1 ∧ f.1 ≤ 0xffff
  last_inside : ∀ f ∈ last, userRamStartPage * 256 ≤ f.1 ∧ f.1 ≤ 0xffff

/-- A load on the stack of the kernel has no frames in user memory. -/
def CallFrames.kernel : CallFrames where
  live _ := []
  pushed _ := []
  last := []
  pushed_inside _ _ h := absurd h List.not_mem_nil
  last_inside _ h := absurd h List.not_mem_nil

/-- The stores of a program overwrite no byte of a frame that is read again. -/
def CallFrames.Spared (c : CallFrames) (program : List (ℕ × UInt8)) : Prop :=
  ∀ i (h : i < program.length), ∀ f ∈ c.live i, f.1 = program[i].1 → f.2 = program[i].2

instance (c : CallFrames) (program : List (ℕ × UInt8)) : Decidable (c.Spared program) :=
  inferInstanceAs (Decidable (∀ i (h : i < program.length), ∀ f ∈ c.live i,
    f.1 = program[i].1 → f.2 = program[i].2))

/-- What a load stores into the bank of the new process: the program, with what its calls push, and
then the initial frame. -/
structure LoadStores where
  calls : CallFrames
  program : List (ℕ × UInt8)
  frame : List (ℕ × UInt8)

/-- All stores of a load. -/
def LoadStores.all (w : LoadStores) : List (ℕ × UInt8) :=
  Stores.weave w.calls.pushed 0 w.program ++ w.frame ++ w.calls.last

/-- The initial frame of a process: the stack pointer on entry, the arguments of `main`, its return
address, and the entry point. -/
def frameStores (baseAddressHighByte : UInt8) : List (ℕ × UInt8) :=
  [(0xffff, 0xf7), (0xfffe, 0xec),
    (0xf7ff, 0x00), (0xf7fe, 0x00), (0xf7fd, 0x00), (0xf7fc, 0x00),
    (0xf7fb, 0x00), (0xf7fa, 0x00),
    (0xf7f9, baseAddressHighByte), (0xf7f8, 0x00)]

section

variable [Machine]

/-- The stores of a load. The file is read to the base address through a pointer of 16 bits. -/
def programStores (c : CallFrames) (k : Kernel) (fd : ℤ) (baseAddrPage : UInt8) : LoadStores where
  calls := c
  program := Stores.block 65536 (baseAddrPage.toNat * 256)
    (fileRead k.files (baseAddrPage.toNat * 256) programKbLimit fd).1.2
  frame := frameStores baseAddrPage

/-- `process_load` with what it stores into the bank of the new process. A program that overwrites
what its own calls need leaves no defined result. -/
def processLoadInto (c : CallFrames) (header : ℕ) (k : Kernel) (filename : List UInt8) :
    Option (ℤ × Kernel × LoadStores) :=
  match fileOpen k.files filename fmodeRead with
  | none => none
  | some (.error e, files) => some (e.code, k.withFiles files, ⟨c, [], []⟩)
  | some (.ok fd, files) =>
    let r := fileRead files header phdrSize fd
    let k := k.withFiles r.2
    if r.1.1 ≠ phdrSize then some (FileError.invalidHeader.code, k, ⟨c, [], []⟩)
    else if r.1.2.getD 0 0 ≠ phdrIdExec then some (FileError.invalidHeader.code, k, ⟨c, [], []⟩)
    else if (r.1.2.getD 1 0).toNat < userRamStartPage then
      some (FileError.invalidPage.code, k, ⟨c, [], []⟩)
    else if c.Spared (programStores c k fd (r.1.2.getD 1 0)).program then
      (loadProgram k fd (r.1.2.getD 1 0)).map fun r' =>
        (r'.1, r'.2, programStores c k fd (r.1.2.getD 1 0))
    else none

/-- User memory after a load into a bank. -/
def loadedMemory (m : UserMemory) (bank : UInt8) (w : LoadStores) : UserMemory :=
  Function.update m bank (Stores.all (m bank) w.all)

/-- Without its stores, a load with a result is the load. -/
theorem processLoad_of_processLoadInto {c : CallFrames} {header : ℕ} {k k' : Kernel}
    {filename : List UInt8} {r : ℤ} {w : LoadStores}
    (h : processLoadInto c header k filename = some (r, k', w)) :
    processLoad header k filename = some (r, k') := by
  unfold processLoadInto at h
  unfold processLoad
  rcases hopen : fileOpen k.files filename fmodeRead with _ | ⟨_ | fd, files⟩
  · simp [hopen] at h
  · simp only [hopen, Option.some.injEq, Prod.mk.injEq] at h ⊢
    exact ⟨h.1, h.2.1⟩
  · simp only [hopen] at h ⊢
    split_ifs at h ⊢
    · simp only [Option.some.injEq, Prod.mk.injEq] at h ⊢
      exact ⟨h.1, h.2.1⟩
    · simp only [Option.some.injEq, Prod.mk.injEq] at h ⊢
      exact ⟨h.1, h.2.1⟩
    · simp only [Option.some.injEq, Prod.mk.injEq] at h ⊢
      exact ⟨h.1, h.2.1⟩
    · obtain ⟨⟨r', k''⟩, hload, heq⟩ := Option.map_eq_some_iff.mp h
      simp only [Prod.mk.injEq] at heq
      rw [hload, heq.1, heq.2.1]

/-- On the stack of the kernel the load has its stores in every case. -/
theorem processLoadInto_kernel (header : ℕ) (k : Kernel) (filename : List UInt8) :
    (processLoadInto .kernel header k filename).map (fun r => (r.1, r.2.1)) =
      processLoad header k filename := by
  have hspared : ∀ program, CallFrames.kernel.Spared program :=
    fun _ _ _ _ hf => absurd hf List.not_mem_nil
  unfold processLoadInto processLoad
  rcases fileOpen k.files filename fmodeRead with _ | ⟨_ | fd, files⟩
  · rfl
  · rfl
  · simp only [hspared, if_true]
    split_ifs
    · rfl
    · rfl
    · rfl
    · exact (Option.map_map ..).trans (Option.map_id' ..)

/-! ## What a load is to do -/

/-- The contents of a file, byte by byte as its chain has them. -/
def fileContents (k : Kernel) (filename : List UInt8) : List UInt8 :=
  match fileOpen k.files filename fmodeRead with
  | some (.ok fd, files) => (files.ahead fd (files.fdtable fd).size).1
  | _ => []

end

/-- The base address that the header of an executable file names. -/
def baseAddress (file : List UInt8) : ℕ := (file.getD 1 0).toNat * 256

/-- The bytes of an executable file that are to be loaded. -/
def loadedBytes (file : List UInt8) : List UInt8 := (file.drop phdrSize).take programKbLimit

/-- Behind the store of a byte of a program of `n` bytes at the base address, nothing is pushed over
it. -/
structure CallFrames.Behind (c : CallFrames) (base n : ℕ) : Prop where
  pushed : ∀ i < n, ∀ j, i < j → j ≤ n → base + i ∉ (c.pushed j).map Prod.fst
  last : ∀ i < n, base + i ∉ c.last.map Prod.fst

/-- The stores of a load put the bytes of a program at the consecutive addresses from its base
address on, none of them goes outside of user memory, and neither the initial frame nor what is
pushed behind a byte of the program overwrites it. -/
structure LoadedInside (base : ℕ) (program : List UInt8) (w : LoadStores) : Prop where
  consecutive : w.program = program.mapIdx fun i b => (base + i, b)
  inside : ∀ a ∈ w.all.map Prod.fst, userRamStartPage * 256 ≤ a ∧ a ≤ 0xffff
  kept : ∀ a ∈ w.frame.map Prod.fst, a ∉ w.program.map Prod.fst
  behind : w.calls.Behind base program.length

/-- The load of an executable file loads the program inside of user memory, or returns an error. -/
def LoadStaysInside [Machine] (c : CallFrames) (header : ℕ) (k : Kernel) (filename : List UInt8) :
    Prop :=
  ∃ r k' w, processLoadInto c header k filename = some (r, k', w) ∧
    (r < 0 ∨ LoadedInside (baseAddress (fileContents k filename))
      (loadedBytes (fileContents k filename)) w)

/-- A program of `n` bytes at the base address ends below the initial stack frame, or lies above it
and ends below the stack pointer. -/
def FitsBank (base n : ℕ) : Prop := base + n ≤ 0xf7f8 ∨ 0xf800 ≤ base ∧ base + n ≤ 0xfffe

instance (base n : ℕ) : Decidable (FitsBank base n) :=
  inferInstanceAs (Decidable (_ ∨ _ ∧ _))

/-- A program at the base address and the frames of the calls that read it are apart: a byte of the
program is stored over no byte of a frame that is read again, and nothing is pushed over it. -/
structure CallFrames.Clear (c : CallFrames) (base : ℕ) (program : List UInt8) : Prop where
  live : ∀ i (h : i < program.length), ∀ f ∈ c.live i, f.1 = base + i → f.2 = program[i]
  behind : c.Behind base program.length

/-- On the stack of the kernel every program is apart from the frames. -/
theorem CallFrames.clear_kernel (base : ℕ) (program : List UInt8) :
    CallFrames.kernel.Clear base program where
  live _ _ _ hf := absurd hf List.not_mem_nil
  behind := ⟨fun _ _ _ _ _ => List.not_mem_nil, fun _ _ => List.not_mem_nil⟩

/-- A program that ends below the stack of the calls, or begins above it, is apart from the
frames. -/
theorem CallFrames.clear_of_apart {c : CallFrames} {base lo hi : ℕ} {program : List UInt8}
    (hlive : ∀ i, ∀ f ∈ c.live i, lo ≤ f.1 ∧ f.1 < hi)
    (hpushed : ∀ i, ∀ f ∈ c.pushed i, lo ≤ f.1 ∧ f.1 < hi)
    (hlast : ∀ f ∈ c.last, lo ≤ f.1 ∧ f.1 < hi)
    (h : base + program.length ≤ lo ∨ hi ≤ base) : c.Clear base program := by
  -- no address of the program lies in the stack
  have hoff : ∀ i < program.length, ∀ l : List (ℕ × UInt8), (∀ f ∈ l, lo ≤ f.1 ∧ f.1 < hi) →
      base + i ∉ l.map Prod.fst := by
    intro i hi l hl hmem
    obtain ⟨f, hf, heq⟩ := List.mem_map.mp hmem
    have := hl f hf
    omega
  refine ⟨fun i hi f hf heq => ?_, ⟨fun i hi j _ _ => hoff i hi _ (hpushed j), fun i hi => ?_⟩⟩
  · exact absurd (List.mem_map.mpr ⟨f, hf, heq⟩) (hoff i hi _ (hlive i))
  · exact hoff i hi _ hlast

section

variable {M : Machine} {c : CallFrames} {header base : ℕ} {k : Kernel} {filename : List UInt8}
  {page : UInt8}
  {program : List UInt8} {w : LoadStores} {m : UserMemory} {bank : UInt8}

/-- The addresses of the initial frame. -/
theorem mem_frame_iff {a : ℕ} :
    a ∈ (frameStores page).map Prod.fst ↔ 0xf7f8 ≤ a ∧ a ≤ 0xf7ff ∨ a = 0xfffe ∨ a = 0xffff := by
  simp only [frameStores, List.map_cons, List.map_nil, List.mem_cons, List.not_mem_nil, or_false]
  omega

/-- **The bank after a load.** When a load stays inside, the bank holds the program at its base
address, and every address below user memory keeps what it held. -/
theorem LoadedInside.holds (h : LoadedInside base program w) :
    (∀ i (hi : i < program.length), loadedMemory m bank w bank (base + i) = program[i]) ∧
      ∀ a < userRamStartPage * 256, loadedMemory m bank w bank a = m bank a := by
  have hlow : ∀ a < userRamStartPage * 256, a ∉ w.all.map Prod.fst := fun a ha hmem =>
    absurd (h.inside a hmem).1 (Nat.not_le.mpr ha)
  have hlength : w.program.length = program.length := by rw [h.consecutive, List.length_mapIdx]
  have hget : ∀ j (hj : j < w.program.length), w.program[j] = (base + j, program[j]) := by
    intro j hj
    simp only [h.consecutive, List.getElem_mapIdx]
  constructor
  · intro i hi
    have hi' : i < w.program.length := hlength.symm ▸ hi
    have hframe : base + i ∉ w.frame.map Prod.fst := fun hmem =>
      h.kept _ hmem (List.mem_map.mpr ⟨_, List.getElem_mem hi', by rw [hget i hi']⟩)
    have hwoven : Stores.all (m bank) (Stores.weave w.calls.pushed 0 w.program) w.program[i].1 =
        w.program[i].2 := by
      refine Stores.all_weave hi' (fun j hj hij => ?_) fun j hij hj => ?_
      · rw [hget j hj, hget i hi']
        exact fun heq => absurd (Nat.add_left_cancel heq) (Nat.ne_of_gt hij)
      · rw [hget i hi']
        exact h.behind.pushed i hi j (by omega) (by omega)
    rw [hget i hi'] at hwoven
    rw [loadedMemory, Function.update_self, LoadStores.all, Stores.all_append, Stores.all_append,
      Stores.all_of_notMem (h.behind.last i hi), Stores.all_of_notMem hframe]
    exact hwoven
  · intro a ha
    rw [loadedMemory, Function.update_self, Stores.all_of_notMem (hlow a ha)]

/-- **The room for a program.** A load from a page of user memory stays inside exactly when there is
room for the program, and nothing is pushed over it.

**Proof sketch.** The base address is the start of a page, so a program that starts below the frame
and does not end there meets its first address, and one that starts above the frame and does not end
below the stack pointer meets that. -/
theorem loadedInside_iff (hpage : userRamStartPage ≤ page.toNat) :
    LoadedInside (page.toNat * 256) program
        ⟨c, Stores.block 65536 (page.toNat * 256) program, frameStores page⟩ ↔
      FitsBank (page.toNat * 256) program.length ∧
        c.Behind (page.toNat * 256) program.length := by
  have hlt := page.toNat_lt
  simp only [userRamStartPage] at hpage
  constructor
  · intro h
    have hlen := (Stores.block_eq_iff (by omega)).mp h.consecutive
    have hmeets : ∀ a, a ∈ (frameStores page).map Prod.fst → a < page.toNat * 256 ∨
        page.toNat * 256 + program.length ≤ a := by
      intro a ha
      have haddr := mem_frame_iff.mp ha
      by_contra hno
      have hplace : page.toNat * 256 + (a - page.toNat * 256) = a := by omega
      refine h.kept a ha (Stores.mem_map_block.mpr ⟨a - page.toNat * 256, by omega, ?_⟩)
      rw [hplace, Nat.mod_eq_of_lt (by omega)]
    have hframe := hmeets 0xf7f8 (mem_frame_iff.mpr (by omega))
    have hstack := hmeets 0xfffe (mem_frame_iff.mpr (by omega))
    refine ⟨?_, h.behind⟩
    unfold FitsBank
    omega
  · rintro ⟨h, hbehind⟩
    unfold FitsBank at h
    have hlen : page.toNat * 256 + program.length ≤ 65536 := by omega
    refine ⟨(Stores.block_eq_iff (by omega)).mpr hlen, fun a ha => ?_, fun a ha hmem => ?_,
      hbehind⟩
    · rw [LoadStores.all, List.map_append, List.mem_append, List.map_append, List.mem_append,
        Stores.mem_map_weave, Stores.mem_map_block, mem_frame_iff] at ha
      rcases ha with ((⟨i, hi, rfl⟩ | ⟨j, -, -, hj⟩) | ha) | ha
      · rw [Nat.mod_eq_of_lt (by omega)]
        simp only [userRamStartPage]
        omega
      · obtain ⟨f, hf, rfl⟩ := List.mem_map.mp hj
        exact c.pushed_inside j f hf
      · simp only [userRamStartPage]
        omega
      · obtain ⟨f, hf, rfl⟩ := List.mem_map.mp ha
        exact c.last_inside f hf
    · obtain ⟨i, hi, rfl⟩ := Stores.mem_map_block.mp hmem
      have hin := mem_frame_iff.mp ha
      rw [Nat.mod_eq_of_lt (by omega)] at hin
      omega

/-- A program with room in the bank overwrites no byte of a frame that is read again exactly when
its bytes lie over none. -/
theorem spared_iff (hlen : base + program.length ≤ 65536) :
    c.Spared (Stores.block 65536 base program) ↔
      ∀ i (h : i < program.length), ∀ f ∈ c.live i, f.1 = base + i → f.2 = program[i] := by
  have hget : ∀ i (h : i < (Stores.block 65536 base program).length) (h' : i < program.length),
      (Stores.block 65536 base program)[i] = (base + i, program[i]) := by
    intro i h h'
    simp only [Stores.block, List.getElem_mapIdx]
    rw [Nat.mod_eq_of_lt (by omega)]
  have hlength : (Stores.block 65536 base program).length = program.length :=
    List.length_mapIdx ..
  constructor
  · intro h i hi f hf heq
    have := h i (by omega) f hf
    rw [hget i (by omega) hi] at this
    exact this heq
  · intro h i hi f hf
    rw [hget i hi (by omega)]
    exact h i (by omega) f hf

/-- A program that fits the bank ends inside of it. -/
theorem FitsBank.le {n : ℕ} (h : FitsBank base n) : base + n ≤ 65536 := by
  unfold FitsBank at h
  omega

/-! ## The file -/

/-- The bytes that a descriptor reads are the first ones of its file. -/
theorem ahead_eq_take {s : FileState} {fd : Fin fileLimit} {n : ℕ} (h : s.Reads fd)
    (hpos : (s.fdtable fd).fpos = 0) :
    (s.ahead fd n).1 = (s.ahead fd (s.fdtable fd).size).1.take n := by
  have hmin : s.ahead fd (min n ((s.fdtable fd).size - (s.fdtable fd).fpos)) = s.ahead fd n :=
    h.readable.bytesAhead_min
  rw [hpos, Nat.sub_zero] at hmin
  rcases Nat.le_total n (s.fdtable fd).size with hle | hle
  · obtain ⟨j, hj⟩ := Nat.exists_eq_add_of_le hle
    rw [hj]
    exact take_bytesAhead.symm
  · rw [← hmin, Nat.min_eq_right hle, List.take_of_length_le]
    exact le_trans length_bytesAhead_le hle

/-- What is read behind the first bytes of a file is what the file has there. -/
theorem ahead_behind {s : FileState} {fd : Fin fileLimit} {n m j : ℕ} (h : s.Reads fd)
    (hpos : (s.fdtable fd).fpos = 0) (hlen : (s.ahead fd m).1.length = m) :
    (((s.cached j).setFd fd (s.ahead fd m).2).ahead fd n).1 =
      ((s.ahead fd (s.fdtable fd).size).1.drop m).take n := by
  have hadd : (s.ahead fd (m + n)).1 =
      (s.ahead fd m).1 ++ (((s.cached j).setFd fd (s.ahead fd m).2).ahead fd n).1 := by
    rw [FileState.ahead, bytesAhead_add, FileState.ahead, FileState.ahead,
      FileState.setFd_fdtable_self]
    rfl
  rw [ahead_eq_take h hpos] at hadd
  have hdrop := congrArg (List.drop m) hadd
  rw [List.drop_left' hlen, List.drop_take, Nat.add_sub_cancel_left] at hdrop
  exact hdrop.symm

/-- The header of a file names its base address. -/
theorem baseAddress_take (file : List UInt8) :
    baseAddress (file.take phdrSize) = baseAddress file := by
  have hsecond : (file.take phdrSize)[1]? = file[1]? := List.getElem?_take_of_lt (by decide)
  rw [baseAddress, baseAddress, List.getD_eq_getElem?_getD, List.getD_eq_getElem?_getD, hsecond]

/-- A header that has been read was read to an address that is not refused. -/
theorem le_of_header_read {s : FileState} {fd : Fin fileLimit}
    (h : (fileRead s header phdrSize fd).1.1 = phdrSize) : 0x6000 ≤ header % 65536 := by
  by_contra hlow
  rw [fileRead_refused (Nat.not_le.mp hlow)] at h
  exact absurd (show 0 = phdrSize from h) (by decide)

/-- A load that has passed the checks takes a slot, and answers with its number. -/
theorem loadProgram_eq_some {fd r : ℤ} {k' : Kernel} (h : loadProgram k fd page = some (r, k')) :
    HasSlot k ∧ 0 ≤ r := by
  unfold loadProgram at h
  cases hpd : processAllocate k with
  | none =>
    simp only [hpd] at h
    simp at h
  | some pd =>
    simp only [hpd, Option.some.injEq, Prod.mk.injEq] at h
    obtain ⟨rfl, -⟩ := h
    unfold processAllocate at hpd
    have hfree := List.find?_some hpd
    exact ⟨⟨pd, of_decide_eq_true hfree⟩, Int.natCast_nonneg _⟩

/-- With a free slot, a load that has passed the checks returns. -/
theorem loadProgram_of_hasSlot {fd : ℤ} (h : HasSlot k) : ∃ r, loadProgram k fd page = some r := by
  obtain ⟨i, hi⟩ := h
  have hsome : (processAllocate k).isSome = true :=
    List.find?_isSome.mpr ⟨i, List.mem_finRange i, decide_eq_true hi⟩
  obtain ⟨pd, hpd⟩ := Option.isSome_iff_exists.mp hsome
  unfold loadProgram
  simp only [hpd]
  exact ⟨_, rfl⟩

/-- **What is loaded.** For a file that passes the checks, the load reads the bytes of the file
behind its header to the base address that the header names, unless they overwrite what its calls
need.

**Proof sketch.** The file is read as a sequence of bytes. The first two are the header, whose
second byte names the page (`baseAddress_take`), and the second read goes on behind them, so that it
gives what the file has there, as far as the limit (`ahead_behind`). -/
theorem processLoadInto_valid (hs : k.files.Coherent) (hg : Geometry k.files.diskInfo)
    (hfile : ValidExecutable header k filename) :
    ∃ files fd page, userRamStartPage ≤ page.toNat ∧
      baseAddress (fileContents k filename) = page.toNat * 256 ∧
      processLoadInto c header k filename =
        if c.Spared (Stores.block 65536 (page.toNat * 256)
            (loadedBytes (fileContents k filename))) then
          (loadProgram (k.withFiles files) fd page).map fun r => (r.1, r.2, ⟨c,
            Stores.block 65536 (page.toNat * 256) (loadedBytes (fileContents k filename)),
            frameStores page⟩)
        else none := by
  unfold ValidExecutable at hfile
  split at hfile
  case h_2 => exact absurd hfile id
  case h_1 fd files hopen =>
    obtain ⟨hsize, hid, hpage⟩ := hfile
    have hspc := hg.spc_le
    obtain ⟨hreads, hmode, hpos⟩ := fileOpen_reads hs hg.bytesPerSector hg.spc_pos (by omega) hopen
    have hcontents : fileContents k filename = (files.ahead fd (files.fdtable fd).size).1 := by
      rw [fileContents, hopen]
    have hptr := le_of_header_read hsize
    obtain ⟨j, hheader⟩ := hreads.read (M := M) header phdrSize hmode hptr (by decide) (by decide)
    have htwo : (files.ahead fd phdrSize).1.length = phdrSize := by
      rw [hheader] at hsize
      exact hsize
    generalize hk : (fileRead files header phdrSize fd).1.2.getD 1 0 = page at hpage
    have hbase : page.toNat * 256 = baseAddress (fileContents k filename) := by
      rw [← hk, hheader, hcontents, ← baseAddress_take, ← ahead_eq_take hreads hpos, baseAddress]
    have hlt := page.toNat_lt
    have hpage' : 128 ≤ page.toNat := hpage
    -- the second read goes on behind the header
    have hbehind : ((files.cached j).setFd fd (files.ahead fd phdrSize).2).Reads fd := hreads.behind
    have hmode' : (((files.cached j).setFd fd (files.ahead fd phdrSize).2).fdtable fd).mode =
        fmodeRead := by
      rw [FileState.setFd_fdtable_self]
      exact hreads.readable.standsBehind.mode.trans hmode
    obtain ⟨j', hprogram⟩ := hbehind.read (M := M) (page.toNat * 256) programKbLimit hmode'
      (by omega) (by decide) (by decide)
    have hbytes : (((files.cached j).setFd fd (files.ahead fd phdrSize).2).ahead fd
        programKbLimit).1 = loadedBytes (fileContents k filename) := by
      rw [ahead_behind hreads hpos htwo, ← hcontents, loadedBytes]
    refine ⟨(fileRead files header phdrSize fd).2, fd, page, hpage, hbase.symm, ?_⟩
    unfold processLoadInto
    rw [hopen]
    simp only
    rw [if_neg (not_not.mpr hsize), if_neg (not_not.mpr hid), hk, if_neg (Nat.not_lt.mpr hpage)]
    have hstores : programStores c (k.withFiles (fileRead files header phdrSize fd).2) fd page =
        ⟨c, Stores.block 65536 (page.toNat * 256) (loadedBytes (fileContents k filename)),
          frameStores page⟩ := by
      rw [programStores, Kernel.withFiles, hheader]
      simp only
      rw [hprogram, hbytes]
    rw [hstores]

/-- The number of bytes that are loaded. -/
theorem length_loadedBytes (file : List UInt8) :
    (loadedBytes file).length = min programKbLimit (file.length - phdrSize) := by
  rw [loadedBytes, List.length_take, List.length_drop]

/-- A load that stays inside has a slot and room for the program, apart from the frames of the
calls. -/
theorem LoadStaysInside.fits (hs : k.files.Coherent) (hg : Geometry k.files.diskInfo)
    (hfile : ValidExecutable header k filename) (h : LoadStaysInside c header k filename) :
    HasSlot k ∧ FitsBank (baseAddress (fileContents k filename))
        (loadedBytes (fileContents k filename)).length ∧
      c.Clear (baseAddress (fileContents k filename)) (loadedBytes (fileContents k filename)) := by
  obtain ⟨files, fd, page, hpage, hbase, hload⟩ := processLoadInto_valid (c := c) hs hg hfile
  obtain ⟨r, k', w, hsome, hr⟩ := h
  rw [hload] at hsome
  split_ifs at hsome with hspared
  obtain ⟨⟨r₁, k₁⟩, hprogram, heq⟩ := Option.map_eq_some_iff.mp hsome
  obtain ⟨rfl, rfl, rfl⟩ : r₁ = r ∧ k₁ = k' ∧ _ = w := by simpa only [Prod.mk.injEq] using heq
  obtain ⟨hslot, hpos⟩ := loadProgram_eq_some hprogram
  have hinside := hr.resolve_left (Int.not_lt.mpr hpos)
  rw [hbase, loadedInside_iff hpage] at hinside
  rw [hbase]
  exact ⟨hslot, hinside.1, (spared_iff hinside.1.le).mp hspared, hinside.2⟩

/-- A load with a free slot and room for the program, apart from the frames, stays inside. -/
theorem loadStaysInside_of_fits (hs : k.files.Coherent) (hg : Geometry k.files.diskInfo)
    (hfile : ValidExecutable header k filename) (hslot : HasSlot k)
    (hfits : FitsBank (baseAddress (fileContents k filename))
      (loadedBytes (fileContents k filename)).length)
    (hclear : c.Clear (baseAddress (fileContents k filename))
      (loadedBytes (fileContents k filename))) : LoadStaysInside c header k filename := by
  obtain ⟨files, fd, page, hpage, hbase, hload⟩ := processLoadInto_valid (c := c) hs hg hfile
  rw [hbase] at hfits hclear
  rw [if_pos ((spared_iff hfits.le).mpr hclear.live)] at hload
  obtain ⟨⟨r, k'⟩, hprogram⟩ : ∃ r, loadProgram (k.withFiles files) fd page = some r :=
    loadProgram_of_hasSlot hslot
  rw [hprogram, Option.map_some] at hload
  refine ⟨r, k', _, hload, .inr ?_⟩
  rw [hbase]
  exact (loadedInside_iff hpage).mpr ⟨hfits, hclear.behind⟩

/-- **Loading stays in user memory.** On whatever stack, the load of an executable file loads the
program inside of user memory, or returns an error, if and only if there is a free slot in the
process table, room for the program at its base address, and the program is apart from the frames of
the calls that read it.

**Proof sketch.** A program that does not fit or meets a frame is not in the bank as it should be,
or the frames are not (`LoadStaysInside.fits`). When the conditions hold the stores do not meet, so
that all of them are there in the end (`loadStaysInside_of_fits`). -/
theorem load_stays_inside_iff (hs : k.files.Coherent) (hg : Geometry k.files.diskInfo)
    (hfile : ValidExecutable header k filename) :
    LoadStaysInside c header k filename ↔
      HasSlot k ∧ FitsBank (baseAddress (fileContents k filename))
          (min programKbLimit ((fileContents k filename).length - phdrSize)) ∧
        c.Clear (baseAddress (fileContents k filename))
          (loadedBytes (fileContents k filename)) := by
  rw [← length_loadedBytes]
  constructor
  · exact LoadStaysInside.fits hs hg hfile
  · rintro ⟨hslot, hfits, hclear⟩
    exact loadStaysInside_of_fits hs hg hfile hslot hfits hclear

/-- The kernel loads the first process on its own stack, where there are no frames to be apart
from. -/
theorem load_stays_inside_kernel_iff (hs : k.files.Coherent) (hg : Geometry k.files.diskInfo)
    (hfile : ValidExecutable header k filename) :
    LoadStaysInside .kernel header k filename ↔
      HasSlot k ∧ FitsBank (baseAddress (fileContents k filename))
        (loadedBytes (fileContents k filename)).length := by
  constructor
  · intro h
    obtain ⟨hslot, hfits, -⟩ := LoadStaysInside.fits hs hg hfile h
    exact ⟨hslot, hfits⟩
  · rintro ⟨hslot, hfits⟩
    exact loadStaysInside_of_fits hs hg hfile hslot hfits (CallFrames.clear_kernel _ _)

end

/-! ## Two programs -/

section

attribute [local instance] Machine.linked

/-- The kernel at boot, with a disk that holds an executable file. -/
def bootedKernel (file : List UInt8) : Kernel :=
  kernelInit
    { files :=
        match Run.exec call smallState [.open nameAB fmodeWrite, .write file 0, .close 0] with
        | some (_, s) => s
        | none => smallState
      memory := .zeroed
      processTable := fun _ => ⟨0, 0, 0, 0, 0, 0⟩
      scheduler := .zeroed } 2

/-- A program of one byte for the first page of user memory. -/
def firstPageFile : List UInt8 := [phdrIdExec, 0x80, 0xc9]

/-- A program of 255 bytes for the last page of user memory. -/
def lastPageFile : List UInt8 := [phdrIdExec, 0xff] ++ List.replicate 255 0xc9

/-- The driver is in a good state, whatever the file is. -/
theorem bootedKernel_files (file : List UInt8) :
    (bootedKernel file).files.Coherent ∧ Geometry (bootedKernel file).files.diskInfo := by
  have hgeometry : Geometry smallState.diskInfo :=
    (show WellFormed smallState.diskInfo smallState.disk from
      wellFormed_formattedDisk (by decide) (by decide) (by decide) (by decide) (by decide)
        (by decide)).geometry
  cases hrun : Run.exec call smallState [.open nameAB fmodeWrite, .write file 0, .close 0] with
  | none =>
    have hfiles : (bootedKernel file).files = smallState := by
      simp only [bootedKernel, kernelInit, processInit, hrun]
    rw [hfiles]
    exact ⟨filesystemInit_coherent, hgeometry⟩
  | some r =>
    have hfiles : (bootedKernel file).files = r.2 := by
      simp only [bootedKernel, kernelInit, processInit, hrun]
    have hinit : Run.exec call (filesystemInit (.zeroed (formattedDisk 1 1 1)))
        [.open nameAB fmodeWrite, .write file 0, .close 0] = some (r.1, r.2) := hrun
    obtain ⟨hsound, hinfo⟩ := run_sound hinit
    rw [hfiles, hinfo]
    exact ⟨hsound.coherent, hgeometry⟩

/-- The frames of a load by a process whose stack pointer is `0xf700`: a call for the whole program
and one for each of its bytes, and in the end the one that selects the bank again. -/
def callerFrames : CallFrames where
  live _ := [(0xf6ff, 0x12), (0xf6fe, 0x34)]
  pushed i := if i = 0 then [(0xf6ff, 0x12), (0xf6fe, 0x34)] else [(0xf6fd, 0x12), (0xf6fc, 0x40)]
  last := [(0xf6ff, 0x12), (0xf6fe, 0x48)]
  pushed_inside i f hf := by
    split_ifs at hf <;> revert f <;> decide
  last_inside := by decide

/-- The frames lie below the stack pointer. -/
theorem callerFrames_below :
    (∀ i, ∀ f ∈ callerFrames.live i, 0xf6fc ≤ f.1 ∧ f.1 < 0xf700) ∧
      (∀ i, ∀ f ∈ callerFrames.pushed i, 0xf6fc ≤ f.1 ∧ f.1 < 0xf700) ∧
        ∀ f ∈ callerFrames.last, 0xf6fc ≤ f.1 ∧ f.1 < 0xf700 := by
  refine ⟨fun i => show ∀ f ∈ ([(0xf6ff, 0x12), (0xf6fe, 0x34)] : List (ℕ × UInt8)),
    0xf6fc ≤ f.1 ∧ f.1 < 0xf700 by decide, fun i f hf => ?_, by decide⟩
  simp only [callerFrames] at hf
  split_ifs at hf <;> revert f <;> decide

/-- The program for the first page, loaded by a process. -/
theorem load_stays_inside_iff_firstPage :
    LoadStaysInside callerFrames 0x7f00 (bootedKernel firstPageFile) nameAB := by
  obtain ⟨hs, hg⟩ := bootedKernel_files firstPageFile
  obtain ⟨hlive, hpushed, hlast⟩ := callerFrames_below
  refine (load_stays_inside_iff hs hg (by decide +kernel)).mpr ⟨⟨firstSlot, rfl⟩, ?_, ?_⟩
  · decide +kernel
  · refine CallFrames.clear_of_apart hlive hpushed hlast (.inl ?_)
    decide +kernel

/-- The program in the last page overwrites the stack pointer of its frame. -/
theorem not_load_stays_inside :
    ¬ ∀ (c : CallFrames) (header : ℕ) (k : Kernel) (filename : List UInt8), k.files.Coherent →
      Geometry k.files.diskInfo → HasRoom k → ValidExecutable header k filename →
      LoadStaysInside c header k filename := by
  intro h
  obtain ⟨hs, hg⟩ := bootedKernel_files lastPageFile
  have hfile : ∀ k, k = bootedKernel lastPageFile → HasRoom k ∧ ValidExecutable 0x7f00 k nameAB ∧
      ¬ FitsBank (baseAddress (fileContents k nameAB))
        (loadedBytes (fileContents k nameAB)).length := by
    rintro k rfl
    decide +kernel
  generalize bootedKernel lastPageFile = k at hs hg hfile
  obtain ⟨hroom, hvalid, hfits⟩ := hfile k rfl
  exact hfits (LoadStaysInside.fits hs hg hvalid
    (h .kernel 0x7f00 k nameAB hs hg hroom hvalid)).2.1

end

end Z80OS
