import Z80OS.File.Calls
import Z80OS.File.Format
import Z80OS.Kernel.Process
import Z80OS.Lib.Run

set_option relaxedAutoImplicit false
set_option autoImplicit false

/-!
# Loading processes

Every load takes the next slot of the process table and the next page of memory. The slots and the
pages run out independently of each other, and `process_load` checks neither of the two allocators:
without a page it goes on with bank 255, without a slot it writes in front of the table.

## Main definitions

* `Z80OS.ValidExecutable` — a file that passes the checks of `process_load`.
* `Z80OS.HasRoom` — there is a free slot and a free page.
* `Z80OS.Loaded` — the tables after a number of loads.
* `Z80OS.LoadIsolates` — what the next load has to do.

## Main results

* `Z80OS.Loaded.load` — what the next load does.
* `Z80OS.load_isolates_iff` — the next load does what it has to if and only if there is room.
* `Z80OS.not_load_isolates` — a load without a free page.
-/

namespace Z80OS

/-- The file passes the checks of `process_load`. -/
def ValidExecutable [Machine] (header : ℕ) (k : Kernel) (filename : List UInt8) : Prop :=
  match fileOpen k.files filename fmodeRead with
  | some (.ok fd, files) =>
    let r := fileRead files header phdrSize fd
    r.1.1 = phdrSize ∧ r.1.2.getD 0 0 = phdrIdExec ∧ userRamStartPage ≤ (r.1.2.getD 1 0).toNat
  | _ => False

instance [Machine] (header : ℕ) (k : Kernel) (filename : List UInt8) :
    Decidable (ValidExecutable header k filename) := by
  unfold ValidExecutable
  split <;> infer_instance

/-- There is a free slot in the process table. -/
def HasSlot (k : Kernel) : Prop := ∃ i, (k.processTable i).baseAddress = 0

/-- There is a free page of memory. -/
def HasPage (k : Kernel) : Prop :=
  ∃ i : Fin pagesMax, (i : ℕ) < k.memory.numPages ∧ k.memory.pageTable i = .free

/-- There is a free slot in the process table, and a free page of memory. -/
def HasRoom (k : Kernel) : Prop := HasSlot k ∧ HasPage k

instance (k : Kernel) : Decidable (HasRoom k) :=
  inferInstanceAs (Decidable ((∃ _, _) ∧ (∃ _, _)))

/-- The bank of the `n`-th process to be loaded: the next one as long as there is one, and the
truncated error of `memory_allocate` afterwards. -/
def nthBank (banks : UInt8) (n : ℕ) : UInt8 := if n < banks.toNat then UInt8.ofNat n else 255

/-- The tables of a kernel with a number of RAM banks after `n` loads. -/
structure Loaded (banks : UInt8) (n : ℕ) (k : Kernel) : Prop where
  le : n ≤ procsMax
  numPages : k.memory.numPages = banks.toNat
  pages : k.memory.UsedTo n
  free : ∀ i, (k.processTable i).baseAddress = 0 ↔ n ≤ (i : ℕ)
  base : ∀ i : Fin procsMax, (i : ℕ) < n → 0x8000 ≤ (k.processTable i).baseAddress
  bank : ∀ i : Fin procsMax, (i : ℕ) < n → (k.processTable i).bank = nthBank banks i

section

variable {M : Machine} {header n : ℕ} {banks : UInt8} {k k' k₀ : Kernel} {filename : List UInt8}
  {pd : ℤ}

/-- A process that has been loaded occupies its slot. -/
theorem setProcess_table {i j : Fin procsMax} {p : ProcessDescriptor} :
    (k.setProcess i p).processTable j = if j = i then p else k.processTable j :=
  Function.update_apply ..

/-- No process is loaded when the kernel starts. -/
theorem kernelInit_loaded (k₀ : Kernel) (banks : UInt8) : Loaded banks 0 (kernelInit k₀ banks) := by
  have hbanks : banks.toNat ≤ pagesMax := by
    have := banks.toNat_lt
    simp only [pagesMax]
    omega
  obtain ⟨hnum, hused⟩ := memoryInit_usedTo (m := k₀.memory) hbanks
  exact ⟨Nat.zero_le _, hnum, hused, fun i => by simp [kernelInit, processInit],
    fun i hi => absurd hi (Nat.not_lt_zero _), fun i hi => absurd hi (Nat.not_lt_zero _)⟩

/-- Another state of the file driver leaves the processes. -/
theorem Loaded.withFiles {files : FileState} (h : Loaded banks n k) :
    Loaded banks n (k.withFiles files) :=
  ⟨h.le, h.numPages, h.pages, h.free, h.base, h.bank⟩

/-- There is a free slot when fewer processes have been loaded than there are. -/
theorem Loaded.hasSlot_iff (h : Loaded banks n k) : HasSlot k ↔ n < procsMax := by
  constructor
  · rintro ⟨i, hi⟩
    have := (h.free i).mp hi
    omega
  · intro hn
    exact ⟨⟨n, hn⟩, (h.free ⟨n, hn⟩).mpr (Nat.le_refl n)⟩

/-- There is a free page when fewer processes have been loaded than there are banks. -/
theorem Loaded.hasPage_iff (h : Loaded banks n k) : HasPage k ↔ n < banks.toNat := by
  have hbanks : banks.toNat < 256 := banks.toNat_lt
  constructor
  · rintro ⟨i, hi, hfree⟩
    rw [h.numPages] at hi
    rw [h.pages i, h.numPages, if_pos hi] at hfree
    split_ifs at hfree
    omega
  · intro hn
    have hpage : n < pagesMax := by
      simp only [pagesMax]
      omega
    refine ⟨⟨n, hpage⟩, by rw [h.numPages]; exact hn, ?_⟩
    rw [h.pages, h.numPages, if_pos (by exact hn), if_neg (by simp)]

/-- The first free slot is the next one. -/
theorem Loaded.allocate (h : Loaded banks n k) :
    processAllocate k = if hn : n < procsMax then some ⟨n, hn⟩ else none := by
  split_ifs with hn
  · apply find?_finRange_eq_some_iff.mpr
    refine ⟨(h.free ⟨n, hn⟩).mpr (Nat.le_refl n), fun j hj hfree => ?_⟩
    have hjn : (j : ℕ) < n := hj
    have := (h.free j).mp hfree
    omega
  · apply find?_finRange_eq_none_iff.mpr
    intro j hfree
    have := (h.free j).mp hfree
    omega

/-- The tables after a process has taken the next slot. -/
theorem Loaded.store {memory : Memory} {files : FileState} {base : ℕ} {b : UInt8}
    (h : Loaded banks n k) (hn : n < procsMax) (hbase : 0x8000 ≤ base)
    (hnum : memory.numPages = banks.toNat) (hused : memory.UsedTo (n + 1))
    (hb : b = nthBank banks n) :
    Loaded banks (n + 1)
      (((k.withMemory memory).withFiles files).setProcess ⟨n, hn⟩ (.loaded base b)) := by
  have hne : ∀ {i : Fin procsMax}, i ≠ ⟨n, hn⟩ → (i : ℕ) ≠ n := fun hin heq => hin (Fin.ext heq)
  refine ⟨hn, hnum, hused, fun i => ?_, fun i hi => ?_, fun i hi => ?_⟩
  · rw [setProcess_table]
    split_ifs with hin
    · subst hin
      have hne : base ≠ 0 := by omega
      simp [ProcessDescriptor.loaded, hne]
    · have := hne hin
      exact (h.free i).trans (by omega)
  · rw [setProcess_table]
    split_ifs with hin
    · exact hbase
    · have := hne hin
      exact h.base i (by omega)
  · rw [setProcess_table]
    split_ifs with hin
    · subst hin
      exact hb
    · have := hne hin
      exact h.bank i (by omega)

/-- What a load does once the file has passed the checks.

**Proof sketch.** The free slot is the slot `n`. If there is a free page it is the page `n`, and
otherwise the answer `-1` of `memory_allocate` is truncated to the bank 255. -/
theorem Loaded.program {fd : ℤ} {page : UInt8} (h : Loaded banks n k)
    (hpage : userRamStartPage ≤ page.toNat) :
    (procsMax ≤ n → loadProgram k fd page = none) ∧
      (n < procsMax → ∃ k', loadProgram k fd page = some ((n : ℤ), k') ∧
        Loaded banks (n + 1) k' ∧ k'.scheduler = k.scheduler) := by
  constructor
  · intro hn
    simp only [loadProgram, h.allocate, dif_neg (Nat.not_lt.mpr hn)]
  · intro hn
    have hbase : 0x8000 ≤ page.toNat * 256 := by
      simp only [userRamStartPage] at hpage
      omega
    have hlt := banks.toNat_lt
    simp only [loadProgram, h.allocate, dif_pos hn]
    rcases memoryAllocate_cases h.pages with ⟨hfull, hr⟩ | ⟨i, hi, hfree, hr, hused⟩
    · rw [h.numPages] at hfull
      have hpages : k.memory.UsedTo (n + 1) := by
        intro j
        rw [h.pages j, h.numPages]
        split_ifs <;> first | rfl | omega
      rw [hr]
      refine ⟨_, rfl, h.store hn hbase h.numPages hpages ?_, rfl⟩
      rw [nthBank, if_neg (Nat.not_lt.mpr hfull)]
      rfl
    · rw [h.numPages] at hfree
      rw [hr]
      refine ⟨_, rfl, h.store hn hbase h.numPages hused ?_, rfl⟩
      rw [nthBank, if_pos hfree]
      congr 1
      simp only
      omega

/-- What the next load of an executable file does. -/
theorem Loaded.load (h : Loaded banks n k) (hfile : ValidExecutable header k filename) :
    (procsMax ≤ n → processLoad header k filename = none) ∧
      (n < procsMax → ∃ k', processLoad header k filename = some ((n : ℤ), k') ∧
        Loaded banks (n + 1) k' ∧ k'.scheduler = k.scheduler) := by
  unfold ValidExecutable at hfile
  split at hfile
  case h_2 => exact absurd hfile id
  case h_1 fd files hopen =>
    obtain ⟨hsize, hid, hpage⟩ := hfile
    have hload : processLoad header k filename = loadProgram
        (k.withFiles (fileRead files header phdrSize fd).2) fd
        ((fileRead files header phdrSize fd).1.2.getD 1 0) := by
      rw [processLoad, hopen]
      simp only
      rw [if_neg (not_not.mpr hsize), if_neg (not_not.mpr hid), if_neg (Nat.not_lt.mpr hpage)]
    rw [hload]
    exact h.withFiles.program hpage

/-! ## Runs of loads -/

/-- A run of loads answers with the slots in order. -/
theorem run_loaded {filenames : List (List UInt8)} {answers : List ℤ} (h : Loaded banks n k)
    (hvalid : Run.Always (processLoad header)
      (fun k f _ _ => ValidExecutable header k f) k filenames)
    (hrun : Run.exec (processLoad header) k filenames = some (answers, k')) :
    Loaded banks (n + filenames.length) k' ∧
      ∀ a ∈ answers, (n : ℤ) ≤ a ∧ a < ((n + filenames.length : ℕ) : ℤ) := by
  induction filenames generalizing n k answers with
  | nil =>
    simp only [Run.exec_nil, Option.some.injEq, Prod.mk.injEq] at hrun
    obtain ⟨rfl, rfl⟩ := hrun
    exact ⟨h, by simp⟩
  | cons f filenames ih =>
    obtain ⟨a, bs, k₁, hstep, hrest, rfl⟩ := Run.exec_cons_eq_some hrun
    obtain ⟨hf, hvalid⟩ := hvalid a k₁ hstep
    have hn : n < procsMax := by
      by_contra hn
      rw [(h.load hf).1 (not_lt.mp hn)] at hstep
      simp at hstep
    obtain ⟨k₂, hload, hloaded, -⟩ := (h.load hf).2 hn
    obtain ⟨rfl, rfl⟩ := Prod.mk.inj (Option.some.inj (hload.symm.trans hstep))
    obtain ⟨hlast, hbs⟩ := ih hloaded hvalid hrest
    have hlen : n + (f :: filenames).length = n + 1 + filenames.length := by
      rw [List.length_cons]
      omega
    rw [hlen]
    refine ⟨hlast, fun a ha => ?_⟩
    rcases List.mem_cons.mp ha with rfl | ha
    · omega
    · have := hbs a ha
      omega

/-! ## Isolation -/

/-- What the next load has to do after loads with the given answers: a descriptor that it returns
is a new one, with a base address in user memory and a bank that exists and that no other process
has; and without a free slot or a free page it fails and leaves the two tables alone. -/
structure LoadIsolates [Machine] (header : ℕ) (banks : UInt8) (answers : List ℤ) (k : Kernel)
    (filename : List UInt8) : Prop where
  isolated : ∀ pd k', processLoad header k filename = some (pd, k') → 0 ≤ pd →
    pd ∉ answers ∧ ∃ i : Fin procsMax, pd = (i : ℕ) ∧
      0x8000 ≤ (k'.processTable i).baseAddress ∧
      (k'.processTable i).bank.toNat < banks.toNat ∧
      ∀ j ≠ i, (k'.processTable j).baseAddress ≠ 0 →
        (k'.processTable j).bank ≠ (k'.processTable i).bank
  full : ¬ HasRoom k → ∃ e k', processLoad header k filename = some (e, k') ∧ e < 0 ∧
    k'.processTable = k.processTable ∧ k'.memory.pageTable = k.memory.pageTable

/-- The banks of processes that have been loaded while there were pages are different. -/
theorem nthBank_inj {i j : ℕ} (hi : i < banks.toNat) (hj : j < banks.toNat)
    (h : nthBank banks i = nthBank banks j) : i = j := by
  have hb := banks.toNat_lt
  rw [nthBank, nthBank, if_pos hi, if_pos hj] at h
  have := congrArg UInt8.toNat h
  simp only [UInt8.toNat_ofNat'] at this
  omega

/-- **Isolation by bank.** In every state that a run of loads of executable files reaches, the next
load does what it has to if and only if there is a free slot and a free page.

**Proof sketch.** The run keeps the table as the loads have left it (`run_loaded`), so that the next
load has the next slot and the next bank. Without a slot it has no result, and without a page it
returns a descriptor whose bank is none. With both, the banks of the other descriptors are those in
front of the new one. -/
theorem load_isolates_iff {filenames : List (List UInt8)} {answers : List ℤ} (k₀ : Kernel)
    (banks : UInt8) (hvalid : Run.Always (processLoad header)
      (fun k f _ _ => ValidExecutable header k f) (kernelInit k₀ banks) filenames)
    (hrun : Run.exec (processLoad header) (kernelInit k₀ banks) filenames = some (answers, k))
    (hfile : ValidExecutable header k filename) :
    LoadIsolates header banks answers k filename ↔ HasRoom k := by
  obtain ⟨h, hanswers⟩ := run_loaded (kernelInit_loaded k₀ banks) hvalid hrun
  rw [Nat.zero_add] at h hanswers
  obtain ⟨hfull, hroom⟩ := h.load hfile
  constructor
  · intro hload
    by_contra hno
    obtain ⟨e, k', hk', he, -, -⟩ := hload.full hno
    rcases Nat.lt_or_ge filenames.length procsMax with hn | hn
    · obtain ⟨k₂, hk₂, -, -⟩ := hroom hn
      obtain ⟨rfl, -⟩ := Prod.mk.inj (Option.some.inj (hk₂.symm.trans hk'))
      omega
    · rw [hfull hn] at hk'
      simp at hk'
  · rintro ⟨hslot, hpage⟩
    rw [h.hasSlot_iff] at hslot
    rw [h.hasPage_iff] at hpage
    obtain ⟨k₂, hk₂, hloaded, -⟩ := hroom hslot
    refine ⟨fun pd k' hk' _ => ?_, fun hno => absurd ⟨h.hasSlot_iff.mpr hslot,
      h.hasPage_iff.mpr hpage⟩ hno⟩
    obtain ⟨rfl, rfl⟩ := Prod.mk.inj (Option.some.inj (hk₂.symm.trans hk'))
    have hb := banks.toNat_lt
    refine ⟨fun hmem => ?_, ⟨filenames.length, hslot⟩, rfl, hloaded.base _ (Nat.lt_succ_self _),
      ?_, fun j hj hused heq => hj ?_⟩
    · have := (hanswers _ hmem).2
      omega
    · rw [hloaded.bank _ (Nat.lt_succ_self _), nthBank, if_pos hpage, UInt8.toNat_ofNat']
      simp only
      omega
    · have hjn : (j : ℕ) < filenames.length + 1 := by
        by_contra hjn
        exact hused ((hloaded.free j).mpr (not_lt.mp hjn))
      rw [hloaded.bank j hjn, hloaded.bank _ (Nat.lt_succ_self _)] at heq
      exact Fin.ext (nthBank_inj (by omega) hpage heq)

end

/-! ## Two banks -/

section

attribute [local instance] Machine.linked

/-- The kernel in front of its initialisation, with a disk that holds an executable file. -/
def smallKernel : Kernel where
  files :=
    match Run.exec call smallState
      [.open nameAB fmodeWrite, .write [phdrIdExec, 0x80, 0xc9] 0, .close 0] with
    | some (_, s) => s
    | none => smallState
  memory := .zeroed
  processTable := fun _ => ⟨0, 0, 0, 0, 0, 0⟩
  scheduler := .zeroed

/-- The second process is isolated from the first one. -/
theorem load_isolates_iff_second :
    ∃ answers k, Run.exec (processLoad 0x7f00) (kernelInit smallKernel 2) [nameAB] =
      some (answers, k) ∧ LoadIsolates 0x7f00 2 answers k nameAB := by
  have hvalid : Run.Always (processLoad 0x7f00) (fun k f _ _ => ValidExecutable 0x7f00 k f)
      (kernelInit smallKernel 2) [nameAB] :=
    Run.Always.of_check (p := fun k f _ _ => decide (ValidExecutable 0x7f00 k f))
      (fun _ _ _ _ => of_decide_eq_true) (by decide +kernel)
  have hlast : ((Run.exec (processLoad 0x7f00) (kernelInit smallKernel 2) [nameAB]).any fun r =>
      decide (ValidExecutable 0x7f00 r.2 nameAB ∧ HasRoom r.2)) = true := by decide +kernel
  obtain ⟨⟨answers, k⟩, hrun, hk⟩ := (Option.any_eq_true _ _).mp hlast
  obtain ⟨hfile, hroom⟩ := of_decide_eq_true hk
  exact ⟨answers, k, hrun, (load_isolates_iff smallKernel 2 hvalid hrun hfile).mpr hroom⟩

/-- With two banks, the third load returns a descriptor whose bank does not exist. -/
theorem not_load_isolates :
    ¬ ∀ (header : ℕ) (banks : UInt8) (k₀ : Kernel) (filenames : List (List UInt8))
      (answers : List ℤ) (k : Kernel) (filename : List UInt8),
      Run.Always (processLoad header) (fun k f _ _ => ValidExecutable header k f)
        (kernelInit k₀ banks) filenames →
      Run.exec (processLoad header) (kernelInit k₀ banks) filenames = some (answers, k) →
      ValidExecutable header k filename → LoadIsolates header banks answers k filename := by
  intro hall
  have hvalid : Run.Always (processLoad 0x7f00) (fun k f _ _ => ValidExecutable 0x7f00 k f)
      (kernelInit smallKernel 2) [nameAB, nameAB] :=
    Run.Always.of_check (p := fun k f _ _ => decide (ValidExecutable 0x7f00 k f))
      (fun _ _ _ _ => of_decide_eq_true) (by decide +kernel)
  have hlast : ((Run.exec (processLoad 0x7f00) (kernelInit smallKernel 2) [nameAB, nameAB]).any
      fun r => decide (ValidExecutable 0x7f00 r.2 nameAB) &&
        (processLoad 0x7f00 r.2 nameAB).any fun r' : ℤ × Kernel =>
          decide (0 ≤ r'.1 ∧ ∀ i : Fin procsMax, r'.1 = (i : ℕ) →
            (r'.2.processTable i).bank = 255)) = true := by decide +kernel
  obtain ⟨⟨answers, k⟩, hrun, hk⟩ := (Option.any_eq_true _ _).mp hlast
  rw [Bool.and_eq_true] at hk
  obtain ⟨⟨pd, k'⟩, hload, hpd⟩ := (Option.any_eq_true _ _).mp hk.2
  obtain ⟨hpos, hbank⟩ := of_decide_eq_true hpd
  obtain ⟨-, i, hi, -, hlt, -⟩ := (hall 0x7f00 2 smallKernel _ answers k nameAB hvalid hrun
    (of_decide_eq_true hk.1)).isolated pd k' hload hpos
  rw [hbank i hi] at hlt
  exact absurd hlt (by decide)

end

end Z80OS
