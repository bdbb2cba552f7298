import Z80OS.Kernel.FileBounds
import Z80OS.Kernel.TableAccesses

set_option relaxedAutoImplicit false
set_option autoImplicit false

/-!
# The bounds of the tables

The kernel takes numbers from user programs: PIDs for `pstate` and `pexitcode`, descriptors for
`fread`, `fwrite` and `fclose`, and the names of files. Its searches answer with `-1` when they find
nothing. This file says for which steps all indices are inside of the tables.

## Main definitions

* `Z80OS.KernelFit` — the invariant of the kernel.
* `Z80OS.Made` — when a step can be made.
* `Z80OS.TablesInside` — all accesses of a run are inside.
* `Z80OS.Harmless` — the steps that access nothing outside.

## Main results

* `Z80OS.tableAccesses_inBounds_iff` — the accesses of a step.
* `Z80OS.KernelFit.step` — a step keeps the invariant.
* `Z80OS.tablesInside_iff` — the accesses of a run.
* `Z80OS.not_tablesInside` — a run that indexes the schedule table with `-1`.
-/

namespace Z80OS

/-- The entries of the schedule table that are in use have PIDs of the process table. -/
def ProcessPids (s : Scheduler) : Prop :=
  ∀ i, (s.scheduleTable i).state ≠ .free → ∃ j : Fin procsMax, (s.scheduleTable i).pid = (j : ℕ)

/-- What holds of the kernel between steps. -/
structure KernelFit (g : DiskInfo) (s : System) : Prop where
  files : s.kernel.files.Fit g
  scheduler : Consistent s.kernel.scheduler
  pids : ProcessPids s.kernel.scheduler

/-- When a step can be made: a process that has been loaded is spawned by the kernel at boot or by
the current process, and the current process blocks or ends itself. -/
def Made (s : System) : KernelEvent → Prop
  | .system (.spawn pd) => IsLoaded s.kernel pd ∧ Issued s.kernel.scheduler (.spawn pd)
  | .system (.block event) => Issued s.kernel.scheduler (.block event)
  | .system (.exit code) => Issued s.kernel.scheduler (.exit code)
  | _ => True

/-- Some entry of the schedule table has the PID, be it in use or not. -/
def HasEntry (s : Scheduler) (pid : ℤ) : Prop := ∃ i, (s.scheduleTable i).pid = pid

/-- The steps that access nothing outside of the tables. A PID is one of the schedule table; the
number of a descriptor to be closed is one; whenever a cluster is searched for, one of the clusters
2 to 255 is free; and when an executable file is loaded there is a free slot in the process
table. -/
def Harmless [Machine] (header : ℕ) (s : System) : KernelEvent → Prop
  | .system _ => True
  | .file a => NamesDescriptor a ∧
      ∀ s', Visit.search s' ∈ fileVisits s.kernel.files a → SearchInside s'
  | .load filename => ValidExecutable header s.kernel filename → HasSlot s.kernel
  | .state pid => HasEntry s.kernel.scheduler pid
  | .exitcode pid => HasEntry s.kernel.scheduler pid

instance (s : System) (e : KernelEvent) : Decidable (Made s e) := by
  unfold Made
  split <;> infer_instance

instance (s : Scheduler) (pid : ℤ) : Decidable (HasEntry s pid) :=
  inferInstanceAs (Decidable (∃ _, _))

/-- The state in which a search starts, if the visit is one. -/
def Visit.search? : Visit → Option FileState
  | .access _ => none
  | .search s => some s

/-- Only a search has a state to search in. -/
theorem Visit.search?_eq_some_iff {v : Visit} {s : FileState} :
    v.search? = some s ↔ v = .search s := by
  cases v <;> simp [Visit.search?]

instance (k : Kernel) : Decidable (HasSlot k) := inferInstanceAs (Decidable (∃ _, _))

/-- The states in which searches start are those among the visits. -/
theorem forall_search?_iff {l : List Visit} {p : FileState → Prop} :
    (∀ s ∈ l.filterMap Visit.search?, p s) ↔ ∀ s, Visit.search s ∈ l → p s := by
  simp only [List.mem_filterMap, Visit.search?_eq_some_iff, exists_eq_right]

instance [Machine] (header : ℕ) (s : System) (e : KernelEvent) : Decidable (Harmless header s e) :=
  match e with
  | .system _ => inferInstanceAs (Decidable True)
  | .file a => decidable_of_iff
      (NamesDescriptor a ∧ ∀ s' ∈ (fileVisits s.kernel.files a).filterMap Visit.search?,
        SearchInside s') (and_congr_right fun _ => forall_search?_iff)
  | .load filename =>
    inferInstanceAs (Decidable (ValidExecutable header s.kernel filename → HasSlot s.kernel))
  | .state pid => inferInstanceAs (Decidable (HasEntry s.kernel.scheduler pid))
  | .exitcode pid => inferInstanceAs (Decidable (HasEntry s.kernel.scheduler pid))

/-- All accesses to the tables are inside, from the start of the kernel on and in every step that is
made. -/
def TablesInside [Machine] (header : ℕ) (s₀ : System) (banks : UInt8) (events : List KernelEvent) :
    Prop :=
  Accesses.InBounds Table.size (initAccesses s₀ banks) ∧
    Run.Each (kernelStep header)
      (fun s e => Accesses.InBounds Table.size (tableAccesses header s e))
      (systemInit s₀ banks) events

section

variable {M : Machine} {g : DiskInfo} {header : ℕ} {s s' : System} {t t' : Scheduler} {k : Kernel}
  {k' : Kernel} {pid pd : ℤ} {e : KernelEvent} {r : KernelAnswer} {n : ℕ}

/-! ## The scheduler -/

/-- An entry of the schedule is inside. -/
theorem scheduleAccess_inside {i : Fin maxScheduled} :
    (scheduleAccess (i : ℕ)).Inside Table.size :=
  ⟨Int.natCast_nonneg _, Int.ofNat_lt.mpr i.isLt⟩

/-- An entry of the process table is inside. -/
theorem processAccess_inside {i : Fin procsMax} : (processAccess (i : ℕ)).Inside Table.size :=
  ⟨Int.natCast_nonneg _, Int.ofNat_lt.mpr i.isLt⟩

/-- Entries of the schedule are inside. -/
theorem scheduleAccess_map_inBounds {l : List (Fin maxScheduled)} :
    Accesses.InBounds Table.size (l.map fun i : Fin maxScheduled => scheduleAccess (i : ℕ)) :=
  Accesses.inBounds_map.mpr fun _ _ => scheduleAccess_inside

/-- A spawn is inside of the schedule. -/
theorem addAccesses_inBounds : Accesses.InBounds Table.size (addAccesses t) := by
  rw [addAccesses, Accesses.inBounds_append]
  refine ⟨scheduleAccess_map_inBounds, ?_⟩
  split
  · exact Accesses.inBounds_nil
  · exact Accesses.inBounds_cons.mpr ⟨scheduleAccess_inside, Accesses.inBounds_nil⟩

/-- The answer of `scheduler_entry` is an index if and only if it has found an entry. -/
theorem entryIndex_inside_iff :
    (scheduleAccess (entryIndex t pid)).Inside Table.size ↔ HasEntry t pid := by
  unfold entryIndex
  cases hentry : schedulerEntry t pid with
  | none =>
    refine iff_of_false (fun h => absurd h.1 (by simp [scheduleAccess])) ?_
    rintro ⟨i, hi⟩
    exact schedulerEntry_eq_none_iff.mp hentry i hi
  | some i => exact iff_of_true scheduleAccess_inside ⟨i, (schedulerEntry_eq_some_iff.mp hentry).1⟩

/-- The look for the state of a PID is inside when there is an entry with it. -/
theorem stateAccesses_inBounds_iff :
    Accesses.InBounds Table.size (stateAccesses t pid) ↔ HasEntry t pid := by
  rw [stateAccesses, Accesses.inBounds_append, Accesses.inBounds_cons, entryIndex_inside_iff]
  exact ⟨fun h => h.2.1, fun h => ⟨scheduleAccess_map_inBounds, h, Accesses.inBounds_nil⟩⟩

/-- The exit of a process is inside when there is an entry with its PID. -/
theorem exitAccesses_inBounds (h : HasEntry t pid) :
    Accesses.InBounds Table.size (exitAccesses t pid) := by
  rw [exitAccesses, Accesses.inBounds_append, Accesses.inBounds_cons]
  exact ⟨scheduleAccess_map_inBounds, entryIndex_inside_iff.mpr h, scheduleAccess_map_inBounds⟩

/-- The search for the next task stays in the table. -/
theorem nextLoopAccesses_inBounds (hn : t.numScheduled ≤ maxScheduled)
    (hc : -1 ≤ t.currentScheduled) (hlt : t.currentScheduled < maxScheduled) :
    Accesses.InBounds Table.size (nextLoopAccesses n t) := by
  induction n generalizing t with
  | zero => exact Accesses.inBounds_nil
  | succ n ih =>
    have hadv : 0 ≤ t.advance.currentScheduled ∧ t.advance.currentScheduled < maxScheduled := by
      unfold Scheduler.advance
      simp only
      split_ifs <;> simp only [maxScheduled] at * <;> omega
    rw [nextLoopAccesses, Accesses.inBounds_cons]
    refine ⟨hadv, ?_⟩
    split
    · exact Accesses.inBounds_nil
    · split_ifs
      · exact Accesses.inBounds_cons.mpr ⟨scheduleAccess_inside, Accesses.inBounds_nil⟩
      · exact ih hn (by omega) hadv.2

/-- A tick chooses a process of the process table. -/
theorem schedulerNext_pid (h : ProcessPids t) (hr : schedulerNext t = some (pid, t')) :
    ∃ j : Fin procsMax, pid = (j : ℕ) := by
  obtain ⟨i, hready, rfl, -⟩ := schedulerNext_eq_some hr
  refine h i fun hfree => ?_
  rw [preempt_state_free.mpr hfree] at hready
  exact absurd hready (by simp)

/-- The processes that are chosen are inside of the process table. -/
theorem chosenAccesses_inBounds (h : ProcessPids t) :
    Accesses.InBounds Table.size (chosenAccesses t) := by
  unfold chosenAccesses
  split
  · exact Accesses.inBounds_nil
  · rename_i hr
    obtain ⟨j, rfl⟩ := schedulerNext_pid h hr
    exact Accesses.inBounds_cons.mpr ⟨processAccess_inside, Accesses.inBounds_nil⟩

/-- A tick is inside of both tables. -/
theorem tickAccesses_inBounds (h : Consistent t) (hpids : ProcessPids t) :
    Accesses.InBounds Table.size (tickAccesses t) := by
  have hchosen := chosenAccesses_inBounds hpids
  have hnum := h.num_le
  have hcur := h.current
  rw [tickAccesses, nextAccesses, Accesses.inBounds_append, Accesses.inBounds_append,
    Accesses.inBounds_append]
  refine ⟨⟨⟨?_, ?_⟩, hchosen⟩, hchosen⟩
  · split_ifs with h0
    · exact Accesses.inBounds_cons.mpr ⟨⟨h0, show t.currentScheduled < (maxScheduled : ℕ) by omega⟩,
        Accesses.inBounds_nil⟩
    · exact Accesses.inBounds_nil
  · exact nextLoopAccesses_inBounds (by rwa [preempt_num]) (by rw [preempt_current]; exact hcur.1)
      (by rw [preempt_current]; omega)

/-! ## Memory and processes -/

/-- The allocation of a page is inside of the page table. -/
theorem memoryAllocateAccesses_inBounds {m : Memory} :
    Accesses.InBounds Table.size (memoryAllocateAccesses m) := by
  rw [memoryAllocateAccesses, Accesses.inBounds_map]
  intro i hi
  have hlt := List.mem_range.mp (Accesses.mem_of_examined hi)
  exact ⟨Int.natCast_nonneg _, Int.ofNat_lt.mpr (hlt.trans_le m.numPages_le)⟩

/-- Entries of the process table are inside. -/
theorem processAccess_map_inBounds {l : List (Fin procsMax)} :
    Accesses.InBounds Table.size (l.map fun i : Fin procsMax => processAccess (i : ℕ)) :=
  Accesses.inBounds_map.mpr fun _ _ => processAccess_inside

/-- The spawn of a process that has been loaded is inside of both tables. -/
theorem spawnAccesses_inBounds (h : IsLoaded k pd) :
    Accesses.InBounds Table.size (spawnAccesses k pd) := by
  obtain ⟨i, rfl, -⟩ := h
  rw [spawnAccesses, Accesses.inBounds_cons]
  refine ⟨processAccess_inside, ?_⟩
  split
  · exact Accesses.inBounds_nil
  · exact addAccesses_inBounds

/-- A slot has been found if and only if there is one. -/
theorem processAllocate_none_iff : processAllocate k = none ↔ ¬ HasSlot k := by
  rw [processAllocate, find?_finRange_eq_none_iff]
  exact not_exists.symm

/-- The answer of `process_allocate` is an index if and only if there is a free slot. -/
theorem slotIndex_inside_iff : (processAccess (slotIndex k)).Inside Table.size ↔ HasSlot k := by
  unfold slotIndex
  cases hslot : processAllocate k with
  | none =>
    exact iff_of_false (fun h => absurd h.1 (by simp [processAccess]))
      (processAllocate_none_iff.mp hslot)
  | some i =>
    refine iff_of_true processAccess_inside (not_not.mp fun h => ?_)
    rw [processAllocate_none_iff.mpr h] at hslot
    exact absurd hslot (by simp)

/-- The second half of a load is inside of the process table when there is a free slot. -/
theorem loadProgramAccesses_inBounds_iff {fd : ℤ} {page : UInt8} (h : k.files.Fit g) :
    Accesses.InBounds Table.size (loadProgramAccesses k fd page) ↔ HasSlot k := by
  rw [loadProgramAccesses, Accesses.inBounds_append, Accesses.inBounds_append,
    Accesses.inBounds_cons, slotIndex_inside_iff]
  constructor
  · exact fun hin => hin.2.1
  · intro hslot
    refine ⟨⟨processAccess_map_inBounds, memoryAllocateAccesses_inBounds⟩, hslot, ?_⟩
    split
    · exact Accesses.inBounds_nil
    · rw [Accesses.inBounds_append, Accesses.inBounds_cons]
      exact ⟨Fine.inBounds (readVisits_fine h), processAccess_inside, Accesses.inBounds_nil⟩

/-- The accesses of a load. -/
theorem loadAccesses_inBounds_iff {filename : List UInt8} (h : k.files.Fit g) :
    Accesses.InBounds Table.size (loadAccesses header k filename) ↔
      (ValidExecutable header k filename → HasSlot k) := by
  have hopenVisits : Accesses.InBounds Table.size
      (visitAccesses (openVisits k.files filename fmodeRead)) := openVisits_read_fine.inBounds
  rw [loadAccesses, Accesses.inBounds_append, and_iff_right hopenVisits]
  unfold ValidExecutable
  rcases hopen : fileOpen k.files filename fmodeRead with _ | ⟨_ | fd, files⟩
  · exact iff_of_true Accesses.inBounds_nil False.elim
  · exact iff_of_true Accesses.inBounds_nil False.elim
  have hfit : files.Fit g := h.open hopen
  have hread : Accesses.InBounds Table.size
      (visitAccesses (readVisits files header phdrSize (fd : ℕ))) :=
    Fine.inBounds (readVisits_fine hfit)
  simp only [Accesses.inBounds_append, and_iff_right hread]
  split_ifs with hsize hexec hpage
  · exact iff_of_true Accesses.inBounds_nil fun hvalid => absurd hvalid.1 hsize
  · exact iff_of_true Accesses.inBounds_nil fun hvalid => absurd hvalid.2.1 hexec
  · exact iff_of_true Accesses.inBounds_nil fun hvalid => absurd hvalid.2.2 (by omega)
  · rw [loadProgramAccesses_inBounds_iff (M := M) (g := g) hfit.read]
    exact ⟨fun hslot _ => hslot,
      fun hslot => hslot ⟨not_not.mp hsize, not_not.mp hexec, Nat.not_lt.mp hpage⟩⟩

/-! ## Steps -/

/-- The current process has an entry. -/
theorem CurrentAlive.hasEntry (h : CurrentAlive t) (ht : Consistent t) :
    HasEntry t t.scheduleCurrentPid := by
  obtain ⟨i, hi⟩ := CurrentAlive.exists_current h
  exact ⟨i, (ht.named i hi).1.symm⟩

/-- The calls and interrupts of the terminal, the processes and the scheduler access nothing
outside. -/
theorem systemAccesses_inBounds {a : SystemCall} (h : KernelFit g s) (ha : Made s (.system a)) :
    Accesses.InBounds Table.size (systemAccesses s a) := by
  cases a with
  | spawn pd => exact spawnAccesses_inBounds ha.1
  | block event =>
    obtain ⟨i, hi⟩ := CurrentAlive.exists_current ha
    rw [systemAccesses, hi]
    exact Accesses.inBounds_cons.mpr ⟨scheduleAccess_inside, Accesses.inBounds_nil⟩
  | exit code => exact exitAccesses_inBounds (CurrentAlive.hasEntry ha h.scheduler)
  | tick => exact tickAccesses_inBounds h.scheduler h.pids
  | _ => exact Accesses.inBounds_nil

/-- **The accesses of a step** are inside if and only if the step is harmless. -/
theorem tableAccesses_inBounds_iff (h : KernelFit g s) (he : Made s e) :
    Accesses.InBounds Table.size (tableAccesses header s e) ↔ Harmless header s e := by
  cases e with
  | system a => exact iff_of_true (systemAccesses_inBounds h he) trivial
  | file a => exact fileVisits_inBounds_iff h.files
  | load filename => exact loadAccesses_inBounds_iff h.files
  | state pid => exact stateAccesses_inBounds_iff
  | exitcode pid => exact stateAccesses_inBounds_iff

/-- What a call or an interrupt is for the scheduler, if anything. -/
def SystemCall.forScheduler : SystemCall → Option SchedulerCall
  | .put _ | .get | .setMode _ | .sethandler _ _ => none
  | .spawn pd => some (.spawn pd)
  | .block event => some (.block event)
  | .exit code => some (.exit code)
  | .tick => some .tick

/-- What a call or an interrupt does to the file driver and the scheduler.

**Proof sketch.** By cases on the call. Those for the scheduler make its call, and the others change
a descriptor or the terminal. -/
theorem systemCall_kernel {a : SystemCall} {r : SystemAnswer} (hr : systemCall s a = some (r, s')) :
    s'.kernel.files = s.kernel.files ∧
      (a.forScheduler = none → s'.kernel.scheduler = s.kernel.scheduler) ∧
      ∀ b, a.forScheduler = some b →
        ∃ n, schedulerCall s.kernel.scheduler b = some (n, s'.kernel.scheduler) := by
  cases a with
  | put c =>
    simp only [systemCall, Option.map_eq_some_iff, Prod.mk.injEq] at hr
    obtain ⟨s₁, hput, -, rfl⟩ := hr
    cases terminalPut_cases hput with
    | withheld => exact ⟨rfl, fun _ => rfl, fun _ hb => by cases hb⟩
    | stored => exact ⟨rfl, fun _ => rfl, fun _ hb => by cases hb⟩
  | get =>
    simp only [systemCall, Option.some.injEq, Prod.mk.injEq] at hr
    have hkernel : (terminalGet s).2.kernel = s.kernel := by
      unfold terminalGet
      split_ifs <;> rfl
    rw [← hr.2, hkernel]
    exact ⟨rfl, fun _ => rfl, fun _ hb => by cases hb⟩
  | setMode mode =>
    simp only [systemCall, terminalSetMode, Option.map_map, Option.map_eq_some_iff] at hr
    obtain ⟨j, -, hr⟩ := hr
    obtain ⟨-, rfl⟩ := Prod.mk.inj hr
    split_ifs <;> exact ⟨rfl, fun _ => rfl, fun _ hb => by cases hb⟩
  | sethandler handler sig =>
    simp only [systemCall, signalSethandler, Option.map_map, Option.map_eq_some_iff] at hr
    obtain ⟨j, -, hr⟩ := hr
    obtain ⟨-, rfl⟩ := Prod.mk.inj hr
    split_ifs <;> exact ⟨rfl, fun _ => rfl, fun _ hb => by cases hb⟩
  | spawn pd =>
    simp only [systemCall, processSpawn, Option.map_map, Option.map_eq_some_iff] at hr
    obtain ⟨j, -, hr⟩ := hr
    obtain ⟨-, rfl⟩ := Prod.mk.inj hr
    refine ⟨rfl, fun hb => (by cases hb), fun b hb => ?_⟩
    cases hb
    exact ⟨_, rfl⟩
  | block event =>
    simp only [systemCall, Option.map_eq_some_iff, Prod.mk.injEq] at hr
    obtain ⟨t, ht, -, rfl⟩ := hr
    refine ⟨rfl, fun hb => (by cases hb), fun b hb => ?_⟩
    cases hb
    exact ⟨none, by rw [schedulerCall, ht]; rfl⟩
  | exit code =>
    simp only [systemCall, Option.map_eq_some_iff, Prod.mk.injEq] at hr
    obtain ⟨t, ht, -, rfl⟩ := hr
    refine ⟨rfl, fun hb => (by cases hb), fun b hb => ?_⟩
    cases hb
    exact ⟨none, by rw [schedulerCall, ht]; rfl⟩
  | tick =>
    simp only [systemCall, Option.map_eq_some_iff, Prod.mk.injEq] at hr
    obtain ⟨⟨n, s₁⟩, htick, -, rfl⟩ := hr
    have hkernel : ∃ bank k, schedulerTick s.kernel = some (bank, k) ∧ s₁.kernel.files = k.files ∧
        s₁.kernel.scheduler = k.scheduler := by
      cases timerHandler_cases htick with
      | signal hbank => exact ⟨_, _, hbank, rfl, rfl⟩
      | none hbank => exact ⟨_, _, hbank, rfl, rfl⟩
    obtain ⟨bank, k, hbank, hfiles, hscheduler⟩ := hkernel
    unfold schedulerTick at hbank
    cases hnext : schedulerNext s.kernel.scheduler with
    | none => simp [hnext] at hbank
    | some next =>
      simp only [hnext, Option.map_eq_some_iff, Prod.mk.injEq] at hbank
      obtain ⟨j, -, -, rfl⟩ := hbank
      refine ⟨hfiles, fun hb => (by cases hb), fun b hb => ?_⟩
      cases hb
      exact ⟨some next.1, by rw [schedulerCall, hnext, hscheduler]; rfl⟩

/-- A tick that returns has found a task. -/
theorem issued_tick {n : Option ℤ} (hr : schedulerCall t .tick = some (n, t')) :
    Issued t .tick := by
  simp only [schedulerCall, Option.map_eq_some_iff, Prod.mk.injEq] at hr
  obtain ⟨⟨pid, t₁⟩, hnext, -⟩ := hr
  obtain ⟨i, hready, -⟩ := schedulerNext_eq_some hnext
  rw [preempt_table] at hready
  split_ifs at hready with hrun
  · exact ⟨i, .inr hrun.2⟩
  · exact ⟨i, .inl hready⟩

namespace KernelFit

/-- A step that changes neither the file driver nor the scheduler keeps the invariant. -/
theorem of_eq (h : KernelFit g s) (hfiles : s'.kernel.files = s.kernel.files)
    (hscheduler : s'.kernel.scheduler = s.kernel.scheduler) : KernelFit g s' :=
  ⟨hfiles ▸ h.files, hscheduler ▸ h.scheduler, hscheduler ▸ h.pids⟩

/-- A step of the scheduler keeps the invariant. -/
theorem scheduled {b : SchedulerCall} {n : Option ℤ} (h : KernelFit g s)
    (hfiles : s'.kernel.files = s.kernel.files)
    (hr : schedulerCall s.kernel.scheduler b = some (n, s'.kernel.scheduler))
    (hb : Issued s.kernel.scheduler b) (hspawn : ∀ pid, b = .spawn pid → IsLoaded s.kernel pid) :
    KernelFit g s' := by
  have halive : ∀ code, b = .exit code → CurrentAlive s.kernel.scheduler := by
    rintro code rfl
    exact hb
  refine ⟨hfiles ▸ h.files, schedulerCall_consistent h.scheduler hb hr, fun i hi => ?_⟩
  rcases schedulerCall_pids h.scheduler halive hr i hi with ⟨hused, hpid⟩ | hnew
  · rw [hpid]
    exact h.pids i hused
  · obtain ⟨j, hj, -⟩ := hspawn _ hnew
    exact ⟨j, hj⟩

/-- A call for the scheduler keeps the kernel fit. -/
theorem system {a : SystemCall} {r : SystemAnswer} (h : KernelFit g s) (ha : Made s (.system a))
    (hr : systemCall s a = some (r, s')) : KernelFit g s' := by
  obtain ⟨hfiles, hnone, hsome⟩ := systemCall_kernel hr
  cases a with
  | spawn pd =>
    obtain ⟨n, hcall⟩ := hsome _ rfl
    exact h.scheduled hfiles hcall ha.2 fun pid hpid => by cases hpid; exact ha.1
  | block event =>
    obtain ⟨n, hcall⟩ := hsome _ rfl
    exact h.scheduled hfiles hcall ha fun pid hpid => by cases hpid
  | exit code =>
    obtain ⟨n, hcall⟩ := hsome _ rfl
    exact h.scheduled hfiles hcall ha fun pid hpid => by cases hpid
  | tick =>
    obtain ⟨n, hcall⟩ := hsome _ rfl
    exact h.scheduled hfiles hcall (issued_tick hcall) fun pid hpid => by cases hpid
  | _ => exact h.of_eq hfiles (hnone rfl)

/-- A load changes no variable of the scheduler. -/
theorem load {filename : List UInt8} {n : ℤ} (h : k.files.Fit g)
    (hr : processLoad header k filename = some (n, k')) :
    k'.files.Fit g ∧ k'.scheduler = k.scheduler := by
  unfold processLoad at hr
  split at hr
  · simp at hr
  · rename_i hopen
    simp only [Option.some.injEq, Prod.mk.injEq] at hr
    obtain ⟨-, rfl⟩ := hr
    exact ⟨h.open hopen, rfl⟩
  · rename_i fd files hopen
    have hread : (fileRead files header phdrSize (fd : ℕ)).2.Fit g := (h.open hopen).read
    simp only at hr
    split_ifs at hr
    · simp only [Option.some.injEq, Prod.mk.injEq] at hr
      exact hr.2 ▸ ⟨hread, rfl⟩
    · simp only [Option.some.injEq, Prod.mk.injEq] at hr
      exact hr.2 ▸ ⟨hread, rfl⟩
    · simp only [Option.some.injEq, Prod.mk.injEq] at hr
      exact hr.2 ▸ ⟨hread, rfl⟩
    unfold loadProgram at hr
    simp only at hr
    split at hr
    · simp at hr
    · simp only [Option.some.injEq, Prod.mk.injEq] at hr
      exact hr.2 ▸ ⟨hread.read, rfl⟩

/-- **A step keeps the invariant.** -/
theorem step (h : KernelFit g s) (he : Made s e) (hr : kernelStep header s e = some (r, s')) :
    KernelFit g s' := by
  cases e with
  | system a =>
    simp only [kernelStep, Option.map_eq_some_iff, Prod.mk.injEq] at hr
    obtain ⟨⟨x, s₁⟩, hcall, -, rfl⟩ := hr
    exact h.system he hcall
  | file a =>
    simp only [kernelStep, Option.map_eq_some_iff, Prod.mk.injEq] at hr
    obtain ⟨⟨x, f⟩, hcall, -, rfl⟩ := hr
    exact ⟨h.files.call hcall, h.scheduler, h.pids⟩
  | load filename =>
    simp only [kernelStep, Option.map_eq_some_iff, Prod.mk.injEq] at hr
    obtain ⟨⟨x, k⟩, hload, -, rfl⟩ := hr
    obtain ⟨hfiles, hscheduler⟩ := load h.files hload
    exact ⟨hfiles, hscheduler ▸ h.scheduler, hscheduler ▸ h.pids⟩
  | state pid | exitcode pid =>
    simp only [kernelStep, Option.map_eq_some_iff, Prod.mk.injEq] at hr
    obtain ⟨x, -, -, rfl⟩ := hr
    exact h

/-- The invariant holds at the start. -/
theorem init {s₀ : System} {banks : UInt8} (hsize : (s₀.kernel.files.disk 0).word 0x0b = 512)
    (hfd : ∀ fd, (s₀.kernel.files.fdtable fd).fposWithinSector < 512) :
    KernelFit (bootDiskInfo (s₀.kernel.files.disk 0)) (systemInit s₀ banks) :=
  ⟨⟨filesystemInit_coherent, rfl, hsize, hfd⟩, schedulerInit_consistent _,
    fun _ hi => absurd rfl hi⟩

end KernelFit

/-- The start of the kernel accesses nothing outside. -/
theorem initAccesses_inBounds {s₀ : System} {banks : UInt8} :
    Accesses.InBounds Table.size (initAccesses s₀ banks) := by
  have hvisits : Fine (fun _ => False) (filesystemInitVisits s₀.kernel.files) := by
    simp only [filesystemInitVisits, fine_append]
    refine ⟨⟨⟨⟨⟨⟨⟨⟨fine_bytes ?_, fine_bytes ?_⟩, fine_bytes ?_⟩, fine_bytes ?_⟩, fine_bytes ?_⟩,
      fine_bytes ?_⟩, fine_bytes ?_⟩, ?_⟩, ?_⟩
    all_goals try decide
    · split_ifs
      · exact fine_bytes (by decide)
      · exact fine_nil
    · intro v hv
      obtain ⟨fd, -, rfl⟩ := List.mem_map.mp hv
      exact fine_fd
  have hpages : Accesses.InBounds Table.size (memoryInitAccesses banks.toNat) := by
    unfold memoryInitAccesses
    split_ifs with hbanks
    · exact Accesses.inBounds_nil
    rw [Accesses.inBounds_append, Accesses.inBounds_map, Accesses.inBounds_map]
    constructor
    · intro i hi
      have hlt := List.mem_range.mp hi
      exact ⟨Int.natCast_nonneg _, Int.ofNat_lt.mpr (by simp only [Table.size]; omega)⟩
    · intro i hi
      have hlt := List.mem_range'_1.mp hi
      exact ⟨Int.natCast_nonneg _, Int.ofNat_lt.mpr (by simp only [Table.size]; omega)⟩
  simp only [initAccesses, Accesses.inBounds_append]
  exact ⟨⟨⟨hvisits.inBounds, hpages⟩, processAccess_map_inBounds⟩, scheduleAccess_map_inBounds⟩

/-- **The bounds of the tables.** On a disk with sectors of 512 bytes, all accesses to the tables
are inside in a run of the kernel if and only if every step of it is harmless.

**Proof sketch.** Each step of the run keeps what the accesses rely on (`KernelFit.step`), and there
the accesses of a call are inside exactly when it is harmless (`tableAccesses_inBounds_iff`). -/
theorem tablesInside_iff {s₀ : System} {banks : UInt8} {events : List KernelEvent}
    (hsize : (s₀.kernel.files.disk 0).word 0x0b = 512)
    (hfd : ∀ fd, (s₀.kernel.files.fdtable fd).fposWithinSector < 512)
    (hmade : Run.Each (kernelStep header) Made (systemInit s₀ banks) events) :
    TablesInside header s₀ banks events ↔
      Run.Each (kernelStep header) (Harmless header) (systemInit s₀ banks) events := by
  rw [TablesInside, and_iff_right initAccesses_inBounds]
  exact Run.Each.congr (fun _ _ h he => tableAccesses_inBounds_iff h he)
    (fun _ _ _ _ h he hr => h.step he hr) (KernelFit.init hsize hfd) hmade

end

/-! ## A PID that is not known -/

section

attribute [local instance] Machine.linked

/-- The kernel in front of its start, with a disk that holds an executable file. -/
def storedSystem : System := ⟨smallKernel, smallSystem.terminalBuf⟩

/-- The file is loaded and runs. -/
def firstRun : List KernelEvent := [.load nameAB, .system (.spawn 0), .system .tick]

/-- The process asks for its own state. -/
theorem tablesInside_iff_firstRun :
    TablesInside 0x7f00 storedSystem 2 (firstRun ++ [.state 0]) := by
  have hmade : Run.Each (kernelStep 0x7f00) Made (systemInit storedSystem 2)
      (firstRun ++ [.state 0]) :=
    Run.Each.of_check (p := fun s e => decide (Made s e)) (fun _ _ => of_decide_eq_true)
      (by decide +kernel)
  refine (tablesInside_iff (by decide +kernel) (by decide +kernel) hmade).mpr ?_
  exact Run.Each.of_check (p := fun s e => decide (Harmless 0x7f00 s e))
    (fun _ _ => of_decide_eq_true) (by decide +kernel)

/-- The process asks for the state of a process that does not exist. -/
theorem not_tablesInside :
    ¬ ∀ (header : ℕ) (s₀ : System) (banks : UInt8) (events : List KernelEvent),
      (s₀.kernel.files.disk 0).word 0x0b = 512 →
      (∀ fd, (s₀.kernel.files.fdtable fd).fposWithinSector < 512) →
      Run.Each (kernelStep header) Made (systemInit s₀ banks) events →
      TablesInside header s₀ banks events := by
  intro hall
  have hmade : Run.Each (kernelStep 0x7f00) Made (systemInit storedSystem 2)
      (firstRun ++ [.state 7]) :=
    Run.Each.of_check (p := fun s e => decide (Made s e)) (fun _ _ => of_decide_eq_true)
      (by decide +kernel)
  have hlast : ((Run.exec (kernelStep 0x7f00) (systemInit storedSystem 2) firstRun).any fun r =>
      decide (¬ HasEntry r.2.kernel.scheduler 7)) = true := by decide +kernel
  obtain ⟨⟨answers, s⟩, hrun, hs⟩ := (Option.any_eq_true _ _).mp hlast
  have hinside := ((hall 0x7f00 storedSystem 2 (firstRun ++ [.state 7]) (by decide +kernel)
    (by decide +kernel) hmade).2.right hrun).1
  exact of_decide_eq_true hs (stateAccesses_inBounds_iff.mp hinside)

end

end Z80OS
