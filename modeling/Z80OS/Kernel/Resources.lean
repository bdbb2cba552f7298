import Mathlib.Data.Fintype.Card
import Z80OS.Kernel.Loading
import Z80OS.Kernel.StateMachine

set_option relaxedAutoImplicit false
set_option autoImplicit false

/-!
# The resources of finished processes

A process takes a slot of the process table and a page of memory when it is loaded and an entry of
the schedule table when it is spawned. No path of the kernel gives one of them back when the
process has finished, so the number of loads since boot decides whether the next one succeeds.

## Main definitions

* `Z80OS.KernelCall`, `Z80OS.kernelCall` — loads, spawns, ticks and exits.
* `Z80OS.KernelIssued` — when a call can be made.
* `Z80OS.unfinished` — the number of processes that are loaded and have not finished.
* `Z80OS.LoadSpawns` — a load and the spawn after it succeed.

## Main results

* `Z80OS.kernelCall_sound` — the invariant of the tables.
* `Z80OS.load_spawns_iff` — the next load and the spawn after it succeed if and only if there have
  been fewer loads than slots and banks.
* `Z80OS.not_load_spawns` — a load that fails although a process has finished.
-/

namespace Z80OS

/-! ## Calls -/

/-- What happens to the processes: `pload`, `pspawn`, a timer tick, `pblock` and `pexit`. -/
inductive KernelCall
  | load (filename : List UInt8)
  | spawn (pd : ℤ)
  | tick
  | block (event : ℤ)
  | exit (code : ℤ)
  deriving DecidableEq

/-- The call is a load. -/
def KernelCall.isLoad : KernelCall → Bool
  | .load _ => true
  | _ => false

/-- The kernel with other variables of the scheduler. -/
def Kernel.withScheduler (k : Kernel) (s : Scheduler) : Kernel := { k with scheduler := s }

/-- The answer to a call, if there is one, and the kernel after it. -/
def kernelCall [Machine] (header : ℕ) (k : Kernel) : KernelCall → Option (Option ℤ × Kernel)
  | .load filename => (processLoad header k filename).map fun r => (some r.1, r.2)
  | .spawn pd => (processSpawn k pd).map fun r => (some r.1, r.2)
  | .tick => (schedulerTick k).map fun r => (some (r.1.toNat : ℤ), r.2)
  | .block event =>
    (schedulerBlockCurrent k.scheduler event).map fun s => (none, k.withScheduler s)
  | .exit code => (processExit k.scheduler code).map fun s => (none, k.withScheduler s)

/-- The descriptor is the one of a process that has been loaded. -/
def IsLoaded (k : Kernel) (pd : ℤ) : Prop :=
  ∃ i : Fin procsMax, pd = (i : ℕ) ∧ (k.processTable i).baseAddress ≠ 0

instance (k : Kernel) (pd : ℤ) : Decidable (IsLoaded k pd) :=
  inferInstanceAs (Decidable (∃ _, _))

/-- When a call can be made: loads of executable files and spawns of processes that have been
loaded and not spawned yet, by the kernel at boot or by the current process; ticks when there is a
task to schedule; the other calls by the current process. -/
def KernelIssued [Machine] (header : ℕ) (k : Kernel) : KernelCall → Prop
  | .load filename => ValidExecutable header k filename ∧
      (k.scheduler.currentScheduled = -1 ∨ CurrentAlive k.scheduler)
  | .spawn pd => IsLoaded k pd ∧ IssuedOnce k.scheduler (.spawn pd)
  | .tick => IssuedOnce k.scheduler .tick
  | .block event => IssuedOnce k.scheduler (.block event)
  | .exit code => IssuedOnce k.scheduler (.exit code)

instance [Machine] (header : ℕ) (k : Kernel) (a : KernelCall) :
    Decidable (KernelIssued header k a) :=
  match a with
  | .load _ => inferInstanceAs (Decidable (_ ∧ (_ ∨ _)))
  | .spawn _ => inferInstanceAs (Decidable (_ ∧ IssuedOnce _ _))
  | .tick => inferInstanceAs (Decidable (IssuedOnce _ _))
  | .block _ => inferInstanceAs (Decidable (IssuedOnce _ _))
  | .exit _ => inferInstanceAs (Decidable (IssuedOnce _ _))

/-- The task of a process has finished. -/
def HasFinished (s : Scheduler) (pid : ℤ) : Prop :=
  ∃ i, (s.scheduleTable i).state = .finished ∧ (s.scheduleTable i).pid = pid

instance (s : Scheduler) (pid : ℤ) : Decidable (HasFinished s pid) :=
  inferInstanceAs (Decidable (∃ _, _))

/-- The number of processes that are loaded and have not finished. -/
def unfinished (k : Kernel) : ℕ :=
  (List.finRange procsMax).countP fun i =>
    (k.processTable i).baseAddress ≠ 0 ∧ ¬ HasFinished k.scheduler (i : ℕ)

/-- The load of a file succeeds, and so does the spawn after it: the process gets a bank that
exists and that no other process has which has not finished, and an entry of the schedule
table. -/
def LoadSpawns [Machine] (header : ℕ) (banks : UInt8) (k : Kernel) (filename : List UInt8) : Prop :=
  ∃ (i : Fin procsMax) (k' k'' : Kernel), processLoad header k filename = some (((i : ℕ) : ℤ), k') ∧
    (k'.processTable i).bank.toNat < banks.toNat ∧
    (∀ j ≠ i, (k'.processTable j).baseAddress ≠ 0 → ¬ HasFinished k.scheduler (j : ℕ) →
      (k'.processTable j).bank ≠ (k'.processTable i).bank) ∧
    processSpawn k' (i : ℕ) = some (0, k'')

/-! ## The invariant -/

/-- What holds of the tables of the kernel after `n` loads. -/
structure KernelSound (banks : UInt8) (n : ℕ) (k : Kernel) : Prop where
  loaded : Loaded banks n k
  scheduled : Scheduled k.scheduler
  /-- Only processes that have been loaded are scheduled. -/
  pids : ∀ i, (k.scheduler.scheduleTable i).state ≠ .free →
    ∃ j : ℕ, j < n ∧ (k.scheduler.scheduleTable i).pid = j

section

variable {M : Machine} {header n : ℕ} {banks : UInt8} {k k' k₀ : Kernel} {filename : List UInt8}
  {a : KernelCall} {r : Option ℤ} {s s' : Scheduler}

/-- The kernel is sound when it starts. -/
theorem kernelInit_sound (k₀ : Kernel) (banks : UInt8) :
    KernelSound banks 0 (kernelInit k₀ banks) :=
  ⟨kernelInit_loaded k₀ banks,
    ⟨schedulerInit_consistent k₀.scheduler, schedulerInit_distinct k₀.scheduler⟩,
    fun _ hi => absurd rfl hi⟩

/-- Another state of the scheduler leaves the processes. -/
theorem Loaded.withScheduler (h : Loaded banks n k) : Loaded banks n (k.withScheduler s) :=
  ⟨h.le, h.numPages, h.pages, h.free, h.base, h.bank⟩

/-- The entries in use after a call have the PIDs of entries in use before it, but for the one that
is spawned.

**Proof sketch.** By cases on the call. A spawn changes one entry only, and no other call gives an
entry another PID or takes one that is free. -/
theorem schedulerCall_pids {b : SchedulerCall} (h : Consistent s)
    (hb : ∀ code, b = .exit code → CurrentAlive s)
    (hr : schedulerCall s b = some (r, s')) (i : Fin maxScheduled)
    (hi : (s'.scheduleTable i).state ≠ .free) :
    (s.scheduleTable i).state ≠ .free ∧ (s'.scheduleTable i).pid = (s.scheduleTable i).pid ∨
      b = .spawn (s'.scheduleTable i).pid := by
  by_cases hsame : s'.scheduleTable i = s.scheduleTable i
  · rw [hsame] at hi ⊢
    exact .inl ⟨hi, rfl⟩
  cases b with
  | tick =>
    simp only [schedulerCall, Option.map_eq_some_iff, Prod.mk.injEq] at hr
    obtain ⟨⟨pid, s₁⟩, hnext, -, rfl⟩ := hr
    obtain ⟨c, hready, -, -, -, -, -, htable⟩ := schedulerNext_eq_some hnext
    left
    simp only [htable, setState_table] at hi ⊢
    split_ifs at hi ⊢ with hic
    · subst hic
      refine ⟨fun hfree => ?_, preempt_pid⟩
      rw [preempt_state_free.mpr hfree] at hready
      simp at hready
    · exact ⟨fun hfree => hi (preempt_state_free.mpr hfree), preempt_pid⟩
  | spawn pid =>
    simp only [schedulerCall, Option.some.injEq, Prod.mk.injEq] at hr
    obtain ⟨-, rfl⟩ := hr
    rcases schedulerAdd_cases pid h with ⟨-, hadd⟩ | ⟨c, -, hadd⟩
    · rw [hadd] at hsame
      exact absurd rfl hsame
    · simp only [hadd, enter_table] at hi ⊢ hsame
      split_ifs at hi ⊢ hsame with hic
      · exact .inr rfl
      · exact absurd rfl hsame
  | block event =>
    simp only [schedulerCall, schedulerBlockCurrent, Option.map_eq_some_iff, Prod.mk.injEq] at hr
    obtain ⟨s₁, ⟨c, hc, rfl⟩, -, rfl⟩ := hr
    rw [scheduleIndex?_eq_some_iff] at hc
    left
    rw [block_table] at hi ⊢
    split_ifs at hi ⊢ with hic
    · subst hic
      exact ⟨h.used_le hc (le_refl i), rfl⟩
    · exact ⟨hi, rfl⟩
  | exit code =>
    simp only [schedulerCall, Option.map_eq_some_iff, Prod.mk.injEq] at hr
    obtain ⟨s₁, hexit, -, rfl⟩ := hr
    obtain ⟨j, hj⟩ := CurrentAlive.exists_current (hb code rfl)
    obtain ⟨i', hle, -, hexit'⟩ := processExit_eq code h hj
    obtain rfl := Option.some.inj (hexit'.symm.trans hexit)
    left
    rw [broadcast_table, finish_table] at hi ⊢
    split_ifs at hi ⊢ with hij
    · subst hij
      exact ⟨h.used_le hj hle, wake_pid⟩
    · exact ⟨fun hfree => hi (wake_state_free.mpr hfree), wake_pid⟩

/-- A call of the scheduler keeps the invariant. -/
theorem KernelSound.schedulerCall {b : SchedulerCall} (h : KernelSound banks n k)
    (hb : IssuedOnce k.scheduler b) (hr : Z80OS.schedulerCall k.scheduler b = some (r, s))
    (hload : ∀ pid, b = .spawn pid → IsLoaded k pid) :
    KernelSound banks n (k.withScheduler s) := by
  refine ⟨h.loaded.withScheduler, h.scheduled.call hb hr, fun i hi => ?_⟩
  have halive : ∀ code, b = .exit code → CurrentAlive k.scheduler := by
    rintro code rfl
    exact hb.1
  rcases schedulerCall_pids h.scheduled.1 halive hr i hi with ⟨hused, hpid⟩ | hspawn
  · show ∃ j : ℕ, j < n ∧ (s.scheduleTable i).pid = j
    rw [hpid]
    exact h.pids i hused
  · obtain ⟨j, hj, hbase⟩ := hload _ hspawn
    refine ⟨j, ?_, hj⟩
    by_contra hn
    exact hbase ((h.loaded.free j).mpr (not_lt.mp hn))

/-- **The invariant of the tables.** A call keeps it, and a load counts.

**Proof sketch.** By cases on the call. A load has a slot, because it has a result, and takes the
next one (`Loaded.load`). The others are calls of the scheduler, of which a spawn is for a slot that
has been loaded. -/
theorem kernelCall_sound (h : KernelSound banks n k) (ha : KernelIssued header k a)
    (hr : kernelCall header k a = some (r, k')) :
    KernelSound banks (n + [a].countP KernelCall.isLoad) k' := by
  cases a with
  | load filename =>
    simp only [kernelCall, Option.map_eq_some_iff, Prod.mk.injEq] at hr
    obtain ⟨⟨pd, k₁⟩, hload, -, rfl⟩ := hr
    have hn : n < procsMax := by
      by_contra hn
      rw [(h.loaded.load ha.1).1 (not_lt.mp hn)] at hload
      simp at hload
    obtain ⟨k₂, hk₂, hloaded, hs⟩ := (h.loaded.load ha.1).2 hn
    obtain ⟨rfl, rfl⟩ := Prod.mk.inj (Option.some.inj (hk₂.symm.trans hload))
    refine ⟨hloaded, hs ▸ h.scheduled, fun i hi => ?_⟩
    rw [hs] at hi ⊢
    obtain ⟨j, hj, hpid⟩ := h.pids i hi
    exact ⟨j, Nat.lt_succ_of_lt hj, hpid⟩
  | spawn pd =>
    simp only [kernelCall, processSpawn, Option.map_eq_some_iff, Prod.mk.injEq] at hr
    obtain ⟨x, ⟨i, -, rfl⟩, -, rfl⟩ := hr
    exact h.schedulerCall ha.2 rfl fun pid hpid => SchedulerCall.spawn.inj hpid ▸ ha.1
  | tick =>
    simp only [kernelCall, schedulerTick, Option.map_eq_some_iff, Prod.mk.injEq] at hr
    obtain ⟨x, htick, -, rfl⟩ := hr
    split at htick
    · simp at htick
    · rename_i pid s hnext
      simp only [Option.map_eq_some_iff] at htick
      obtain ⟨i, -, rfl⟩ := htick
      have hcall : Z80OS.schedulerCall k.scheduler .tick = some (some pid, s) := by
        rw [Z80OS.schedulerCall, hnext]
        rfl
      exact h.schedulerCall ha hcall fun _ hpid => by simp at hpid
  | block event =>
    simp only [kernelCall, Option.map_eq_some_iff, Prod.mk.injEq] at hr
    obtain ⟨s, hblock, -, rfl⟩ := hr
    have hcall : Z80OS.schedulerCall k.scheduler (.block event) = some (none, s) := by
      rw [Z80OS.schedulerCall, hblock]
      rfl
    exact h.schedulerCall ha hcall fun _ hpid => by simp at hpid
  | exit code =>
    simp only [kernelCall, Option.map_eq_some_iff, Prod.mk.injEq] at hr
    obtain ⟨s, hexit, -, rfl⟩ := hr
    have hcall : Z80OS.schedulerCall k.scheduler (.exit code) = some (none, s) := by
      rw [Z80OS.schedulerCall, hexit]
      rfl
    exact h.schedulerCall ha hcall fun _ hpid => by simp at hpid

/-- The invariant after a run, which counts its loads. -/
theorem run_kernelSound {calls : List KernelCall} {answers : List (Option ℤ)}
    (h : KernelSound banks n k)
    (hcalls : Run.Always (kernelCall header) (fun k a _ _ => KernelIssued header k a) k calls)
    (hrun : Run.exec (kernelCall header) k calls = some (answers, k')) :
    KernelSound banks (n + calls.countP KernelCall.isLoad) k' := by
  induction calls generalizing n k answers with
  | nil =>
    simp only [Run.exec_nil, Option.some.injEq, Prod.mk.injEq] at hrun
    obtain ⟨-, rfl⟩ := hrun
    exact h
  | cons a calls ih =>
    obtain ⟨r, bs, k₁, hstep, hrest, -⟩ := Run.exec_cons_eq_some hrun
    obtain ⟨ha, hcalls⟩ := hcalls r k₁ hstep
    have := ih (kernelCall_sound h ha hstep) hcalls hrest
    rw [← List.singleton_append, List.countP_append, ← Nat.add_assoc]
    exact this

/-- There are at most as many entries in the schedule table as processes that have been loaded. -/
theorem KernelSound.num_le (h : KernelSound banks n k) : k.scheduler.numScheduled ≤ n := by
  have hused : ∀ i : Fin k.scheduler.numScheduled,
      ∃ j : Fin n, (k.scheduler.scheduleTable (i.castLE h.scheduled.1.num_le)).pid = (j : ℕ) := by
    intro i
    obtain ⟨j, hj, hpid⟩ := h.pids (i.castLE h.scheduled.1.num_le)
      ((h.scheduled.1.used _).mpr i.isLt)
    exact ⟨⟨j, hj⟩, hpid⟩
  choose f hf using hused
  have hinj : Function.Injective f := by
    intro i i' hii
    have heq := h.scheduled.2 (i.castLE h.scheduled.1.num_le) (i'.castLE h.scheduled.1.num_le)
      ((h.scheduled.1.used _).mpr i.isLt) ((h.scheduled.1.used _).mpr i'.isLt)
      (by rw [hf, hf, hii])
    exact Fin.castLE_injective _ heq
  simpa using Fintype.card_le_of_injective f hinj

/-- **The resources of finished processes.** In every state that a run of loads, spawns, ticks and
exits reaches, the next load of an executable file and the spawn after it succeed if and only if
there have been fewer loads since boot than there are slots and banks, whether the processes have
finished or not.

**Proof sketch.** The run keeps the table as the loads have left it, the `n`-th of them in the
`n`-th slot and with the `n`-th bank (`run_kernelSound`). So the next load takes the next slot if
there is one, and its bank is a page exactly when there are more pages than loads. An entry of the
scheduler is free, since no more processes have been spawned than there are slots. -/
theorem load_spawns_iff {calls : List KernelCall} {answers : List (Option ℤ)} (k₀ : Kernel)
    (banks : UInt8) (hcalls : Run.Always (kernelCall header)
      (fun k a _ _ => KernelIssued header k a) (kernelInit k₀ banks) calls)
    (hrun : Run.exec (kernelCall header) (kernelInit k₀ banks) calls = some (answers, k))
    (hfile : ValidExecutable header k filename) :
    LoadSpawns header banks k filename ↔
      calls.countP KernelCall.isLoad < min procsMax banks.toNat := by
  have h := run_kernelSound (kernelInit_sound k₀ banks) hcalls hrun
  rw [Nat.zero_add] at h
  set n := calls.countP KernelCall.isLoad
  obtain ⟨hfull, hroom⟩ := h.loaded.load hfile
  constructor
  · rintro ⟨i, k', k'', hload, hbank, -⟩
    have hn : n < procsMax := by
      by_contra hn
      rw [hfull (not_lt.mp hn)] at hload
      simp at hload
    obtain ⟨k₂, hk₂, hloaded, -⟩ := hroom hn
    obtain ⟨hi, rfl⟩ := Prod.mk.inj (Option.some.inj (hk₂.symm.trans hload))
    have hb := banks.toNat_lt
    have hin : (i : ℕ) = n := by omega
    rw [hloaded.bank i (by omega), hin, nthBank] at hbank
    rw [lt_min_iff]
    refine ⟨hn, ?_⟩
    by_contra hnb
    rw [if_neg hnb] at hbank
    have h255 : (255 : UInt8).toNat = 255 := rfl
    omega
  · intro hn
    obtain ⟨hslot, hpage⟩ := lt_min_iff.mp hn
    obtain ⟨k₂, hk₂, hloaded, hs⟩ := hroom hslot
    have hb := banks.toNat_lt
    have hbank : (k₂.processTable ⟨n, hslot⟩).bank = nthBank banks n :=
      hloaded.bank ⟨n, hslot⟩ (Nat.lt_succ_self n)
    have hnum := h.num_le
    rcases schedulerAdd_cases (n : ℤ) h.scheduled.1 with ⟨hfull, -⟩ | ⟨c, -, hadd⟩
    · rw [hfull] at hnum
      exact absurd hslot (Nat.not_lt.mpr hnum)
    · refine ⟨⟨n, hslot⟩, k₂, { k₂ with scheduler := k.scheduler.enter c n }, hk₂, ?_,
        fun j hj hused _ heq => hj ?_, ?_⟩
      · rw [hbank, nthBank, if_pos hpage, UInt8.toNat_ofNat']
        omega
      · have hjn : (j : ℕ) < n + 1 := by
          by_contra hjn
          exact hused ((hloaded.free j).mpr (not_lt.mp hjn))
        have hjb : (j : ℕ) < banks.toNat := by omega
        rw [hloaded.bank j hjn, hbank] at heq
        exact Fin.ext (nthBank_inj hjb hpage heq)
      · have hindex : processIndex? (n : ℤ) = some ⟨n, hslot⟩ := by
          rw [processIndex?, dif_pos ⟨by omega, by simpa using hslot⟩]
          simp
        rw [processSpawn]
        simp only [hindex, hs, hadd, Option.map_some]

end

/-! ## Two banks -/

section

attribute [local instance] Machine.linked

/-- The first process loads and spawns a second one, which finishes, and runs again. -/
def finishingRun : List KernelCall :=
  [.load nameAB, .spawn 0, .tick, .load nameAB, .spawn 1, .tick, .exit 0, .tick]

/-- The load of a second process succeeds. -/
theorem load_spawns_iff_second :
    ∃ answers k, Run.exec (kernelCall 0x7f00) (kernelInit smallKernel 2)
      [.load nameAB, .spawn 0, .tick] = some (answers, k) ∧ LoadSpawns 0x7f00 2 k nameAB := by
  have hcalls : Run.Always (kernelCall 0x7f00) (fun k a _ _ => KernelIssued 0x7f00 k a)
      (kernelInit smallKernel 2) [.load nameAB, .spawn 0, .tick] :=
    Run.Always.of_check (p := fun k a _ _ => decide (KernelIssued 0x7f00 k a))
      (fun _ _ _ _ => of_decide_eq_true) (by decide +kernel)
  have hlast : ((Run.exec (kernelCall 0x7f00) (kernelInit smallKernel 2)
      [.load nameAB, .spawn 0, .tick]).any fun r =>
        decide (ValidExecutable 0x7f00 r.2 nameAB)) = true := by decide +kernel
  obtain ⟨⟨answers, k⟩, hrun, hk⟩ := (Option.any_eq_true _ _).mp hlast
  exact ⟨answers, k, hrun, (load_spawns_iff smallKernel 2 hcalls hrun
    (of_decide_eq_true hk)).mpr (by decide)⟩

/-- With two banks and one process that has not finished, the third load does not succeed.

**Proof sketch.** The run, in which two processes are loaded and finish, is evaluated, and so is the
third load: its descriptor has bank 255, which is not below the number of banks. -/
theorem not_load_spawns :
    ¬ ∀ (header : ℕ) (banks : UInt8) (k₀ : Kernel) (calls : List KernelCall)
      (answers : List (Option ℤ)) (k : Kernel) (filename : List UInt8),
      Run.Always (kernelCall header) (fun k a _ _ => KernelIssued header k a ∧
        (a.isLoad = true → unfinished k < min procsMax banks.toNat)) (kernelInit k₀ banks) calls →
      Run.exec (kernelCall header) (kernelInit k₀ banks) calls = some (answers, k) →
      ValidExecutable header k filename → unfinished k < min procsMax banks.toNat →
      LoadSpawns header banks k filename := by
  intro hall
  have hcalls : Run.Always (kernelCall 0x7f00) (fun k a _ _ => KernelIssued 0x7f00 k a ∧
        (a.isLoad = true → unfinished k < min procsMax (2 : UInt8).toNat))
      (kernelInit smallKernel 2) finishingRun :=
    Run.Always.of_check (p := fun k a _ _ => decide (KernelIssued 0x7f00 k a ∧
        (a.isLoad = true → unfinished k < min procsMax (2 : UInt8).toNat)))
      (fun _ _ _ _ => of_decide_eq_true) (by decide +kernel)
  have hlast : ((Run.exec (kernelCall 0x7f00) (kernelInit smallKernel 2) finishingRun).any
      fun r => decide (ValidExecutable 0x7f00 r.2 nameAB ∧
        unfinished r.2 < min procsMax (2 : UInt8).toNat) &&
        (processLoad 0x7f00 r.2 nameAB).any fun r' : ℤ × Kernel =>
          decide (∀ i : Fin procsMax, r'.1 = (i : ℕ) → (r'.2.processTable i).bank = 255)) =
      true := by decide +kernel
  obtain ⟨⟨answers, k⟩, hrun, hk⟩ := (Option.any_eq_true _ _).mp hlast
  rw [Bool.and_eq_true] at hk
  obtain ⟨hfile, hunfinished⟩ := of_decide_eq_true hk.1
  obtain ⟨⟨pd, k'⟩, hload, hpd⟩ := (Option.any_eq_true _ _).mp hk.2
  have hbank := of_decide_eq_true hpd
  obtain ⟨i, k₁, k₂, hload', hlt, -⟩ :=
    hall 0x7f00 2 smallKernel finishingRun answers k nameAB hcalls hrun hfile hunfinished
  obtain ⟨hi, rfl⟩ := Prod.mk.inj (Option.some.inj (hload.symm.trans hload'))
  rw [hbank i hi] at hlt
  exact absurd hlt (by decide)

end

end Z80OS
