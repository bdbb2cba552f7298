import Mathlib.Data.Int.Notation
import Mathlib.Data.Nat.Notation
import Mathlib.Logic.Function.Basic
import Mathlib.Tactic.SplitIfs

set_option relaxedAutoImplicit false
set_option autoImplicit false

/-!
# The scheduler

The scheduler of the kernel keeps a table of 16 entries, the index of the entry that is running
and the number of entries in use. A timer tick moves on to the next entry that is ready; a process
blocks itself and exits through system calls.

An access to the table outside of its bounds has no meaning in C. The functions of this file then
give no result.

## Main definitions

* `Z80OS.ScheduleTableEntry`, `Z80OS.Scheduler` — the global variables of the scheduler.
* `Z80OS.schedulerInit`, `Z80OS.schedulerAdd`, `Z80OS.schedulerExit`, `Z80OS.schedulerNext`,
  `Z80OS.schedulerBlockCurrent`, `Z80OS.processExit` — its operations.

## Main results

* `Z80OS.schedulerAllocate_eq_some_iff`, `Z80OS.schedulerEntry_eq_some_iff` — the two searches find
  the first entry of their kind.
* `Z80OS.schedulerNextLoop_isSome`, `Z80OS.schedulerNextLoop_ready` — the search for the next task.
-/

namespace Z80OS

/-! ## The table -/

/-- The state of a task. -/
inductive TaskState
  | running | ready | finished | free | blocked
  deriving DecidableEq, Repr

/-- No event. -/
def eventNoEvent : ℤ := 0

/-- Another process has completed. -/
def eventProcessFinished : ℤ := 1

/-- The number of entries of the schedule table. -/
def maxScheduled : ℕ := 16

/-- The answer of `scheduler_add` when the schedule table is full. -/
def eTooManyTasks : ℤ := -1

/-- An entry of the schedule table. -/
structure ScheduleTableEntry where
  state : TaskState
  blockingEvent : ℤ
  pid : ℤ
  exitcode : ℤ
  deriving DecidableEq, Repr

/-- The global variables of the scheduler, and the current-process pointer of `process.c`: the
index in the process table that it points to. -/
structure Scheduler where
  /-- The index of the running entry, `-1` before the first tick. -/
  currentScheduled : ℤ
  numScheduled : ℕ
  scheduleTable : Fin maxScheduled → ScheduleTableEntry
  scheduleCurrentPid : ℤ
  processCurrentPtr : Option ℤ

/-- A scheduler before its initialisation, with every variable `0`. -/
def Scheduler.zeroed : Scheduler where
  currentScheduled := 0
  numScheduled := 0
  scheduleTable := fun _ => ⟨.running, 0, 0, 0⟩
  scheduleCurrentPid := 0
  processCurrentPtr := none

/-- The first entry. -/
def firstEntry : Fin maxScheduled := ⟨0, by decide⟩

/-- The second entry. -/
def secondEntry : Fin maxScheduled := ⟨1, by decide⟩

/-- The entry at an index, when the index is inside the table. -/
def scheduleIndex? (i : ℤ) : Option (Fin maxScheduled) :=
  if h : 0 ≤ i ∧ i.toNat < maxScheduled then some ⟨i.toNat, h.2⟩ else none

/-- The scheduler with another entry at an index. -/
def Scheduler.setEntry (s : Scheduler) (i : Fin maxScheduled) (e : ScheduleTableEntry) :
    Scheduler :=
  { s with scheduleTable := Function.update s.scheduleTable i e }

/-- The scheduler with another state of an entry. -/
def Scheduler.setState (s : Scheduler) (i : Fin maxScheduled) (t : TaskState) : Scheduler :=
  s.setEntry i { s.scheduleTable i with state := t }

/-- The scheduler in which a process has taken an entry. -/
def Scheduler.enter (s : Scheduler) (i : Fin maxScheduled) (pid : ℤ) : Scheduler :=
  { s.setEntry i { s.scheduleTable i with
      state := .ready, blockingEvent := eventNoEvent, pid := pid } with
    numScheduled := s.numScheduled + 1 }

/-- The scheduler in which the task of an entry has finished. -/
def Scheduler.finish (s : Scheduler) (i : Fin maxScheduled) (exitcode : ℤ) : Scheduler :=
  s.setEntry i { s.scheduleTable i with state := .finished, exitcode := exitcode }

/-- The scheduler in which the task of an entry is blocked on an event. -/
def Scheduler.block (s : Scheduler) (i : Fin maxScheduled) (event : ℤ) : Scheduler :=
  s.setEntry i { s.scheduleTable i with blockingEvent := event, state := .blocked }

/-! ## The operations -/

/-- The scheduler at startup. Only the states of the entries are initialised. -/
def schedulerInit (s : Scheduler) : Scheduler :=
  { s with
    currentScheduled := -1
    numScheduled := 0
    scheduleTable := fun i => { s.scheduleTable i with state := .free } }

/-- The first free entry. -/
def schedulerAllocate (s : Scheduler) : Option (Fin maxScheduled) :=
  (List.finRange maxScheduled).find? fun i => (s.scheduleTable i).state = .free

/-- The first entry with the given PID. Entries that are not in use have a PID, too. -/
def schedulerEntry (s : Scheduler) (pid : ℤ) : Option (Fin maxScheduled) :=
  (List.finRange maxScheduled).find? fun i => (s.scheduleTable i).pid = pid

/-- An entry after the broadcast of an event to all tasks except one. -/
def ScheduleTableEntry.wake (e : ScheduleTableEntry) (event excludePid : ℤ) : ScheduleTableEntry :=
  if e.pid = excludePid then e
  else if e.state ≠ .blocked then e
  else if e.blockingEvent ≠ event then e
  else { e with state := .ready, blockingEvent := eventNoEvent }

/-- Broadcasts an event to all tasks except one with a given PID. -/
def schedulerBroadcastEvent (s : Scheduler) (event excludePid : ℤ) : Scheduler :=
  { s with scheduleTable := fun i => (s.scheduleTable i).wake event excludePid }

/-- Adds a process to the scheduler. -/
def schedulerAdd (s : Scheduler) (pid : ℤ) : ℤ × Scheduler :=
  match schedulerAllocate s with
  | none => (eTooManyTasks, s)
  | some i => (0, s.enter i pid)

/-- The state of the task with the given PID. -/
def schedulerState (s : Scheduler) (pid : ℤ) : Option TaskState :=
  (schedulerEntry s pid).map fun i => (s.scheduleTable i).state

/-- Ends the task with the given PID. -/
def schedulerExit (s : Scheduler) (pid exitcode : ℤ) : Option Scheduler :=
  (schedulerEntry s pid).map fun i =>
    schedulerBroadcastEvent (s.finish i exitcode) eventProcessFinished pid

/-- The exit code of the task with the given PID. -/
def schedulerExitcode (s : Scheduler) (pid : ℤ) : Option ℤ :=
  (schedulerEntry s pid).map fun i => (s.scheduleTable i).exitcode

/-- The scheduler with the next entry as the current one. -/
def Scheduler.advance (s : Scheduler) : Scheduler :=
  { s with currentScheduled :=
      if s.currentScheduled + 1 ≥ s.numScheduled then 0 else s.currentScheduled + 1 }

/-- The search for the next task that is ready, over at most `k` entries. -/
def schedulerNextLoop : ℕ → Scheduler → Option (Fin maxScheduled × Scheduler)
  | 0, _ => none
  | k + 1, s =>
    match scheduleIndex? s.advance.currentScheduled with
    | none => none
    | some i =>
      if (s.scheduleTable i).state = .ready then some (i, s.advance)
      else schedulerNextLoop k s.advance

/-- The scheduler in which the running task is ready again. -/
def Scheduler.preempt (s : Scheduler) : Scheduler :=
  match scheduleIndex? s.currentScheduled with
  | none => s
  | some i => if (s.scheduleTable i).state = .running then s.setState i .ready else s

/-- The scheduler in which the entry runs that has been chosen. -/
def Scheduler.dispatch (s : Scheduler) (i : Fin maxScheduled) : Scheduler :=
  { s.setState i .running with
    scheduleCurrentPid := (s.scheduleTable i).pid
    processCurrentPtr := some (s.scheduleTable i).pid }

/-- Moves on to the next task, and gives its PID. The loop of the source visits every entry in use
before it comes back to where it began, so it goes on for ever when `maxScheduled` turns do not
find a task. -/
def schedulerNext (s : Scheduler) : Option (ℤ × Scheduler) :=
  (schedulerNextLoop maxScheduled s.preempt).map fun (i, s) =>
    ((s.scheduleTable i).pid, s.dispatch i)

/-- Blocks the current task on an event. -/
def schedulerBlockCurrent (s : Scheduler) (event : ℤ) : Option Scheduler :=
  (scheduleIndex? s.currentScheduled).map fun i => s.block i event

/-- Ends the current process. -/
def processExit (s : Scheduler) (code : ℤ) : Option Scheduler :=
  schedulerExit s s.scheduleCurrentPid code

/-! ## Entries -/

section

variable {s s' : Scheduler} {i j : Fin maxScheduled} {e : ScheduleTableEntry} {t : TaskState}
  {pid event code : ℤ} {k : ℕ}

/-- An index of the table, as a number. -/
@[simp] theorem scheduleIndex?_cast (i : Fin maxScheduled) :
    scheduleIndex? ((i : ℕ) : ℤ) = some i := by
  have h : (0 : ℤ) ≤ ((i : ℕ) : ℤ) ∧ ((i : ℕ) : ℤ).toNat < maxScheduled := ⟨by omega, by simp⟩
  rw [scheduleIndex?, dif_pos h]
  simp

/-- A number is that of an entry. -/
theorem scheduleIndex?_eq_some_iff {n : ℤ} : scheduleIndex? n = some i ↔ n = (i : ℕ) := by
  constructor
  · intro h
    unfold scheduleIndex? at h
    split_ifs at h with hn
    have := Fin.ext_iff.mp (Option.some.inj h)
    simp only at this
    omega
  · rintro rfl
    exact scheduleIndex?_cast i

/-- A number is that of no entry. -/
theorem scheduleIndex?_eq_none_iff {n : ℤ} :
    scheduleIndex? n = none ↔ n < 0 ∨ (maxScheduled : ℤ) ≤ n := by
  unfold scheduleIndex?
  split_ifs with h
  · simp only [false_iff]
    omega
  · simp only [true_iff]
    omega

/-- The entry that has been set. -/
@[simp] theorem setEntry_self : (s.setEntry i e).scheduleTable i = e := Function.update_self ..

/-- The other entries are left. -/
theorem setEntry_of_ne (h : j ≠ i) :
    (s.setEntry i e).scheduleTable j = s.scheduleTable j := Function.update_of_ne h ..

/-- The entry whose state has been set. -/
@[simp] theorem setState_self :
    (s.setState i t).scheduleTable i = { s.scheduleTable i with state := t } := setEntry_self

/-- The other entries are left. -/
theorem setState_of_ne (h : j ≠ i) :
    (s.setState i t).scheduleTable j = s.scheduleTable j := setEntry_of_ne h

/-- A broadcast leaves the PIDs. -/
@[simp] theorem wake_pid {e : ScheduleTableEntry} : (e.wake event pid).pid = e.pid := by
  unfold ScheduleTableEntry.wake
  split_ifs <;> rfl

/-- A broadcast leaves the exit codes. -/
@[simp] theorem wake_exitcode {e : ScheduleTableEntry} :
    (e.wake event pid).exitcode = e.exitcode := by
  unfold ScheduleTableEntry.wake
  split_ifs <;> rfl

/-- The broadcast changes only tasks that are blocked on the event. -/
theorem wake_of_not {e : ScheduleTableEntry}
    (h : e.pid = pid ∨ e.state ≠ .blocked ∨ e.blockingEvent ≠ event) : e.wake event pid = e := by
  unfold ScheduleTableEntry.wake
  split_ifs with h₁ h₂ h₃
  · rfl
  · rfl
  · rfl
  · simp only [ne_eq, not_not] at h₂ h₃
    exact absurd h (by simp [h₁, h₂, h₃])

/-- The broadcast makes tasks ready that are blocked on the event. -/
theorem wake_of_blocked {e : ScheduleTableEntry} (hpid : e.pid ≠ pid) (hstate : e.state = .blocked)
    (hevent : e.blockingEvent = event) : (e.wake event pid).state = .ready := by
  simp [ScheduleTableEntry.wake, hpid, hstate, hevent]

/-! ## The searches -/

/-- A search through the table finds the first entry with a property. -/
theorem find?_finRange_eq_some_iff {n : ℕ} {p : Fin n → Prop} [DecidablePred p] {i : Fin n} :
    (List.finRange n).find? (fun i => p i) = some i ↔ p i ∧ ∀ j < i, ¬ p j := by
  rw [List.find?_eq_some_iff_getElem]
  simp only [decide_eq_true_eq, List.getElem_finRange, List.length_finRange, Bool.not_eq_eq_eq_not,
    Bool.not_true, decide_eq_false_iff_not]
  constructor
  · rintro ⟨hp, k, hk, rfl, hlt⟩
    exact ⟨hp, fun j hj => hlt j hj⟩
  · rintro ⟨hp, hlt⟩
    exact ⟨hp, i, i.isLt, rfl, fun j hj => hlt ⟨j, by omega⟩ hj⟩

/-- A search through the table finds nothing when no entry has the property. -/
theorem find?_finRange_eq_none_iff {n : ℕ} {p : Fin n → Prop} [DecidablePred p] :
    (List.finRange n).find? (fun i => p i) = none ↔ ∀ i, ¬ p i := by
  simp

/-- The first free entry is allocated. -/
theorem schedulerAllocate_eq_some_iff :
    schedulerAllocate s = some i ↔
      (s.scheduleTable i).state = .free ∧ ∀ j < i, (s.scheduleTable j).state ≠ .free :=
  find?_finRange_eq_some_iff

/-- No entry is allocated when none is free. -/
theorem schedulerAllocate_eq_none_iff :
    schedulerAllocate s = none ↔ ∀ i, (s.scheduleTable i).state ≠ .free :=
  find?_finRange_eq_none_iff

/-- The first entry with the PID is found. -/
theorem schedulerEntry_eq_some_iff :
    schedulerEntry s pid = some i ↔
      (s.scheduleTable i).pid = pid ∧ ∀ j < i, (s.scheduleTable j).pid ≠ pid :=
  find?_finRange_eq_some_iff

/-- No entry is found when none has the PID. -/
theorem schedulerEntry_eq_none_iff :
    schedulerEntry s pid = none ↔ ∀ i, (s.scheduleTable i).pid ≠ pid :=
  find?_finRange_eq_none_iff

/-- The result of the search for the next task is the current entry, and it is ready. -/
theorem schedulerNextLoop_ready (h : schedulerNextLoop k s = some (i, s')) :
    s' = { s with currentScheduled := (i : ℕ) } ∧ (s.scheduleTable i).state = .ready := by
  induction k generalizing s with
  | zero => simp [schedulerNextLoop] at h
  | succ k ih =>
    simp only [schedulerNextLoop] at h
    split at h
    · simp at h
    · rename_i j hj
      split_ifs at h with hready
      · simp only [Option.some.injEq, Prod.mk.injEq] at h
        obtain ⟨rfl, rfl⟩ := h
        rw [scheduleIndex?_eq_some_iff] at hj
        exact ⟨by rw [← hj]; rfl, hready⟩
      · obtain ⟨rfl, hr⟩ := ih h
        exact ⟨rfl, hr⟩

/-- How many turns the loop takes from the entry `c` to the entry `r`. -/
def turnsTo (n : ℕ) (c r : ℤ) : ℤ := if c < r then r - c else n - c + r

/-- The search finds a task that is ready within the turns that lead to one.

**Proof sketch.** Induction on the number of turns. A turn that does not end the search leaves an
entry that is not ready, so it is not the entry looked for, which is then one turn closer. -/
theorem schedulerNextLoop_isSome (hn : s.numScheduled ≤ maxScheduled)
    (hc : -1 ≤ s.currentScheduled ∧ s.currentScheduled < s.numScheduled)
    (hi : i < s.numScheduled) (hready : (s.scheduleTable i).state = .ready)
    (hk : turnsTo s.numScheduled s.currentScheduled i ≤ k) :
    (schedulerNextLoop k s).isSome := by
  induction k generalizing s with
  | zero =>
    unfold turnsTo at hk
    split_ifs at hk <;> omega
  | succ k ih =>
    have hadv : s.advance.currentScheduled = if s.currentScheduled + 1 ≥ s.numScheduled then 0
      else s.currentScheduled + 1 := rfl
    have hrange : 0 ≤ s.advance.currentScheduled ∧
        s.advance.currentScheduled < s.numScheduled := by
      rw [hadv]
      split_ifs <;> omega
    obtain ⟨j, hj⟩ : ∃ j, scheduleIndex? s.advance.currentScheduled = some j := by
      rw [← Option.ne_none_iff_exists']
      intro hnone
      rw [scheduleIndex?_eq_none_iff] at hnone
      omega
    simp only [schedulerNextLoop, hj]
    split_ifs with hstop
    · rfl
    · have hne : j ≠ i := by
        rintro rfl
        exact hstop hready
      have hne' : (j : ℕ) ≠ i := fun h => hne (Fin.ext h)
      rw [scheduleIndex?_eq_some_iff] at hj
      have hstart : -1 ≤ s.advance.currentScheduled := by omega
      refine ih (s := s.advance) hn ⟨hstart, hrange.2⟩ hi hready ?_
      show turnsTo s.numScheduled s.advance.currentScheduled i ≤ k
      unfold turnsTo at hk ⊢
      rw [hj] at hadv ⊢
      split_ifs at hk hadv ⊢ <;> omega

end

end Z80OS
