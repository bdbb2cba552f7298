import Mathlib.Order.Fin.Basic
import Z80OS.Kernel.Scheduler
import Z80OS.Lib.Run

set_option relaxedAutoImplicit false
set_option autoImplicit false

/-!
# Runs of the scheduler

The kernel at boot and the running process call the scheduler, and the timer ticks. A call is
issued by the process whose entry is the current one; it may still issue calls after it has blocked
itself, until the next tick, but none after its exit.

## Main definitions

* `Z80OS.SchedulerCall`, `Z80OS.schedulerCall` — the calls and what they do.
* `Z80OS.Issued`, `Z80OS.IssuedOnce` — when a call can be made, and when no process is spawned
  twice.
* `Z80OS.Consistent` — what holds of the global variables between calls.
* `Z80OS.CallHolds` — what a call may do to the entries of the table.

## Main results

* `Z80OS.schedulerCall_consistent` — every call keeps the global variables consistent.
-/

namespace Z80OS

/-! ## Calls -/

/-- What happens to the scheduler: a timer tick, `pspawn`, `pblock` and `pexit`. -/
inductive SchedulerCall
  | tick
  | spawn (pid : ℤ)
  | block (event : ℤ)
  | exit (code : ℤ)
  deriving DecidableEq

/-- The answer to a call, if there is one, and the scheduler after it. A tick that finds no task
does not return. -/
def schedulerCall (s : Scheduler) : SchedulerCall → Option (Option ℤ × Scheduler)
  | .tick => (schedulerNext s).map fun (pid, s) => (some pid, s)
  | .spawn pid => some (some (schedulerAdd s pid).1, (schedulerAdd s pid).2)
  | .block event => (schedulerBlockCurrent s event).map fun s => (none, s)
  | .exit code => (processExit s code).map fun s => (none, s)

/-- Some task can be scheduled. -/
def Schedulable (s : Scheduler) : Prop :=
  ∃ i, (s.scheduleTable i).state = .ready ∨ (s.scheduleTable i).state = .running

/-- The current process has not exited. -/
def CurrentAlive (s : Scheduler) : Prop :=
  ∃ i : Fin maxScheduled, s.currentScheduled = (i : ℕ) ∧ (s.scheduleTable i).state ≠ .finished

/-- When a call can be made: a tick when there is a task to schedule, a spawn by the kernel at boot
or by the current process, the other calls by the current process. -/
def Issued (s : Scheduler) : SchedulerCall → Prop
  | .tick => Schedulable s
  | .spawn _ => s.currentScheduled = -1 ∨ CurrentAlive s
  | .block _ => CurrentAlive s
  | .exit _ => CurrentAlive s

/-- The PID is not in the table. Entries that are free do not count, whatever PID they hold. -/
def NotScheduled (s : Scheduler) (pid : ℤ) : Prop :=
  ∀ i, (s.scheduleTable i).state ≠ .free → (s.scheduleTable i).pid ≠ pid

/-- The call can be made, and it does not spawn a process that is in the table. -/
def IssuedOnce (s : Scheduler) (a : SchedulerCall) : Prop :=
  Issued s a ∧
    match a with
    | .spawn pid => NotScheduled s pid
    | _ => True

instance (s : Scheduler) : Decidable (Schedulable s) :=
  inferInstanceAs (Decidable (∃ _, _))

instance (s : Scheduler) : Decidable (CurrentAlive s) :=
  inferInstanceAs (Decidable (∃ _, _))

instance (s : Scheduler) (pid : ℤ) : Decidable (NotScheduled s pid) :=
  inferInstanceAs (Decidable (∀ _, _))

instance (s : Scheduler) (a : SchedulerCall) : Decidable (Issued s a) :=
  match a with
  | .tick => inferInstanceAs (Decidable (Schedulable s))
  | .spawn _ => inferInstanceAs (Decidable (_ ∨ CurrentAlive s))
  | .block _ => inferInstanceAs (Decidable (CurrentAlive s))
  | .exit _ => inferInstanceAs (Decidable (CurrentAlive s))

instance (s : Scheduler) (a : SchedulerCall) : Decidable (IssuedOnce s a) :=
  match a with
  | .spawn pid => inferInstanceAs (Decidable (Issued s (.spawn pid) ∧ NotScheduled s pid))
  | .tick => inferInstanceAs (Decidable (Issued s .tick ∧ True))
  | .block event => inferInstanceAs (Decidable (Issued s (.block event) ∧ True))
  | .exit code => inferInstanceAs (Decidable (Issued s (.exit code) ∧ True))

/-! ## The invariant -/

/-- What holds of the global variables of the scheduler between calls. -/
structure Consistent (s : Scheduler) : Prop where
  num_le : s.numScheduled ≤ maxScheduled
  current : -1 ≤ s.currentScheduled ∧ s.currentScheduled < s.numScheduled
  /-- The entries in use are the first ones. -/
  used : ∀ i, (s.scheduleTable i).state ≠ .free ↔ (i : ℕ) < s.numScheduled
  /-- Only the current entry can be running. -/
  running : ∀ i, (s.scheduleTable i).state = .running → s.currentScheduled = (i : ℕ)
  /-- The current process is the one of the current entry. -/
  named : ∀ i : Fin maxScheduled, s.currentScheduled = (i : ℕ) →
    s.scheduleCurrentPid = (s.scheduleTable i).pid ∧
      s.processCurrentPtr = some (s.scheduleTable i).pid

/-- No two entries in use have the same PID. -/
def DistinctPids (s : Scheduler) : Prop :=
  ∀ i j, (s.scheduleTable i).state ≠ .free → (s.scheduleTable j).state ≠ .free →
    (s.scheduleTable i).pid = (s.scheduleTable j).pid → i = j

/-- What a call may do to the entries of the table. -/
structure CallHolds (s : Scheduler) (a : SchedulerCall) (r : Option ℤ) (s' : Scheduler) :
    Prop where
  /-- A task that has finished keeps its state and its exit code. -/
  finished : ∀ i, (s.scheduleTable i).state = .finished →
    (s'.scheduleTable i).state = .finished ∧
      (s'.scheduleTable i).exitcode = (s.scheduleTable i).exitcode ∧
      (s'.scheduleTable i).pid = (s.scheduleTable i).pid
  /-- A tick does not choose a task that has finished. -/
  not_chosen : a = .tick → ∀ i, (s.scheduleTable i).state = .finished →
    s'.currentScheduled ≠ (i : ℕ) ∧ r ≠ some (s.scheduleTable i).pid
  /-- A blocked task becomes ready only in the exit of another process, for which it waits. -/
  woken : ∀ i, (s.scheduleTable i).state = .blocked → (s'.scheduleTable i).state = .ready →
    (∃ code, a = .exit code) ∧ s.currentScheduled ≠ (i : ℕ) ∧
      (s.scheduleTable i).blockingEvent = eventProcessFinished
  /-- In an exit, all tasks that wait for the end of a process become ready. -/
  wakes : ∀ code, a = .exit code → ∀ i : Fin maxScheduled, s.currentScheduled ≠ (i : ℕ) →
    (s.scheduleTable i).state = .blocked →
    (s.scheduleTable i).blockingEvent = eventProcessFinished →
      (s'.scheduleTable i).state = .ready
  /-- The only entries that change: in a tick the task that ran, if it is still running, and the
  chosen one, if it is ready then; in a spawn the first free entry; otherwise the current entry,
  and in an exit the tasks that wait for it. -/
  unchanged : ∀ i : Fin maxScheduled, s'.scheduleTable i ≠ s.scheduleTable i →
    match a with
    | .tick =>
      s.currentScheduled = (i : ℕ) ∧ (s.scheduleTable i).state = .running ∧
          (s'.scheduleTable i).state = .ready ∨
        s'.currentScheduled = (i : ℕ) ∧ (s.scheduleTable i).state = .ready ∧
          (s'.scheduleTable i).state = .running
    | .spawn _ => (i : ℕ) = s.numScheduled ∧ (s'.scheduleTable i).state = .ready
    | .block _ => s.currentScheduled = (i : ℕ) ∧ (s'.scheduleTable i).state = .blocked
    | .exit _ =>
      s.currentScheduled = (i : ℕ) ∧ (s'.scheduleTable i).state = .finished ∨
        (s.scheduleTable i).state = .blocked ∧
          (s.scheduleTable i).blockingEvent = eventProcessFinished ∧
          (s'.scheduleTable i).state = .ready
  /-- The entry that the call is about: a tick runs the one that it chooses, and gives its PID; a
  spawn makes the first free entry that of the process, if there is one; the other calls block or
  finish the current entry, and nothing else of it changes. -/
  called :
    match a with
    | .tick => ∃ i : Fin maxScheduled, s'.currentScheduled = (i : ℕ) ∧
        (s'.scheduleTable i).state = .running ∧ r = some (s'.scheduleTable i).pid
    | .spawn pid => s.numScheduled = maxScheduled ∧ r = some eTooManyTasks ∧ s' = s ∨
        ∃ i : Fin maxScheduled, (i : ℕ) = s.numScheduled ∧ r = some 0 ∧
          s'.scheduleTable i = { s.scheduleTable i with
            state := .ready, blockingEvent := eventNoEvent, pid := pid }
    | .block event => ∃ i : Fin maxScheduled, s.currentScheduled = (i : ℕ) ∧
        s'.scheduleTable i = { s.scheduleTable i with state := .blocked, blockingEvent := event }
    | .exit code => ∃ i : Fin maxScheduled, s.currentScheduled = (i : ℕ) ∧
        s'.scheduleTable i = { s.scheduleTable i with state := .finished, exitcode := code }

variable {s s' : Scheduler} {a : SchedulerCall} {r : Option ℤ} {i j : Fin maxScheduled}
  {pid event code : ℤ}

/-! ## What each call does -/

/-- The variables are consistent after the initialisation. -/
theorem schedulerInit_consistent (s : Scheduler) : Consistent (schedulerInit s) where
  num_le := Nat.zero_le _
  current := ⟨le_refl _, by simp [schedulerInit]⟩
  used i := by simp [schedulerInit]
  running i h := by simp [schedulerInit] at h
  named i h := by simp [schedulerInit] at h

/-- The current entry, unless no task has run yet. -/
theorem Consistent.exists_current (h : Consistent s) (hs : s.currentScheduled ≠ -1) :
    ∃ i : Fin maxScheduled, s.currentScheduled = (i : ℕ) := by
  have hn := h.num_le
  have hc := h.current
  exact ⟨⟨s.currentScheduled.toNat, by omega⟩, by simp only; omega⟩

/-- The entry that runs becomes ready, and no other entry changes. -/
theorem preempt_table : s.preempt.scheduleTable j =
    if s.currentScheduled = (j : ℕ) ∧ (s.scheduleTable j).state = .running then
      { s.scheduleTable j with state := .ready } else s.scheduleTable j := by
  unfold Scheduler.preempt
  cases hi : scheduleIndex? s.currentScheduled with
  | none =>
    rw [if_neg]
    rintro ⟨hj, -⟩
    rw [hj, scheduleIndex?_cast] at hi
    simp at hi
  | some i =>
    rw [scheduleIndex?_eq_some_iff] at hi
    simp only
    by_cases hji : j = i
    · subst hji
      by_cases hrun : (s.scheduleTable j).state = .running
      · rw [if_pos hrun, setState_self, if_pos ⟨hi, hrun⟩]
      · rw [if_neg hrun, if_neg fun h => hrun h.2]
    · have hne : s.currentScheduled ≠ (j : ℕ) := by
        intro hj
        exact hji (Fin.ext (by omega))
      rw [if_neg (c := s.currentScheduled = (j : ℕ) ∧ _) fun h => hne h.1]
      split_ifs
      · exact setState_of_ne hji
      · rfl

/-- The entry that has been running is still the current one. -/
@[simp] theorem preempt_current : s.preempt.currentScheduled = s.currentScheduled := by
  unfold Scheduler.preempt
  split
  · rfl
  · split_ifs <;> rfl

/-- No entry is taken when the running task becomes ready. -/
@[simp] theorem preempt_num : s.preempt.numScheduled = s.numScheduled := by
  unfold Scheduler.preempt
  split
  · rfl
  · split_ifs <;> rfl

/-- No PID changes when the running task becomes ready. -/
@[simp] theorem preempt_pid : (s.preempt.scheduleTable j).pid = (s.scheduleTable j).pid := by
  rw [preempt_table]
  split_ifs <;> rfl

/-- No exit code changes when the running task becomes ready. -/
@[simp] theorem preempt_exitcode :
    (s.preempt.scheduleTable j).exitcode = (s.scheduleTable j).exitcode := by
  rw [preempt_table]
  split_ifs <;> rfl

/-- What a tick does: it runs an entry that is ready once the running task has become so. -/
theorem schedulerNext_eq_some (h : schedulerNext s = some (pid, s')) :
    ∃ i : Fin maxScheduled, (s.preempt.scheduleTable i).state = .ready ∧
      pid = (s.scheduleTable i).pid ∧ s'.currentScheduled = (i : ℕ) ∧
      s'.numScheduled = s.numScheduled ∧ s'.scheduleCurrentPid = pid ∧
      s'.processCurrentPtr = some pid ∧
      s'.scheduleTable = (s.preempt.setState i .running).scheduleTable := by
  simp only [schedulerNext, Option.map_eq_some_iff, Prod.mk.injEq] at h
  obtain ⟨⟨i, s₁⟩, hloop, rfl, rfl⟩ := h
  obtain ⟨rfl, hready⟩ := schedulerNextLoop_ready hloop
  refine ⟨i, hready, ?_, rfl, preempt_num, rfl, rfl, rfl⟩
  simp

/-- What a spawn does: it takes the first entry that is free, if there is one. -/
theorem schedulerAdd_cases (pid : ℤ) (h : Consistent s) :
    s.numScheduled = maxScheduled ∧ schedulerAdd s pid = (eTooManyTasks, s) ∨
      ∃ i : Fin maxScheduled, (i : ℕ) = s.numScheduled ∧
        schedulerAdd s pid = (0, s.enter i pid) := by
  cases hi : schedulerAllocate s with
  | none =>
    have hnone := hi
    rw [schedulerAllocate_eq_none_iff] at hi
    have hlast := (h.used ⟨maxScheduled - 1, by decide⟩).mp (hi _)
    have := h.num_le
    exact .inl ⟨by simp only [maxScheduled] at *; omega, by simp only [schedulerAdd, hnone]⟩
  | some i =>
    have hfirst := schedulerAllocate_eq_some_iff.mp hi
    refine .inr ⟨i, ?_, by simp only [schedulerAdd, hi]⟩
    have hge : ¬ (i : ℕ) < s.numScheduled := fun hlt => (h.used i).mpr hlt hfirst.1
    by_contra hne
    have hlt : s.numScheduled < maxScheduled := by omega
    exact absurd ((h.used ⟨s.numScheduled, hlt⟩).mp
      (hfirst.2 ⟨s.numScheduled, hlt⟩ (show s.numScheduled < (i : ℕ) by omega))) (lt_irrefl _)

/-- What an exit does: it ends the first entry with the PID of the current process, and wakes the
tasks that wait. -/
theorem processExit_eq (code : ℤ) (h : Consistent s) (hj : s.currentScheduled = (j : ℕ)) :
    ∃ i ≤ j, schedulerEntry s (s.scheduleTable j).pid = some i ∧
      processExit s code = some (schedulerBroadcastEvent (s.finish i code) eventProcessFinished
        (s.scheduleTable j).pid) := by
  have hpid := (h.named j hj).1
  cases hi : schedulerEntry s (s.scheduleTable j).pid with
  | none => exact absurd rfl (schedulerEntry_eq_none_iff.mp hi j)
  | some i =>
    refine ⟨i, ?_, rfl, by rw [processExit, hpid, schedulerExit, hi]; rfl⟩
    by_contra hlt
    exact (schedulerEntry_eq_some_iff.mp hi).2 j (not_le.mp hlt) rfl

/-! ## The entries after each call -/

/-- The table after a process has taken an entry. -/
theorem enter_table : (s.enter i pid).scheduleTable j = if j = i then
    { s.scheduleTable i with state := .ready, blockingEvent := eventNoEvent, pid := pid }
      else s.scheduleTable j :=
  Function.update_apply ..

/-- The table after a task has been blocked. -/
theorem block_table : (s.block i event).scheduleTable j = if j = i then
    { s.scheduleTable i with blockingEvent := event, state := .blocked } else s.scheduleTable j :=
  Function.update_apply ..

/-- The table after a task has finished. -/
theorem finish_table : (s.finish i code).scheduleTable j = if j = i then
    { s.scheduleTable i with state := .finished, exitcode := code } else s.scheduleTable j :=
  Function.update_apply ..

/-- The table after the state of an entry has been changed. -/
theorem setState_table {t : TaskState} : (s.setState i t).scheduleTable j = if j = i then
    { s.scheduleTable i with state := t } else s.scheduleTable j :=
  Function.update_apply ..

/-- The table after a broadcast. -/
theorem broadcast_table : (schedulerBroadcastEvent s event pid).scheduleTable j =
    (s.scheduleTable j).wake event pid := rfl

/-- The entry in front of the current one and itself are in use. -/
theorem Consistent.used_le (h : Consistent s) (hj : s.currentScheduled = (j : ℕ)) (hij : i ≤ j) :
    (s.scheduleTable i).state ≠ .free := by
  apply (h.used i).mpr
  have := h.current
  have : (i : ℕ) ≤ j := hij
  omega

/-- The broadcast does not use or free an entry. -/
theorem wake_state_free {e : ScheduleTableEntry} :
    (e.wake event pid).state = .free ↔ e.state = .free := by
  unfold ScheduleTableEntry.wake
  split_ifs with h₁ h₂ h₃
  · rfl
  · rfl
  · rfl
  · simp only [ne_eq, not_not] at h₂
    simp [h₂]

/-- The broadcast does not run a task. -/
theorem wake_state_of_ne {e : ScheduleTableEntry} (h : e.state ≠ .blocked) :
    (e.wake event pid).state = e.state := by
  rw [wake_of_not (.inr (.inl h))]

/-- A broadcast does not start or stop a task. -/
theorem wake_state_running {e : ScheduleTableEntry} :
    (e.wake event pid).state = .running ↔ e.state = .running := by
  unfold ScheduleTableEntry.wake
  split_ifs with h₁ h₂ h₃
  · rfl
  · rfl
  · rfl
  · simp only [ne_eq, not_not] at h₂
    simp [h₂]

/-! ## The invariant is kept -/

/-- No entry is taken or given back when the running task becomes ready. -/
theorem preempt_state_free :
    (s.preempt.scheduleTable i).state = .free ↔ (s.scheduleTable i).state = .free := by
  rw [preempt_table]
  split_ifs with h
  · simp [h.2]
  · rfl

/-- Once the running task is ready no task runs. -/
theorem Consistent.preempt_not_running (h : Consistent s) :
    (s.preempt.scheduleTable i).state ≠ .running := by
  rw [preempt_table]
  split_ifs with hi
  · simp
  · intro hrun
    exact hi ⟨h.running i hrun, hrun⟩

/-- A tick keeps the variables consistent. -/
theorem Consistent.next (h : Consistent s) (hr : schedulerNext s = some (pid, s')) :
    Consistent s' := by
  obtain ⟨i, hready, hpid, hcur, hnum, hcurpid, hptr, htable⟩ := schedulerNext_eq_some hr
  have hused : (i : ℕ) < s.numScheduled := by
    apply (h.used i).mp
    intro hfree
    rw [preempt_state_free.mpr hfree] at hready
    simp at hready
  constructor
  · rw [hnum]
    exact h.num_le
  · rw [hnum, hcur]
    omega
  · intro j
    rw [hnum, htable, setState_table, ← h.used j, Ne, Ne]
    split_ifs with hj
    · subst hj
      simpa using (h.used j).mpr hused
    · rw [preempt_state_free]
  · intro j hrun
    rw [htable, setState_table] at hrun
    split_ifs at hrun with hj
    · rw [hcur, hj]
    · exact absurd hrun h.preempt_not_running
  · intro j hj
    rw [hcur] at hj
    have hji : j = i := Fin.ext (by omega)
    rw [hcurpid, hptr, hpid, hji, htable, setState_self]
    simp

/-- A spawn keeps the variables consistent.

**Proof sketch.** Only the first free entry and the number of entries change (`schedulerAdd_cases`).
The entry is behind all used ones and is not the current one. -/
theorem Consistent.add (h : Consistent s) : Consistent (schedulerAdd s pid).2 := by
  rcases schedulerAdd_cases pid h with ⟨-, hadd⟩ | ⟨i, hi, hadd⟩
  · rw [hadd]
    exact h
  rw [hadd]
  have hne : s.currentScheduled ≠ (i : ℕ) := by
    have := h.current
    omega
  constructor
  · show s.numScheduled + 1 ≤ maxScheduled
    omega
  · have := h.current
    exact ⟨this.1, show s.currentScheduled < ((s.numScheduled + 1 : ℕ) : ℤ) by omega⟩
  · intro j
    show _ ↔ (j : ℕ) < s.numScheduled + 1
    rw [enter_table]
    split_ifs with hj
    · subst hj
      simp [hi]
    · have hji : (j : ℕ) ≠ i := fun hji => hj (Fin.ext hji)
      rw [h.used j]
      omega
  · intro j hrun
    rw [enter_table] at hrun
    split_ifs at hrun with hj
    exact h.running j hrun
  · intro j hj
    have hji : j ≠ i := by
      rintro rfl
      exact hne hj
    rw [enter_table, if_neg hji]
    exact h.named j hj

/-- `pblock` keeps the variables consistent. -/
theorem Consistent.blockCurrent (h : Consistent s) (hr : schedulerBlockCurrent s event = some s') :
    Consistent s' := by
  simp only [schedulerBlockCurrent, Option.map_eq_some_iff] at hr
  obtain ⟨i, hi, rfl⟩ := hr
  rw [scheduleIndex?_eq_some_iff] at hi
  refine ⟨h.num_le, h.current, fun j => ?_, fun j hrun => ?_, fun j hj => ?_⟩
  · rw [block_table]
    split_ifs with hj
    · subst hj
      have hlt : (j : ℕ) < s.numScheduled := (h.used j).mp (h.used_le hi (le_refl j))
      exact ⟨fun _ => hlt, fun _ => by simp⟩
    · exact h.used j
  · rw [block_table] at hrun
    split_ifs at hrun with hj
    exact h.running j hrun
  · rw [block_table]
    split_ifs with hji
    · subst hji
      exact h.named j hj
    · exact h.named j hj

/-- An exit keeps the variables consistent. -/
theorem Consistent.exit (h : Consistent s) (hj : s.currentScheduled = (j : ℕ))
    (hr : processExit s code = some s') : Consistent s' := by
  obtain ⟨i, hij, -, hexit⟩ := processExit_eq code h hj
  obtain rfl := Option.some.inj (hexit.symm.trans hr)
  refine ⟨h.num_le, h.current, fun k => ?_, fun k hrun => ?_, fun k hk => ?_⟩
  · rw [broadcast_table, Ne, wake_state_free, finish_table]
    split_ifs with hk
    · subst hk
      have hlt : (k : ℕ) < s.numScheduled := (h.used k).mp (h.used_le hj hij)
      exact ⟨fun _ => hlt, fun _ => by simp⟩
    · exact h.used k
  · rw [broadcast_table, wake_state_running, finish_table] at hrun
    split_ifs at hrun with hk
    exact h.running k hrun
  · rw [broadcast_table, wake_pid, finish_table]
    split_ifs with hki
    · subst hki
      exact h.named k hk
    · exact h.named k hk

/-- The calls of the current process find its entry. -/
theorem CurrentAlive.exists_current (h : CurrentAlive s) :
    ∃ j : Fin maxScheduled, s.currentScheduled = (j : ℕ) :=
  h.imp fun _ hj => hj.1

/-- **Every call keeps the global variables consistent.** -/
theorem schedulerCall_consistent (h : Consistent s) (ha : Issued s a)
    (hr : schedulerCall s a = some (r, s')) : Consistent s' := by
  cases a with
  | tick =>
    simp only [schedulerCall, Option.map_eq_some_iff, Prod.mk.injEq] at hr
    obtain ⟨⟨pid, s₁⟩, hnext, -, rfl⟩ := hr
    exact h.next hnext
  | spawn pid =>
    simp only [schedulerCall, Option.some.injEq, Prod.mk.injEq] at hr
    exact hr.2 ▸ h.add
  | block event =>
    simp only [schedulerCall, Option.map_eq_some_iff, Prod.mk.injEq] at hr
    obtain ⟨s₁, hblock, -, rfl⟩ := hr
    exact h.blockCurrent hblock
  | exit code =>
    simp only [schedulerCall, Option.map_eq_some_iff, Prod.mk.injEq] at hr
    obtain ⟨s₁, hexit, -, rfl⟩ := hr
    obtain ⟨j, hj⟩ := CurrentAlive.exists_current ha
    exact h.exit hj hexit

end Z80OS
