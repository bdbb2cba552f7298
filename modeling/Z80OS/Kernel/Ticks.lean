import Z80OS.Kernel.StateMachine

set_option relaxedAutoImplicit false
set_option autoImplicit false

/-!
# When a tick returns

The loop of `scheduler_next` ends when it finds a task, and there is none that the kernel keeps for
the case that no process can run. So a tick returns as long as some process is ready or running. No
event comes from outside: once no process can run, none will ever again.

## Main definitions

* `Z80OS.Leaves` — after a call some other process can run.

## Main results

* `Z80OS.schedulable_of_leaves` — what a call does to the processes that can run.
* `Z80OS.tick_returns_iff` — when the next tick returns, in every state that is reached.
-/

namespace Z80OS

variable {s s' : Scheduler} {a : SchedulerCall} {r : Option ℤ} {i j : Fin maxScheduled}
  {pid event code : ℤ} {k : ℕ}

/-! ## The search -/

/-- The search ends only with a task that can be scheduled. -/
theorem schedulable_of_loop (h : schedulerNextLoop k s.preempt = some (i, s')) :
    Schedulable s := by
  have hready := (schedulerNextLoop_ready h).2
  rw [preempt_table] at hready
  refine ⟨i, ?_⟩
  split_ifs at hready with hrun
  · exact .inr hrun.2
  · exact .inl hready

/-- Without a task that can be scheduled, the search goes on for any number of turns. -/
theorem schedulerNextLoop_eq_none (h : ¬ Schedulable s) (k : ℕ) :
    schedulerNextLoop k s.preempt = none := by
  cases hloop : schedulerNextLoop k s.preempt with
  | none => rfl
  | some q => exact absurd (schedulable_of_loop (i := q.1) hloop) h

/-- A call of `scheduler_next` returns exactly when there is a task that can be scheduled. -/
theorem schedulerNext_isSome_iff (h : Consistent s) :
    (schedulerNext s).isSome = true ↔ Schedulable s := by
  refine ⟨fun hsome => ?_, schedulerNext_isSome h⟩
  by_contra hs
  rw [schedulerNext, schedulerNextLoop_eq_none hs] at hsome
  exact absurd hsome (by simp)

/-! ## Calls -/

/-- After the call some other process can run: when the current process blocks itself, another one
is ready; in an exit, another one is ready, running, or waits for the end of a process. -/
def Leaves (s : Scheduler) : SchedulerCall → Prop
  | .tick => True
  | .spawn _ => True
  | .block _ => ∃ i : Fin maxScheduled, s.currentScheduled ≠ (i : ℕ) ∧
      (s.scheduleTable i).state = .ready
  | .exit _ => ∃ i : Fin maxScheduled, schedulerEntry s s.scheduleCurrentPid ≠ some i ∧
      ((s.scheduleTable i).state = .ready ∨ (s.scheduleTable i).state = .running ∨
        (s.scheduleTable i).pid ≠ s.scheduleCurrentPid ∧ (s.scheduleTable i).state = .blocked ∧
          (s.scheduleTable i).blockingEvent = eventProcessFinished)

/-- A spawn leaves the tasks that can be scheduled as they are, or adds one. -/
theorem schedulable_add (h : Consistent s) (hs : s.numScheduled ≠ 0 → Schedulable s) :
    Schedulable (schedulerAdd s pid).2 := by
  rcases schedulerAdd_cases pid h with ⟨hfull, hadd⟩ | ⟨i, -, hadd⟩
  · rw [hadd]
    exact hs (by rw [hfull]; decide)
  · rw [hadd]
    exact ⟨i, .inl (by simp [enter_table])⟩

/-- A process blocks itself. -/
theorem schedulable_block (h : Consistent s) (hr : schedulerBlockCurrent s event = some s') :
    Schedulable s' ↔ Leaves s (.block event) := by
  rw [schedulerBlockCurrent, Option.map_eq_some_iff] at hr
  obtain ⟨c, hc, rfl⟩ := hr
  rw [scheduleIndex?_eq_some_iff] at hc
  have hne : ∀ i : Fin maxScheduled, s.currentScheduled ≠ (i : ℕ) ↔ i ≠ c := by
    intro i
    rw [hc, ne_eq, ne_eq, not_iff_not]
    exact ⟨fun heq => Fin.ext (by omega), fun heq => by rw [heq]⟩
  constructor
  · rintro ⟨i, hi⟩
    rw [block_table] at hi
    by_cases hic : i = c
    · simp [hic] at hi
    · rw [if_neg hic] at hi
      refine ⟨i, (hne i).mpr hic, hi.resolve_right fun hrun => ?_⟩
      exact (hne i).mpr hic (h.running i hrun)
  · rintro ⟨i, hi, hready⟩
    refine ⟨i, .inl ?_⟩
    rw [block_table, if_neg ((hne i).mp hi)]
    exact hready

/-- A process exits.

**Proof sketch.** An entry after the exit is finished, woken or unchanged (`broadcast_table`,
`finish_table`). The finished one cannot be chosen, and each other one can be chosen exactly if it
could before or waited for the end of a process. -/
theorem schedulable_exit (hr : processExit s code = some s') :
    Schedulable s' ↔ Leaves s (.exit code) := by
  rw [processExit, schedulerExit, Option.map_eq_some_iff] at hr
  obtain ⟨e, he, rfl⟩ := hr
  have hne : ∀ i : Fin maxScheduled,
      schedulerEntry s s.scheduleCurrentPid ≠ some i ↔ i ≠ e := by
    intro i
    rw [he, ne_eq, Option.some.injEq]
    exact ⟨fun h heq => h heq.symm, fun h heq => h heq.symm⟩
  constructor
  · rintro ⟨i, hi⟩
    rw [broadcast_table, finish_table] at hi
    by_cases hie : i = e
    · rw [if_pos hie, wake_state_of_ne (by simp)] at hi
      simp at hi
    · rw [if_neg hie] at hi
      refine ⟨i, (hne i).mpr hie, ?_⟩
      by_cases hwake : (s.scheduleTable i).pid ≠ s.scheduleCurrentPid ∧
          (s.scheduleTable i).state = .blocked ∧
          (s.scheduleTable i).blockingEvent = eventProcessFinished
      · exact .inr (.inr hwake)
      · rw [wake_of_not (by tauto)] at hi
        exact hi.imp_right .inl
  · rintro ⟨i, hi, hcan⟩
    have htable : (schedulerBroadcastEvent (s.finish e code) eventProcessFinished
        s.scheduleCurrentPid).scheduleTable i =
          (s.scheduleTable i).wake eventProcessFinished s.scheduleCurrentPid := by
      rw [broadcast_table, finish_table, if_neg ((hne i).mp hi)]
    refine ⟨i, ?_⟩
    rw [htable]
    rcases hcan with hready | hrun | ⟨hpid, hblocked, hevent⟩
    · rw [wake_of_not (.inr (.inl (by simp [hready])))]
      exact .inl hready
    · rw [wake_of_not (.inr (.inl (by simp [hrun])))]
      exact .inr hrun
    · exact .inl (wake_of_blocked hpid hblocked hevent)

/-- **What a call does to the tasks that can be scheduled.** There is one after the call exactly
when the call leaves one. -/
theorem schedulable_of_leaves (h : Consistent s) (hs : s.numScheduled ≠ 0 → Schedulable s)
    (hr : schedulerCall s a = some (r, s')) : Schedulable s' ↔ Leaves s a := by
  cases a with
  | tick =>
    simp only [schedulerCall, Option.map_eq_some_iff, Prod.mk.injEq] at hr
    obtain ⟨⟨pid, s₁⟩, hnext, -, rfl⟩ := hr
    obtain ⟨c, -, -, -, -, -, -, htable⟩ := schedulerNext_eq_some hnext
    exact iff_of_true ⟨c, .inr (by simp [htable])⟩ trivial
  | spawn pid =>
    simp only [schedulerCall, Option.some.injEq, Prod.mk.injEq] at hr
    obtain ⟨-, rfl⟩ := hr
    exact iff_of_true (schedulable_add h hs) trivial
  | block event =>
    simp only [schedulerCall, Option.map_eq_some_iff, Prod.mk.injEq] at hr
    obtain ⟨s₁, hblock, -, rfl⟩ := hr
    exact schedulable_block h hblock
  | exit code =>
    simp only [schedulerCall, Option.map_eq_some_iff, Prod.mk.injEq] at hr
    obtain ⟨s₁, hexit, -, rfl⟩ := hr
    exact schedulable_exit hexit

/-! ## Runs -/

/-- In every state that is reached, the global variables are consistent. -/
theorem run_consistent {s₀ : Scheduler} {calls : List SchedulerCall} {answers : List (Option ℤ)}
    (hissued : Run.Always schedulerCall (fun s a _ _ => Issued s a) (schedulerInit s₀) calls)
    (hrun : Run.exec schedulerCall (schedulerInit s₀) calls = some (answers, s)) :
    Consistent s :=
  Run.invariant_of_always (C := Issued) (fun _ _ _ _ h ha hr => schedulerCall_consistent h ha hr)
    (schedulerInit_consistent s₀) hissued hrun

/-- **When the next tick returns.** In every state that is reached, the next call of
`scheduler_next` returns exactly when some process is ready or running, and goes on for ever
otherwise. Once a process has been spawned, there is such a process as long as every process that
blocked itself or exited left another one that can run.

**Proof sketch.** The search for the next entry ends exactly when some entry can be scheduled
(`schedulerNext_isSome_iff`). From a state with such an entry a call leaves one in the next state
exactly when it does not take the last one away (`schedulable_of_leaves`); the rest is induction on
the run. -/
theorem tick_returns_iff (s₀ : Scheduler) (calls : List SchedulerCall) {answers : List (Option ℤ)}
    (hissued : Run.Always schedulerCall (fun s a _ _ => Issued s a) (schedulerInit s₀) calls)
    (hrun : Run.exec schedulerCall (schedulerInit s₀) calls = some (answers, s)) :
    ((schedulerNext s).isSome = true ↔ Schedulable s) ∧
      (¬ Schedulable s → ∀ k, schedulerNextLoop k s.preempt = none) ∧
      (s.numScheduled ≠ 0 →
        Run.Always schedulerCall (fun s a _ _ => Leaves s a) (schedulerInit s₀) calls →
          Schedulable s) := by
  have h := run_consistent hissued hrun
  refine ⟨schedulerNext_isSome_iff h, schedulerNextLoop_eq_none, fun hnum hleaves => ?_⟩
  have hinv : Consistent s ∧ (s.numScheduled ≠ 0 → Schedulable s) := by
    refine Run.invariant_of_always
      (I := fun s => Consistent s ∧ (s.numScheduled ≠ 0 → Schedulable s))
      (C := fun s a => Issued s a ∧ Leaves s a) ?_
      ⟨schedulerInit_consistent s₀, fun hnum => absurd rfl hnum⟩ (hissued.and hleaves) hrun
    rintro s a r s' ⟨hs, hcan⟩ ⟨ha, hleave⟩ hr
    exact ⟨schedulerCall_consistent hs ha hr,
      fun _ => (schedulable_of_leaves hs hcan hr).mpr hleave⟩
  exact hinv.2 hnum

/-- A process waits for another one, which exits. -/
def leavingRun : List SchedulerCall :=
  [.spawn 0, .tick, .spawn 1, .block eventProcessFinished, .tick, .exit 7]

instance (s : Scheduler) (a : SchedulerCall) : Decidable (Leaves s a) :=
  match a with
  | .tick => inferInstanceAs (Decidable True)
  | .spawn _ => inferInstanceAs (Decidable True)
  | .block _ => inferInstanceAs (Decidable (∃ _, _))
  | .exit _ => inferInstanceAs (Decidable (∃ _, _))

/-- After the exit the process that has waited can be scheduled. -/
theorem tick_returns_iff_leavingRun :
    ∃ answers s, Run.exec schedulerCall (schedulerInit .zeroed) leavingRun = some (answers, s) ∧
      ((schedulerNext s).isSome = true ↔ Schedulable s) ∧ Schedulable s := by
  have hissued : Run.Always schedulerCall (fun s a _ _ => Issued s a) (schedulerInit .zeroed)
      leavingRun := Run.Always.of_check (p := fun s a _ _ => decide (Issued s a))
    (fun _ _ _ _ => of_decide_eq_true) (by decide)
  have hleaves : Run.Always schedulerCall (fun s a _ _ => Leaves s a) (schedulerInit .zeroed)
      leavingRun := Run.Always.of_check (p := fun s a _ _ => decide (Leaves s a))
    (fun _ _ _ _ => of_decide_eq_true) (by decide)
  have hall : ((Run.exec schedulerCall (schedulerInit .zeroed) leavingRun).map fun r =>
      decide (r.2.numScheduled ≠ 0)) = some true := by decide
  rw [Option.map_eq_some_iff] at hall
  obtain ⟨⟨answers, s⟩, hrun, hnum⟩ := hall
  obtain ⟨hiff, -, hschedulable⟩ := tick_returns_iff .zeroed leavingRun hissued hrun
  exact ⟨answers, s, hrun, hiff, hschedulable (of_decide_eq_true hnum) hleaves⟩

/-- A tick always returns, once a process has been spawned. -/
def TicksReturn : Prop :=
  ∀ s₀ calls answers s,
    Run.Always schedulerCall (fun s a _ _ => Issued s a) (schedulerInit s₀) calls →
    Run.exec schedulerCall (schedulerInit s₀) calls = some (answers, s) →
    s.numScheduled ≠ 0 → (schedulerNext s).isSome = true

/-- The only process exits. -/
def lastExitRun : List SchedulerCall := [.spawn 0, .tick, .exit 0]

/-- After the exit of the only process, the next tick does not return. -/
theorem not_ticksReturn : ¬ TicksReturn := by
  intro h
  have hissued : Run.Always schedulerCall (fun s a _ _ => Issued s a) (schedulerInit .zeroed)
      lastExitRun := Run.Always.of_check (p := fun s a _ _ => decide (Issued s a))
    (fun _ _ _ _ => of_decide_eq_true) (by decide)
  have hall : ((Run.exec schedulerCall (schedulerInit .zeroed) lastExitRun).map fun r =>
      decide (r.2.numScheduled ≠ 0 ∧ (schedulerNext r.2).isSome = false)) = some true := by decide
  rw [Option.map_eq_some_iff] at hall
  obtain ⟨⟨answers, s⟩, hrun, hend⟩ := hall
  obtain ⟨hnum, hnone⟩ := of_decide_eq_true hend
  have hreturns := h .zeroed lastExitRun answers s hissued hrun hnum
  exact absurd (hnone.symm.trans hreturns) (by decide)

end Z80OS
