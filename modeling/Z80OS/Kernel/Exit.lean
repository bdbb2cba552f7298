import Z80OS.Kernel.Tasks

set_option relaxedAutoImplicit false
set_option autoImplicit false

/-!
# The end of a process that was spawned twice

`process_exit` looks for the entry of its caller by PID, from the start of the table. When the
process descriptor has been spawned before, this is the older entry, and the entry that runs goes
on for ever.

## Main definitions

* `Z80OS.ExitEnds` — an exit ends the task of the current entry for good.

## Main results

* `Z80OS.exit_ends_iff` — it does so if and only if no entry in front of the current one holds its
  PID.
* `Z80OS.not_exit_ends` — a process that is spawned twice.
-/

namespace Z80OS

variable {s s' : Scheduler} {a : SchedulerCall} {r : Option ℤ} {i j : Fin maxScheduled}
  {pid code : ℤ}

/-- An exit of the running process makes the current entry finished with the given exit code, and
no tick of any later run chooses this entry. -/
def ExitEnds (s : Scheduler) (j : Fin maxScheduled) (code : ℤ) : Prop :=
  ∃ s', processExit s code = some s' ∧ (s'.scheduleTable j).state = .finished ∧
    (s'.scheduleTable j).exitcode = code ∧
    ∀ later : List SchedulerCall, Run.Always schedulerCall (fun s a _ _ => Issued s a) s' later →
      Run.Always schedulerCall (fun _ a _ t => a = .tick → t.currentScheduled ≠ (j : ℕ)) s' later

/-- A call of the current process does not make another finished task ready, and no tick chooses
it.

**Proof sketch.** By cases on the call. The current task is not the finished one (`CurrentAlive`,
`block_table`), a tick chooses an entry that is ready (`schedulerNext_eq_some`), a spawn takes a
free entry (`schedulerAdd_cases`), and the broadcast of an exit wakes only entries that wait
(`wake_state_of_ne`). -/
theorem schedulerCall_finished (h : Consistent s) (ha : Issued s a)
    (hi : (s.scheduleTable i).state = .finished) (hr : schedulerCall s a = some (r, s')) :
    (s'.scheduleTable i).state = .finished ∧ (a = .tick → s'.currentScheduled ≠ (i : ℕ)) := by
  cases a with
  | tick =>
    simp only [schedulerCall, Option.map_eq_some_iff, Prod.mk.injEq] at hr
    obtain ⟨⟨pid, s₁⟩, hnext, -, rfl⟩ := hr
    obtain ⟨c, hready, -, hcur, -, -, -, htable⟩ := schedulerNext_eq_some hnext
    have hpre : s.preempt.scheduleTable i = s.scheduleTable i := by
      rw [preempt_table, if_neg]
      rintro ⟨-, hrun⟩
      rw [hi] at hrun
      simp at hrun
    have hic : i ≠ c := by
      rintro rfl
      rw [hpre, hi] at hready
      simp at hready
    refine ⟨?_, fun _ heq => hic (Fin.ext ?_)⟩
    swap
    · rw [hcur] at heq
      omega
    rw [htable, setState_table, if_neg hic, hpre]
    exact hi
  | spawn pid =>
    simp only [schedulerCall, Option.some.injEq, Prod.mk.injEq] at hr
    obtain ⟨-, rfl⟩ := hr
    refine ⟨?_, fun htick => by simp at htick⟩
    rcases schedulerAdd_cases pid h with ⟨-, hadd⟩ | ⟨c, hc, hadd⟩
    · rw [hadd]
      exact hi
    · have hic : i ≠ c := by
        rintro rfl
        have := (h.used i).mp (by simp [hi])
        omega
      rw [hadd, enter_table, if_neg hic]
      exact hi
  | block event =>
    simp only [schedulerCall, schedulerBlockCurrent, Option.map_eq_some_iff, Prod.mk.injEq] at hr
    obtain ⟨s₁, ⟨c, hc, rfl⟩, -, rfl⟩ := hr
    rw [scheduleIndex?_eq_some_iff] at hc
    refine ⟨?_, fun htick => by simp at htick⟩
    have hic : i ≠ c := by
      rintro rfl
      obtain ⟨k, hk, hstate⟩ := ha
      have hki : k = i := Fin.ext (by omega)
      exact hstate (hki ▸ hi)
    rw [block_table, if_neg hic]
    exact hi
  | exit code =>
    simp only [schedulerCall, Option.map_eq_some_iff, Prod.mk.injEq] at hr
    obtain ⟨s₁, hexit, -, rfl⟩ := hr
    obtain ⟨j, hj⟩ := CurrentAlive.exists_current ha
    obtain ⟨c, -, -, hc⟩ := processExit_eq code h hj
    obtain rfl := Option.some.inj (hc.symm.trans hexit)
    refine ⟨?_, fun htick => by simp at htick⟩
    rw [broadcast_table, finish_table]
    split_ifs with hic
    · exact wake_state_of_ne (by simp)
    · rw [wake_state_of_ne (by simp [hi])]
      exact hi

/-- No tick of a run chooses a task that has finished. -/
theorem run_never_chosen {calls : List SchedulerCall} (h : Consistent s)
    (hi : (s.scheduleTable i).state = .finished)
    (hcalls : Run.Always schedulerCall (fun s a _ _ => Issued s a) s calls) :
    Run.Always schedulerCall (fun _ a _ t => a = .tick → t.currentScheduled ≠ (i : ℕ)) s calls := by
  refine Run.Always.of_invariant
    (I := fun s => Consistent s ∧ (s.scheduleTable i).state = .finished)
    (C := Issued) ?_ ⟨h, hi⟩ hcalls
  intro s a r s' hs ha hr
  obtain ⟨hstate, htick⟩ := schedulerCall_finished hs.1 ha hs.2 hr
  exact ⟨htick, schedulerCall_consistent hs.1 ha hr, hstate⟩

/-- The search by PID finds the current entry if no entry in front of it has its PID. -/
theorem exitEnds_iff (h : Consistent s) (hj : s.currentScheduled = (j : ℕ))
    (halive : (s.scheduleTable j).state ≠ .finished) :
    ExitEnds s j code ↔ ∀ i < j, (s.scheduleTable i).pid ≠ (s.scheduleTable j).pid := by
  obtain ⟨c, hcj, hentry, hexit⟩ := processExit_eq code h hj
  obtain ⟨hpid, hfirst⟩ := schedulerEntry_eq_some_iff.mp hentry
  constructor
  · rintro ⟨s', hs', hstate, -, -⟩ i hi heq
    obtain rfl := Option.some.inj (hexit.symm.trans hs')
    have hci : c ≤ i := by
      by_contra hlt
      exact hfirst i (not_le.mp hlt) heq
    have hjc : j ≠ c := by
      rintro rfl
      exact absurd hi (not_lt.mpr hci)
    -- the current entry is excluded from the broadcast, too, so it stays what it was
    rw [broadcast_table, finish_table, if_neg hjc, wake_of_not (.inl rfl)] at hstate
    exact halive hstate
  · intro hnone
    obtain rfl : c = j := by
      by_contra hne
      exact hnone c (lt_of_le_of_ne hcj hne) hpid
    have hfinish : (schedulerBroadcastEvent (s.finish c code) eventProcessFinished
        (s.scheduleTable c).pid).scheduleTable c =
          { s.scheduleTable c with state := .finished, exitcode := code } := by
      rw [broadcast_table, finish_table, if_pos rfl]
      exact wake_of_not (.inl rfl)
    refine ⟨_, hexit, by rw [hfinish], by rw [hfinish], fun later hlater => ?_⟩
    exact run_never_chosen (h.exit hj hexit) (by rw [hfinish]) hlater

/-- **The end of the caller.** In every state that a run of ticks and system calls reaches, where
the running process is the one of the entry `j`: its exit ends the task of this entry for good if
and only if no entry in front of it holds the same PID.

**Proof sketch.** A run keeps the table consistent (`schedulerCall_consistent`). In such a table
`process_exit` finishes the first entry with the PID of the caller (`exitEnds_iff`). -/
theorem exit_ends_iff (s₀ : Scheduler) (calls : List SchedulerCall) (answers : List (Option ℤ))
    (s : Scheduler) (j : Fin maxScheduled) (code : ℤ)
    (hcalls : Run.Always schedulerCall (fun s a _ _ => Issued s a) (schedulerInit s₀) calls)
    (hrun : Run.exec schedulerCall (schedulerInit s₀) calls = some (answers, s))
    (hj : s.currentScheduled = (j : ℕ)) (halive : (s.scheduleTable j).state ≠ .finished) :
    ExitEnds s j code ↔ ∀ i < j, (s.scheduleTable i).pid ≠ (s.scheduleTable j).pid := by
  apply exitEnds_iff _ hj halive
  exact Run.invariant_of_always (fun _ _ _ _ hI hC hstep => schedulerCall_consistent hI hC hstep)
    (schedulerInit_consistent s₀) hcalls hrun

/-- A run whose calls can be made, and its last state. -/
theorem exists_run_of_test (calls : List SchedulerCall) (p : Scheduler → Bool)
    (hcalls : Run.check schedulerCall (fun s a _ _ => decide (Issued s a)) (schedulerInit .zeroed)
      calls = true)
    (hp : (Run.exec schedulerCall (schedulerInit .zeroed) calls).any (fun r => p r.2) = true) :
    ∃ answers s,
      Run.Always schedulerCall (fun s a _ _ => Issued s a) (schedulerInit .zeroed) calls ∧
      Run.exec schedulerCall (schedulerInit .zeroed) calls = some (answers, s) ∧ p s = true := by
  obtain ⟨⟨answers, s⟩, hrun, hs⟩ := (Option.any_eq_true _ _).mp hp
  exact ⟨answers, s, Run.Always.of_check (fun _ _ _ _ => of_decide_eq_true) hcalls, hrun, hs⟩

/-- The exit of a process that has been spawned once. -/
theorem exit_ends_iff_once :
    ∃ answers s, Run.exec schedulerCall (schedulerInit .zeroed) [.spawn 4, .tick, .spawn 5, .tick] =
      some (answers, s) ∧ ExitEnds s secondEntry 7 := by
  obtain ⟨answers, s, hcalls, hrun, hs⟩ := exists_run_of_test
    [.spawn 4, .tick, .spawn 5, .tick] (fun s => decide (s.currentScheduled = (secondEntry : ℕ) ∧
      (s.scheduleTable secondEntry).state ≠ .finished ∧
      ∀ i < secondEntry, (s.scheduleTable i).pid ≠ (s.scheduleTable secondEntry).pid))
    (by decide) (by decide)
  obtain ⟨hj, halive, hfirst⟩ := of_decide_eq_true hs
  exact ⟨answers, s, hrun,
    (exit_ends_iff .zeroed _ answers s secondEntry 7 hcalls hrun hj halive).mpr hfirst⟩

/-- The exit of a process that has been spawned twice, when the second of its entries runs, does
not end the task of this entry. -/
theorem not_exit_ends :
    ¬ ∀ (s₀ : Scheduler) (calls : List SchedulerCall) (answers : List (Option ℤ)) (s : Scheduler)
      (j : Fin maxScheduled) (code : ℤ),
      Run.Always schedulerCall (fun s a _ _ => Issued s a) (schedulerInit s₀) calls →
      Run.exec schedulerCall (schedulerInit s₀) calls = some (answers, s) →
      s.currentScheduled = (j : ℕ) → (s.scheduleTable j).state ≠ .finished →
      ExitEnds s j code := by
  intro hall
  obtain ⟨answers, s, hcalls, hrun, hs⟩ := exists_run_of_test
    [.spawn 0, .spawn 0, .tick, .tick] (fun s => decide (s.currentScheduled = (secondEntry : ℕ) ∧
      (s.scheduleTable secondEntry).state ≠ .finished) &&
      (processExit s 7).any fun s' : Scheduler =>
        decide ((s'.scheduleTable secondEntry).state ≠ .finished))
    (by decide) (by decide)
  rw [Bool.and_eq_true] at hs
  obtain ⟨hj, halive⟩ := of_decide_eq_true hs.1
  obtain ⟨s', hexit, hstate⟩ := (Option.any_eq_true _ _).mp hs.2
  obtain ⟨s'', hexit', hstate', -⟩ := hall .zeroed _ answers s secondEntry 7 hcalls hrun hj halive
  obtain rfl := Option.some.inj (hexit.symm.trans hexit')
  exact of_decide_eq_true hstate hstate'

end Z80OS
