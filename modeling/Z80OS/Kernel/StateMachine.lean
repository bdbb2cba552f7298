import Z80OS.Kernel.Tasks

set_option relaxedAutoImplicit false
set_option autoImplicit false

/-!
# The state machine of the tasks

As long as no process is spawned twice, the entries in use have different PIDs, so that the search
by PID of `process_exit` finds the current entry. Then the tasks go through their states as the
documentation of the scheduler says, along every run.

## Main results

* `Z80OS.schedulerCall_distinct` — the entries in use keep different PIDs.
* `Z80OS.schedulerCall_returns` — every call that can be made returns.
* `Z80OS.schedulerCall_holds` — what every call may do to the entries of the table.
* `Z80OS.scheduler_state_machine` — the state machine along every run from the initialisation.
-/

namespace Z80OS

variable {s s' : Scheduler} {a : SchedulerCall} {r : Option ℤ} {i j : Fin maxScheduled}
  {pid event code : ℤ}

/-! ## Different PIDs -/

/-- No entry is in use after the initialisation, so that none has the PID of another one. -/
theorem schedulerInit_distinct (s : Scheduler) : DistinctPids (schedulerInit s) := by
  intro i j hi
  exact absurd rfl hi

/-- A call that keeps the PIDs and the set of entries in use keeps the PIDs different. -/
theorem DistinctPids.congr (h : DistinctPids s)
    (hpid : ∀ i, (s'.scheduleTable i).pid = (s.scheduleTable i).pid)
    (hfree : ∀ i, (s.scheduleTable i).state = .free → (s'.scheduleTable i).state = .free) :
    DistinctPids s' := by
  intro i j hi hj heq
  rw [hpid, hpid] at heq
  apply h i j _ _ heq
  · intro hf
    exact hi (hfree i hf)
  · intro hf
    exact hj (hfree j hf)

/-- With different PIDs the search for the PID of the current entry finds this entry. -/
theorem processExit_current (h : Consistent s) (hd : DistinctPids s)
    (hj : s.currentScheduled = (j : ℕ)) :
    processExit s code = some (schedulerBroadcastEvent (s.finish j code) eventProcessFinished
      (s.scheduleTable j).pid) := by
  obtain ⟨i, hij, hentry, hexit⟩ := processExit_eq code h hj
  have heq : (s.scheduleTable i).pid = (s.scheduleTable j).pid :=
    (schedulerEntry_eq_some_iff.mp hentry).1
  obtain rfl := hd i j (h.used_le hj hij) (h.used_le hj (le_refl j)) heq
  exact hexit

/-- The entries in use keep different PIDs.

**Proof sketch.** By cases on the call. Only a spawn enters a PID, which none of the entries in use
has. The others keep the PIDs of all entries and free none. -/
theorem schedulerCall_distinct (h : Consistent s) (hd : DistinctPids s) (ha : IssuedOnce s a)
    (hr : schedulerCall s a = some (r, s')) : DistinctPids s' := by
  cases a with
  | tick =>
    simp only [schedulerCall, Option.map_eq_some_iff, Prod.mk.injEq] at hr
    obtain ⟨⟨pid, s₁⟩, hnext, -, rfl⟩ := hr
    obtain ⟨c, hready, -, -, -, -, -, htable⟩ := schedulerNext_eq_some hnext
    apply hd.congr
    · intro k
      simp only [htable, setState_table]
      split_ifs with hk
      · rw [hk, preempt_pid]
      · exact preempt_pid
    · intro k hfree
      simp only [htable, setState_table]
      split_ifs with hk
      · subst hk
        rw [preempt_state_free.mpr hfree] at hready
        simp at hready
      · exact preempt_state_free.mpr hfree
  | spawn pid =>
    simp only [schedulerCall, Option.some.injEq, Prod.mk.injEq] at hr
    obtain ⟨-, rfl⟩ := hr
    have hnew : NotScheduled s pid := ha.2
    rcases schedulerAdd_cases pid h with ⟨-, hadd⟩ | ⟨c, hc, hadd⟩
    · rw [hadd]
      exact hd
    rw [hadd]
    intro k l hk hl heq
    simp only [enter_table] at hk hl heq
    split_ifs at hk hl heq with hkc hlc hlc
    · rw [hkc, hlc]
    · exact absurd heq.symm (hnew l hl)
    · exact absurd heq (hnew k hk)
    · exact hd k l hk hl heq
  | block event =>
    simp only [schedulerCall, schedulerBlockCurrent, Option.map_eq_some_iff, Prod.mk.injEq] at hr
    obtain ⟨s₁, ⟨c, hc, rfl⟩, -, rfl⟩ := hr
    rw [scheduleIndex?_eq_some_iff] at hc
    apply hd.congr
    · intro k
      rw [block_table]
      split_ifs with hk
      · rw [hk]
      · rfl
    · intro k hfree
      have hk : k ≠ c := by
        rintro rfl
        exact h.used_le hc (le_refl k) hfree
      rw [block_table, if_neg hk]
      exact hfree
  | exit code =>
    simp only [schedulerCall, Option.map_eq_some_iff, Prod.mk.injEq] at hr
    obtain ⟨s₁, hexit, -, rfl⟩ := hr
    obtain ⟨j, hj⟩ := CurrentAlive.exists_current ha.1
    obtain rfl := Option.some.inj ((processExit_current h hd hj).symm.trans hexit)
    apply hd.congr
    · intro k
      rw [broadcast_table, wake_pid, finish_table]
      split_ifs with hk
      · rw [hk]
      · rfl
    · intro k hfree
      have hk : k ≠ j := by
        rintro rfl
        exact h.used_le hj (le_refl k) hfree
      rw [broadcast_table, wake_state_free, finish_table, if_neg hk]
      exact hfree

/-! ## Every call returns -/

/-- A tick returns when there is a task to schedule. -/
theorem schedulerNext_isSome (h : Consistent s) (hs : Schedulable s) :
    (schedulerNext s).isSome := by
  obtain ⟨i, hi⟩ := hs
  have hready : (s.preempt.scheduleTable i).state = .ready := by
    rw [preempt_table]
    split_ifs with hrun
    · rfl
    · rcases hi with hi | hi
      · exact hi
      · exact absurd ⟨h.running i hi, hi⟩ hrun
  have hused : (i : ℕ) < s.numScheduled := by
    apply (h.used i).mp
    intro hfree
    rw [hfree] at hi
    simp at hi
  have hc := h.current
  have hn := h.num_le
  have hturns : turnsTo s.preempt.numScheduled s.preempt.currentScheduled i ≤ maxScheduled := by
    rw [preempt_num, preempt_current]
    unfold turnsTo
    split_ifs <;> omega
  have := schedulerNextLoop_isSome (s := s.preempt) (by simpa using hn) (by simpa using hc)
    (by simpa using hused) hready hturns
  simpa [schedulerNext] using this

/-- Every call that can be made returns. -/
theorem schedulerCall_returns (h : Consistent s) (ha : Issued s a) :
    ∃ r s', schedulerCall s a = some (r, s') := by
  cases a with
  | tick =>
    obtain ⟨⟨pid, s₁⟩, hnext⟩ := Option.isSome_iff_exists.mp (schedulerNext_isSome h ha)
    exact ⟨some pid, s₁, by rw [schedulerCall, hnext]; rfl⟩
  | spawn pid => exact ⟨_, _, rfl⟩
  | block event =>
    obtain ⟨j, hj⟩ := CurrentAlive.exists_current ha
    refine ⟨none, s.block j event, ?_⟩
    rw [schedulerCall, schedulerBlockCurrent, hj, scheduleIndex?_cast]
    rfl
  | exit code =>
    obtain ⟨j, hj⟩ := CurrentAlive.exists_current ha
    obtain ⟨i, -, -, hexit⟩ := processExit_eq code h hj
    exact ⟨none, _, by rw [schedulerCall, hexit]; rfl⟩

/-! ## The entries -/

/-- The current task is not finished when its process issues a call. -/
theorem CurrentAlive.not_finished (h : CurrentAlive s) (hj : s.currentScheduled = (j : ℕ)) :
    (s.scheduleTable j).state ≠ .finished := by
  obtain ⟨i, hi, hstate⟩ := h
  have hij : i = j := Fin.ext (by omega)
  exact hij ▸ hstate

/-- A tick.

**Proof sketch.** The entry that is chosen was ready or running, the one that was running in front
of it is ready now, and no other entry has changed. -/
theorem schedulerNext_holds (h : Consistent s) (hd : DistinctPids s)
    (hr : schedulerNext s = some (pid, s')) : CallHolds s .tick (some pid) s' := by
  obtain ⟨c, hready, hpid, hcur, -, -, -, htable⟩ := schedulerNext_eq_some hr
  have hstate : (s.scheduleTable c).state = .ready ∨ (s.scheduleTable c).state = .running := by
    rw [preempt_table] at hready
    split_ifs at hready with hrun
    · exact .inr hrun.2
    · exact .inl hready
  have hkept : ∀ k, (s.scheduleTable k).state ≠ .running → k ≠ c →
      s'.scheduleTable k = s.scheduleTable k := by
    intro k hk hkc
    rw [htable, setState_table, if_neg hkc, preempt_table, if_neg fun hrun => hk hrun.2]
  have hne : ∀ k, (s.scheduleTable k).state ≠ .ready → (s.scheduleTable k).state ≠ .running →
      k ≠ c := by
    rintro k hk hk' rfl
    rcases hstate with hs | hs
    · exact hk hs
    · exact hk' hs
  have hchosen : s'.scheduleTable c = { s.preempt.scheduleTable c with state := .running } := by
    rw [htable, setState_table, if_pos rfl]
  refine ⟨?_, ?_, ?_, ?_, ?_, ⟨c, hcur, by rw [hchosen], by rw [hchosen, hpid, preempt_pid]⟩⟩
  · intro k hk
    rw [hkept k (by simp [hk]) (hne k (by simp [hk]) (by simp [hk]))]
    exact ⟨hk, rfl, rfl⟩
  · intro _ k hk
    have hkc := hne k (by simp [hk]) (by simp [hk])
    refine ⟨fun heq => hkc (Fin.ext (by omega)), fun heq => hkc ?_⟩
    apply hd k c
    · simp [hk]
    · rcases hstate with hs | hs <;> simp [hs]
    · exact (Option.some.inj heq).symm.trans hpid
  · intro k hk hk'
    rw [hkept k (by simp [hk]) (hne k (by simp [hk]) (by simp [hk])), hk] at hk'
    simp at hk'
  · intro code hcode
    simp at hcode
  · intro k hk
    by_cases hkc : k = c
    · subst hkc
      by_cases hrun : (s.scheduleTable k).state = .running
      · -- the entry that runs is chosen again, and it is what it was
        exfalso
        apply hk
        rw [htable, setState_table, if_pos rfl, preempt_table, if_pos ⟨h.running k hrun, hrun⟩]
        cases hentry : s.scheduleTable k with
        | mk state blockingEvent pid exitcode =>
          rw [hentry] at hrun
          simp only at hrun
          rw [hrun]
      · refine .inr ⟨hcur, hstate.resolve_right hrun, ?_⟩
        rw [htable, setState_table, if_pos rfl]
    · by_cases hrun : (s.scheduleTable k).state = .running
      · refine .inl ⟨h.running k hrun, hrun, ?_⟩
        rw [htable, setState_table, if_neg hkc, preempt_table, if_pos ⟨h.running k hrun, hrun⟩]
      · exact absurd (hkept k hrun hkc) hk

/-- A spawn.

**Proof sketch.** A spawn into a full table changes nothing. Otherwise it takes the first free entry
(`schedulerAdd_cases`), so that the entries of the other processes, which are not free, are as
before. -/
theorem schedulerAdd_holds (h : Consistent s) :
    CallHolds s (.spawn pid) (some (schedulerAdd s pid).1) (schedulerAdd s pid).2 := by
  rcases schedulerAdd_cases pid h with ⟨hfull, hadd⟩ | ⟨c, hc, hadd⟩
  · rw [hadd]
    refine ⟨fun k hk => ⟨hk, rfl, rfl⟩, fun ha => by simp at ha, fun k hk hk' => ?_,
      fun code ha => by simp at ha, fun k hk => absurd rfl hk, .inl ⟨hfull, rfl, rfl⟩⟩
    rw [hk] at hk'
    simp at hk'
  rw [hadd]
  have hfree : (s.scheduleTable c).state = .free := by
    by_contra hused
    have := (h.used c).mp hused
    omega
  have hkept : ∀ k, (s.scheduleTable k).state ≠ .free →
      (s.enter c pid).scheduleTable k = s.scheduleTable k := by
    intro k hk
    rw [enter_table, if_neg]
    rintro rfl
    exact hk hfree
  refine ⟨?_, ?_, ?_, ?_, ?_, .inr ⟨c, hc, rfl, by rw [enter_table, if_pos rfl]⟩⟩
  · intro k hk
    rw [hkept k (by simp [hk])]
    exact ⟨hk, rfl, rfl⟩
  · intro ha
    simp at ha
  · intro k hk hk'
    rw [hkept k (by simp [hk]), hk] at hk'
    simp at hk'
  · intro code ha
    simp at ha
  · intro k hk
    have hkc : k = c := by
      by_contra hkc
      apply hk
      rw [enter_table, if_neg hkc]
    subst hkc
    exact ⟨hc, by rw [enter_table, if_pos rfl]⟩

/-- `pblock`. -/
theorem schedulerBlockCurrent_holds (ha : CurrentAlive s)
    (hr : schedulerBlockCurrent s event = some s') : CallHolds s (.block event) none s' := by
  simp only [schedulerBlockCurrent, Option.map_eq_some_iff] at hr
  obtain ⟨c, hc, rfl⟩ := hr
  rw [scheduleIndex?_eq_some_iff] at hc
  refine ⟨?_, ?_, ?_, ?_, ?_, ⟨c, hc, by rw [block_table, if_pos rfl]⟩⟩
  · intro k hk
    have hkc : k ≠ c := by
      rintro rfl
      exact ha.not_finished hc hk
    rw [block_table, if_neg hkc]
    exact ⟨hk, rfl, rfl⟩
  · intro hb
    simp at hb
  · intro k hk hk'
    rw [block_table] at hk'
    split_ifs at hk' with hkc
    rw [hk] at hk'
    simp at hk'
  · intro code hb
    simp at hb
  · intro k hk
    have hkc : k = c := by
      by_contra hkc
      apply hk
      rw [block_table, if_neg hkc]
    subst hkc
    exact ⟨hc, by rw [block_table, if_pos rfl]⟩

/-- `pexit`.

**Proof sketch.** The entry of the caller is the one with its PID, because the PIDs are different.
It is finished, and the event wakes the entries that wait for it. These are other ones, as the
caller was running. -/
theorem processExit_holds (h : Consistent s) (hd : DistinctPids s) (ha : CurrentAlive s)
    (hr : processExit s code = some s') : CallHolds s (.exit code) none s' := by
  obtain ⟨j, hj⟩ := ha.exists_current
  obtain rfl := Option.some.inj ((processExit_current h hd hj).symm.trans hr)
  have htable : ∀ k, k ≠ j → (schedulerBroadcastEvent (s.finish j code) eventProcessFinished
      (s.scheduleTable j).pid).scheduleTable k =
        (s.scheduleTable k).wake eventProcessFinished (s.scheduleTable j).pid := by
    intro k hk
    rw [broadcast_table, finish_table, if_neg hk]
  have hfinish : (schedulerBroadcastEvent (s.finish j code) eventProcessFinished
      (s.scheduleTable j).pid).scheduleTable j =
        { s.scheduleTable j with state := .finished, exitcode := code } := by
    rw [broadcast_table, finish_table, if_pos rfl]
    exact wake_of_not (.inl rfl)
  have hother : ∀ k, k ≠ j → (s.scheduleTable k).state ≠ .free →
      (s.scheduleTable k).pid ≠ (s.scheduleTable j).pid := by
    intro k hk hused heq
    exact hk (hd k j hused (h.used_le hj (le_refl j)) heq)
  refine ⟨?_, ?_, ?_, ?_, ?_, ⟨j, hj, hfinish⟩⟩
  · intro k hk
    have hkj : k ≠ j := by
      rintro rfl
      exact ha.not_finished hj hk
    rw [htable k hkj, wake_of_not (.inr (.inl (by simp [hk])))]
    exact ⟨hk, rfl, rfl⟩
  · intro hb
    simp at hb
  · intro k hk hk'
    have hkj : k ≠ j := by
      rintro rfl
      rw [hfinish] at hk'
      simp at hk'
    refine ⟨⟨code, rfl⟩, fun heq => hkj (Fin.ext (by omega)), ?_⟩
    by_contra hevent
    rw [htable k hkj, wake_of_not (.inr (.inr hevent)), hk] at hk'
    simp at hk'
  · intro code' _ k hk hstate hevent
    have hkj : k ≠ j := by
      rintro rfl
      exact hk hj
    rw [htable k hkj]
    exact wake_of_blocked (hother k hkj (by simp [hstate])) hstate hevent
  · intro k hk
    by_cases hkj : k = j
    · subst hkj
      exact .inl ⟨hj, by rw [hfinish]⟩
    · rw [htable k hkj] at hk ⊢
      by_cases hstate : (s.scheduleTable k).state = .blocked
      · by_cases hevent : (s.scheduleTable k).blockingEvent = eventProcessFinished
        · exact .inr ⟨hstate, hevent,
            wake_of_blocked (hother k hkj (by simp [hstate])) hstate hevent⟩
        · exact absurd (wake_of_not (.inr (.inr hevent))) hk
      · exact absurd (wake_of_not (.inr (.inl hstate))) hk

/-- **What every call may do to the entries of the table.** -/
theorem schedulerCall_holds (h : Consistent s) (hd : DistinctPids s) (ha : Issued s a)
    (hr : schedulerCall s a = some (r, s')) : CallHolds s a r s' := by
  cases a with
  | tick =>
    simp only [schedulerCall, Option.map_eq_some_iff, Prod.mk.injEq] at hr
    obtain ⟨⟨pid, s₁⟩, hnext, rfl, rfl⟩ := hr
    exact schedulerNext_holds h hd hnext
  | spawn pid =>
    simp only [schedulerCall, Option.some.injEq, Prod.mk.injEq] at hr
    obtain ⟨rfl, rfl⟩ := hr
    exact schedulerAdd_holds h
  | block event =>
    simp only [schedulerCall, Option.map_eq_some_iff, Prod.mk.injEq] at hr
    obtain ⟨s₁, hblock, rfl, rfl⟩ := hr
    exact schedulerBlockCurrent_holds ha hblock
  | exit code =>
    simp only [schedulerCall, Option.map_eq_some_iff, Prod.mk.injEq] at hr
    obtain ⟨s₁, hexit, rfl, rfl⟩ := hr
    exact processExit_holds h hd ha hexit

/-! ## Runs -/

/-- The invariant of runs in which no process is spawned twice. -/
def Scheduled (s : Scheduler) : Prop := Consistent s ∧ DistinctPids s

/-- Every call keeps the invariant. -/
theorem Scheduled.call (h : Scheduled s) (ha : IssuedOnce s a)
    (hr : schedulerCall s a = some (r, s')) : Scheduled s' :=
  ⟨schedulerCall_consistent h.1 ha.1 hr, schedulerCall_distinct h.1 h.2 ha hr⟩

/-- A tick leaves the first entry chosen. -/
theorem schedulerCall_current (h : Consistent s) (hr : schedulerCall s a = some (r, s')) :
    (a = .tick → 0 ≤ s'.currentScheduled) ∧ (0 ≤ s.currentScheduled → 0 ≤ s'.currentScheduled) := by
  cases a with
  | tick =>
    simp only [schedulerCall, Option.map_eq_some_iff, Prod.mk.injEq] at hr
    obtain ⟨⟨pid, s₁⟩, hnext, -, rfl⟩ := hr
    obtain ⟨c, -, -, hcur, -⟩ := schedulerNext_eq_some hnext
    rw [hcur]
    exact ⟨fun _ => by omega, fun _ => by omega⟩
  | spawn pid =>
    simp only [schedulerCall, Option.some.injEq, Prod.mk.injEq] at hr
    obtain ⟨-, rfl⟩ := hr
    refine ⟨fun hb => by simp at hb, fun hc => ?_⟩
    rcases schedulerAdd_cases pid h with ⟨-, hadd⟩ | ⟨c, -, hadd⟩
    · rw [hadd]
      exact hc
    · rw [hadd]
      exact hc
  | block event =>
    simp only [schedulerCall, schedulerBlockCurrent, Option.map_eq_some_iff, Prod.mk.injEq] at hr
    obtain ⟨s₁, ⟨c, -, rfl⟩, -, rfl⟩ := hr
    exact ⟨fun hb => by simp at hb, fun hc => hc⟩
  | exit code =>
    simp only [schedulerCall, processExit, schedulerExit, Option.map_eq_some_iff,
      Prod.mk.injEq] at hr
    obtain ⟨s₁, ⟨c, -, rfl⟩, -, rfl⟩ := hr
    exact ⟨fun hb => by simp at hb, fun hc => hc⟩

/-- Some entry is the current one after a run with a tick. -/
theorem run_current {calls : List SchedulerCall} {answers : List (Option ℤ)} (h : Scheduled s)
    (hcalls : Run.Always schedulerCall (fun s a _ _ => IssuedOnce s a) s calls)
    (hrun : Run.exec schedulerCall s calls = some (answers, s'))
    (htick : .tick ∈ calls ∨ 0 ≤ s.currentScheduled) : 0 ≤ s'.currentScheduled := by
  induction calls generalizing s answers with
  | nil =>
    simp only [Run.exec_nil, Option.some.injEq, Prod.mk.injEq] at hrun
    obtain ⟨-, rfl⟩ := hrun
    simpa using htick
  | cons a calls ih =>
    obtain ⟨r, bs, s₁, hstep, hrest, -⟩ := Run.exec_cons_eq_some hrun
    obtain ⟨ha, halways⟩ := hcalls r s₁ hstep
    apply ih (h.call ha hstep) halways hrest
    have hcur := schedulerCall_current h.1 hstep
    rcases htick with hmem | hc
    · rcases List.mem_cons.mp hmem with rfl | hmem
      · exact .inr (hcur.1 rfl)
      · exact .inl hmem
    · exact .inr (hcur.2 hc)

/-- A task that has finished stays so along a run, with its exit code, and no tick chooses it. -/
theorem run_finished {calls : List SchedulerCall} {answers : List (Option ℤ)} (h : Scheduled s)
    (hcalls : Run.Always schedulerCall (fun s a _ _ => IssuedOnce s a) s calls)
    (hrun : Run.exec schedulerCall s calls = some (answers, s'))
    (hi : (s.scheduleTable i).state = .finished) :
    ((s'.scheduleTable i).state = .finished ∧
      (s'.scheduleTable i).exitcode = (s.scheduleTable i).exitcode) ∧
    Run.Always schedulerCall (fun _ a r t => a = .tick →
      t.currentScheduled ≠ (i : ℕ) ∧ r ≠ some (s.scheduleTable i).pid) s calls := by
  induction calls generalizing s answers with
  | nil =>
    simp only [Run.exec_nil, Option.some.injEq, Prod.mk.injEq] at hrun
    obtain ⟨-, rfl⟩ := hrun
    exact ⟨⟨hi, rfl⟩, trivial⟩
  | cons a calls ih =>
    obtain ⟨r, bs, s₁, hstep, hrest, -⟩ := Run.exec_cons_eq_some hrun
    obtain ⟨ha, halways⟩ := hcalls r s₁ hstep
    have hholds := schedulerCall_holds h.1 h.2 ha.1 hstep
    obtain ⟨hstate, hcode, hpid⟩ := hholds.finished i hi
    obtain ⟨⟨hstate', hcode'⟩, hnever⟩ := ih (h.call ha hstep) halways hrest hstate
    refine ⟨⟨hstate', hcode'.trans hcode⟩, fun r' t ht => ?_⟩
    obtain ⟨rfl, rfl⟩ := Prod.mk.inj (Option.some.inj (hstep.symm.trans ht))
    rw [hpid] at hnever
    exact ⟨fun htick => hholds.not_chosen htick i hi, hnever⟩

/-- **The state machine of the tasks.** In every state that a run reaches in which no process is
spawned twice, the global variables are consistent and name the process of the current entry, every
call that can be made returns and does to the entries what the state machine allows, and a task
that has finished stays so along every continuation of the run, with its exit code, and is never
chosen again.

**Proof sketch.** Every call keeps the table consistent and its PIDs different (`Scheduled.call`).
From such a state a call that is issued returns (`schedulerCall_returns`) and does what it may
(`schedulerCall_holds`). A finished entry stays as it is under each of the calls
(`run_finished`). -/
theorem scheduler_state_machine (s₀ : Scheduler) (calls : List SchedulerCall)
    (answers : List (Option ℤ)) (s : Scheduler)
    (hcalls : Run.Always schedulerCall (fun s a _ _ => IssuedOnce s a) (schedulerInit s₀) calls)
    (hrun : Run.exec schedulerCall (schedulerInit s₀) calls = some (answers, s)) :
    Consistent s ∧ (.tick ∈ calls → 0 ≤ s.currentScheduled) ∧
      (∀ a, IssuedOnce s a → ∃ r s', schedulerCall s a = some (r, s') ∧ CallHolds s a r s') ∧
      ∀ (later : List SchedulerCall) (answers' : List (Option ℤ)) (s' : Scheduler),
        Run.Always schedulerCall (fun s a _ _ => IssuedOnce s a) s later →
        Run.exec schedulerCall s later = some (answers', s') →
        ∀ i, (s.scheduleTable i).state = .finished →
          ((s'.scheduleTable i).state = .finished ∧
            (s'.scheduleTable i).exitcode = (s.scheduleTable i).exitcode) ∧
          Run.Always schedulerCall (fun _ a r t => a = .tick →
            t.currentScheduled ≠ (i : ℕ) ∧ r ≠ some (s.scheduleTable i).pid) s later := by
  have hinit : Scheduled (schedulerInit s₀) :=
    ⟨schedulerInit_consistent s₀, schedulerInit_distinct s₀⟩
  have hs : Scheduled s :=
    Run.invariant_of_always (fun _ _ _ _ hI hC hstep => hI.call hC hstep) hinit hcalls hrun
  refine ⟨hs.1, fun htick => run_current hinit hcalls hrun (.inl htick), fun a ha => ?_, ?_⟩
  · obtain ⟨r, s', hstep⟩ := schedulerCall_returns hs.1 ha.1
    exact ⟨r, s', hstep, schedulerCall_holds hs.1 hs.2 ha.1 hstep⟩
  · intro later answers' s' hlater hrun' i hi
    exact run_finished hs hlater hrun' hi

/-- The first process spawns a second one and waits for its end. -/
def waitingRun : List SchedulerCall :=
  [.spawn 0, .tick, .spawn 1, .block eventProcessFinished, .tick, .exit 7]

/-- The second process has finished, and the first one runs again and spawns a third one, while
no tick chooses the second one. -/
theorem scheduler_state_machine_waiting :
    ∃ answers s, Run.exec schedulerCall (schedulerInit .zeroed) waitingRun = some (answers, s) ∧
      Consistent s ∧ (s.scheduleTable secondEntry).state = .finished ∧
      Run.Always schedulerCall (fun _ a r t => a = .tick →
        t.currentScheduled ≠ (secondEntry : ℕ) ∧ r ≠ some (s.scheduleTable secondEntry).pid) s
        [.tick, .spawn 2, .tick] := by
  have hcalls : Run.Always schedulerCall (fun s a _ _ => IssuedOnce s a)
      (schedulerInit .zeroed) (waitingRun ++ [.tick, .spawn 2, .tick]) :=
    Run.Always.of_check (p := fun s a _ _ => decide (IssuedOnce s a))
      (fun _ _ _ _ => of_decide_eq_true) (by decide)
  have hstate : ((Run.exec schedulerCall (schedulerInit .zeroed) waitingRun).any fun r =>
      decide ((r.2.scheduleTable secondEntry).state = .finished) &&
        (Run.exec schedulerCall r.2 [.tick, .spawn 2, .tick]).isSome) = true := by decide
  cases hrun : Run.exec schedulerCall (schedulerInit .zeroed) waitingRun with
  | none => simp [hrun] at hstate
  | some last =>
    obtain ⟨answers, s⟩ := last
    simp only [hrun, Option.any_some, Bool.and_eq_true, decide_eq_true_eq] at hstate
    obtain ⟨⟨answers', s'⟩, hlater⟩ := Option.isSome_iff_exists.mp hstate.2
    obtain ⟨hs, -, -, hfinished⟩ :=
      scheduler_state_machine .zeroed waitingRun answers s hcalls.left hrun
    exact ⟨answers, s, rfl, hs, hstate.1,
      (hfinished _ answers' s' (hcalls.right hrun) hlater secondEntry hstate.1).2⟩

end Z80OS
