import Mathlib.Data.Fintype.Card
import Z80OS.Kernel.StateMachine
import Z80OS.Lib.Cyclic

set_option relaxedAutoImplicit false
set_option autoImplicit false

/-!
# Round-robin scheduling

Calls of `scheduler_next` with nothing between them go round the entries that can be scheduled. The
running entry becomes ready again at the beginning of a call, so the set of these entries stays the
same, and a call chooses the first of them behind the current one.

## Main definitions

* `Z80OS.Scheduler.CanRun` — the entries that can be scheduled.
* `Z80OS.Scheduler.roundRobin` — these entries in cyclic order, from behind the current one on.
* `Z80OS.schedulerNexts` — calls of `scheduler_next` with nothing between them.

## Main results

* `Z80OS.schedulerNext_roundRobin` — what one call does.
* `Z80OS.round_robin` — as many calls as there are entries give each PID once, in cyclic order.
-/

namespace Z80OS

variable {s s' : Scheduler} {i j : Fin maxScheduled} {k : ℕ} {rest : List (Fin maxScheduled)}

namespace Scheduler

/-- An entry that can be scheduled: it is ready, or it is the current one and running. -/
def CanRun (s : Scheduler) (i : Fin maxScheduled) : Prop :=
  (s.scheduleTable i).state = .ready ∨
    (s.scheduleTable i).state = .running ∧ s.currentScheduled = (i : ℕ)

instance (s : Scheduler) (i : Fin maxScheduled) : Decidable (s.CanRun i) :=
  inferInstanceAs (Decidable (_ ∨ _))

/-- The entries that can be scheduled, in cyclic order from behind the current one on. -/
def roundRobin (s : Scheduler) : List (Fin maxScheduled) :=
  (Cyclic.startingAt maxScheduled (s.currentScheduled + 1).toNat).filter fun i => s.CanRun i

/-- No entry has two turns in a round. -/
theorem nodup_roundRobin : s.roundRobin.Nodup := Cyclic.nodup_startingAt.filter _

/-- The entries of a round are those that can run. -/
theorem mem_roundRobin : i ∈ s.roundRobin ↔ s.CanRun i := by simp [roundRobin]

end Scheduler

/-! ## The search -/

/-- An entry that can be scheduled is ready once the running entry has become so. -/
theorem preempt_ready_iff :
    (s.preempt.scheduleTable i).state = .ready ↔ s.CanRun i := by
  rw [preempt_table, Scheduler.CanRun]
  split_ifs with hrun
  · simp [hrun]
  · constructor
    · exact .inl
    · rintro (hready | ⟨hstate, hcur⟩)
      · exact hready
      · exact absurd ⟨hcur, hstate⟩ hrun

/-- The search for the next task finds the one that is the fewest turns away.

**Proof sketch.** Induction on the number of turns. A turn that does not end the search leaves an
entry that is not ready, and brings all entries that are ready one turn closer. -/
theorem schedulerNextLoop_first (h : schedulerNextLoop k s = some (i, s'))
    (hn : s.numScheduled ≤ maxScheduled)
    (hc : -1 ≤ s.currentScheduled ∧ s.currentScheduled < s.numScheduled)
    (hi : i < s.numScheduled) (hj : j < s.numScheduled)
    (hready : (s.scheduleTable j).state = .ready) :
    turnsTo s.numScheduled s.currentScheduled i ≤ turnsTo s.numScheduled s.currentScheduled j := by
  induction k generalizing s with
  | zero => exact absurd h (by simp [schedulerNextLoop])
  | succ k ih =>
    have hadv : s.advance.currentScheduled = if s.currentScheduled + 1 ≥ s.numScheduled then 0
      else s.currentScheduled + 1 := rfl
    have hrange : 0 ≤ s.advance.currentScheduled ∧
        s.advance.currentScheduled < s.numScheduled := by
      rw [hadv]
      split_ifs <;> omega
    simp only [schedulerNextLoop] at h
    cases hindex : scheduleIndex? s.advance.currentScheduled with
    | none => simp [hindex] at h
    | some a =>
      rw [hindex] at h
      simp only at h
      rw [scheduleIndex?_eq_some_iff] at hindex
      by_cases hstop : (s.scheduleTable a).state = .ready
      · rw [if_pos hstop, Option.some.injEq, Prod.mk.injEq] at h
        obtain ⟨rfl, -⟩ := h
        rw [hindex] at hadv
        unfold turnsTo
        split_ifs at hadv ⊢ <;> omega
      · rw [if_neg hstop] at h
        have hfound := (schedulerNextLoop_ready h).2
        have hia : (i : ℕ) ≠ a := by
          intro heq
          obtain rfl : i = a := Fin.ext heq
          exact hstop hfound
        have hja : (j : ℕ) ≠ a := by
          intro heq
          obtain rfl : j = a := Fin.ext heq
          exact hstop hready
        have hstart : -1 ≤ s.advance.currentScheduled := by omega
        have hrest := ih h hn ⟨hstart, hrange.2⟩ hi hj hready
        have hnum : s.advance.numScheduled = s.numScheduled := rfl
        rw [hnum] at hrest
        rw [hindex] at hadv hrest
        unfold turnsTo at hrest ⊢
        split_ifs at hadv hrest ⊢ <;> omega

/-- The entries that can be scheduled are in use. -/
theorem Consistent.lt_num (h : Consistent s) (hi : s.CanRun i) : (i : ℕ) < s.numScheduled := by
  apply (h.used i).mp
  intro hfree
  rcases hi with hi | ⟨hi, -⟩ <;> rw [hfree] at hi <;> exact absurd hi (by simp)

/-! ## One call -/

/-- **What one call does.** It chooses the first entry that can be scheduled behind the current one.
Then the same entries can be scheduled, and the chosen one comes last.

**Proof sketch.** The loop stops at an entry that can run, and meets no other such entry before it
(`schedulerNextLoop_first`), so that the entry is the head of the list that starts behind the
current one (`Cyclic.filter_startingAt_eq_cons`). Afterwards the same entries can run, and the list
that starts behind the chosen one is the rest with the chosen one at the end
(`Cyclic.filter_startingAt_next`). -/
theorem schedulerNext_roundRobin (h : Consistent s) (hs : s.roundRobin ≠ []) :
    ∃ i rest s', s.roundRobin = i :: rest ∧
      schedulerNext s = some ((s.scheduleTable i).pid, s') ∧ Consistent s' ∧
      s'.roundRobin = rest ++ [i] ∧
      ∀ j, (s'.scheduleTable j).pid = (s.scheduleTable j).pid := by
  have hany : Schedulable s := by
    obtain ⟨a, ha⟩ := List.exists_mem_of_ne_nil _ hs
    exact ⟨a, (Scheduler.mem_roundRobin.mp ha).imp_right And.left⟩
  obtain ⟨⟨pid, s'⟩, hnext⟩ := Option.isSome_iff_exists.mp (schedulerNext_isSome h hany)
  have hloop := hnext
  simp only [schedulerNext, Option.map_eq_some_iff, Prod.mk.injEq] at hloop
  obtain ⟨⟨i, s₁⟩, hloop, hpid, hs'⟩ := hloop
  obtain ⟨hs₁, hready⟩ := schedulerNextLoop_ready hloop
  have hi : s.CanRun i := preempt_ready_iff.mp hready
  have hn := h.num_le
  have hc := h.current
  -- no entry that can be scheduled is met before
  obtain ⟨rest, hrest⟩ : ∃ rest, s.roundRobin = i :: rest := by
    apply Cyclic.filter_startingAt_eq_cons (by simpa using hi)
    intro t t' hlt ht hit j hjt
    rw [decide_eq_false_iff_not]
    intro hj
    have hfirst := schedulerNextLoop_first hloop (by simpa using hn) (by simpa using hc)
      (by simpa using h.lt_num hi) (by simpa using h.lt_num hj) (preempt_ready_iff.mpr hj)
    rw [preempt_num, preempt_current] at hfirst
    have hilt := h.lt_num hi
    have hjlt := h.lt_num hj
    unfold turnsTo at hfirst
    unfold maxScheduled at hn ht hit hjt
    split_ifs at hfirst <;> omega
  obtain ⟨i', -, hpid', hcur, -, -, -, htable⟩ := schedulerNext_eq_some hnext
  obtain rfl : i' = i := by
    have hcur' : s'.currentScheduled = (i : ℕ) := by rw [← hs', hs₁]; rfl
    exact Fin.ext (by omega)
  have hcan : ∀ j, s'.CanRun j ↔ s.CanRun j := by
    intro j
    rw [← preempt_ready_iff (s := s), Scheduler.CanRun, htable, setState_table]
    by_cases hj : j = i'
    · subst hj
      simp [hready, hcur]
    · have hnot : (s.preempt.scheduleTable j).state ≠ .running := h.preempt_not_running
      simp [hj, hnot]
  refine ⟨i', rest, s', hrest, by rw [hnext, hpid'], h.next hnext, ?_, fun j => ?_⟩
  · have hsame : (fun j => decide (s'.CanRun j)) = fun j => decide (s.CanRun j) := by
      funext j
      exact decide_eq_decide.2 (hcan j)
    rw [Scheduler.roundRobin, hsame, hcur]
    exact Cyclic.filter_startingAt_next hrest
  · rw [htable, setState_table]
    split_ifs with hj
    · rw [hj, preempt_pid]
    · exact preempt_pid

/-! ## Many calls -/

/-- `n` calls of `scheduler_next` with nothing between them. -/
def schedulerNexts (n : ℕ) (s : Scheduler) : Option (List ℤ × Scheduler) :=
  Run.exec (fun s (_ : Unit) => schedulerNext s) s (List.replicate n ())

/-- The calls choose the entries in their order, and those come last then.

**Proof sketch.** Induction on the number of calls. Each call chooses the first entry and puts it
behind the last one. -/
theorem schedulerNexts_roundRobin {first : List (Fin maxScheduled)} (h : Consistent s)
    (hs : s.roundRobin = first ++ rest) :
    ∃ s', schedulerNexts first.length s = some (first.map fun i => (s.scheduleTable i).pid, s') ∧
      s'.roundRobin = rest ++ first := by
  induction first generalizing s rest with
  | nil => exact ⟨s, rfl, by simpa using hs⟩
  | cons i first ih =>
    obtain ⟨i', rest', s₁, hfirst, hnext, h₁, hround, hpid⟩ :=
      schedulerNext_roundRobin h (by rw [hs]; exact List.cons_ne_nil _ _)
    rw [hs, List.cons_append, List.cons.injEq] at hfirst
    obtain ⟨rfl, rfl⟩ := hfirst
    rw [List.append_assoc] at hround
    obtain ⟨s₂, hcalls, hlast⟩ := ih h₁ hround
    refine ⟨s₂, ?_, by rw [hlast, List.append_assoc, List.singleton_append]⟩
    have hstep : (fun s (_ : Unit) => schedulerNext s) s () =
      some ((s.scheduleTable i).pid, s₁) := hnext
    unfold schedulerNexts at hcalls ⊢
    rw [List.length_cons, List.replicate_succ, Run.exec_cons_of_some hstep, hcalls]
    simp only [Option.map_some, List.map_cons, hpid]

/-- **Round-robin order.** In every state that is reached and in which some entry can be scheduled,
as many calls of `scheduler_next` as there are such entries, with no other operation between them,
return and give the PIDs of these entries in cyclic order from behind the current one on, each
entry exactly once.

**Proof sketch.** There are as many entries that can be scheduled as the cyclic order has, and each
call gives the next of them, which leaves the others able to run (`schedulerNexts_roundRobin`). -/
theorem round_robin (s₀ : Scheduler) (calls : List SchedulerCall) {answers : List (Option ℤ)}
    (hissued : Run.Always schedulerCall (fun s a _ _ => Issued s a) (schedulerInit s₀) calls)
    (hrun : Run.exec schedulerCall (schedulerInit s₀) calls = some (answers, s))
    (hne : ∃ i, s.CanRun i) :
    s.roundRobin.Nodup ∧ (∀ i, i ∈ s.roundRobin ↔ s.CanRun i) ∧ s.roundRobin ≠ [] ∧
      ∃ s', schedulerNexts (Finset.univ.filter s.CanRun).card s =
        some (s.roundRobin.map fun i => (s.scheduleTable i).pid, s') := by
  have h : Consistent s := Run.invariant_of_always (C := Issued)
    (fun s a r s' h ha hr => schedulerCall_consistent h ha hr) (schedulerInit_consistent s₀)
    hissued hrun
  have hcard : (Finset.univ.filter s.CanRun).card = s.roundRobin.length := by
    rw [← List.toFinset_card_of_nodup Scheduler.nodup_roundRobin]
    congr 1
    ext i
    simp [Scheduler.mem_roundRobin]
  obtain ⟨i, hi⟩ := hne
  have happend : s.roundRobin = s.roundRobin ++ [] := (List.append_nil _).symm
  obtain ⟨s', hcalls, -⟩ := schedulerNexts_roundRobin h happend
  refine ⟨Scheduler.nodup_roundRobin, fun i => Scheduler.mem_roundRobin,
    List.ne_nil_of_mem (Scheduler.mem_roundRobin.mpr hi), s', ?_⟩
  rw [hcard]
  exact hcalls

/-- The kernel spawns two processes, and the first one runs and spawns a third one. -/
def threeRun : List SchedulerCall := [.spawn 4, .spawn 2, .tick, .spawn 7]

/-- The second process comes next, then the third one and the first one. -/
theorem round_robin_threeRun :
    ∃ answers s s', Run.exec schedulerCall (schedulerInit .zeroed) threeRun = some (answers, s) ∧
      schedulerNexts (Finset.univ.filter s.CanRun).card s =
        some (s.roundRobin.map fun i => (s.scheduleTable i).pid, s') := by
  have hall : ((Run.exec schedulerCall (schedulerInit .zeroed) threeRun).map fun r =>
      decide (r.2.CanRun firstEntry)) = some true := by decide
  rw [Option.map_eq_some_iff] at hall
  obtain ⟨⟨answers, s⟩, hrun, hcan⟩ := hall
  have hissued : Run.Always schedulerCall (fun s a _ _ => Issued s a) (schedulerInit .zeroed)
      threeRun := Run.Always.of_check (p := fun s a _ _ => decide (Issued s a))
    (fun _ _ _ _ => of_decide_eq_true) (by decide)
  obtain ⟨-, -, -, s', hcalls⟩ :=
    round_robin .zeroed threeRun hissued hrun ⟨firstEntry, of_decide_eq_true hcan⟩
  exact ⟨answers, s, s', hrun, hcalls⟩

end Z80OS
