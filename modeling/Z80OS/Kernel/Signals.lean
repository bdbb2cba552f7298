import Z80OS.Kernel.Terminal

set_option relaxedAutoImplicit false
set_option autoImplicit false

/-!
# The cancel signal

A cancel byte is received by one interrupt and handled by another one: the receive interrupt sets a
flag of the process that is the current one then, and the timer interrupt that chooses this process
again gives its handler. Between the two, other processes run, register handlers and change their
modes.

## Main definitions

* `Z80OS.CancelOwed` — a cancel byte has been received for a process that has not been chosen since.
* `Z80OS.Delivers` — what a step does with the flags and the handlers.

## Main results

* `Z80OS.cancel_delivery` — a cancel byte reaches the process that it was received for, once.
-/

namespace Z80OS

/-- The process that a tick chooses is another one. -/
def NotChosen (i : Fin procsMax) : System → SystemCall → SystemAnswer → System → Prop :=
  fun _ a _ s' => a = .tick → processCurrent s' ≠ some i

/-- A cancel byte has been received while the process was the current one and in interactive mode,
or was to be handled when the run began, and no tick has chosen the process since. -/
def CancelOwed (s : System) (calls : List SystemCall) (i : Fin procsMax) : Prop :=
  (CancelPending s i ∧ Run.Always systemCall (NotChosen i) s calls) ∨
    ∃ before c after answers t, calls = before ++ .put c :: after ∧
      Run.exec systemCall s before = some (answers, t) ∧ Cancels t c i ∧
      Run.Always systemCall (NotChosen i) t (.put c :: after)

/-- The cancel handler of a process after a call: the current process registers its own. -/
def handlerAfter (s : System) (a : SystemCall) (i : Fin procsMax) : ℕ :=
  match a with
  | .sethandler handler sig =>
    if processCurrent s = some i ∧ sig = sigCancel then handler else (s.process i).cancel
  | .put _ | .get | .setMode _ | .spawn _ | .block _ | .exit _ | .tick => (s.process i).cancel

/-- What a step does with the flags and the handlers: a cancel byte sets the flag of the current
process and changes nothing else, and a tick gives the handler of the process that it chooses and
clears its flag when this flag is set. It gives no handler otherwise, and it switches to the bank of
the process in both cases. -/
structure Delivers (s : System) (a : SystemCall) (r : SystemAnswer) (s' : System) : Prop where
  flags : ∀ i, CancelPending s' i ↔ flagAfter s a s' i
  handlers : ∀ i, (s'.process i).cancel = handlerAfter s a i
  put : ∀ c i, a = .put c → Cancels s c i → s' = s.setProcess i
    { s.process i with sigstatus := bitSet (s.process i).sigstatus sigstatCancel }
  tick : a = .tick → ∃ i, processCurrent s' = some i ∧
    r = .handler (if CancelPending s i then (s.process i).cancel else 0) ∧
    (schedulerTick s.kernel).map Prod.fst = some (s.process i).bank

section

variable {s s' : System} {a : SystemCall} {r : SystemAnswer} {calls : List SystemCall}
  {answers : List SystemAnswer} {i : Fin procsMax} {c : UInt8}

/-! ## Steps -/

/-- The handler of a process after a step. -/
theorem systemCall_handlers (h : systemCall s a = some (r, s')) :
    (s'.process i).cancel = handlerAfter s a i := by
  rw [systemCall_process h]
  cases a with
  | sethandler handler sig =>
    simp only [descriptorAfter, handlerAfter]
    by_cases hcur : processCurrent s = some i
    · simp only [hcur, if_true, true_and]
      split_ifs <;> rfl
    · simp only [hcur, if_false, false_and]
  | put | setMode | tick =>
    simp only [descriptorAfter, handlerAfter]
    split_ifs <;> rfl
  | _ => rfl

/-- A cancel byte changes nothing but the flag of the current process. -/
theorem terminalPut_cancels (h : terminalPut s c = some s') (hc : Cancels s c i) :
    s' = s.setProcess i
      { s.process i with sigstatus := bitSet (s.process i).sigstatus sigstatCancel } := by
  cases terminalPut_cases h with
  | @withheld j hj =>
    obtain rfl := Option.some.inj (hj.2.1.symm.trans hc.2.1)
    rfl
  | stored hnot => exact absurd ⟨i, hc⟩ hnot

/-- A tick gives the handler of the process that it chooses when the flag of this process is set. -/
theorem timerHandler_delivers {handler : ℕ} (h : timerHandler s = some (handler, s')) :
    ∃ i, processCurrent s' = some i ∧
      handler = (if CancelPending s i then (s.process i).cancel else 0) ∧
      (schedulerTick s.kernel).map Prod.fst = some (s.process i).bank := by
  cases timerHandler_cases h with
  | @signal k i hbank htable hcur hp =>
    exact ⟨i, hcur, (if_pos hp).symm, by rw [hbank, Option.map_some]⟩
  | @none k i hbank htable hcur hp =>
    exact ⟨i, hcur, (if_neg hp).symm, by rw [hbank, Option.map_some]⟩

/-- **One step of the signals.** -/
theorem systemCall_delivers (h : systemCall s a = some (r, s')) : Delivers s a r s' where
  flags i := systemCall_flags h
  handlers i := systemCall_handlers h
  put c i ha hc := by
    subst ha
    simp only [systemCall, Option.map_eq_some_iff, Prod.mk.injEq] at h
    obtain ⟨s₁, hput, -, rfl⟩ := h
    exact terminalPut_cancels hput hc
  tick ha := by
    subst ha
    simp only [systemCall, Option.map_eq_some_iff, Prod.mk.injEq] at h
    obtain ⟨⟨handler, s₁⟩, htick, rfl, rfl⟩ := h
    obtain ⟨i, hcur, rfl, hbank⟩ := timerHandler_delivers htick
    exact ⟨i, hcur, rfl, hbank⟩

/-- The current-process pointer points into the table after a step when it did so before.

**Proof sketch.** By cases on the step. Only a tick writes the pointer, and it leaves it at the
entry of the process that it chose (`timerHandler_delivers`). -/
theorem systemCall_current (hs : (processCurrent s).isSome) (h : systemCall s a = some (r, s')) :
    (processCurrent s').isSome := by
  cases a with
  | put c =>
    simp only [systemCall, Option.map_eq_some_iff, Prod.mk.injEq] at h
    obtain ⟨s₁, hput, -, rfl⟩ := h
    cases terminalPut_cases hput <;> exact hs
  | get =>
    simp only [systemCall, Option.some.injEq, Prod.mk.injEq] at h
    obtain ⟨-, rfl⟩ := h
    unfold terminalGet
    split_ifs <;> exact hs
  | setMode mode =>
    simp only [systemCall, terminalSetMode, Option.map_map, Option.map_eq_some_iff] at h
    obtain ⟨j, -, h⟩ := h
    obtain ⟨-, rfl⟩ := Prod.mk.inj h
    split_ifs <;> exact hs
  | sethandler handler sig =>
    simp only [systemCall, signalSethandler, Option.map_map, Option.map_eq_some_iff] at h
    obtain ⟨j, -, h⟩ := h
    obtain ⟨-, rfl⟩ := Prod.mk.inj h
    split_ifs <;> exact hs
  | spawn pd =>
    simp only [systemCall, processSpawn, Option.map_map, Option.map_eq_some_iff] at h
    obtain ⟨j, -, h⟩ := h
    obtain ⟨-, rfl⟩ := Prod.mk.inj h
    simp only [processCurrent, System.withKernel, schedulerAdd]
    split <;> exact hs
  | block event =>
    simp only [systemCall, schedulerBlockCurrent, Option.map_map, Option.map_eq_some_iff] at h
    obtain ⟨j, -, h⟩ := h
    obtain ⟨-, rfl⟩ := Prod.mk.inj h
    exact hs
  | exit code =>
    simp only [systemCall, processExit, schedulerExit, Option.map_map, Option.map_eq_some_iff] at h
    obtain ⟨j, -, h⟩ := h
    obtain ⟨-, rfl⟩ := Prod.mk.inj h
    exact hs
  | tick =>
    simp only [systemCall, Option.map_eq_some_iff, Prod.mk.injEq] at h
    obtain ⟨⟨handler, s₁⟩, htick, -, rfl⟩ := h
    obtain ⟨i, hcur, -⟩ := timerHandler_delivers htick
    exact Option.isSome_iff_exists.mpr ⟨i, hcur⟩

/-- A call that acts on the current process returns when there is one. -/
theorem systemCall_returns (hs : (processCurrent s).isSome)
    (ha : (∃ c, a = .put c) ∨ (∃ mode, a = .setMode mode) ∨
      ∃ handler sig, a = .sethandler handler sig) :
    (systemCall s a).isSome := by
  obtain ⟨i, hi⟩ := Option.isSome_iff_exists.mp hs
  obtain ⟨c, rfl⟩ | ⟨mode, rfl⟩ | ⟨handler, sig, rfl⟩ := ha
  · simp only [systemCall, terminalPut, terminalStatus, signalSet, hi, Option.map_some,
      Option.isSome_map]
    split_ifs <;> rfl
  · simp [systemCall, terminalSetMode, hi]
  · simp [systemCall, signalSethandler, hi]

/-! ## Runs -/

/-- The flag of a process is set after a step when it was set before and the process has not been
chosen, or when a cancel byte has been received for it. -/
theorem flagAfter_iff : flagAfter s a s' i ↔
    (CancelPending s i ∧ NotChosen i s a r s') ∨ ∃ c, a = .put c ∧ Cancels s c i := by
  cases a with
  | put c =>
    constructor
    · rintro (hp | hc)
      · exact .inl ⟨hp, fun h => absurd h (by simp)⟩
      · exact .inr ⟨c, rfl, hc⟩
    · rintro (⟨hp, -⟩ | ⟨c', h, hc⟩)
      · exact .inl hp
      · obtain rfl := SystemCall.put.inj h
        exact .inr hc
  | tick =>
    constructor
    · exact fun h => .inl ⟨h.1, fun _ => h.2⟩
    · rintro (⟨hp, hnot⟩ | ⟨c, h, -⟩)
      · exact ⟨hp, hnot rfl⟩
      · exact absurd h (by simp)
  | _ =>
    constructor
    · exact fun h => .inl ⟨h, fun h => absurd h (by simp)⟩
    · rintro (⟨hp, -⟩ | ⟨c, h, -⟩)
      · exact hp
      · exact absurd h (by simp)

/-- The first step of a run, for what is owed after it.

**Proof sketch.** A flag after the first step was there before and not delivered, or is set by a
cancel byte in this step (`systemCall_flags`, `flagAfter_iff`). A cancel byte of the run is the
first step or comes in the rest of the run. -/
theorem cancelOwed_cons (hr : systemCall s a = some (r, s')) :
    CancelOwed s (a :: calls) i ↔ CancelOwed s' calls i := by
  have hflag : CancelPending s' i ↔
      (CancelPending s i ∧ NotChosen i s a r s') ∨ ∃ c, a = .put c ∧ Cancels s c i :=
    (systemCall_flags hr).trans flagAfter_iff
  constructor
  · rintro (⟨hp, hnot⟩ | ⟨before, c, after, answers, t, hcalls, hrun, hc, hnot⟩)
    · obtain ⟨hfirst, hrest⟩ := hnot r s' hr
      exact .inl ⟨hflag.mpr (.inl ⟨hp, hfirst⟩), hrest⟩
    · cases before with
      | nil =>
        obtain ⟨rfl, rfl⟩ := List.cons.inj hcalls
        obtain ⟨-, rfl⟩ := Prod.mk.inj (Option.some.inj hrun)
        exact .inl ⟨hflag.mpr (.inr ⟨c, rfl, hc⟩), (hnot r s' hr).2⟩
      | cons b before =>
        obtain ⟨rfl, rfl⟩ := List.cons.inj hcalls
        obtain ⟨r', answers', s₁, hstep, hrest, -⟩ := Run.exec_cons_eq_some hrun
        obtain ⟨-, rfl⟩ := Prod.mk.inj (Option.some.inj (hr.symm.trans hstep))
        exact .inr ⟨before, c, after, answers', t, rfl, hrest, hc, hnot⟩
  · rintro (⟨hp, hnot⟩ | ⟨before, c, after, answers, t, rfl, hrun, hc, hnot⟩)
    · have halways : NotChosen i s a r s' → Run.Always systemCall (NotChosen i) s (a :: calls) := by
        intro hfirst r' s₁ hstep
        obtain ⟨rfl, rfl⟩ := Prod.mk.inj (Option.some.inj (hr.symm.trans hstep))
        exact ⟨hfirst, hnot⟩
      rcases hflag.mp hp with ⟨hp, hfirst⟩ | ⟨c, rfl, hc⟩
      · exact .inl ⟨hp, halways hfirst⟩
      · exact .inr ⟨[], c, calls, [], s, rfl, rfl, hc, halways fun h => absurd h (by simp)⟩
    · refine .inr ⟨a :: before, c, after, r :: answers, t, rfl, ?_, hc, hnot⟩
      rw [Run.exec_cons_of_some hr, hrun]
      rfl

/-- **The flags along a run.** The flag of a process is set exactly when a cancel byte has been
received for it and no tick has chosen it since.

**Proof sketch.** Induction on the run; what is owed after a step is `cancelOwed_cons`. -/
theorem run_owed (hrun : Run.exec systemCall s calls = some (answers, s')) :
    CancelPending s' i ↔ CancelOwed s calls i := by
  induction calls generalizing s answers with
  | nil =>
    obtain ⟨-, rfl⟩ := Prod.mk.inj (Option.some.inj hrun)
    constructor
    · exact fun hp => .inl ⟨hp, trivial⟩
    · rintro (⟨hp, -⟩ | ⟨before, c, after, -, -, hcalls, -⟩)
      · exact hp
      · exact absurd hcalls (by simp)
  | cons a calls ih =>
    obtain ⟨r, answers, s₁, hstep, hrest, rfl⟩ := Run.exec_cons_eq_some hrun
    rw [ih hrest, cancelOwed_cons hstep]

/-- **A cancel byte reaches the right process once.** After every run that begins behind the first
tick, bytes are received and the current process changes its mode and registers handlers without
fail. The flag of a process is set exactly when a cancel byte has been received while it was the
current process and in interactive mode, and no tick has chosen it since. In the next step, whatever
it is, a cancel byte for a process sets the flag of this process and changes nothing else; and a
tick gives the cancel handler that the process it chooses has registered, and clears its flag, when
the flag of this process is set, and gives no handler otherwise.

**Proof sketch.** Behind the first tick there is always a current process (`systemCall_current`).
What is owed to a process follows the calls of the run one by one (`run_owed`), and so does what the
next one delivers (`systemCall_delivers`). -/
theorem cancel_delivery (hfirst : (processCurrent s).isSome)
    (hrun : Run.exec systemCall s calls = some (answers, s')) :
    (∀ a, ((∃ c, a = .put c) ∨ (∃ mode, a = .setMode mode) ∨
        ∃ handler sig, a = .sethandler handler sig) → (systemCall s' a).isSome) ∧
      (∀ i, CancelPending s' i ↔ CancelOwed s calls i) ∧
      ∀ a r s'', systemCall s' a = some (r, s'') → Delivers s' a r s'' := by
  have hcur : (processCurrent s').isSome :=
    Run.invariant (I := fun t => (processCurrent t).isSome = true)
      (fun _ _ _ _ hs h => systemCall_current hs h) hfirst hrun
  exact ⟨fun a => systemCall_returns hcur, fun i => run_owed hrun,
    fun a r s'' => systemCall_delivers⟩

end

/-! ## Two processes -/

/-- A process registers a handler and is interrupted by a tick, and the cancel byte is received
while the second process runs. -/
def deliveryRun : List SystemCall :=
  [.sethandler 0x8100 sigCancel, .tick, .sethandler 0x8200 sigCancel, .put asciiCancel, .tick]

/-- The system behind its first tick, with two processes. -/
def tickedSystem : System :=
  match Run.exec systemCall (terminalInit smallSystem) [.spawn 0, .spawn 1, .tick] with
  | some (_, s) => s
  | none => smallSystem

/-- The first process runs without a handler to go on to, and the second one goes on to its own. -/
theorem cancel_delivery_deliveryRun :
    ∃ answers s' r s'', Run.exec systemCall tickedSystem deliveryRun = some (answers, s') ∧
      answers = [.done, .handler 0, .done, .done, .handler 0] ∧
      systemCall s' .tick = some (r, s'') ∧ r = .handler 0x8200 ∧ Delivers s' .tick r s'' := by
  have htest : ((Run.exec systemCall tickedSystem deliveryRun).any fun r =>
      decide (r.1 = [.done, .handler 0, .done, .done, .handler 0]) &&
        (systemCall r.2 .tick).any fun r' => decide (r'.1 = .handler 0x8200)) = true := by
    decide +kernel
  obtain ⟨⟨answers, s'⟩, hrun, hs'⟩ := (Option.any_eq_true _ _).mp htest
  rw [Bool.and_eq_true] at hs'
  obtain ⟨⟨r, s''⟩, hstep, hr⟩ := (Option.any_eq_true _ _).mp hs'.2
  exact ⟨answers, s', r, s'', hrun, of_decide_eq_true hs'.1, hstep, of_decide_eq_true hr,
    (cancel_delivery (by decide +kernel) hrun).2.2 _ r s'' hstep⟩

end Z80OS
