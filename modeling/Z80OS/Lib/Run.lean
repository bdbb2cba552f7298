import Mathlib.Data.Option.Basic

set_option relaxedAutoImplicit false
set_option autoImplicit false

/-!
# Runs of a partial step function

A component is a step function that takes a state and a call and gives an answer and the next
state, or nothing when the call does not return. A run is a list of calls executed one after the
other. This file has the rules that take a fact about one step to a fact about a whole run.

## Main definitions

* `Run.exec` — the answers and the last state of a run in which every call returns.
* `Run.Always` — a relation holds for every step of a run.
* `Run.check` — a test for that.
* `Run.Each` — a relation holds for every call that is made, whether it returns or not.
* `Run.checkEach` — a test for that.

## Main results

* `Run.invariant` — an invariant of the step function is an invariant of runs.
* `Run.exec_congr` — step functions that agree on an invariant have the same runs.
* `Run.Always.of_invariant` — a relation between the states around a step that an invariant
  implies holds along every run.
* `Run.invariant_of_always` — an invariant of the steps that meet a condition holds after runs
  whose steps all meet it.
* `Run.Each.congr` — relations between states and calls that agree on an invariant hold for the same
  runs.
* `Run.exec_append` — a run in two parts.
-/

namespace Run

variable {σ α β : Type*}

/-- The answers and the last state of a run, when every call returns. -/
def exec (step : σ → α → Option (β × σ)) : σ → List α → Option (List β × σ)
  | s, [] => some ([], s)
  | s, a :: as =>
    match step s a with
    | none => none
    | some (b, s) =>
      match exec step s as with
      | none => none
      | some (bs, s) => some (b :: bs, s)

/-- A relation between the state before a call, the call, its answer and the state after it holds
for every step of a run, as far as the calls return. -/
def Always (step : σ → α → Option (β × σ)) (P : σ → α → β → σ → Prop) : σ → List α → Prop
  | _, [] => True
  | s, a :: as => ∀ b s', step s a = some (b, s') → P s a b s' ∧ Always step P s' as

/-- The run has a decidable relation at every step. -/
def check (step : σ → α → Option (β × σ)) (p : σ → α → β → σ → Bool) : σ → List α → Bool
  | _, [] => true
  | s, a :: as =>
    match step s a with
    | none => true
    | some (b, s') => p s a b s' && check step p s' as

/-- A relation between the state before a call and the call holds for every call of a run that is
made, also for the last one when it does not return. -/
def Each (step : σ → α → Option (β × σ)) (C : σ → α → Prop) : σ → List α → Prop
  | _, [] => True
  | s, a :: as => C s a ∧ ∀ b s', step s a = some (b, s') → Each step C s' as

/-- The run has a decidable relation at every call. -/
def checkEach (step : σ → α → Option (β × σ)) (p : σ → α → Bool) : σ → List α → Bool
  | _, [] => true
  | s, a :: as =>
    p s a && match step s a with
      | none => true
      | some (_, s') => checkEach step p s' as

variable {step step' : σ → α → Option (β × σ)} {I : σ → Prop} {C : σ → α → Prop}
  {P : σ → α → β → σ → Prop} {s s' : σ} {a : α} {b : β} {as as' : List α} {bs : List β}

/-- A run of no actions. -/
@[simp] theorem exec_nil : exec step s [] = some ([], s) := rfl

/-- A run whose first action has a result goes on from the state behind it. -/
theorem exec_cons_of_some (h : step s a = some (b, s')) :
    exec step s (a :: as) = (exec step s' as).map fun r => (b :: r.1, r.2) := by
  simp only [exec, h]
  cases exec step s' as <;> rfl

/-- A run has no result when its first action has none. -/
theorem exec_cons_of_none (h : step s a = none) : exec step s (a :: as) = none := by
  simp only [exec, h]

/-- The first step of a run that returns, and the rest of it. -/
theorem exec_cons_eq_some (h : exec step s (a :: as) = some (bs, s')) :
    ∃ b bs' s₁, step s a = some (b, s₁) ∧ exec step s₁ as = some (bs', s') ∧ bs = b :: bs' := by
  cases hs : step s a with
  | none => rw [exec_cons_of_none hs] at h; exact absurd h (by simp)
  | some r =>
    obtain ⟨b, s₁⟩ := r
    rw [exec_cons_of_some hs, Option.map_eq_some_iff] at h
    obtain ⟨⟨bs', s₂⟩, hr, he⟩ := h
    simp only [Prod.mk.injEq] at he
    exact ⟨b, bs', s₁, rfl, he.2 ▸ hr, he.1.symm⟩

/-- A run in two parts. -/
theorem exec_append (h : exec step s as = some (bs, s')) :
    exec step s (as ++ as') = (exec step s' as').map fun r => (bs ++ r.1, r.2) := by
  induction as generalizing s bs with
  | nil =>
    simp only [exec_nil, Option.some.injEq, Prod.mk.injEq] at h
    obtain ⟨rfl, rfl⟩ := h
    simp
  | cons a as ih =>
    obtain ⟨b, bs', s₁, h₁, h₂, rfl⟩ := exec_cons_eq_some h
    rw [List.cons_append, exec_cons_of_some h₁, ih h₂, Option.map_map]
    rfl

/-- A run whose first part does not return does not return. -/
theorem exec_append_of_none (h : exec step s as = none) : exec step s (as ++ as') = none := by
  induction as generalizing s with
  | nil => exact absurd h (by simp)
  | cons a as ih =>
    cases hs : step s a with
    | none => exact exec_cons_of_none hs
    | some r =>
      rw [exec_cons_of_some hs, Option.map_eq_none_iff] at h
      rw [List.cons_append, exec_cons_of_some hs, ih h, Option.map_none]

/-- A relation that holds along a run may be weakened. -/
theorem Always.mono {Q : σ → α → β → σ → Prop} (hPQ : ∀ s a b s', P s a b s' → Q s a b s')
    (h : Always step P s as) : Always step Q s as := by
  induction as generalizing s with
  | nil => trivial
  | cons a as ih => exact fun b s' hs => (h b s' hs).imp (hPQ s a b s') ih

/-- Two relations that hold along a run. -/
theorem Always.and {Q : σ → α → β → σ → Prop} (h : Always step P s as) (h' : Always step Q s as) :
    Always step (fun s a b s' => P s a b s' ∧ Q s a b s') s as := by
  induction as generalizing s with
  | nil => trivial
  | cons a as ih =>
    intro b s' hs
    obtain ⟨hp, hrest⟩ := h b s' hs
    obtain ⟨hq, hrest'⟩ := h' b s' hs
    exact ⟨⟨hp, hq⟩, ih hrest hrest'⟩

/-- A relation that always holds does so along every run. -/
theorem Always.of_forall (h : ∀ s a b s', P s a b s') : Always step P s as := by
  induction as generalizing s with
  | nil => trivial
  | cons a as ih => exact fun b s' _ => ⟨h s a b s', ih⟩

/-- The first part of a run. -/
theorem Always.left (h : Always step P s (as ++ as')) : Always step P s as := by
  induction as generalizing s with
  | nil => trivial
  | cons a as ih => exact fun b s' hs => (h b s' hs).imp id ih

/-- The second part of a run whose first part returns. -/
theorem Always.right (h : Always step P s (as ++ as')) (hr : exec step s as = some (bs, s')) :
    Always step P s' as' := by
  induction as generalizing s bs with
  | nil =>
    simp only [exec_nil, Option.some.injEq, Prod.mk.injEq] at hr
    exact hr.2 ▸ h
  | cons a as ih =>
    obtain ⟨b, bs', s₁, h₁, h₂, -⟩ := exec_cons_eq_some hr
    exact ih (h b s₁ h₁).2 h₂

/-- The last step of a run. -/
theorem Always.last {s'' : σ} (h : Always step P s (as ++ [a]))
    (hr : exec step s as = some (bs, s'))
    (hs : step s' a = some (b, s'')) : P s' a b s'' :=
  (h.right hr b s'' hs).1

/-- A test of a run shows that a relation holds along it. -/
theorem Always.of_check {p : σ → α → β → σ → Bool} (hp : ∀ s a b s', p s a b s' = true → P s a b s')
    (h : check step p s as = true) : Always step P s as := by
  induction as generalizing s with
  | nil => trivial
  | cons a as ih =>
    intro b s' hs
    simp only [check, hs, Bool.and_eq_true] at h
    exact ⟨hp _ _ _ _ h.1, ih h.2⟩

/-- **The invariant rule.** What every call keeps, every run keeps. -/
theorem invariant (hstep : ∀ s a b s', I s → step s a = some (b, s') → I s') (hs : I s)
    (h : exec step s as = some (bs, s')) : I s' := by
  induction as generalizing s bs with
  | nil =>
    simp only [exec_nil, Option.some.injEq, Prod.mk.injEq] at h
    exact h.2 ▸ hs
  | cons a as ih =>
    obtain ⟨b, bs', s₁, h₁, h₂, -⟩ := exec_cons_eq_some h
    exact ih (hstep _ _ _ _ hs h₁) h₂

/-- Step functions that agree in every state of an invariant have the same runs from there. -/
theorem exec_congr (hstep : ∀ s a b s', I s → step s a = some (b, s') → I s')
    (heq : ∀ s a, I s → step' s a = step s a) (hs : I s) :
    exec step' s as = exec step s as := by
  induction as generalizing s with
  | nil => rfl
  | cons a as ih =>
    cases h : step s a with
    | none => rw [exec_cons_of_none h, exec_cons_of_none ((heq s a hs).trans h)]
    | some r =>
      obtain ⟨b, s₁⟩ := r
      rw [exec_cons_of_some h, exec_cons_of_some ((heq s a hs).trans h),
        ih (hstep _ _ _ _ hs h)]

/-- **The invariant rule for runs under a condition.** If every call that meets the condition `C`
keeps the invariant and establishes `P`, then `P` holds along every run whose calls all meet
`C`. -/
theorem Always.of_invariant
    (hstep : ∀ s a b s', I s → C s a → step s a = some (b, s') → P s a b s' ∧ I s') (hs : I s)
    (hC : Always step (fun s a _ _ => C s a) s as) : Always step P s as := by
  induction as generalizing s with
  | nil => trivial
  | cons a as ih =>
    intro b s' h
    obtain ⟨hc, hrest⟩ := hC b s' h
    obtain ⟨hp, hi⟩ := hstep s a b s' hs hc h
    exact ⟨hp, ih hi hrest⟩

/-- **The invariant rule for the last state of a run under a condition.** If every call that meets
the condition `C` keeps the invariant, then it holds after every run whose calls all meet `C`. -/
theorem invariant_of_always
    (hstep : ∀ s a b s', I s → C s a → step s a = some (b, s') → I s') (hs : I s)
    (hC : Always step (fun s a _ _ => C s a) s as) (h : exec step s as = some (bs, s')) : I s' := by
  induction as generalizing s bs with
  | nil =>
    simp only [exec_nil, Option.some.injEq, Prod.mk.injEq] at h
    exact h.2 ▸ hs
  | cons a as ih =>
    obtain ⟨b, bs', s₁, h₁, h₂, -⟩ := exec_cons_eq_some h
    obtain ⟨hc, hrest⟩ := hC b s₁ h₁
    exact ih (hstep s a b s₁ hs hc h₁) hrest h₂

/-- **Relations that agree on an invariant** hold for the same runs, as long as the calls that are
made meet the condition `D` and so keep the invariant. -/
theorem Each.congr {C' D : σ → α → Prop} (heq : ∀ s a, I s → D s a → (C s a ↔ C' s a))
    (hstep : ∀ s a b s', I s → D s a → step s a = some (b, s') → I s') (hs : I s)
    (hD : Each step D s as) : Each step C s as ↔ Each step C' s as := by
  induction as generalizing s with
  | nil => exact Iff.rfl
  | cons a as ih =>
    obtain ⟨hd, hrest⟩ := hD
    refine and_congr (heq s a hs hd) (forall_congr' fun b => forall_congr' fun s' => ?_)
    exact forall_congr' fun h => ih (hstep s a b s' hs hd h) (hrest b s' h)

/-- A relation that holds for every call that is made may be weakened. -/
theorem Each.mono {D : σ → α → Prop} (hCD : ∀ s a, C s a → D s a) (h : Each step C s as) :
    Each step D s as := by
  induction as generalizing s with
  | nil => trivial
  | cons a as ih => exact ⟨hCD s a h.1, fun b s' hs => ih (h.2 b s' hs)⟩

/-- Two relations that hold for every call that is made. -/
theorem Each.and {D : σ → α → Prop} (h : Each step C s as) (h' : Each step D s as) :
    Each step (fun s a => C s a ∧ D s a) s as := by
  induction as generalizing s with
  | nil => trivial
  | cons a as ih => exact ⟨⟨h.1, h'.1⟩, fun b s' hs => ih (h.2 b s' hs) (h'.2 b s' hs)⟩

/-- What holds for every call that is made holds for every step. -/
theorem Each.always (h : Each step C s as) : Always step (fun s a _ _ => C s a) s as := by
  induction as generalizing s with
  | nil => trivial
  | cons a as ih => exact fun b s' hs => ⟨h.1, ih (h.2 b s' hs)⟩

/-- **The invariant rule for every call that is made.** If every call that meets the condition `C`
meets `D` and keeps the invariant, then the calls of a run that all meet `C` all meet `D`. -/
theorem Each.of_invariant {D : σ → α → Prop}
    (hstep : ∀ s a, I s → C s a → D s a ∧ ∀ b s', step s a = some (b, s') → I s') (hs : I s)
    (hC : Each step C s as) : Each step D s as := by
  induction as generalizing s with
  | nil => trivial
  | cons a as ih =>
    obtain ⟨hd, hkept⟩ := hstep s a hs hC.1
    exact ⟨hd, fun b s' h => ih (hkept b s' h) (hC.2 b s' h)⟩

/-- The second part of a run whose first part returns. -/
theorem Each.right (h : Each step C s (as ++ as')) (hr : exec step s as = some (bs, s')) :
    Each step C s' as' := by
  induction as generalizing s bs with
  | nil =>
    simp only [exec_nil, Option.some.injEq, Prod.mk.injEq] at hr
    exact hr.2 ▸ h
  | cons a as ih =>
    obtain ⟨b, bs', s₁, h₁, h₂, -⟩ := exec_cons_eq_some hr
    exact ih (h.2 b s₁ h₁) h₂

/-- A test of a run shows that a relation holds for every call that is made. -/
theorem Each.of_check {p : σ → α → Bool} (hp : ∀ s a, p s a = true → C s a)
    (h : checkEach step p s as = true) : Each step C s as := by
  induction as generalizing s with
  | nil => trivial
  | cons a as ih =>
    rw [checkEach, Bool.and_eq_true] at h
    refine ⟨hp s a h.1, fun b s' hs => ih ?_⟩
    have hrest := h.2
    rwa [hs] at hrest

end Run
