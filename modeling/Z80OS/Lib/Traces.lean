import Mathlib.Tactic.Common

set_option relaxedAutoImplicit false
set_option autoImplicit false

/-!
# Traces of labelled steps

A system is a relation between a state, what happens, and the state after it. A trace is what
happens one after the other. What each step of one system can be followed by in another one, its
traces can.

## Main definitions

* `Trace` — the traces from one state to another.

## Main results

* `Trace.append` — traces one after the other.
* `Trace.simulate` — a simulation takes traces to traces.
* `Trace.invariant` — what each step keeps, a trace keeps.
-/

/-- The system gets from one state to another while the given things happen. -/
inductive Trace {σ α : Type*} (step : σ → α → σ → Prop) : σ → List α → σ → Prop
  | nil {s : σ} : Trace step s [] s
  | cons {s s' s'' : σ} {a : α} {as : List α} (h : step s a s') (hs : Trace step s' as s'') :
    Trace step s (a :: as) s''

namespace Trace

variable {σ τ α : Type*} {step : σ → α → σ → Prop} {step' : τ → α → τ → Prop} {s s' : σ} {t : τ}
  {as : List α}

/-- A trace goes on with another one. -/
theorem append {s'' : σ} {as' : List α} (h : Trace step s as s') (h' : Trace step s' as' s'') :
    Trace step s (as ++ as') s'' := by
  induction h with
  | nil => exact h'
  | cons hs _ ih => exact cons hs (ih h')

/-- **A simulation** takes traces to traces. -/
theorem simulate {R : σ → τ → Prop}
    (hstep : ∀ s a s' t, R s t → step s a s' → ∃ t', step' t a t' ∧ R s' t') (hR : R s t)
    (h : Trace step s as s') : ∃ t', Trace step' t as t' ∧ R s' t' := by
  induction h generalizing t with
  | nil => exact ⟨t, nil, hR⟩
  | cons hs _ ih =>
    obtain ⟨t₁, ht₁, hR₁⟩ := hstep _ _ _ _ hR hs
    obtain ⟨t', ht', hR'⟩ := ih hR₁
    exact ⟨t', cons ht₁ ht', hR'⟩

/-- **What each step keeps**, as long as the things that happen meet a condition, a trace keeps. -/
theorem invariant {I : σ → Prop} {C : α → Prop}
    (hstep : ∀ s a s', I s → C a → step s a s' → I s') (hI : I s) (hC : ∀ a ∈ as, C a)
    (h : Trace step s as s') : I s' := by
  induction h with
  | nil => exact hI
  | cons hs _ ih =>
    exact ih (hstep _ _ _ hI (hC _ (List.mem_cons_self ..)) hs)
      fun a ha => hC a (List.mem_cons_of_mem _ ha)

end Trace
