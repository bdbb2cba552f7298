import Mathlib.Data.Nat.Notation
import Mathlib.Tactic.SplitIfs

set_option relaxedAutoImplicit false
set_option autoImplicit false

/-!
# Computations that draw numbers

A computation draws numbers from a generator, and ends with a value, with an error, or without a
result. One that is tried twice is run a second time when it fails, with the generator as the first
try has left it, and has no result when the second try does not fail. Where a computation is made of
others that are tried twice, its errors can take more draws than those of the same computation in
which each of them is tried once; everything else is the same.

## Main definitions

* `Draws.Prog` — a computation, with what comes after each number that it draws.
* `Draws.Prog.run` — its result, the state of the generator, and how many numbers were drawn.
* `Draws.Prog.retry` — a computation that is tried twice.
* `Draws.Agrees`, `Draws.Outdraws` — the errors of a computation take at least, or more than, the
  draws that those of another one take.

## Main results

* `Draws.Agrees.bind`, `Draws.Agrees.retry` — computations that are made of others.
* `Draws.Extends.run` — a computation with more results.
-/

namespace Draws

/-- A computation that draws numbers from `σ`, with errors from `ε`. -/
inductive Prog (σ ε α : Type) : Type
  | ret (a : α)
  | fail (e : ε)
  | undefined
  | draw (k : σ → Prog σ ε α)

variable {σ ε α β : Type}

namespace Prog

/-- A computation that goes on with the value of another one. -/
def bind : Prog σ ε α → (α → Prog σ ε β) → Prog σ ε β
  | ret a, f => f a
  | fail e, _ => fail e
  | undefined, _ => undefined
  | draw k, f => draw fun v => (k v).bind f

/-- A computation that goes on with another one when it fails. -/
def orElse : Prog σ ε α → Prog σ ε α → Prog σ ε α
  | ret a, _ => ret a
  | fail _, q => q
  | undefined, _ => undefined
  | draw k, q => draw fun v => (k v).orElse q

/-- A computation whose values are not defined. -/
def failing : Prog σ ε α → Prog σ ε α
  | ret _ => undefined
  | fail e => fail e
  | undefined => undefined
  | draw k => draw fun v => (k v).failing

/-- A computation that is tried again when it fails, and whose result is not defined when it does
not fail again. -/
def retry (p : Prog σ ε α) : Prog σ ε α := p.orElse p.failing

/-- A computation that gives a value if there is one. -/
def ofOption : Option α → Prog σ ε α
  | none => undefined
  | some a => ret a

/-- The result of a computation, the state of the generator, and how many numbers were drawn. -/
def run (next : σ → σ) : Prog σ ε α → σ → Option (Except ε α × σ × ℕ)
  | ret a, x => some (.ok a, x, 0)
  | fail e, x => some (.error e, x, 0)
  | undefined, _ => none
  | draw k, x => ((k (next x)).run next (next x)).map fun q => (q.1, q.2.1, q.2.2 + 1)

end Prog

section

variable {next : σ → σ} {p p' q : Prog σ ε α} {f g : α → Prog σ ε β} {x y : σ} {n : ℕ}

open Prog

/-! ## Runs -/

/-- A computation that draws nothing does not depend on the generator. -/
theorem run_of_zero {res : Except ε α} (h : p.run next x = some (res, y, 0)) (z : σ) :
    p.run next z = some (res, z, 0) := by
  cases p with
  | ret a =>
    simp only [run, Option.some.injEq, Prod.mk.injEq] at h ⊢
    exact ⟨h.1, trivial⟩
  | fail e =>
    simp only [run, Option.some.injEq, Prod.mk.injEq] at h ⊢
    exact ⟨h.1, trivial⟩
  | undefined => exact absurd h (by simp [run])
  | draw k =>
    simp only [run, Option.map_eq_some_iff, Prod.mk.injEq] at h
    obtain ⟨_, -, -, -, hzero⟩ := h
    exact absurd hzero (Nat.succ_ne_zero _)

/-- What follows a program that returns goes on with its value, and the draws are added. -/
theorem run_bind_of_ok {a : α} (h : p.run next x = some (.ok a, y, n)) :
    (p.bind f).run next x = ((f a).run next y).map fun q => (q.1, q.2.1, n + q.2.2) := by
  induction p generalizing x n with
  | ret b =>
    simp only [run, Option.some.injEq, Prod.mk.injEq, Except.ok.injEq] at h
    obtain ⟨rfl, rfl, rfl⟩ := h
    simp [Prog.bind]
  | fail e => exact absurd h (by simp [run])
  | undefined => exact absurd h (by simp [run])
  | draw k ih =>
    simp only [run, Option.map_eq_some_iff, Prod.mk.injEq] at h
    obtain ⟨⟨res, y', m⟩, hk, rfl, rfl, rfl⟩ := h
    rw [Prog.bind, run, ih _ hk, Option.map_map]
    congr 1
    funext q
    simp only [Function.comp_apply, Prod.mk.injEq, true_and]
    rw [Nat.add_right_comm]

/-- Nothing follows a program that ends with an error. -/
theorem run_bind_of_error {e : ε} (h : p.run next x = some (.error e, y, n)) :
    (p.bind f).run next x = some (.error e, y, n) := by
  induction p generalizing x n with
  | ret b => exact absurd h (by simp [run])
  | fail e' =>
    simp only [run, Option.some.injEq, Prod.mk.injEq, Except.error.injEq] at h
    obtain ⟨rfl, rfl, rfl⟩ := h
    rfl
  | undefined => exact absurd h (by simp [run])
  | draw k ih =>
    simp only [run, Option.map_eq_some_iff, Prod.mk.injEq] at h
    obtain ⟨⟨res, y', m⟩, hk, rfl, rfl, rfl⟩ := h
    rw [Prog.bind, run, ih _ hk]
    rfl

/-- Nothing follows a program without a result. -/
theorem run_bind_of_none (h : p.run next x = none) : (p.bind f).run next x = none := by
  induction p generalizing x with
  | ret b => exact absurd h (by simp [run])
  | fail e => exact absurd h (by simp [run])
  | undefined => rfl
  | draw k ih =>
    simp only [run, Option.map_eq_none_iff] at h
    rw [Prog.bind, run, ih _ h]
    rfl

/-- A result of two programs one behind the other is an error of the first one, or comes from the
second one behind a value of the first. -/
theorem run_bind_cases {res : Except ε β} (h : (p.bind f).run next x = some (res, y, n)) :
    (∃ e, res = .error e ∧ p.run next x = some (.error e, y, n)) ∨
      ∃ a z m k, p.run next x = some (.ok a, z, m) ∧ (f a).run next z = some (res, y, k) ∧
        n = m + k := by
  cases hp : p.run next x with
  | none =>
    rw [run_bind_of_none hp] at h
    exact absurd h (by simp)
  | some res' =>
    obtain ⟨e | a, z, m⟩ := res'
    · rw [run_bind_of_error hp] at h
      simp only [Option.some.injEq, Prod.mk.injEq] at h
      obtain ⟨rfl, rfl, rfl⟩ := h
      exact .inl ⟨e, rfl, rfl⟩
    · rw [run_bind_of_ok hp, Option.map_eq_some_iff] at h
      obtain ⟨⟨res', z', k⟩, hf, heq⟩ := h
      simp only [Prod.mk.injEq] at heq
      obtain ⟨rfl, rfl, rfl⟩ := heq
      exact .inr ⟨a, z, m, k, rfl, hf, rfl⟩

/-- A program that returns needs no second one. -/
theorem run_orElse_of_ok {a : α} (h : p.run next x = some (.ok a, y, n)) :
    (p.orElse q).run next x = some (.ok a, y, n) := by
  induction p generalizing x n with
  | ret b => exact h
  | fail e => exact absurd h (by simp [run])
  | undefined => exact absurd h (by simp [run])
  | draw k ih =>
    simp only [run, Option.map_eq_some_iff, Prod.mk.injEq] at h
    obtain ⟨⟨res, y', m⟩, hk, rfl, rfl, rfl⟩ := h
    rw [orElse, run, ih _ hk]
    rfl

/-- After an error the second program runs, from the state behind it, and the draws are added. -/
theorem run_orElse_of_error {e : ε} (h : p.run next x = some (.error e, y, n)) :
    (p.orElse q).run next x = (q.run next y).map fun q => (q.1, q.2.1, n + q.2.2) := by
  induction p generalizing x n with
  | ret b => exact absurd h (by simp [run])
  | fail e' =>
    simp only [run, Option.some.injEq, Prod.mk.injEq, Except.error.injEq] at h
    obtain ⟨rfl, rfl, rfl⟩ := h
    simp [orElse]
  | undefined => exact absurd h (by simp [run])
  | draw k ih =>
    simp only [run, Option.map_eq_some_iff, Prod.mk.injEq] at h
    obtain ⟨⟨res, y', m⟩, hk, rfl, rfl, rfl⟩ := h
    rw [orElse, run, ih _ hk, Option.map_map]
    congr 1
    funext q
    simp only [Function.comp_apply, Prod.mk.injEq, true_and]
    rw [Nat.add_right_comm]

/-- Without a result there is no second run. -/
theorem run_orElse_of_none (h : p.run next x = none) : (p.orElse q).run next x = none := by
  induction p generalizing x with
  | ret b => exact absurd h (by simp [run])
  | fail e => exact absurd h (by simp [run])
  | undefined => rfl
  | draw k ih =>
    simp only [run, Option.map_eq_none_iff] at h
    rw [orElse, run, ih _ h]
    rfl

/-- What is to fail ends with its error. -/
theorem run_failing_of_error {e : ε} (h : p.run next x = some (.error e, y, n)) :
    p.failing.run next x = some (.error e, y, n) := by
  induction p generalizing x n with
  | ret b => exact absurd h (by simp [run])
  | fail e' => exact h
  | undefined => exact absurd h (by simp [run])
  | draw k ih =>
    simp only [run, Option.map_eq_some_iff, Prod.mk.injEq] at h
    obtain ⟨⟨res, y', m⟩, hk, rfl, rfl, rfl⟩ := h
    rw [failing, run, ih _ hk]
    rfl

/-- What is to fail has no result when it returns. -/
theorem run_failing_of_ok {a : α} (h : p.run next x = some (.ok a, y, n)) :
    p.failing.run next x = none := by
  induction p generalizing x n with
  | ret b => rfl
  | fail e' => exact absurd h (by simp [run])
  | undefined => rfl
  | draw k ih =>
    simp only [run, Option.map_eq_some_iff, Prod.mk.injEq] at h
    obtain ⟨⟨res, y', m⟩, hk, rfl, rfl, rfl⟩ := h
    rw [failing, run, ih _ hk]
    rfl

/-- What is to fail has no result when there is none. -/
theorem run_failing_of_none (h : p.run next x = none) : p.failing.run next x = none := by
  induction p generalizing x with
  | ret b => exact absurd h (by simp [run])
  | fail e => exact absurd h (by simp [run])
  | undefined => rfl
  | draw k ih =>
    simp only [run, Option.map_eq_none_iff] at h
    rw [failing, run, ih _ h]
    rfl

/-- A result of a program that is tried twice is its value, or the error of the second try. -/
theorem run_retry_cases {res : Except ε α} (h : p.retry.run next x = some (res, y, n)) :
    (∃ a, res = .ok a ∧ p.run next x = some (.ok a, y, n)) ∨
      ∃ e e' z m k, res = .error e' ∧ p.run next x = some (.error e, z, m) ∧
        p.run next z = some (.error e', y, k) ∧ n = m + k := by
  cases hp : p.run next x with
  | none =>
    rw [Prog.retry, run_orElse_of_none hp] at h
    exact absurd h (by simp)
  | some res₁ =>
    obtain ⟨e | a, z, m⟩ := res₁
    · rw [Prog.retry, run_orElse_of_error hp, Option.map_eq_some_iff] at h
      obtain ⟨⟨res', y', k⟩, hagain, heq⟩ := h
      simp only [Prod.mk.injEq] at heq
      obtain ⟨rfl, rfl, rfl⟩ := heq
      cases hp₂ : p.run next z with
      | none =>
        rw [run_failing_of_none hp₂] at hagain
        exact absurd hagain (by simp)
      | some res₂ =>
        obtain ⟨e' | a', z', k'⟩ := res₂
        · rw [run_failing_of_error hp₂] at hagain
          simp only [Option.some.injEq, Prod.mk.injEq] at hagain
          obtain ⟨rfl, rfl, rfl⟩ := hagain
          exact .inr ⟨e, e', z, m, k', rfl, rfl, hp₂, rfl⟩
        · rw [run_failing_of_ok hp₂] at hagain
          exact absurd hagain (by simp)
    · rw [Prog.retry, run_orElse_of_ok hp] at h
      simp only [Option.some.injEq, Prod.mk.injEq] at h
      obtain ⟨rfl, rfl, rfl⟩ := h
      exact .inl ⟨a, rfl, rfl⟩

/-! ## More draws -/

/-- The values of `q` are values of `p`, its errors before the first draw are errors of `p`, and
when `q` fails after some draws then `p` can only fail, after at least as many. Where `p` has a
result, `q` has one. -/
structure Agrees (next : σ → σ) (p q : Prog σ ε α) : Prop where
  ok : ∀ x a y n, q.run next x = some (.ok a, y, n) → p.run next x = some (.ok a, y, n)
  early : ∀ x e y, q.run next x = some (.error e, y, 0) → p.run next x = some (.error e, y, 0)
  late : ∀ x e y n, q.run next x = some (.error e, y, n + 1) → ∀ res y' n',
    p.run next x = some (res, y', n') → (∃ e', res = .error e') ∧ n + 1 ≤ n'
  defined : ∀ x res, p.run next x = some res → ∃ res', q.run next x = some res'

/-- When `q` fails after some draws then `p` can only fail after more. -/
structure Outdraws (next : σ → σ) (p q : Prog σ ε α) : Prop extends Agrees next p q where
  more : ∀ x e y n, q.run next x = some (.error e, y, n + 1) → ∀ res y' n',
    p.run next x = some (res, y', n') → n + 1 < n'

/-- A program agrees with itself. -/
theorem Agrees.refl (p : Prog σ ε α) : Agrees next p p where
  ok _ _ _ _ h := h
  early _ _ _ h := h
  late x e y n h res y' n' h' := by
    rw [h] at h'
    simp only [Option.some.injEq, Prod.mk.injEq] at h'
    exact ⟨⟨e, h'.1.symm⟩, Nat.le_of_eq h'.2.2⟩
  defined _ res h := ⟨res, h⟩

/-- A value of the one computation is a value of the other one, where this has a result. -/
theorem Agrees.value {a : α} (h : Agrees next p q) (hp : p.run next x = some (.ok a, y, n)) :
    q.run next x = some (.ok a, y, n) := by
  obtain ⟨⟨e | b, z, m⟩, hq⟩ := h.defined _ _ hp
  · cases m with
    | zero =>
      rw [h.early _ _ _ hq] at hp
      exact absurd hp (by simp)
    | succ m =>
      obtain ⟨⟨e', he⟩, -⟩ := h.late _ _ _ _ hq _ _ _ hp
      exact absurd he (by simp)
  · rw [hq, ← h.ok _ _ _ _ hq, hp]

/-- A computation that is made of two others.

**Proof sketch.** By the part that gives the result (`run_bind_cases`). A value of the first part is
the one of the other computation, from where the second parts agree. When the first part fails after
some draws, so does the first part of the other computation, or there is no result. -/
theorem Agrees.bind (h : Agrees next p q) (hfg : ∀ a, Agrees next (f a) (g a)) :
    Agrees next (p.bind f) (q.bind g) where
  ok x b z m hrun := by
    obtain ⟨e, he, -⟩ | ⟨a, y, n, k, hq, hg, rfl⟩ := run_bind_cases hrun
    · exact absurd he (by simp)
    · rw [run_bind_of_ok (h.ok _ _ _ _ hq), (hfg a).ok _ _ _ _ hg]
      rfl
  early x e z hrun := by
    obtain ⟨e', he, hq⟩ | ⟨a, y, n, k, hq, hg, hzero⟩ := run_bind_cases hrun
    · obtain rfl := Except.error.inj he
      exact run_bind_of_error (h.early _ _ _ hq)
    · obtain ⟨rfl, rfl⟩ : n = 0 ∧ k = 0 := by omega
      rw [run_bind_of_ok (h.ok _ _ _ _ hq), (hfg a).early _ _ _ hg]
      rfl
  late x e z m hrun res z' m' hp := by
    obtain ⟨e', he, hq⟩ | ⟨a, y, n, k, hq, hg, hsum⟩ := run_bind_cases hrun
    · obtain ⟨e₁, rfl, hp₁⟩ | ⟨a, y, n, k, hp₁, -, -⟩ := run_bind_cases hp
      · exact ⟨⟨e₁, rfl⟩, (h.late _ _ _ _ hq _ _ _ hp₁).2⟩
      · obtain ⟨⟨e₁, he₁⟩, -⟩ := h.late _ _ _ _ hq _ _ _ hp₁
        exact absurd he₁ (by simp)
    · rw [run_bind_of_ok (h.ok _ _ _ _ hq), Option.map_eq_some_iff] at hp
      obtain ⟨⟨res, z', k'⟩, hf, heq⟩ := hp
      simp only [Prod.mk.injEq] at heq
      obtain ⟨rfl, rfl, rfl⟩ := heq
      cases k with
      | zero =>
        rw [(hfg a).early _ _ _ hg] at hf
        simp only [Option.some.injEq, Prod.mk.injEq] at hf
        exact ⟨⟨e, hf.1.symm⟩, by omega⟩
      | succ k =>
        obtain ⟨herr, hle⟩ := (hfg a).late _ _ _ _ hg _ _ _ hf
        exact ⟨herr, by omega⟩
  defined x res hrun := by
    obtain ⟨e, -, hp⟩ | ⟨a, y, n, k, hp, hf, -⟩ := run_bind_cases hrun
    · -- an error of the first part is the result of both
      obtain ⟨⟨e' | b, z, m⟩, hq⟩ := h.defined _ _ hp
      · exact ⟨_, run_bind_of_error hq⟩
      · rw [h.ok _ _ _ _ hq] at hp
        exact absurd hp (by simp)
    · obtain ⟨res', hg⟩ := (hfg a).defined _ _ hf
      exact ⟨_, by rw [run_bind_of_ok (h.value hp), hg, Option.map_some]⟩

/-- A computation under a condition, without which it has no result. -/
theorem Agrees.ite {c : Prop} [Decidable c] (h : Agrees next p q) :
    Agrees next (if c then p else undefined) (if c then q else undefined) := by
  split_ifs
  · exact h
  · exact .refl _

/-- A computation that is tried twice.

**Proof sketch.** An error before the first draw comes again. Otherwise the first try draws, and so
does the second one, because a computation that draws nothing does so whatever the generator is. -/
theorem Agrees.retry (h : Agrees next p q) : Outdraws next p.retry q := by
  have more : ∀ x e y n, q.run next x = some (.error e, y, n + 1) → ∀ res y' n',
      p.retry.run next x = some (res, y', n') → (∃ e', res = .error e') ∧ n + 1 < n' := by
    intro x e y n hq res y' n' hrun
    obtain ⟨a, -, hp⟩ | ⟨e₁, e₂, z, m, k, rfl, hp, hagain, rfl⟩ := run_retry_cases hrun
    · obtain ⟨⟨e', he⟩, -⟩ := h.late _ _ _ _ hq _ _ _ hp
      exact absurd he (by simp)
    · obtain ⟨-, hle⟩ := h.late _ _ _ _ hq _ _ _ hp
      refine ⟨⟨e₂, rfl⟩, ?_⟩
      cases k with
      | zero =>
        rw [run_of_zero hagain x] at hp
        simp only [Option.some.injEq, Prod.mk.injEq] at hp
        omega
      | succ k => omega
  refine ⟨⟨?_, ?_, ?_, ?_⟩, ?_⟩
  · exact fun x a y n hq => run_orElse_of_ok (h.ok _ _ _ _ hq)
  · intro x e y hq
    have hp := h.early _ _ _ hq
    rw [Prog.retry, run_orElse_of_error hp, run_failing_of_error (run_of_zero hp y)]
    rfl
  · intro x e y n hq res y' n' hrun
    obtain ⟨herr, hlt⟩ := more x e y n hq res y' n' hrun
    exact ⟨herr, Nat.le_of_lt hlt⟩
  · intro x res hrun
    obtain ⟨a, -, hp⟩ | ⟨e, e', z, m, k, -, hp, -⟩ := run_retry_cases hrun
    · exact h.defined _ _ hp
    · exact h.defined _ _ hp
  · exact fun x e y n hq res y' n' hrun => (more x e y n hq res y' n' hrun).2

/-- A computation that does not fail. -/
theorem Outdraws.of_ok (h : ∀ x e y n, p.run next x ≠ some (.error e, y, n)) :
    Outdraws next p p where
  toAgrees := .refl p
  more x e y _ hp := absurd hp (h x e y _)

/-- A computation that does not fail behind another one.

**Proof sketch.** The computation behind does not fail, so that a failure is one of the first
computation (`run_bind_cases`), and that draws more there than the other (`Outdraws.more`). -/
theorem Outdraws.bind_of_ok (h : Outdraws next p q)
    (hf : ∀ a x e y n, (f a).run next x ≠ some (.error e, y, n)) :
    Outdraws next (p.bind f) (q.bind f) where
  toAgrees := h.toAgrees.bind fun a => .refl (f a)
  more x e y n hrun res y' n' hp := by
    obtain ⟨e', he, hq⟩ | ⟨a, z, m, k, hq, hf', -⟩ := run_bind_cases hrun
    · obtain ⟨e₁, -, hp₁⟩ | ⟨a, z, m, k, hp₁, -, -⟩ := run_bind_cases hp
      · exact h.more _ _ _ _ hq _ _ _ hp₁
      · obtain ⟨⟨e₁, he₁⟩, -⟩ := h.late _ _ _ _ hq _ _ _ hp₁
        exact absurd he₁ (by simp)
    · exact (hf _ _ _ _ _ hf').elim

/-! ## More results -/

/-- Where `p` has a result, `p'` goes the same way. -/
def Extends : Prog σ ε α → Prog σ ε α → Prop
  | ret a, p' => p' = ret a
  | fail e, p' => p' = fail e
  | undefined, _ => True
  | draw k, p' => ∃ k', p' = draw k' ∧ ∀ v, Extends (k v) (k' v)

/-- A program extends itself. -/
theorem Extends.refl (p : Prog σ ε α) : Extends p p := by
  induction p with
  | ret a => rfl
  | fail e => rfl
  | undefined => trivial
  | draw k ih => exact ⟨k, rfl, ih⟩

/-- What follows may be extended, too. -/
theorem Extends.bind (h : Extends p p') (hfg : ∀ a, Extends (f a) (g a)) :
    Extends (p.bind f) (p'.bind g) := by
  induction p generalizing p' with
  | ret a =>
    obtain rfl := h
    exact hfg a
  | fail e =>
    obtain rfl := h
    rfl
  | undefined => trivial
  | draw k ih =>
    obtain ⟨k', rfl, hk⟩ := h
    exact ⟨_, rfl, fun v => ih v (hk v)⟩

/-- Both of two programs may be extended. -/
theorem Extends.orElse {q' : Prog σ ε α} (h : Extends p p') (hq : Extends q q') :
    Extends (p.orElse q) (p'.orElse q') := by
  induction p generalizing p' with
  | ret a =>
    obtain rfl := h
    rfl
  | fail e =>
    obtain rfl := h
    exact hq
  | undefined => trivial
  | draw k ih =>
    obtain ⟨k', rfl, hk⟩ := h
    exact ⟨_, rfl, fun v => ih v (hk v)⟩

/-- A program that is to fail may be extended. -/
theorem Extends.failing (h : Extends p p') : Extends p.failing p'.failing := by
  induction p generalizing p' with
  | ret a => trivial
  | fail e =>
    obtain rfl := h
    rfl
  | undefined => trivial
  | draw k ih =>
    obtain ⟨k', rfl, hk⟩ := h
    exact ⟨_, rfl, fun v => ih v (hk v)⟩

/-- A computation under a weaker condition, without which it has no result. -/
theorem Extends.ite {c c' : Prop} [Decidable c] [Decidable c'] (h : Extends p p') (hc : c → c') :
    Extends (if c then p else undefined) (if c' then p' else undefined) := by
  by_cases hcond : c
  · rw [if_pos hcond, if_pos (hc hcond)]
    exact h
  · rw [if_neg hcond]
    trivial

/-- A program that is run again after an error may be extended. -/
theorem Extends.retry (h : Extends p p') : Extends p.retry p'.retry := h.orElse h.failing

/-- A result is not changed by more results. -/
theorem Extends.run {res : Except ε α × σ × ℕ} (h : Extends p p')
    (hrun : p.run next x = some res) : p'.run next x = some res := by
  induction p generalizing p' x res with
  | ret a =>
    obtain rfl := h
    exact hrun
  | fail e =>
    obtain rfl := h
    exact hrun
  | undefined => exact absurd hrun (by simp [Prog.run])
  | draw k ih =>
    obtain ⟨k', rfl, hk⟩ := h
    rw [Prog.run, Option.map_eq_some_iff] at hrun ⊢
    obtain ⟨q, hq, heq⟩ := hrun
    exact ⟨q, ih _ (hk _) hq, heq⟩

end

end Draws
