import Mathlib.Data.Nat.Notation
import Mathlib.Logic.Relation

set_option relaxedAutoImplicit false
set_option autoImplicit false

/-!
# Recursive functions as trees of calls

The body of a function, or of several functions that call each other, is a tree: it gives an answer,
it fails, or it makes a call and goes on with what that answers. A family of bodies is run for a
number of turns. A call goes on for ever when it makes itself as one of its own calls, as a loop
does that does not change its variables. When every other call is smaller than the one that makes
it, this and failing are the only ways not to get an answer.

## Main definitions

* `CallTree.Tree` — the body of a function.
* `CallTree.run` — the answer to a call, within a number of turns.
* `CallTree.Returns` — the answer to a call.
* `CallTree.Calls` — the calls that a call makes.

## Main results

* `CallTree.Returns.induct` — what every body keeps holds of all answers.
* `CallTree.returns_iff` — a call has an answer when no call in its course makes itself or fails.
-/

namespace CallTree

/-- The body of a function that gives an `α`. The calls are those of `ι`, and `A c` is the type of
the answers to the call `c`. -/
inductive Tree (ι : Type) (A : ι → Type) (α : Type) : Type
  | ret (a : α)
  | fail
  | call (c : ι) (k : A c → Tree ι A α)

variable {ι : Type} {A : ι → Type} {α β : Type}

namespace Tree

/-- A body that goes on with the answer of another one. -/
def bind : Tree ι A α → (α → Tree ι A β) → Tree ι A β
  | ret a, f => f a
  | fail, _ => fail
  | call c k, f => call c fun a => (k a).bind f

/-- A body that makes one call. -/
def ask (c : ι) : Tree ι A (A c) := call c ret

/-- A body that gives a value if there is one. -/
def ofOption : Option α → Tree ι A α
  | none => fail
  | some a => ret a

/-- What a body gives when `g` has the answers to the calls. -/
def eval (g : ∀ c, Option (A c)) : Tree ι A α → Option α
  | ret a => some a
  | fail => none
  | call c k => (g c).bind fun a => (k a).eval g

/-- A body gives an answer when `R` relates the calls to their answers. -/
def Yields (R : ∀ c, A c → Prop) : Tree ι A α → α → Prop
  | ret a, b => b = a
  | fail, _ => False
  | call c k, b => ∃ a, R c a ∧ (k a).Yields R b

/-- A body makes a call. -/
def Reaches (R : ∀ c, A c → Prop) : Tree ι A α → ι → Prop
  | ret _, _ => False
  | fail, _ => False
  | call c k, d => d = c ∨ ∃ a, R c a ∧ (k a).Reaches R d

/-- A body fails. -/
def Fails (R : ∀ c, A c → Prop) : Tree ι A α → Prop
  | ret _ => False
  | fail => True
  | call c k => ∃ a, R c a ∧ (k a).Fails R

section

variable {g g' : ∀ c, Option (A c)} {R : ∀ c, A c → Prop} {t : Tree ι A α} {f : α → Tree ι A β}

/-- A tree that returns is that value. -/
@[simp] theorem eval_ret (a : α) : (ret a : Tree ι A α).eval g = some a := rfl

/-- A tree that fails has no value. -/
@[simp] theorem eval_fail : (fail : Tree ι A α).eval g = none := rfl

/-- The value of a call is its answer. -/
@[simp] theorem eval_ask (c : ι) : (ask c : Tree ι A (A c)).eval g = g c := by
  cases h : g c <;> simp [ask, eval, h]

/-- The value of an option as a tree is the option. -/
@[simp] theorem eval_ofOption (o : Option α) : (ofOption o : Tree ι A α).eval g = o := by
  cases o <;> rfl

/-- The value of a tree after another one. -/
@[simp] theorem eval_bind : (t.bind f).eval g = (t.eval g).bind fun a => (f a).eval g := by
  induction t with
  | ret a => rfl
  | fail => rfl
  | call c k ih =>
    simp only [bind, eval]
    cases g c with
    | none => rfl
    | some a => exact ih a

/-- What a tree that returns yields. -/
@[simp] theorem yields_ret {a b : α} : (ret a : Tree ι A α).Yields R b ↔ b = a := Iff.rfl

/-- A tree that fails yields nothing. -/
@[simp] theorem yields_fail {b : α} : (fail : Tree ι A α).Yields R b ↔ False := Iff.rfl

/-- A call yields its answers. -/
@[simp] theorem yields_ask {c : ι} {a : A c} : (ask c : Tree ι A (A c)).Yields R a ↔ R c a := by
  simp [ask, Yields]

/-- An option yields the value that it has. -/
@[simp] theorem yields_ofOption {o : Option α} {b : α} :
    (ofOption o : Tree ι A α).Yields R b ↔ o = some b := by
  cases o with
  | none => simp [ofOption]
  | some a => simp [ofOption, eq_comm]

/-- A tree after another one yields what it does for some value of that. -/
@[simp] theorem yields_bind {b : β} :
    (t.bind f).Yields R b ↔ ∃ a, t.Yields R a ∧ (f a).Yields R b := by
  induction t with
  | ret a => simp [bind]
  | fail => simp [bind]
  | call c k ih =>
    simp only [bind, Yields, ih]
    constructor
    · rintro ⟨a, ha, b', hb', hb⟩
      exact ⟨b', ⟨a, ha, hb'⟩, hb⟩
    · rintro ⟨b', ⟨a, ha, hb'⟩, hb⟩
      exact ⟨a, ha, b', hb', hb⟩

/-- A tree that returns makes no calls. -/
@[simp] theorem reaches_ret {a : α} {d : ι} : (ret a : Tree ι A α).Reaches R d ↔ False := Iff.rfl

/-- A tree that fails makes no calls. -/
@[simp] theorem reaches_fail {d : ι} : (fail : Tree ι A α).Reaches R d ↔ False := Iff.rfl

/-- A call is reached in itself only. -/
@[simp] theorem reaches_ask {c d : ι} : (ask c : Tree ι A (A c)).Reaches R d ↔ d = c := by
  simp [ask, Reaches]

/-- An option makes no calls. -/
@[simp] theorem reaches_ofOption {o : Option α} {d : ι} :
    (ofOption o : Tree ι A α).Reaches R d ↔ False := by
  cases o <;> rfl

/-- The calls of a tree after another one are those of both. -/
@[simp] theorem reaches_bind {d : ι} :
    (t.bind f).Reaches R d ↔ t.Reaches R d ∨ ∃ a, t.Yields R a ∧ (f a).Reaches R d := by
  induction t with
  | ret a => simp [bind]
  | fail => simp [bind]
  | call c k ih =>
    simp only [bind, Reaches, Yields, ih]
    constructor
    · rintro (hd | ⟨a, ha, hd | ⟨b, hb, hd⟩⟩)
      · exact .inl (.inl hd)
      · exact .inl (.inr ⟨a, ha, hd⟩)
      · exact .inr ⟨b, ⟨a, ha, hb⟩, hd⟩
    · rintro ((hd | ⟨a, ha, hd⟩) | ⟨b, ⟨a, ha, hb⟩, hd⟩)
      · exact .inl hd
      · exact .inr ⟨a, ha, .inl hd⟩
      · exact .inr ⟨a, ha, .inr ⟨b, hb, hd⟩⟩

/-- More answers to the calls do not change what a body gives. -/
theorem eval_mono (h : ∀ c a, g c = some a → g' c = some a) {b : α} (ht : t.eval g = some b) :
    t.eval g' = some b := by
  induction t with
  | ret a => exact ht
  | fail => exact ht
  | call c k ih =>
    rw [eval, Option.bind_eq_some_iff] at ht ⊢
    obtain ⟨a, ha, hk⟩ := ht
    exact ⟨a, h c a ha, ih a hk⟩

/-- What a body gives depends on the answers to the calls that it makes only. -/
theorem eval_congr (h : ∀ c, t.Reaches (fun c a => g c = some a) c → g' c = g c) :
    t.eval g' = t.eval g := by
  induction t with
  | ret a => rfl
  | fail => rfl
  | call c k ih =>
    rw [eval, eval, h c (.inl rfl)]
    cases ha : g c with
    | none => rfl
    | some a => exact ih a fun d hd => h d (.inr ⟨a, ha, hd⟩)

/-- With more answers, no call is lost. -/
theorem Reaches.mono {R' : ∀ c, A c → Prop} {d : ι} (ht : t.Reaches R d)
    (h : ∀ c a, R c a → R' c a) : t.Reaches R' d := by
  induction t with
  | ret a => exact ht
  | fail => exact ht
  | call c k ih =>
    rcases ht with hd | ⟨a, ha, hk⟩
    · exact .inl hd
    · exact .inr ⟨a, h c a ha, ih a hk⟩

/-- A value for some answers is yielded when these are possible. -/
theorem yields_of_eval (h : ∀ c a, g c = some a → R c a) {b : α} (ht : t.eval g = some b) :
    t.Yields R b := by
  induction t with
  | ret a => exact (Option.some.inj ht).symm
  | fail => exact absurd ht (by simp)
  | call c k ih =>
    rw [eval, Option.bind_eq_some_iff] at ht
    obtain ⟨a, ha, hk⟩ := ht
    exact ⟨a, h c a ha, ih a hk⟩

/-- With more answers, nothing that is yielded is lost. -/
theorem Yields.mono {R' : ∀ c, A c → Prop} {b : α} (ht : t.Yields R b)
    (h : ∀ c a, R c a → R' c a) : t.Yields R' b := by
  induction t with
  | ret a => exact ht
  | fail => exact ht
  | call c k ih =>
    obtain ⟨a, ha, hk⟩ := ht
    exact ⟨a, h c a ha, ih a hk⟩

end

end Tree

/-! ## Runs -/

/-- The answer to a call, within a number of turns. -/
def run (body : ∀ c, Tree ι A (A c)) : ℕ → ∀ c, Option (A c)
  | 0, _ => none
  | k + 1, c => (body c).eval (run body k)

variable {body : ∀ c, Tree ι A (A c)} {c d : ι} {k : ℕ}

/-- Without turns no call returns. -/
@[simp] theorem run_zero : run body 0 c = none := rfl

/-- A call with one turn more: its body, whose calls have one turn less. -/
theorem run_succ : run body (k + 1) c = (body c).eval (run body k) := rfl

/-- An answer is not changed by more turns. -/
theorem run_mono {k' : ℕ} {a : A c} (hk : k ≤ k') (h : run body k c = some a) :
    run body k' c = some a := by
  induction k generalizing k' c with
  | zero => exact absurd h (by simp)
  | succ k ih =>
    obtain ⟨m, rfl⟩ := Nat.exists_eq_add_of_le' (Nat.le_trans (Nat.le_add_left 1 k) hk)
    exact Tree.eval_mono (fun c a ha => ih (Nat.le_of_succ_le_succ hk) ha) h

/-- A call has an answer. -/
def Returns (body : ∀ c, Tree ι A (A c)) (c : ι) (a : A c) : Prop := ∃ k, run body k c = some a

/-- A call returns one value at most. -/
theorem Returns.unique {a b : A c} (ha : Returns body c a) (hb : Returns body c b) : a = b := by
  obtain ⟨k, hk⟩ := ha
  obtain ⟨k', hk'⟩ := hb
  have heq := (run_mono (Nat.le_max_left k k') hk).symm.trans (run_mono (Nat.le_max_right k k') hk')
  exact Option.some.inj heq

/-- **What every body keeps holds of all answers.** It is enough to show of each body that the
answer has the property when the answers to the calls in it have it. -/
theorem Returns.induct {P : ∀ c, A c → Prop} (h : ∀ c a, (body c).Yields P a → P c a) {a : A c}
    (ha : Returns body c a) : P c a := by
  obtain ⟨k, hk⟩ := ha
  induction k generalizing c with
  | zero => exact absurd hk (by simp)
  | succ k ih => exact h c a (Tree.yields_of_eval (fun c a => ih) hk)

/-- A call makes another one. -/
def Calls (body : ∀ c, Tree ι A (A c)) (c d : ι) : Prop := (body c).Reaches (Returns body) d

/-- A body that gives an answer has made the calls whose answers it is given. -/
theorem yields_of_eval_run {t : Tree ι A α} {b : α} (ht : t.eval (run body k) = some b) :
    t.Yields (fun c a => t.Reaches (Returns body) c ∧ run body k c = some a) b := by
  induction t with
  | ret a => exact (Option.some.inj ht).symm
  | fail => exact absurd ht (by simp)
  | call c k' ih =>
    rw [Tree.eval, Option.bind_eq_some_iff] at ht
    obtain ⟨a, ha, hk⟩ := ht
    refine ⟨a, ⟨.inl rfl, ha⟩, (ih a hk).mono ?_⟩
    exact fun d b hd => ⟨.inr ⟨a, ⟨k, ha⟩, hd.1⟩, hd.2⟩

/-- **What every body keeps of the calls that it makes holds of all answers.** As `Returns.induct`,
and the calls whose answers the body is given are calls that it makes. -/
theorem Returns.induct_calls {P : ∀ c, A c → Prop}
    (h : ∀ c a, Returns body c a →
      (body c).Yields (fun d b => Calls body c d ∧ Returns body d b ∧ P d b) a → P c a)
    {a : A c} (ha : Returns body c a) : P c a := by
  obtain ⟨k, hk⟩ := ha
  induction k generalizing c with
  | zero => exact absurd hk (by simp)
  | succ k ih =>
    refine h c a ⟨k + 1, hk⟩ ((yields_of_eval_run hk).mono ?_)
    exact fun d b hd => ⟨hd.1, ⟨k, hd.2⟩, ih hd.2⟩

/-- A body that gives an answer has got the answers to its calls. -/
theorem called_of_eval {t : Tree ι A α} {b : α} (ht : t.eval (run body k) = some b)
    (hd : t.Reaches (Returns body) d) : ∃ a, run body k d = some a := by
  induction t with
  | ret a => exact absurd hd (by simp)
  | fail => exact absurd hd (by simp)
  | call c k' ih =>
    rw [Tree.eval, Option.bind_eq_some_iff] at ht
    obtain ⟨a, ha, hk⟩ := ht
    rcases hd with rfl | ⟨a', ha', hd⟩
    · exact ⟨a, ha⟩
    · obtain rfl : a = a' := Returns.unique ⟨k, ha⟩ ha'
      exact ih a hk hd

/-- A body that gives an answer does not fail. -/
theorem not_fails_of_eval {t : Tree ι A α} {b : α} (ht : t.eval (run body k) = some b) :
    ¬ t.Fails (Returns body) := by
  induction t with
  | ret a => exact id
  | fail => exact absurd ht (by simp)
  | call c k' ih =>
    rw [Tree.eval, Option.bind_eq_some_iff] at ht
    obtain ⟨a, ha, hk⟩ := ht
    rintro ⟨a', ha', hfails⟩
    obtain rfl : a = a' := Returns.unique ⟨k, ha⟩ ha'
    exact ih a hk hfails

/-- A body gives an answer when the calls in it have answers and it does not fail. -/
theorem exists_eval_of_called {t : Tree ι A α}
    (hd : ∀ d, t.Reaches (Returns body) d → ∃ a, Returns body d a)
    (hf : ¬ t.Fails (Returns body)) : ∃ k b, t.eval (run body k) = some b := by
  induction t with
  | ret a => exact ⟨0, a, rfl⟩
  | fail => exact absurd trivial hf
  | call c k' ih =>
    obtain ⟨a, k₁, ha⟩ := hd c (.inl rfl)
    obtain ⟨k₂, b, hb⟩ := ih a (fun d h => hd d (.inr ⟨a, ⟨k₁, ha⟩, h⟩))
      (fun h => hf ⟨a, ⟨k₁, ha⟩, h⟩)
    refine ⟨max k₁ k₂, b, ?_⟩
    rw [Tree.eval, Option.bind_eq_some_iff]
    exact ⟨a, run_mono (Nat.le_max_left k₁ k₂) ha,
      Tree.eval_mono (fun c a => run_mono (Nat.le_max_right k₁ k₂)) hb⟩

/-- A call that makes itself has no answer. -/
theorem run_eq_none_of_calls_self (h : Calls body c c) : run body k c = none := by
  induction k with
  | zero => rfl
  | succ k ih =>
    cases hrun : run body (k + 1) c with
    | none => rfl
    | some a =>
      obtain ⟨b, hb⟩ := called_of_eval (run_succ ▸ hrun) h
      rw [ih] at hb
      exact absurd hb (by simp)

/-- The calls in the course of a call that has an answer have answers. -/
theorem exists_returns_of_calls (h : Relation.ReflTransGen (Calls body) c d)
    (hc : ∃ a, Returns body c a) : ∃ a, Returns body d a := by
  induction h with
  | refl => exact hc
  | tail _ hcall ih =>
    obtain ⟨a, k, hk⟩ := ih
    cases k with
    | zero => exact absurd hk (by simp)
    | succ k =>
      obtain ⟨b, hb⟩ := called_of_eval (run_succ ▸ hk) hcall
      exact ⟨b, k, hb⟩

/-- **When a call has an answer.** When every call is smaller than the one that makes it, unless it
is that call itself, a call has an answer exactly if no call in its course makes itself or fails.

**Proof sketch.** A call that makes itself has no answer, and an answer needs the answers to all
calls in its course. Conversely, by induction on the size of the call, all calls that it makes have
answers, and with them it has one itself. -/
theorem returns_iff (μ : ι → ℕ) (hμ : ∀ c d, Calls body c d → d = c ∨ μ d < μ c) (c : ι) :
    (∃ a, Returns body c a) ↔ ∀ d, Relation.ReflTransGen (Calls body) c d →
      ¬ Calls body d d ∧ ¬ (body d).Fails (Returns body) := by
  constructor
  · intro hc d hd
    obtain ⟨a, k, hk⟩ := exists_returns_of_calls hd hc
    refine ⟨fun hself => ?_, ?_⟩
    · rw [run_eq_none_of_calls_self hself] at hk
      exact absurd hk (by simp)
    · cases k with
      | zero => exact absurd hk (by simp)
      | succ k => exact not_fails_of_eval (run_succ ▸ hk)
  · induction hn : μ c using Nat.strongRecOn generalizing c with
    | ind n ih =>
      intro hall
      obtain ⟨hself, hfails⟩ := hall c .refl
      have hcalled : ∀ d, Calls body c d → ∃ a, Returns body d a := by
        intro d hd
        rcases hμ c d hd with rfl | hlt
        · exact absurd hd hself
        · exact ih (μ d) (hn ▸ hlt) d rfl fun e he => hall e (.head hd he)
      obtain ⟨k, a, hk⟩ := exists_eval_of_called hcalled hfails
      exact ⟨a, k + 1, hk⟩

end CallTree
