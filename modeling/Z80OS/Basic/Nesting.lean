import Mathlib.Data.List.TakeWhile
import Z80OS.Basic.Workspace

set_option relaxedAutoImplicit false
set_option autoImplicit false

/-!
# Nested evaluations

The shared pointers of the evaluation do not leak between an expression and the indices and
arguments in it: the evaluation with shared pointers gives what the evaluation gives in which every
activation has pointers of its own. What carries the induction is that an activation leaves the
stacks of operators of the activations around it alone, and that its own pointers are restored after
every nested one.

## Main definitions

* `Z80OS.Basic.Simulates` — an evaluation with shared pointers gives what one without them gives.

## Main results

* `Z80OS.Basic.evaluations_agree` — the functions of the evaluation.
* `Z80OS.Basic.workspace_evalNumeric_result_iff` — the results are the same, values and errors.
* `Z80OS.Basic.workspace_evalNumeric_iff` — the results without error are the same.
-/

namespace Z80OS.Basic

open ArrayStacks

/-- The stacks of operators of the activations around an activation are the same. -/
def SameBelow (frame : ℕ) (w w' : Workspace) : Prop := ∀ i < frame, w'.opstacks i = w.opstacks i

/-- An evaluation with shared pointers gives the value or the error that one without them gives, and
leaves the stacks of the activations around it alone. -/
structure Simulates {α : Type} (frame : ℕ) (w : Workspace) (c : Evaluation α) (l : Evaluated α) :
    Prop where
  sound : ∀ res w', c = .ok (res, w') → l = some (res, w'.r) ∧ SameBelow frame w w'
  complete : ∀ res r', l = some (res, r') → ∃ w', c = .ok (res, w')

section

variable {α β : Type} {frame : ℕ} {w w' w'' : Workspace}

/-- A workspace has the frames that it has. -/
theorem SameBelow.refl (frame : ℕ) (w : Workspace) : SameBelow frame w w := fun _ _ => rfl

/-- Two steps leave the frames that both leave. -/
theorem SameBelow.trans (h : SameBelow frame w w') (h' : SameBelow frame w' w'') :
    SameBelow frame w w'' := fun i hi => (h' i hi).trans (h i hi)

/-- What is left below the next frame is left below this one. -/
theorem SameBelow.of_succ (h : SameBelow (frame + 1) w w') : SameBelow frame w w' :=
  fun i hi => h i (Nat.lt_succ_of_lt hi)

/-- An evaluation that goes on when it has not failed. -/
def Evaluated.andThen (l : Evaluated α) (next : α → ℕ → Evaluated β) : Evaluated β :=
  match l with
  | none => none
  | some (.error e, r) => some (.error e, r)
  | some (.ok a, r) => next a r

/-- A result that both have, with the frames below left. -/
theorem Simulates.ok {res : Except Error α} (h : SameBelow frame w w') :
    Simulates frame w (.ok (res, w')) (some (res, w'.r)) where
  sound res' w'' he := by
    simp only [Except.ok.injEq, Prod.mk.injEq] at he
    obtain ⟨rfl, rfl⟩ := he
    exact ⟨rfl, h⟩
  complete res' r' he := by
    simp only [Option.some.injEq, Prod.mk.injEq] at he
    exact ⟨w', by rw [he.1]⟩

/-- What is not defined has no result in either evaluation. -/
theorem Simulates.undefined (f : StackFault) :
    Simulates frame w (.error f : Evaluation α) none where
  sound res w' he := absurd he (by simp)
  complete res r' he := absurd he (by simp)

/-- What is simulated from a workspace with the same frames below is simulated. -/
theorem Simulates.of_sameBelow {c : Evaluation α} {l : Evaluated α} (h : Simulates frame w' c l)
    (hw : SameBelow frame w w') : Simulates frame w c l where
  sound res w'' he := ⟨(h.sound res w'' he).1, hw.trans (h.sound res w'' he).2⟩
  complete := h.complete

/-- What is simulated in the next frame is simulated in this one. -/
theorem Simulates.of_succ {c : Evaluation α} {l : Evaluated α} (h : Simulates (frame + 1) w c l) :
    Simulates frame w c l where
  sound res w'' he := ⟨(h.sound res w'' he).1, (h.sound res w'' he).2.of_succ⟩
  complete := h.complete

/-- A result of the evaluation without shared pointers comes with the state of the random number
generator that the other one leaves. -/
theorem Simulates.exists_eq {c : Evaluation α} {l : Evaluated α} {res : Except Error α} {r : ℕ}
    (h : Simulates frame w c l) (hl : l = some (res, r)) : ∃ w', c = .ok (res, w') ∧ w'.r = r := by
  obtain ⟨w', hc⟩ := h.complete res r hl
  obtain ⟨hl', -⟩ := h.sound res w' hc
  rw [hl] at hl'
  simp only [Option.some.injEq, Prod.mk.injEq, true_and] at hl'
  exact ⟨w', hc, hl'.symm⟩

/-- A call that is handled is made again when it fails, with the same arguments.

**Proof sketch.** Both directions follow the two attempts. The first attempt succeeds on both sides,
or fails on both sides and leaves related states, from which the second attempt is compared in the
same way. -/
theorem Simulates.errorHandle (call : Workspace → Evaluation α) (call' : ℕ → Evaluated α)
    (h : ∀ w, Simulates frame w (call w) (call' w.r)) (w : Workspace) :
    Simulates frame w (Workspace.errorHandle call w) (Basic.errorHandle call' w.r) where
  sound res w' he := by
    unfold Workspace.errorHandle at he
    unfold Basic.errorHandle
    cases hcall : call w with
    | error f => simp [hcall] at he
    | ok q =>
      obtain ⟨e | a, w₁⟩ := q
      · obtain ⟨hl, hw₁⟩ := (h w).sound _ _ hcall
        simp only [hcall] at he
        cases hagain : call w₁ with
        | error f => simp [hagain] at he
        | ok q =>
          obtain ⟨e₂ | a, w₂⟩ := q
          · obtain ⟨hl₂, hw₂⟩ := (h w₁).sound _ _ hagain
            simp only [hagain, Except.ok.injEq, Prod.mk.injEq] at he
            obtain ⟨rfl, rfl⟩ := he
            exact ⟨by simp only [hl, hl₂], hw₁.trans hw₂⟩
          · simp [hagain] at he
      · obtain ⟨hl, hw₁⟩ := (h w).sound _ _ hcall
        simp only [hcall, Except.ok.injEq, Prod.mk.injEq] at he
        obtain ⟨rfl, rfl⟩ := he
        exact ⟨by simp only [hl], hw₁⟩
  complete res r' he := by
    unfold Basic.errorHandle at he
    unfold Workspace.errorHandle
    cases hl : call' w.r with
    | none => simp [hl] at he
    | some q =>
      obtain ⟨e | a, r₁⟩ := q
      · obtain ⟨w₁, hw₁, rfl⟩ := (h w).exists_eq hl
        simp only [hl] at he
        cases hl₂ : call' w₁.r with
        | none => simp [hl₂] at he
        | some q =>
          obtain ⟨e₂ | a₂, r₂⟩ := q
          · obtain ⟨w₂, hw₂, rfl⟩ := (h w₁).exists_eq hl₂
            simp only [hl₂, Option.some.injEq, Prod.mk.injEq] at he
            exact ⟨w₂, by simp only [hw₁, hw₂, ← he.1]⟩
          · simp [hl₂] at he
      · obtain ⟨w', hw', rfl⟩ := (h w).exists_eq hl
        simp only [hl, Option.some.injEq, Prod.mk.injEq] at he
        exact ⟨w', by simp only [hw', ← he.1]⟩

/-- Two parts of an evaluation are simulated one after the other.

**Proof sketch.** In both directions the first part is simulated, and a value of it is handed to the
second part, which is simulated from the state that it left. -/
theorem Simulates.andThen {c : Evaluation α} {l : Evaluated α} {next : α → Workspace → Evaluation β}
    {next' : α → ℕ → Evaluated β} (h : Simulates frame w c l)
    (hnext : ∀ a w', c = .ok (.ok a, w') → Simulates frame w' (next a w') (next' a w'.r)) :
    Simulates frame w (c.andThen next) (l.andThen next') where
  sound res w' he := by
    unfold Evaluation.andThen at he
    unfold Evaluated.andThen
    split at he
    · exact absurd he (by simp)
    · next e w₁ =>
      obtain ⟨hl, hw₁⟩ := h.sound _ _ rfl
      simp only [Except.ok.injEq, Prod.mk.injEq] at he
      obtain ⟨rfl, rfl⟩ := he
      exact ⟨by simp only [hl], hw₁⟩
    · next a w₁ =>
      obtain ⟨hl, hw₁⟩ := h.sound _ _ rfl
      obtain ⟨hl₂, hw₂⟩ := (hnext a w₁ rfl).sound _ _ he
      exact ⟨by simp only [hl, hl₂], hw₁.trans hw₂⟩
  complete res r' he := by
    unfold Evaluated.andThen at he
    unfold Evaluation.andThen
    split at he
    · exact absurd he (by simp)
    · next e r =>
      obtain ⟨w₁, rfl⟩ := h.complete _ r rfl
      simp only [Option.some.injEq, Prod.mk.injEq] at he
      exact ⟨w₁, by simp only [he.1]⟩
    · next a r =>
      obtain ⟨w₁, rfl, rfl⟩ := h.exists_eq rfl
      exact (hnext a w₁ rfl).complete _ _ he

end

/-! ## The stack of numbers -/

/-- The shared stack of numbers holds the numbers of a list, the top one first. -/
structure NumsAt (w : Workspace) (stack : List ℤ) : Prop where
  stacked : Stacked w.numstack stack
  count : w.numstackCount = stack.length
  room : stack.length ≤ opstackMax

/-- Only the stack of numbers is not the same. -/
structure SameOps (w w' : Workspace) : Prop where
  r : w'.r = w.r
  opstacks : w'.opstacks = w.opstacks

/-- Two numbers are replaced by one. -/
def binary (f : ℤ → ℤ → ℤ) : List ℤ → Option (List ℤ)
  | a :: b :: stack => some (int16 (f a b) :: stack)
  | _ => none

/-- A minus sign in front of a single number is a negation. -/
def minus : List ℤ → Option (List ℤ)
  | [] => some []
  | [a] => some [int16 (-a)]
  | a :: b :: stack => some (int16 (b - a) :: stack)

/-- What one token does with a stack of numbers. -/
def rpnStep (stack : List ℤ) : RpnToken → Option (List ℤ)
  | .numeric n => if stack.length < opstackMax then some (n :: stack) else none
  | .operator op =>
    if op = opPlus then binary (fun a b => a + b) stack
    else if op = opMult then binary (fun a b => a * b) stack
    else if op = opMinus then minus stack
    else some stack

section

variable {w w' w'' : Workspace} {stack : List ℤ}

/-- A workspace has the operators that it has. -/
theorem SameOps.refl (w : Workspace) : SameOps w w := ⟨rfl, rfl⟩

/-- Two steps that leave the operators. -/
theorem SameOps.trans (h : SameOps w w') (h' : SameOps w' w'') : SameOps w w'' :=
  ⟨h'.r.trans h.r, h'.opstacks.trans h.opstacks⟩

/-- An expression is evaluated token by token. -/
theorem evalRpn_cons (t : RpnToken) (expr : List RpnToken) (stack : List ℤ) :
    evalRpn (t :: expr) stack = (rpnStep stack t).bind (evalRpn expr) := by
  cases t with
  | numeric n =>
    rw [evalRpn, rpnStep]
    split_ifs <;> rfl
  | operator op =>
    rcases stack with - | ⟨a, - | ⟨b, stack⟩⟩ <;>
      · simp only [evalRpn, rpnStep, binary, minus]
        split_ifs <;> rfl

namespace Workspace

/-- The stack of numbers has no top when it is empty. -/
theorem topNum_nil (h : NumsAt w []) : w.topNum = .error .numstackEmpty := if_pos h.count

/-- The topmost number. -/
theorem topNum_cons {a : ℤ} (h : NumsAt w (a :: stack)) : w.topNum = .ok a := by
  have hcount : w.numstackCount = stack.length + 1 := h.count
  rw [topNum, if_neg (by omega), hcount, Nat.add_sub_cancel, h.stacked.1]

/-- The topmost number is taken from the stack. -/
theorem dropNum_cons {a : ℤ} (h : NumsAt w (a :: stack)) : NumsAt w.dropNum stack where
  stacked := h.stacked.2
  count := by
    have hcount : w.numstackCount = stack.length + 1 := h.count
    show w.numstackCount - 1 = stack.length
    omega
  room := (Nat.le_succ _).trans h.room

/-- A number is pushed when there is room. -/
theorem pushNum_spec (h : NumsAt w stack) (hroom : stack.length < opstackMax) (n : ℤ) :
    ∃ w', w.pushNum n = .ok w' ∧ NumsAt w' (n :: stack) ∧ SameOps w w' := by
  refine ⟨_, if_pos (h.count ▸ hroom), ⟨?_, ?_, hroom⟩, rfl, rfl⟩
  · simp only [h.count]
    exact h.stacked.push n
  · exact congrArg (· + 1) h.count

/-- An operation takes two numbers from the stack, and puts one there. -/
theorem combine_spec {a b : ℤ} (h : NumsAt w (a :: b :: stack)) (f : ℤ → ℤ → ℤ) :
    ∃ w', w.combine f = .ok w' ∧ NumsAt w' (int16 (f a b) :: stack) ∧ SameOps w w' := by
  have hdrop := dropNum_cons h
  have hroom : stack.length < opstackMax := (Nat.lt_succ_self _).trans h.room
  obtain ⟨w', hpush, hnums, hsame⟩ := pushNum_spec (dropNum_cons hdrop) hroom (int16 (f a b))
  refine ⟨w', ?_, hnums, hsame.r, hsame.opstacks⟩
  rw [combine, topNum_cons h, topNum_cons hdrop, ← hpush]
  rfl

/-- An operation needs two numbers. -/
theorem combine_fault (h : NumsAt w stack) (hlen : stack.length < 2) (f : ℤ → ℤ → ℤ) :
    w.combine f = .error .numstackEmpty := by
  rcases stack with - | ⟨a, - | ⟨b, stack⟩⟩
  · rw [combine, topNum_nil h]
    rfl
  · rw [combine, topNum_cons h, topNum_nil (dropNum_cons h)]
    rfl
  · simp at hlen

/-- One token of an expression in reverse Polish notation.

**Proof sketch.** By cases on the token and, for an operator, on the operator and the height of the
stack: a number is pushed (`pushNum_spec`), a binary operator combines the two topmost numbers
(`combine_spec`), a minus above one number negates it, and any other operator does nothing. -/
theorem rpnToken_some {stack' : List ℤ} (h : NumsAt w stack) {t : RpnToken}
    (hstep : rpnStep stack t = some stack') :
    ∃ w', w.rpnToken t = .ok w' ∧ NumsAt w' stack' ∧ SameOps w w' := by
  cases t with
  | numeric n =>
    simp only [rpnStep, Option.ite_none_right_eq_some, Option.some.injEq] at hstep
    obtain ⟨hroom, rfl⟩ := hstep
    exact pushNum_spec h hroom n
  | operator op =>
    rw [rpnStep] at hstep
    rw [rpnToken]
    by_cases hplus : op = opPlus
    · rw [if_pos hplus] at hstep ⊢
      rcases stack with - | ⟨a, - | ⟨b, stack⟩⟩
      · exact absurd hstep (by simp [binary])
      · exact absurd hstep (by simp [binary])
      · obtain rfl := Option.some.inj hstep
        exact combine_spec h _
    rw [if_neg hplus] at hstep ⊢
    by_cases hmult : op = opMult
    · rw [if_pos hmult] at hstep ⊢
      rcases stack with - | ⟨a, - | ⟨b, stack⟩⟩
      · exact absurd hstep (by simp [binary])
      · exact absurd hstep (by simp [binary])
      · obtain rfl := Option.some.inj hstep
        exact combine_spec h _
    rw [if_neg hmult] at hstep ⊢
    by_cases hminus : op = opMinus
    · rw [if_pos hminus] at hstep ⊢
      have hcount := h.count
      rcases stack with - | ⟨a, - | ⟨b, stack⟩⟩
      · obtain rfl := Option.some.inj hstep
        have hzero : w.numstackCount = 0 := hcount
        rw [if_neg (by omega), if_neg (by omega)]
        exact ⟨w, rfl, h, .refl w⟩
      · obtain rfl := Option.some.inj hstep
        have hone : w.numstackCount = 1 := hcount
        rw [if_pos hone]
        obtain ⟨w', hpush, hnums, hsame⟩ :=
          pushNum_spec (dropNum_cons h) (by decide) (int16 (-a))
        refine ⟨w', ?_, hnums, hsame.r, hsame.opstacks⟩
        rw [negate, topNum_cons h, ← hpush]
        rfl
      · obtain rfl := Option.some.inj hstep
        have htwo : w.numstackCount = stack.length + 2 := hcount
        rw [if_neg (by omega), if_pos (by omega)]
        exact combine_spec h _
    · rw [if_neg hminus] at hstep ⊢
      obtain rfl := Option.some.inj hstep
      exact ⟨w, rfl, h, .refl w⟩

/-- A token that cannot be evaluated finds the stack of numbers empty or full. -/
theorem rpnToken_none (h : NumsAt w stack) {t : RpnToken} (hstep : rpnStep stack t = none) :
    w.rpnToken t = .error .numstackEmpty ∨ w.rpnToken t = .error .numstackFull := by
  cases t with
  | numeric n =>
    simp only [rpnStep, ite_eq_right_iff, reduceCtorEq, imp_false] at hstep
    exact .inr (if_neg (h.count ▸ hstep))
  | operator op =>
    left
    rw [rpnStep] at hstep
    rw [rpnToken]
    by_cases hplus : op = opPlus
    · rw [if_pos hplus] at hstep ⊢
      rcases stack with - | ⟨a, - | ⟨b, stack⟩⟩
      · exact combine_fault h (by simp) _
      · exact combine_fault h (by simp) _
      · exact absurd hstep (by simp [binary])
    rw [if_neg hplus] at hstep ⊢
    by_cases hmult : op = opMult
    · rw [if_pos hmult] at hstep ⊢
      rcases stack with - | ⟨a, - | ⟨b, stack⟩⟩
      · exact combine_fault h (by simp) _
      · exact combine_fault h (by simp) _
      · exact absurd hstep (by simp [binary])
    rw [if_neg hmult] at hstep
    by_cases hminus : op = opMinus
    · rw [if_pos hminus] at hstep
      rcases stack with - | ⟨a, - | ⟨b, stack⟩⟩ <;> exact absurd hstep (by simp [minus])
    · rw [if_neg hminus] at hstep
      exact absurd hstep (by simp)

/-- The loop over an expression, with the numbers of a list on the stack. -/
theorem rpnLoop_topNum (expr : List RpnToken) (h : NumsAt w stack) :
    (∀ v, Basic.evalRpn expr stack = some v →
      ∃ w', rpnLoop expr w = .ok w' ∧ w'.topNum = .ok v ∧ SameOps w w') ∧
    (Basic.evalRpn expr stack = none → ∃ f, (rpnLoop expr w >>= topNum) = .error f ∧
      (f = .numstackEmpty ∨ f = .numstackFull)) := by
  induction expr generalizing w stack with
  | nil =>
    rcases stack with - | ⟨a, stack⟩
    · exact ⟨fun v hv => absurd hv (by simp [Basic.evalRpn]),
        fun _ => ⟨_, topNum_nil h, .inl rfl⟩⟩
    · refine ⟨fun v hv => ⟨w, rfl, ?_, .refl w⟩, fun hv => absurd hv (by simp [Basic.evalRpn])⟩
      rw [topNum_cons h, Option.some.inj hv]
  | cons t expr ih =>
    rw [evalRpn_cons]
    cases hstep : rpnStep stack t with
    | none =>
      refine ⟨fun v hv => absurd hv (by simp), fun _ => ?_⟩
      rcases rpnToken_none h hstep with hfault | hfault
      · exact ⟨_, by rw [rpnLoop, hfault]; rfl, .inl rfl⟩
      · exact ⟨_, by rw [rpnLoop, hfault]; rfl, .inr rfl⟩
    | some stack' =>
      obtain ⟨w₁, htok, hnums, hsame⟩ := rpnToken_some h hstep
      have hloop : rpnLoop (t :: expr) w = rpnLoop expr w₁ := by
        rw [rpnLoop, htok]
        rfl
      rw [hloop]
      refine ⟨fun v hv => ?_, fun hv => (ih hnums).2 hv⟩
      obtain ⟨w', hrun, htop, hsame'⟩ := (ih hnums).1 v hv
      exact ⟨w', hrun, htop, hsame.trans hsame'⟩

/-- The evaluation on the shared stack is the one on a list. -/
theorem evalRpn_spec (expr : List RpnToken) (w : Workspace) :
    (∀ v, Basic.evalRpn expr [] = some v → ∃ w', evalRpn expr w = .ok (v, w') ∧ SameOps w w') ∧
    (Basic.evalRpn expr [] = none → ∃ f, evalRpn expr w = .error f ∧
      (f = .numstackEmpty ∨ f = .numstackFull)) := by
  have h : NumsAt { w with numstackCount := 0 } [] := ⟨trivial, rfl, Nat.zero_le _⟩
  obtain ⟨hsome, hnone⟩ := rpnLoop_topNum expr h
  constructor
  · intro v hv
    obtain ⟨w', hrun, htop, hsame⟩ := hsome v hv
    refine ⟨w', ?_, hsame.r, hsame.opstacks⟩
    rw [evalRpn, hrun]
    show (do return (← w'.topNum, w')) = _
    rw [htop]
    rfl
  · intro hv
    obtain ⟨f, hf, hkind⟩ := hnone hv
    refine ⟨f, ?_, hkind⟩
    rw [evalRpn]
    cases hrun : rpnLoop expr { w with numstackCount := 0 } with
    | error g =>
      rw [hrun] at hf
      exact congrArg _ (Except.error.inj hf)
    | ok w' =>
      rw [hrun] at hf
      have htop : w'.topNum = .error f := hf
      show (do return (← w'.topNum, w')) = _
      rw [htop]
      rfl

end Workspace

end

/-! ## The stacks of operators -/

/-- The shared pointer points to the top of the stack of an activation, and this holds the operators
of a list, the top one first. -/
structure OpsAt (w : Workspace) (frame : ℕ) (opstack : List UInt8) : Prop where
  ptr : w.workingOpstackPtr = (frame, opstack.length)
  stacked : Stacked (w.opstacks frame) opstack

section

variable {w : Workspace} {frame : ℕ} {opstack : List UInt8} {output : List RpnToken}

/-- A nested activation leaves the stack alone, and with the pointer that has been saved it is there
again. -/
theorem OpsAt.restored {w' : Workspace} (h : OpsAt w frame opstack)
    (hsame : SameBelow (frame + 1) w w') (stop : ℕ) :
    OpsAt { w' with workingOpstackPtr := w.workingOpstackPtr, workingSrc := stop } frame opstack :=
  ⟨h.ptr, h.stacked.congr fun i _ => by rw [hsame frame (Nat.lt_succ_self _)]⟩

namespace Workspace

/-- The topmost operator of the frame. -/
theorem topOp_cons {op : UInt8} (h : OpsAt w frame (op :: opstack)) : w.topOp = .ok op := by
  rw [topOp, h.ptr]
  exact congrArg _ h.stacked.1

/-- The topmost operator is taken from the stack. -/
theorem dropOp_cons {op : UInt8} (h : OpsAt w frame (op :: opstack)) :
    OpsAt w.dropOp frame opstack where
  ptr := by
    rw [dropOp, h.ptr]
    rfl
  stacked := h.stacked.2

/-- An operator is put on the stack of the frame where there is room. -/
theorem pushOp_eq (h : OpsAt w frame opstack) (hroom : opstack.length < opstackMax) (op : UInt8) :
    ∃ w', w.pushOp op = .ok w' ∧ OpsAt w' frame (op :: opstack) ∧ SameBelow frame w w' ∧
      w'.r = w.r ∧ w'.workingSrc = w.workingSrc := by
  have hn : w.workingOpstackPtr.2 = opstack.length := by rw [h.ptr]
  have hf : w.workingOpstackPtr.1 = frame := by rw [h.ptr]
  refine ⟨_, if_pos (hn ▸ hroom), ⟨?_, ?_⟩, ?_, rfl, rfl⟩
  · simp only [hn, hf]
    rfl
  · simp only [hn, hf, Function.update_self]
    exact h.stacked.push op
  · intro i hi
    simp only [hf]
    exact Function.update_of_ne (Nat.ne_of_lt hi) ..

/-- An operator is not put on a stack that is full. -/
theorem pushOp_full (h : OpsAt w frame opstack) (hfull : ¬ opstack.length < opstackMax)
    (op : UInt8) :
    w.pushOp op = .error .opstackFull := by
  have hn : w.workingOpstackPtr.2 = opstack.length := by rw [h.ptr]
  exact if_neg (hn ▸ hfull)

/-- A token is written when it lies inside of the buffer. -/
theorem emit_eq {t : RpnToken} (h : OutputFits (output ++ [t])) :
    emit output t = .ok (output ++ [t]) := by
  rw [OutputFits, outputSize_append, outputSize_singleton] at h
  exact if_pos h

/-- A token is not put behind the end of the output. -/
theorem emit_full {t : RpnToken} (h : ¬ OutputFits (output ++ [t])) :
    emit output t = .error .output := by
  rw [OutputFits, outputSize_append, outputSize_singleton] at h
  exact if_neg h

/-- The entries that are popped go to the output as long as there is room.

**Proof sketch.** By induction on the stack. An operator that is popped goes to the output if it
fits (`emit_eq`, `emit_full`), and the induction hypothesis is used with the longer output. -/
theorem popOps_eq (output : List RpnToken) (h : OpsAt w frame opstack) (p : UInt8 → Bool) :
    (OutputFits (output ++ (opstack.takeWhile p).map .operator) →
      ∃ w', popOps p opstack.length output w =
          .ok ((opstack.dropWhile p).length, output ++ (opstack.takeWhile p).map .operator, w') ∧
        OpsAt w' frame (opstack.dropWhile p) ∧ w'.opstacks = w.opstacks ∧ w'.r = w.r ∧
        w'.workingSrc = w.workingSrc) ∧
    (OutputFits output → ¬ OutputFits (output ++ (opstack.takeWhile p).map .operator) →
      popOps p opstack.length output w = .error .output) := by
  induction opstack generalizing w output with
  | nil =>
    refine ⟨fun _ => ⟨w, by simp [popOps], h, rfl, rfl, rfl⟩, fun hle hnot => ?_⟩
    rw [List.takeWhile_nil, List.map_nil, List.append_nil] at hnot
    exact absurd hle hnot
  | cons op opstack ih =>
    by_cases hp : p op = true
    · rw [List.takeWhile_cons_of_pos hp, List.dropWhile_cons_of_pos hp, List.length_cons,
        List.map_cons, ← List.singleton_append, ← List.append_assoc]
      by_cases hfits : OutputFits (output ++ [.operator op])
      · have hrun : popOps p (opstack.length + 1) output w =
            popOps p opstack.length (output ++ [.operator op]) w.dropOp := by
          rw [popOps, topOp_cons h]
          simp only [hp, if_true, emit_eq hfits]
        obtain ⟨hok, hfull⟩ := ih (output ++ [.operator op]) (dropOp_cons h)
        rw [hrun]
        exact ⟨hok, fun _ hnot => hfull hfits hnot⟩
      · refine ⟨fun hle => absurd (hle.of_append _) hfits, fun _ _ => ?_⟩
        rw [popOps, topOp_cons h]
        simp only [hp, if_true, emit_full hfits]
    · rw [List.takeWhile_cons_of_neg hp, List.dropWhile_cons_of_neg hp, List.map_nil,
        List.append_nil]
      refine ⟨fun _ => ⟨w, ?_, h, rfl, rfl, rfl⟩, fun hle hnot => absurd hle hnot⟩
      simp [popOps, topOp_cons h, hp]

end Workspace

end

/-! ## The evaluation -/

section

variable {k : ℕ} {s : State}

/-- The evaluations of expressions agree for `k` turns. -/
def NumericAgrees (k : ℕ) (s : State) : Prop :=
  ∀ frame src w, Simulates frame w (Workspace.evalNumeric k s frame src w)
    (evalNumeric k s w.r src)

/-- The loops of the algorithm agree for `k` turns, with an output that fits its buffer. -/
def YardAgrees (k : ℕ) (s : State) : Prop :=
  ∀ frame opstack output w, OpsAt w frame opstack → opstack.length ≤ opstackMax →
    OutputFits output →
    Simulates frame w (Workspace.evalShuntingYard k s frame opstack.length output w)
      (evalShuntingYard k s w.r w.workingSrc output opstack)

/-- The calls of functions agree for `k` turns. -/
def FuncAgrees (k : ℕ) (s : State) : Prop :=
  ∀ frame toks w, Simulates frame w (Workspace.tFuncCall k s frame toks w)
    (tFuncCall k s w.r toks)

/-- The pointers to variables agree for `k` turns. -/
def PtrAgrees (k : ℕ) (s : State) : Prop :=
  ∀ frame toks w, Simulates frame w (Workspace.tVariableGetPtr k s frame toks w)
    (tVariableGetPtr k s w.r toks)

/-! ### The functions without shared pointers -/

/-- A call of a function, with one level less for its argument. -/
theorem tFuncCall_succ (r toks : ℕ) : tFuncCall (k + 1) s r toks =
    if s.ram toks ≠ tokFunc then some (.error .syntaxError, r)
    else if s.ram (toks + 1) ≠ funcRnd then some (.error .unknownFunc, r)
    else if opCheck s.ram (toks + 2) opLparen then
      (errorHandle (fun r => evalNumeric k s r (toks + 2)) r).andThen fun p r =>
        if p.1 = 0 then none
        else some (.ok (int16 ((rand16 r % ofNumeric p.1 : ℕ) + 1), p.2 + opSize), rand16 r)
    else some (.ok (toNumeric (rand16 r), toks + 2), rand16 r) := by
  rw [tFuncCall]
  generalize errorHandle (fun r => evalNumeric k s r (toks + 2)) r = l
  rcases l with - | ⟨- | p, r'⟩ <;> rfl

/-- A call for a variable, with one level less for its index. -/
theorem tVariableGetPtr_succ {next : ℕ} (r toks : ℕ) (h : varToken s.ram toks = some next) :
    tVariableGetPtr (k + 1) s r toks =
    if opCheck s.ram next opLparen then
      (errorHandle (fun r => evalNumeric k s r (next + opSize)) r).andThen fun p r =>
        (arrayRef s toks p.1).map fun x => (x.map fun ref => (ref, p.2 + opSize), r)
    else
      (programGetNumericRef s toks).map fun ref =>
        (ref.elim (.error .undefinedVar) fun ref => .ok (ref, next), r) := by
  rw [tVariableGetPtr, h]
  dsimp only
  generalize errorHandle (fun r => evalNumeric k s r (next + opSize)) r = l
  split_ifs
  · rcases l with - | ⟨- | p, r'⟩
    · rfl
    · rfl
    · simp only [Evaluated.andThen]
      rcases arrayRef s toks p.1 with - | (- | ref) <;> rfl
  · rcases programGetNumericRef s toks with - | (- | ref) <;> rfl

/-- The evaluation of an expression, with one level less for its output. -/
theorem evalNumeric_succ (r src : ℕ) : evalNumeric (k + 1) s r src =
    if s.ram src = tokNumeric && evalIsEndOfExpression s.ram (src + numericSize) then
      some (.ok (numericGet s.ram src, src + numericSize), r)
    else if s.ram src = tokRegister && evalIsEndOfExpression s.ram (src + registerSize) then
      (register? s.ram src).map fun i => (.ok (s.load (.register i), src + registerSize), r)
    else
      (errorHandle (fun r => evalShuntingYard k s r src [] []) r).andThen fun p r =>
        (evalRpn p.1 []).map fun result => (.ok (result, p.2), r) := by
  rw [evalNumeric]
  generalize errorHandle (fun r => evalShuntingYard k s r src [] []) r = l
  rcases l with - | ⟨- | p, r'⟩ <;> rfl

/-- A turn of the loop over an expression, with one level less for the rest.

**Proof sketch.** Both sides are the same branches once the results of the calls for a function and
for a variable are named and split. -/
theorem evalShuntingYard_succ (r src : ℕ) (output : List RpnToken) (opstack : List UInt8) :
    evalShuntingYard (k + 1) s r src output opstack =
    if evalIsEndOfExpression s.ram src then
      if outputSize (output ++ opstack.map .operator) < statementSizeMax then
        some (.ok (output ++ opstack.map .operator, src), r)
      else none
    else if s.ram src = tokNumeric then
      if OutputFits (output ++ [.numeric (numericGet s.ram src)]) then
        evalShuntingYard k s r (src + numericSize) (output ++ [.numeric (numericGet s.ram src)])
          opstack
      else none
    else if s.ram src = tokFunc then
      (errorHandle (fun r => tFuncCall k s r src) r).andThen fun p r =>
        if OutputFits (output ++ [.numeric p.1]) then
          evalShuntingYard k s r p.2 (output ++ [.numeric p.1]) opstack
        else none
    else if s.ram src = tokVariable || s.ram src = tokRegister then
      (errorHandle (fun r => tVariableGetPtr k s r src) r).andThen fun p r =>
        if OutputFits (output ++ [.numeric (s.load p.1)]) then
          evalShuntingYard k s r p.2 (output ++ [.numeric (s.load p.1)]) opstack
        else none
    else if s.ram src = tokOperator then
      if OutputFits (output ++ (opstack.takeWhile fun o => precedence o >
            precedence (s.ram (src + 1))).map .operator) ∧
          (opstack.dropWhile fun o => precedence o > precedence (s.ram (src + 1))).length <
            opstackMax then
        evalShuntingYard k s r (src + opSize)
          (output ++ (opstack.takeWhile fun o => precedence o >
            precedence (s.ram (src + 1))).map .operator)
          (s.ram (src + 1) :: opstack.dropWhile fun o => precedence o >
            precedence (s.ram (src + 1)))
      else none
    else evalShuntingYard k s r src output opstack := by
  rw [evalShuntingYard]
  generalize errorHandle (fun r => tFuncCall k s r src) r = l
  generalize errorHandle (fun r => tVariableGetPtr k s r src) r = l'
  rcases l with - | ⟨- | p, r'⟩ <;> rcases l' with - | ⟨- | p', r''⟩ <;> rfl

/-! ### The steps -/

/-- A function is simulated with one level more than its argument. -/
theorem tFuncCall_simulates (h : NumericAgrees k s) : FuncAgrees (k + 1) s := by
  intro frame toks w
  rw [Workspace.tFuncCall, tFuncCall_succ]
  split_ifs
  · exact .ok (.refl frame w)
  · exact .ok (.refl frame w)
  · have hcall := Simulates.errorHandle _ (fun r => evalNumeric k s r (toks + 2))
      (fun w => h frame (toks + 2) w) w
    refine hcall.andThen fun p w' _ => ?_
    by_cases hzero : p.1 = 0
    · rw [if_pos hzero, if_pos hzero]
      exact .undefined _
    · rw [if_neg hzero, if_neg hzero]
      exact .ok (.refl frame w')
  · exact .ok (.refl frame w)

/-- A variable is simulated with one level more than its index. -/
theorem tVariableGetPtr_simulates (h : NumericAgrees k s) : PtrAgrees (k + 1) s := by
  intro frame toks w
  rw [Workspace.tVariableGetPtr]
  cases hvar : varToken s.ram toks with
  | none =>
    rw [tVariableGetPtr, hvar]
    exact .ok (.refl frame w)
  | some next =>
    rw [tVariableGetPtr_succ _ _ hvar]
    dsimp only
    split_ifs
    · have hcall := Simulates.errorHandle _ (fun r => evalNumeric k s r (next + opSize))
        (fun w => h frame (next + opSize) w) w
      refine hcall.andThen fun p w' _ => ?_
      cases arrayRef s toks p.1 with
      | none => exact .undefined _
      | some x =>
        cases x with
        | error e => exact .ok (.refl frame w')
        | ok ref => exact .ok (.refl frame w')
    · cases programGetNumericRef s toks with
      | none => exact .undefined _
      | some ref =>
        cases ref with
        | none => exact .ok (.refl frame w)
        | some ref => exact .ok (.refl frame w)

/-- The evaluation of the output on the shared stack of numbers. -/
theorem evalRpn_simulates {frame stop : ℕ} {output : List RpnToken} {w : Workspace} :
    Simulates frame w ((Workspace.evalRpn output w).map fun q => (.ok (q.1, stop), q.2))
      ((evalRpn output []).map fun result => (.ok (result, stop), w.r)) := by
  obtain ⟨hsome, hnone⟩ := Workspace.evalRpn_spec output w
  cases hv : evalRpn output [] with
  | none =>
    obtain ⟨f, hf, -⟩ := hnone hv
    rw [hf]
    exact .undefined f
  | some v =>
    obtain ⟨w', hrun, hsame⟩ := hsome v hv
    rw [hrun, ← hsame.r]
    exact .ok fun i _ => by rw [hsame.opstacks]

/-- An expression is simulated with one level more than its output. -/
theorem evalNumeric_simulates_step (h : YardAgrees k s) : NumericAgrees (k + 1) s := by
  intro frame src w
  rw [Workspace.evalNumeric, evalNumeric_succ]
  split_ifs
  · exact .ok (.refl frame w)
  · cases register? s.ram src with
    | none => exact .undefined _
    | some i => exact .ok (.refl frame w)
  · have henter : ∀ w : Workspace, Simulates frame w
        (Workspace.evalShuntingYard k s frame 0 [] (w.enter frame src))
        (evalShuntingYard k s w.r src [] []) := by
      intro w
      have hops : OpsAt (w.enter frame src) frame [] := ⟨rfl, trivial⟩
      exact (h frame [] [] _ hops (Nat.zero_le _) (Nat.zero_le _)).of_sameBelow fun _ _ => rfl
    have hcall := Simulates.errorHandle _ (fun r => evalShuntingYard k s r src [] []) henter w
    exact hcall.andThen fun p w' _ => evalRpn_simulates

/-- An operand is written to the output, and the loop goes on behind it. -/
theorem YardAgrees.operand {frame : ℕ} {opstack : List UInt8} {output : List RpnToken}
    {w : Workspace} (h : YardAgrees k s) (n : ℤ) (hops : OpsAt w frame opstack)
    (hlen : opstack.length ≤ opstackMax) :
    Simulates frame w
      ((emit output (.numeric n)).bind fun output =>
        Workspace.evalShuntingYard k s frame opstack.length output w)
      (if OutputFits (output ++ [.numeric n]) then
        evalShuntingYard k s w.r w.workingSrc (output ++ [.numeric n]) opstack
      else none) := by
  by_cases hfits : OutputFits (output ++ [.numeric n])
  · rw [if_pos hfits, Workspace.emit_eq hfits]
    exact h frame opstack (output ++ [.numeric n]) w hops hlen hfits
  · rw [if_neg hfits, Workspace.emit_full hfits]
    exact .undefined _

/-- An operator pops those in front of it and is pushed, and the loop goes on behind it.

**Proof sketch.** The operators in front are popped (`Workspace.popOps_eq`) and the operator is
pushed (`Workspace.pushOp_eq`), and then the loops agree by the hypothesis. Without room for either,
the result is undefined on both sides. -/
theorem YardAgrees.operator {frame : ℕ} {opstack : List UInt8} {output : List RpnToken}
    {w : Workspace} (h : YardAgrees k s) (op : UInt8) (p : UInt8 → Bool)
    (hops : OpsAt w frame opstack) (hout : OutputFits output) :
    Simulates frame w
      ((Workspace.popOps p opstack.length output w).bind fun q =>
        (q.2.2.pushOp op).bind fun w =>
          Workspace.evalShuntingYard k s frame (q.1 + 1) q.2.1
            { w with workingSrc := w.workingSrc + opSize })
      (if OutputFits (output ++ (opstack.takeWhile p).map .operator) ∧
          (opstack.dropWhile p).length < opstackMax then
        evalShuntingYard k s w.r (w.workingSrc + opSize)
          (output ++ (opstack.takeWhile p).map .operator)
          (op :: opstack.dropWhile p)
      else none) := by
  obtain ⟨hpop, hfull⟩ := Workspace.popOps_eq output hops p
  by_cases hfits : OutputFits (output ++ (opstack.takeWhile p).map .operator)
  · obtain ⟨w', hrun, hops', hstacks, hr, hsrc⟩ := hpop hfits
    rw [hrun]
    simp only [Except.bind]
    by_cases hroom : (opstack.dropWhile p).length < opstackMax
    · obtain ⟨w'', hpush, hops'', hsame, hr', hsrc'⟩ := Workspace.pushOp_eq hops' hroom op
      rw [if_pos ⟨hfits, hroom⟩, hpush]
      have hnext := h frame (op :: opstack.dropWhile p)
        (output ++ (opstack.takeWhile p).map .operator)
        { w'' with workingSrc := w''.workingSrc + opSize }
        ⟨hops''.ptr, hops''.stacked⟩ hroom hfits
      simp only [hr'.trans hr, hsrc'.trans hsrc, List.length_cons] at hnext ⊢
      refine hnext.of_sameBelow fun i hi => ?_
      rw [← hstacks]
      exact hsame i hi
    · rw [if_neg fun h => hroom h.2, Workspace.pushOp_full hops' hroom]
      exact .undefined _
  · rw [if_neg fun h => hfits h.1, hfull hout hfits]
    exact .undefined _

/-- At the end all operators are popped, and a terminator is written behind them. -/
theorem popOps_simulates {frame : ℕ} {opstack : List UInt8} {output : List RpnToken}
    {w : Workspace} (hops : OpsAt w frame opstack) (hout : OutputFits output) :
    Simulates frame w
      ((Workspace.popOps (fun _ => true) opstack.length output w).bind fun q =>
        if outputSize q.2.1 < statementSizeMax then .ok (.ok (q.2.1, q.2.2.workingSrc), q.2.2)
        else .error .output)
      (if outputSize (output ++ opstack.map .operator) < statementSizeMax then
        some (.ok (output ++ opstack.map .operator, w.workingSrc), w.r)
      else none) := by
  obtain ⟨hpop, hfull⟩ := Workspace.popOps_eq output hops fun _ => true
  have htake : opstack.takeWhile (fun _ => true) = opstack :=
    List.takeWhile_eq_self_iff.2 fun _ _ => rfl
  rw [htake] at hpop hfull
  by_cases hfits : OutputFits (output ++ opstack.map .operator)
  · obtain ⟨w', hrun, -, hstacks, hr, hsrc⟩ := hpop hfits
    rw [hrun]
    simp only [Except.bind]
    by_cases hlt : outputSize (output ++ opstack.map .operator) < statementSizeMax
    · rw [if_pos hlt, if_pos hlt, ← hr, ← hsrc]
      exact .ok fun i _ => by rw [hstacks]
    · rw [if_neg hlt, if_neg hlt]
      exact .undefined _
  · rw [hfull hout hfits, if_neg fun h => hfits (Nat.le_of_lt h)]
    exact .undefined _

/-- A turn of the loop.

**Proof sketch.** By the token that the shared pointer points to. An operand that is evaluated moves
the pointers, but leaves the stack of this activation alone, and the pointers are restored. -/
theorem evalShuntingYard_simulates_step (h : YardAgrees k s) (hfunc : FuncAgrees k s)
    (hptr : PtrAgrees k s) : YardAgrees (k + 1) s := by
  intro frame opstack output w hops hlen hout
  -- the loop goes on with the pointers that have been saved
  have restored : ∀ (w' : Workspace) (n : ℤ) (stop : ℕ), SameBelow (frame + 1) w w' →
      Simulates frame w'
        ((emit output (.numeric n)).bind fun output =>
          Workspace.evalShuntingYard k s frame opstack.length output
            { w' with workingOpstackPtr := w.workingOpstackPtr, workingSrc := stop })
        (if OutputFits (output ++ [.numeric n]) then
          evalShuntingYard k s w'.r stop (output ++ [.numeric n]) opstack
        else none) := by
    intro w' n stop hsame
    exact (h.operand n (hops.restored hsame stop) hlen).of_sameBelow fun _ _ => rfl
  rw [Workspace.evalShuntingYard, evalShuntingYard_succ]
  by_cases hend : evalIsEndOfExpression s.ram w.workingSrc = true
  · rw [if_pos hend, if_pos hend]
    exact popOps_simulates hops hout
  rw [if_neg hend, if_neg hend]
  by_cases hnum : s.ram w.workingSrc = tokNumeric
  · rw [if_pos hnum, if_pos hnum]
    have hops' : OpsAt { w with workingSrc := w.workingSrc + numericSize } frame opstack :=
      ⟨hops.ptr, hops.stacked⟩
    exact (h.operand _ hops' hlen).of_sameBelow fun _ _ => rfl
  rw [if_neg hnum, if_neg hnum]
  by_cases htok : s.ram w.workingSrc = tokFunc
  · rw [if_pos htok, if_pos htok]
    have hcall := Simulates.errorHandle _ (fun r => tFuncCall k s r w.workingSrc)
      (fun w' => hfunc (frame + 1) w.workingSrc w') w
    exact hcall.of_succ.andThen fun p w' hp => restored w' _ _ (hcall.sound _ _ hp).2
  rw [if_neg htok, if_neg htok]
  by_cases hvar : (s.ram w.workingSrc = tokVariable || s.ram w.workingSrc = tokRegister) = true
  · rw [if_pos hvar, if_pos hvar]
    have hcall := Simulates.errorHandle _ (fun r => tVariableGetPtr k s r w.workingSrc)
      (fun w' => hptr (frame + 1) w.workingSrc w') w
    exact hcall.of_succ.andThen fun p w' hp => restored w' _ _ (hcall.sound _ _ hp).2
  rw [if_neg hvar, if_neg hvar]
  by_cases hop : s.ram w.workingSrc = tokOperator
  · rw [if_pos hop, if_pos hop]
    exact h.operator _ _ hops hout
  · rw [if_neg hop, if_neg hop]
    exact h frame opstack output w hops hlen hout

/-- **The evaluation with shared pointers** agrees with the one in which every activation has its
own, for every number of turns and whatever the shared variables hold. -/
theorem evaluations_agree (k : ℕ) (s : State) :
    NumericAgrees k s ∧ YardAgrees k s ∧ FuncAgrees k s ∧ PtrAgrees k s := by
  induction k with
  | zero =>
    refine ⟨?_, ?_, ?_, ?_⟩
    · exact fun _ _ _ => .undefined _
    · exact fun _ _ _ _ _ _ _ => .undefined _
    · exact fun _ _ _ => .undefined _
    · exact fun _ _ _ => .undefined _
  | succ k ih =>
    obtain ⟨hnum, hyard, hfunc, hptr⟩ := ih
    exact ⟨evalNumeric_simulates_step hyard, evalShuntingYard_simulates_step hyard hfunc hptr,
      tFuncCall_simulates hnum, tVariableGetPtr_simulates hnum⟩

/-- The results of the two evaluations are the same, values and errors. -/
theorem workspace_evalNumeric_result_iff (k : ℕ) (s : State) (frame src : ℕ) (w : Workspace)
    (res : Except Error (ℤ × ℕ)) (r : ℕ) :
    (∃ w', Workspace.evalNumeric k s frame src w = .ok (res, w') ∧ w'.r = r) ↔
      evalNumeric k s w.r src = some (res, r) := by
  have h := (evaluations_agree k s).1 frame src w
  constructor
  · rintro ⟨w', hrun, rfl⟩
    exact (h.sound _ _ hrun).1
  · exact h.exists_eq

/-- **Shared pointers do not leak.** For every state, every expression in it and whatever the shared
variables hold: the evaluation with shared pointers ends without error, inside of the stacks and the
buffer, with a value, an end and a state of the random number generator, exactly when the evaluation
does so in which every activation has its own pointers. -/
theorem workspace_evalNumeric_iff (k : ℕ) (s : State) (frame src : ℕ) (w : Workspace) (v : ℤ)
    (stop r : ℕ) :
    (∃ w', Workspace.evalNumeric k s frame src w = .ok (.ok (v, stop), w') ∧ w'.r = r) ↔
      evalNumeric k s w.r src = some (.ok (v, stop), r) :=
  workspace_evalNumeric_result_iff k s frame src w (.ok (v, stop)) r

end

end Z80OS.Basic
