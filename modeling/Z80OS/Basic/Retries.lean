import Z80OS.Basic.Nesting
import Z80OS.Lib.Draws

set_option relaxedAutoImplicit false
set_option autoImplicit false

/-!
# Evaluations that fail

An operand that fails ends the evaluation of its expression with an error. The macro that does this
evaluates the operand again, and so does the one around the whole expression, so that the calls of
`RND` in front of the failure draw again from the random number generator, and an index can have
another value in the second evaluation. An expression that fails before it has drawn a number fails
in the same way again. An expression that needs more room than there is writes behind an array
before it comes to the operand that fails.

The evaluation is written here as a computation that draws numbers. It makes every failing call
again, as in the source, or makes every call once, and it has the room that there is in the source,
or as much as it needs.

## Main definitions

* `Z80OS.Basic.numericTree` — the evaluation of an expression as a computation.
* `Z80OS.Basic.Singly`, `Z80OS.Basic.Actually` — what the evaluation gives when every call is made
  once, with as much room as it needs, and what it gives.
* `Z80OS.Basic.EvaluatesOnce` — every operand is evaluated once, as far as can be seen.
* `Z80OS.Basic.DrawsBeforeFailing` — an operand fails behind a call of `RND`.
* `Z80OS.Basic.Overfills` — the evaluation needs more room than there is.

## Main results

* `Z80OS.Basic.run_numericTree` — the computation gives what the evaluation gives.
* `Z80OS.Basic.evalNumeric_of_singly` — the evaluator gives what the single evaluation gives.
* `Z80OS.Basic.evaluatesOnce_iff` — when every operand is evaluated once.
-/

namespace Z80OS.Basic

open Draws

/-- A computation that draws random numbers. -/
abbrev Drawn (α : Type) : Type := Prog ℕ Error α

/-- A call in `ERROR_HANDLE`, which is made again when it fails, or made once. -/
def handle {α : Type} (again : Bool) (call : Drawn α) : Drawn α :=
  bif again then call.retry else call

/-- A value or an error. -/
def ofExcept {α : Type} : Except Error α → Drawn α
  | .error e => .fail e
  | .ok a => .ret a

/-- What one token in reverse Polish notation does with a stack of numbers that has no end. -/
def endlessStep (stack : List ℤ) : RpnToken → Option (List ℤ)
  | .numeric n => some (n :: stack)
  | .operator op => rpnStep stack (.operator op)

/-- Evaluates an expression in reverse Polish notation on a stack of numbers that has no end. -/
def endlessRpn : List RpnToken → List ℤ → Option ℤ
  | [], stack => stack.head?
  | t :: expr, stack => (endlessStep stack t).bind (endlessRpn expr)

/-- There is room for an output in its buffer, or the buffer has no end. -/
abbrev RoomFor (bounded : Bool) (output : List RpnToken) : Prop :=
  bounded = true → OutputFits output

mutual

/-- Evaluates an expression. -/
def numericTree (again bounded : Bool) : ℕ → State → ℕ → Drawn (ℤ × ℕ)
  | 0, _, _ => .undefined
  | k + 1, s, src =>
    if s.ram src = tokNumeric && evalIsEndOfExpression s.ram (src + numericSize) then
      .ret (numericGet s.ram src, src + numericSize)
    else if s.ram src = tokRegister && evalIsEndOfExpression s.ram (src + registerSize) then
      .ofOption ((register? s.ram src).map fun i => (s.load (.register i), src + registerSize))
    else
      (handle again (yardTree again bounded k s src [] [])).bind fun p =>
        .ofOption ((bif bounded then evalRpn p.1 [] else endlessRpn p.1 []).map fun result =>
          (result, p.2))
termination_by structural k => k

/-- The shunting-yard algorithm. -/
def yardTree (again bounded : Bool) : ℕ → State → ℕ → List RpnToken → List UInt8 →
    Drawn (List RpnToken × ℕ)
  | 0, _, _, _, _ => .undefined
  | k + 1, s, src, output, opstack =>
    if evalIsEndOfExpression s.ram src then
      if bounded = true → outputSize (output ++ opstack.map .operator) < statementSizeMax then
        .ret (output ++ opstack.map .operator, src)
      else .undefined
    else if s.ram src = tokNumeric then
      if RoomFor bounded (output ++ [.numeric (numericGet s.ram src)]) then
        yardTree again bounded k s (src + numericSize)
          (output ++ [.numeric (numericGet s.ram src)]) opstack
      else .undefined
    else if s.ram src = tokFunc then
      (handle again (funcTree again bounded k s src)).bind fun p =>
        if RoomFor bounded (output ++ [.numeric p.1]) then
          yardTree again bounded k s p.2 (output ++ [.numeric p.1]) opstack
        else .undefined
    else if s.ram src = tokVariable || s.ram src = tokRegister then
      (handle again (ptrTree again bounded k s src)).bind fun p =>
        if RoomFor bounded (output ++ [.numeric (s.load p.1)]) then
          yardTree again bounded k s p.2 (output ++ [.numeric (s.load p.1)]) opstack
        else .undefined
    else if s.ram src = tokOperator then
      if bounded = true → OutputFits (output ++ (opstack.takeWhile fun o => precedence o >
            precedence (s.ram (src + 1))).map .operator) ∧
          (opstack.dropWhile fun o => precedence o > precedence (s.ram (src + 1))).length <
            opstackMax then
        yardTree again bounded k s (src + opSize)
          (output ++ (opstack.takeWhile fun o => precedence o >
            precedence (s.ram (src + 1))).map .operator)
          (s.ram (src + 1) :: opstack.dropWhile fun o => precedence o >
            precedence (s.ram (src + 1)))
      else .undefined
    else yardTree again bounded k s src output opstack
termination_by structural k => k

/-- Calls a function. -/
def funcTree (again bounded : Bool) : ℕ → State → ℕ → Drawn (ℤ × ℕ)
  | 0, _, _ => .undefined
  | k + 1, s, toks =>
    if s.ram toks ≠ tokFunc then .fail .syntaxError
    else if s.ram (toks + 1) ≠ funcRnd then .fail .unknownFunc
    else if opCheck s.ram (toks + 2) opLparen then
      (handle again (numericTree again bounded k s (toks + 2))).bind fun p =>
        if p.1 = 0 then .undefined
        else .draw fun v => .ret (int16 ((v % ofNumeric p.1 : ℕ) + 1), p.2 + opSize)
    else .draw fun v => .ret (toNumeric v, toks + 2)
termination_by structural k => k

/-- The pointer to the value of a variable or of an element of an array. -/
def ptrTree (again bounded : Bool) : ℕ → State → ℕ → Drawn (Ref × ℕ)
  | 0, _, _ => .undefined
  | k + 1, s, toks =>
    match varToken s.ram toks with
    | none => .fail .syntaxError
    | some next =>
      if opCheck s.ram next opLparen then
        (handle again (numericTree again bounded k s (next + opSize))).bind fun p =>
          (Prog.ofOption (arrayRef s toks p.1)).bind fun x =>
            ofExcept (x.map fun ref => (ref, p.2 + opSize))
      else
        (Prog.ofOption (programGetNumericRef s toks)).bind fun ref =>
          ofExcept (ref.elim (.error .undefinedVar) fun ref => .ok (ref, next))
termination_by structural k => k

end

/-! ## The evaluation as a computation -/

/-- What a computation gives, without the number of draws. -/
def forget {α : Type} (p : Drawn α) (r : ℕ) : Evaluated α :=
  (p.run rand16 r).map fun q => (q.1, q.2.1)

section

variable {α β : Type} {k : ℕ} {s : State}

/-- A program without its draws goes on as the evaluation does. -/
theorem forget_bind (p : Drawn α) (f : α → Drawn β) (r : ℕ) :
    forget (p.bind f) r = (forget p r).andThen fun a r => forget (f a) r := by
  unfold forget
  cases hp : p.run rand16 r with
  | none =>
    rw [run_bind_of_none hp]
    rfl
  | some q =>
    obtain ⟨e | a, r', n⟩ := q
    · rw [run_bind_of_error hp]
      rfl
    · rw [run_bind_of_ok hp, Option.map_map]
      rfl

/-- The handling of an error without the draws is the one of the evaluation. -/
theorem forget_handle (p : Drawn α) (r : ℕ) :
    forget (handle true p) r = errorHandle (forget p) r := by
  unfold forget
  show (p.retry.run rand16 r).map (fun q => (q.1, q.2.1)) = _
  rw [errorHandle, Prog.retry]
  cases hp : p.run rand16 r with
  | none =>
    rw [run_orElse_of_none hp]
    simp
  | some q =>
    obtain ⟨e | a, r', n⟩ := q
    · rw [run_orElse_of_error hp, Option.map_map]
      simp only [Option.map_some]
      cases hp' : p.run rand16 r' with
      | none =>
        rw [run_failing_of_none hp']
        rfl
      | some q =>
        obtain ⟨e' | a, r'', n'⟩ := q
        · rw [run_failing_of_error hp']
          rfl
        · rw [run_failing_of_ok hp']
          rfl
    · rw [run_orElse_of_ok hp]
      simp

/-- A program that returns. -/
@[simp] theorem forget_ret (a : α) (r : ℕ) : forget (.ret a) r = some (.ok a, r) := rfl

/-- A program that fails. -/
@[simp] theorem forget_fail (e : Error) (r : ℕ) :
    forget (.fail e : Drawn α) r = some (.error e, r) := rfl

/-- A program without a result. -/
@[simp] theorem forget_undefined (r : ℕ) : forget (.undefined : Drawn α) r = none := rfl

/-- A program that draws once. -/
@[simp] theorem forget_draw (f : ℕ → α) (r : ℕ) :
    forget (.draw fun v => .ret (f v)) r = some (.ok (f (rand16 r)), rand16 r) := rfl

/-- An option as a program. -/
theorem forget_ofOption (o : Option α) (r : ℕ) :
    forget (.ofOption o) r = o.map fun a => (.ok a, r) := by
  cases o <;> rfl

/-- A result as a program. -/
theorem forget_ofExcept (x : Except Error α) (r : ℕ) : forget (ofExcept x) r = some (x, r) := by
  cases x <;> rfl

/-- The computation of an expression, with one level more than that of its loop. -/
theorem forget_numericTree
    (hyard : ∀ src output opstack r, forget (yardTree true true k s src output opstack) r =
      evalShuntingYard k s r src output opstack) (src r : ℕ) :
    forget (numericTree true true (k + 1) s src) r = evalNumeric (k + 1) s r src := by
  rw [numericTree, evalNumeric_succ]
  split_ifs
  · rfl
  · rw [forget_ofOption, Option.map_map]
    rfl
  · rw [forget_bind, forget_handle, funext (hyard src [] [])]
    congr 1
    funext p r
    rw [forget_ofOption, Option.map_map]
    rfl

/-- The computation of the loop over an expression, with one level more than those of its calls and
of the rest of the loop. -/
theorem forget_yardTree
    (hyard : ∀ src output opstack r, forget (yardTree true true k s src output opstack) r =
      evalShuntingYard k s r src output opstack)
    (hfunc : ∀ toks r, forget (funcTree true true k s toks) r = tFuncCall k s r toks)
    (hptr : ∀ toks r, forget (ptrTree true true k s toks) r = tVariableGetPtr k s r toks)
    (src : ℕ) (output : List RpnToken) (opstack : List UInt8) (r : ℕ) :
    forget (yardTree true true (k + 1) s src output opstack) r =
      evalShuntingYard (k + 1) s r src output opstack := by
  rw [yardTree, evalShuntingYard_succ]
  simp only [RoomFor, true_imp_iff]
  split_ifs
  · rfl
  · rfl
  · exact hyard ..
  · rfl
  · rw [forget_bind, forget_handle, funext (hfunc src)]
    congr 1
    funext p r
    split_ifs
    · exact hyard ..
    · rfl
  · rw [forget_bind, forget_handle, funext (hptr src)]
    congr 1
    funext p r
    split_ifs
    · exact hyard ..
    · rfl
  · exact hyard ..
  · rfl
  · exact hyard ..

/-- The computation of a function, with one level more than that of its argument. -/
theorem forget_funcTree
    (hnum : ∀ src r, forget (numericTree true true k s src) r = evalNumeric k s r src)
    (toks r : ℕ) : forget (funcTree true true (k + 1) s toks) r = tFuncCall (k + 1) s r toks := by
  rw [funcTree, tFuncCall_succ]
  split_ifs
  · rfl
  · rfl
  · rw [forget_bind, forget_handle, funext (hnum (toks + 2))]
    congr 1
    funext p r
    split_ifs <;> rfl
  · rfl

/-- The computation of the place of a variable, with one level more than that of its index. -/
theorem forget_ptrTree
    (hnum : ∀ src r, forget (numericTree true true k s src) r = evalNumeric k s r src)
    (toks r : ℕ) :
    forget (ptrTree true true (k + 1) s toks) r = tVariableGetPtr (k + 1) s r toks := by
  rw [ptrTree]
  cases hvar : varToken s.ram toks with
  | none =>
    rw [tVariableGetPtr, hvar]
    rfl
  | some next =>
    rw [tVariableGetPtr_succ _ _ hvar]
    dsimp only
    split_ifs
    · rw [forget_bind, forget_handle, funext (hnum (next + opSize))]
      congr 1
      funext p r
      rw [forget_bind, forget_ofOption]
      cases arrayRef s toks p.1 with
      | none => rfl
      | some x => exact forget_ofExcept ..
    · rw [forget_bind, forget_ofOption]
      cases programGetNumericRef s toks with
      | none => rfl
      | some ref => exact forget_ofExcept ..

/-- **The evaluation is the computation** in which every failing call is made again, with the room
that there is.

**Proof sketch.** Induction on the levels. The computation asks what the code calls, in the same
order and under the same tests (`forget_numericTree`, `forget_yardTree`, `forget_funcTree`,
`forget_ptrTree`), and a call that is made again is `handle` there and `errorHandle` here. -/
theorem run_numericTree (k : ℕ) (s : State) :
    (∀ src r, forget (numericTree true true k s src) r = evalNumeric k s r src) ∧
    (∀ src output opstack r, forget (yardTree true true k s src output opstack) r =
      evalShuntingYard k s r src output opstack) ∧
    (∀ toks r, forget (funcTree true true k s toks) r = tFuncCall k s r toks) ∧
    (∀ toks r, forget (ptrTree true true k s toks) r = tVariableGetPtr k s r toks) := by
  induction k with
  | zero => exact ⟨fun _ _ => rfl, fun _ _ _ _ => rfl, fun _ _ => rfl, fun _ _ => rfl⟩
  | succ k ih =>
    obtain ⟨hnum, hyard, hfunc, hptr⟩ := ih
    exact ⟨forget_numericTree hyard, forget_yardTree hyard hfunc hptr, forget_funcTree hnum,
      forget_ptrTree hnum⟩

/-! ## Every call made once -/

/-- An evaluation that is run again after an error draws as often as it runs. -/
theorem handle_outdraws {p q : Drawn α} (h : Agrees rand16 p q) :
    Outdraws rand16 (handle true p) (handle false q) := h.retry

/-- An option has no errors. -/
theorem ofOption_ne_error (o : Option α) (r : ℕ) (e : Error) (r' n : ℕ) :
    (Prog.ofOption o : Drawn α).run rand16 r ≠ some (.error e, r', n) := by
  cases o <;> simp [Prog.ofOption, Prog.run]

/-- What is different when every failing call is made again: the errors behind draws take more
draws.

**Proof sketch.** Induction on the levels. A call that is made again after a failure takes at least
the draws of one that is not (`handle_outdraws`), and what follows a value is the same in both. -/
theorem numericTree_outdraws (bounded : Bool) (k : ℕ) (s : State) :
    (∀ src, Outdraws rand16 (numericTree true bounded k s src)
      (numericTree false bounded k s src)) ∧
    (∀ src output opstack, Agrees rand16 (yardTree true bounded k s src output opstack)
      (yardTree false bounded k s src output opstack)) ∧
    (∀ toks, Agrees rand16 (funcTree true bounded k s toks) (funcTree false bounded k s toks)) ∧
    (∀ toks, Agrees rand16 (ptrTree true bounded k s toks) (ptrTree false bounded k s toks)) := by
  induction k with
  | zero =>
    refine ⟨fun _ => .of_ok ?_, fun _ _ _ => .refl _, fun _ => .refl _, fun _ => .refl _⟩
    exact ofOption_ne_error none
  | succ k ih =>
    obtain ⟨hnum, hyard, hfunc, hptr⟩ := ih
    refine ⟨fun src => ?_, fun src output opstack => ?_, fun toks => ?_, fun toks => ?_⟩
    · rw [numericTree, numericTree]
      split_ifs
      · exact .of_ok (ofOption_ne_error (some _))
      · exact .of_ok (ofOption_ne_error _)
      · exact (handle_outdraws (hyard ..)).bind_of_ok fun p => ofOption_ne_error _
    · rw [yardTree, yardTree]
      by_cases hend : evalIsEndOfExpression s.ram src = true
      · rw [if_pos hend, if_pos hend]
        exact .refl _
      rw [if_neg hend, if_neg hend]
      by_cases hkind : s.ram src = tokNumeric
      · rw [if_pos hkind, if_pos hkind]
        exact (hyard ..).ite
      rw [if_neg hkind, if_neg hkind]
      by_cases htok : s.ram src = tokFunc
      · rw [if_pos htok, if_pos htok]
        exact (handle_outdraws (hfunc _)).toAgrees.bind fun p => (hyard ..).ite
      rw [if_neg htok, if_neg htok]
      by_cases hvar : (s.ram src = tokVariable || s.ram src = tokRegister) = true
      · rw [if_pos hvar, if_pos hvar]
        exact (handle_outdraws (hptr _)).toAgrees.bind fun p => (hyard ..).ite
      rw [if_neg hvar, if_neg hvar]
      by_cases hop : s.ram src = tokOperator
      · rw [if_pos hop, if_pos hop]
        exact (hyard ..).ite
      · rw [if_neg hop, if_neg hop]
        exact hyard ..
    · rw [funcTree, funcTree]
      split_ifs
      · exact .refl _
      · exact .refl _
      · exact (handle_outdraws (hnum _).toAgrees).toAgrees.bind fun p => .refl _
      · exact .refl _
    · rw [ptrTree, ptrTree]
      cases varToken s.ram toks with
      | none => exact .refl _
      | some next =>
        dsimp only
        split_ifs
        · exact (handle_outdraws (hnum _).toAgrees).toAgrees.bind fun p => .refl _
        · exact .refl _

/-! ## More turns and more room -/

/-- The handling of an error goes on with an evaluation that goes on. -/
theorem handle_extends {again : Bool} {p q : Drawn α} (h : Extends p q) :
    Extends (handle again p) (handle again q) := by
  cases again with
  | false => exact h
  | true => exact h.retry

/-- On a stack of numbers without an end an expression has the value that it has on one with an
end. -/
theorem endlessRpn_eq {expr : List RpnToken} {stack : List ℤ} {v : ℤ}
    (h : evalRpn expr stack = some v) : endlessRpn expr stack = some v := by
  induction expr generalizing stack with
  | nil => exact h
  | cons t expr ih =>
    rw [evalRpn_cons, Option.bind_eq_some_iff] at h
    obtain ⟨stack', hstep, hrest⟩ := h
    have hend : endlessStep stack t = some stack' := by
      cases t with
      | numeric n =>
        simp only [rpnStep, Option.ite_none_right_eq_some] at hstep
        exact hstep.2
      | operator op => exact hstep
    rw [endlessRpn, hend, Option.bind_some, ih hrest]

/-- The value of an output, when there is more room. -/
theorem rpnValue_extends {bounded bounded' : Bool} (hb : bounded' = true → bounded = true)
    (output : List RpnToken) (stop : ℕ) :
    Extends (.ofOption ((bif bounded then evalRpn output [] else endlessRpn output []).map fun v =>
        (v, stop)) : Drawn (ℤ × ℕ))
      (.ofOption ((bif bounded' then evalRpn output [] else endlessRpn output []).map fun v =>
        (v, stop))) := by
  cases bounded with
  | false =>
    obtain rfl : bounded' = false := by simpa using hb
    exact .refl _
  | true =>
    cases bounded' with
    | true => exact .refl _
    | false =>
      rw [cond_true, cond_false]
      cases hv : evalRpn output [] with
      | none => trivial
      | some v =>
        rw [endlessRpn_eq hv]
        exact .refl _

/-- More turns and more room give more results.

**Proof sketch.** Induction on the levels. A computation with more turns asks the same questions,
and a test for room that is left out is one that has been passed. -/
theorem numericTree_extends (again : Bool) {bounded bounded' : Bool}
    (hb : bounded' = true → bounded = true) (k : ℕ) (s : State) :
    (∀ src, Extends (numericTree again bounded k s src)
      (numericTree again bounded' (k + 1) s src)) ∧
    (∀ src output opstack, Extends (yardTree again bounded k s src output opstack)
      (yardTree again bounded' (k + 1) s src output opstack)) ∧
    (∀ toks, Extends (funcTree again bounded k s toks) (funcTree again bounded' (k + 1) s toks)) ∧
    (∀ toks, Extends (ptrTree again bounded k s toks) (ptrTree again bounded' (k + 1) s toks)) := by
  have hroom : ∀ {p : Prop}, (bounded = true → p) → bounded' = true → p := fun h h' => h (hb h')
  induction k with
  | zero => exact ⟨fun _ => trivial, fun _ _ _ => trivial, fun _ => trivial, fun _ => trivial⟩
  | succ k ih =>
    obtain ⟨hnum, hyard, hfunc, hptr⟩ := ih
    refine ⟨fun src => ?_, fun src output opstack => ?_, fun toks => ?_, fun toks => ?_⟩
    · rw [numericTree, numericTree]
      split_ifs
      · exact .refl _
      · exact .refl _
      · exact (handle_extends (hyard ..)).bind fun p => rpnValue_extends hb p.1 p.2
    · rw [yardTree, yardTree]
      by_cases hend : evalIsEndOfExpression s.ram src = true
      · rw [if_pos hend, if_pos hend]
        exact (Extends.refl _).ite hroom
      rw [if_neg hend, if_neg hend]
      by_cases hkind : s.ram src = tokNumeric
      · rw [if_pos hkind, if_pos hkind]
        exact (hyard ..).ite hroom
      rw [if_neg hkind, if_neg hkind]
      by_cases htok : s.ram src = tokFunc
      · rw [if_pos htok, if_pos htok]
        exact (handle_extends (hfunc _)).bind fun p => (hyard ..).ite hroom
      rw [if_neg htok, if_neg htok]
      by_cases hvar : (s.ram src = tokVariable || s.ram src = tokRegister) = true
      · rw [if_pos hvar, if_pos hvar]
        exact (handle_extends (hptr _)).bind fun p => (hyard ..).ite hroom
      rw [if_neg hvar, if_neg hvar]
      by_cases hop : s.ram src = tokOperator
      · rw [if_pos hop, if_pos hop]
        exact (hyard ..).ite hroom
      · rw [if_neg hop, if_neg hop]
        exact hyard ..
    · rw [funcTree, funcTree]
      split_ifs
      · exact .refl _
      · exact .refl _
      · exact (handle_extends (hnum _)).bind fun p => .refl _
      · exact .refl _
    · rw [ptrTree, ptrTree]
      cases varToken s.ram toks with
      | none => exact .refl _
      | some next =>
        dsimp only
        split_ifs
        · exact (handle_extends (hnum _)).bind fun p => .refl _
        · exact .refl _

/-- More levels do not change a result. -/
theorem run_numericTree_mono {again bounded : Bool} {src r k' : ℕ}
    {res : Except Error (ℤ × ℕ) × ℕ × ℕ} (hk : k ≤ k')
    (h : (numericTree again bounded k s src).run rand16 r = some res) :
    (numericTree again bounded k' s src).run rand16 r = some res := by
  induction hk with
  | refl => exact h
  | step _ ih => exact ((numericTree_extends again id _ s).1 src).run ih

end

/-- The expression evaluates to this result when every operand is evaluated once, from left to right
and up to the first failure, with as much room as is needed: a value and the end of the expression,
or an error; the state of the random number generator; and how many numbers have been drawn from
it. -/
def Singly (s : State) (r src : ℕ) (res : Except Error (ℤ × ℕ)) (r' n : ℕ) : Prop :=
  ∃ k, (numericTree false false k s src).run rand16 r = some (res, r', n)

/-- The expression evaluates to this result, with so many draws. -/
def Actually (s : State) (r src : ℕ) (res : Except Error (ℤ × ℕ)) (r' n : ℕ) : Prop :=
  ∃ k, (numericTree true true k s src).run rand16 r = some (res, r', n)

/-- The evaluation of the expression has the result that it has when every operand is evaluated
once, with the same draws. -/
def EvaluatesOnce (s : State) (r src : ℕ) : Prop :=
  ∀ res r' n, Singly s r src res r' n → Actually s r src res r' n

/-- When every operand is evaluated once, one of them fails, and a number has been drawn before. -/
def DrawsBeforeFailing (s : State) (r src : ℕ) : Prop :=
  ∃ e r' n, Singly s r src (.error e) r' (n + 1)

/-- When every operand is evaluated once, there is a result, and on the way to it the evaluation, or
that of an index or an argument, comes out of the buffer of the output or out of a stack. -/
def Overfills (s : State) (r src : ℕ) : Prop :=
  (∃ res r' n, Singly s r src res r' n) ∧ ∀ k, (numericTree false true k s src).run rand16 r = none

section

variable {s : State} {r src : ℕ}

/-- The results of the computation are those of the evaluation. -/
theorem actually_iff {res : Except Error (ℤ × ℕ)} {r' : ℕ} :
    (∃ n, Actually s r src res r' n) ↔ ∃ k, evalNumeric k s r src = some (res, r') := by
  constructor
  · rintro ⟨n, k, hk⟩
    refine ⟨k, ?_⟩
    rw [← (run_numericTree k s).1, forget, hk]
    rfl
  · rintro ⟨k, hk⟩
    rw [← (run_numericTree k s).1, forget, Option.map_eq_some_iff] at hk
    obtain ⟨⟨res', r'', n⟩, hrun, heq⟩ := hk
    simp only [Prod.mk.injEq] at heq
    obtain ⟨rfl, rfl⟩ := heq
    exact ⟨n, k, hrun⟩

/-- A single evaluation that keeps inside of its arrays has the result that it has with more
room. -/
theorem singly_eq {res res' : Except Error (ℤ × ℕ)} {r' n r'' n' k : ℕ}
    (h : Singly s r src res r' n)
    (hk : (numericTree false true k s src).run rand16 r = some (res', r'', n')) :
    (res', r'', n') = (res, r', n) := by
  obtain ⟨k', hk'⟩ := h
  have hroom :=
    ((numericTree_extends false (fun h => absurd h Bool.false_ne_true) k s).1 src).run hk
  have hmax := run_numericTree_mono (Nat.le_max_left (k + 1) k') hroom
  rw [run_numericTree_mono (Nat.le_max_right (k + 1) k') hk', Option.some.injEq] at hmax
  exact hmax.symm

/-- An evaluation that keeps inside of its arrays, and in which no operand fails behind a draw, has
the result of the single evaluation. -/
theorem evaluatesOnce_of_not_draws (hdraws : ¬ DrawsBeforeFailing s r src)
    (hroom : ¬ Overfills s r src) : EvaluatesOnce s r src := by
  intro res r' n hsingly
  obtain ⟨k, hk⟩ : ∃ k, (numericTree false true k s src).run rand16 r ≠ none := by
    by_contra hnone
    exact hroom ⟨⟨res, r', n, hsingly⟩, fun k => not_not.1 (not_exists.1 hnone k)⟩
  obtain ⟨⟨res', r'', n'⟩, hrun⟩ := Option.ne_none_iff_exists'.1 hk
  rw [singly_eq hsingly hrun] at hrun
  have hmore := (numericTree_outdraws true k s).1 src
  cases res with
  | error e =>
    cases n with
    | zero => exact ⟨k, hmore.early _ _ _ hrun⟩
    | succ n => exact absurd ⟨e, r', n, hsingly⟩ hdraws
  | ok a => exact ⟨k, hmore.ok _ _ _ _ hrun⟩

/-- The evaluator gives what the single evaluation gives, unless an operand fails behind a draw or
an array is left. -/
theorem evalNumeric_of_singly {res : Except Error (ℤ × ℕ)} {r' n : ℕ}
    (hdraws : ¬ DrawsBeforeFailing s r src) (hroom : ¬ Overfills s r src)
    (h : Singly s r src res r' n) : ∃ k, evalNumeric k s r src = some (res, r') :=
  actually_iff.1 ⟨n, evaluatesOnce_of_not_draws hdraws hroom _ _ _ h⟩

/-- **When every operand is evaluated once.** For every state, every state of the random number
generator and every expression: the evaluation gives the value or the error of a single evaluation
from left to right, with the same draws, if and only if no operand fails behind a call of `RND` and
the evaluation keeps inside of its buffer and its stacks until it has its result.

**Proof sketch.** Without a failure no call is made again. A failure in front of the first draw
comes again, from the same state of the generator. A failure behind a draw makes the whole
expression be evaluated again, and this draws again, because what is in front of the first draw does
not depend on the generator. Where the evaluation has a result, its first attempt is the single
evaluation with the room that there is. -/
theorem evaluatesOnce_iff (s : State) (r src : ℕ) :
    EvaluatesOnce s r src ↔ ¬ DrawsBeforeFailing s r src ∧ ¬ Overfills s r src := by
  constructor
  · intro honce
    refine ⟨?_, ?_⟩
    · rintro ⟨e, r', n, hsingly⟩
      obtain ⟨k, hactual⟩ := honce _ _ _ hsingly
      have hmore := (numericTree_outdraws true k s).1 src
      obtain ⟨⟨res', r'', n'⟩, hrun⟩ := hmore.defined _ _ hactual
      rw [singly_eq hsingly hrun] at hrun
      exact Nat.lt_irrefl _ (hmore.more _ _ _ _ hrun _ _ _ hactual)
    · rintro ⟨⟨res, r', n, hsingly⟩, hnone⟩
      obtain ⟨k, hactual⟩ := honce _ _ _ hsingly
      obtain ⟨res', hrun⟩ := ((numericTree_outdraws true k s).1 src).defined _ _ hactual
      rw [hnone k] at hrun
      exact absurd hrun (by simp)
  · rintro ⟨hdraws, hroom⟩
    exact evaluatesOnce_of_not_draws hdraws hroom

end

/-- The tokens of `RND + AB`. -/
def randomSum : List UInt8 :=
  [tokFunc, funcRnd, tokOperator, opPlus] ++ tokVariable :: sized (ascii ['A', 'B']) ++
    [tokTerminator]

example : statementTokenize (ascii ['R', 'N', 'D', ' ', '+', ' ', 'A', 'B']) =
    some (.noerror, randomSum) := by
  decide +kernel

/-- Every operand of every expression is evaluated once. -/
def AlwaysEvaluatesOnce : Prop := ∀ (s : State) (r src : ℕ), EvaluatesOnce s r src

/-- In `RND + AB`, with no variable `AB`, one number should be drawn, and two are drawn. -/
theorem not_alwaysEvaluatesOnce : ¬ AlwaysEvaluatesOnce := by
  intro hall
  have hrun : (numericTree false false 10 (stateWith randomSum) 0).run rand16 1 =
      some (.error .undefinedVar, rand16 1, 1) := by decide +kernel
  exact ((evaluatesOnce_iff _ _ _).1 (hall (stateWith randomSum) 1 0)).1 ⟨_, _, 0, 10, hrun⟩

end Z80OS.Basic
