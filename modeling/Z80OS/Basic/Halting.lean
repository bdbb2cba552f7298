import Mathlib.Tactic.SplitIfs
import Z80OS.Basic.Values
import Z80OS.Lib.CallTree

set_option relaxedAutoImplicit false
set_option autoImplicit false

/-!
# The end of an evaluation

The main loop of the shunting-yard algorithm goes on to the next token in the branches for numbers,
functions, variables and operators. It has no branch for the other tokens, and stays for ever in
front of a string or a remark.

The four functions of the evaluation are brought into trees of calls, in which a turn of the main
loop is a call of its own. Each call that is not of this kind is made for a place further on, or for
the same place by a function that is nearer to the tokens. An evaluation ends, with a value or an
error, unless it comes to such a token or does something that C gives no meaning to.

## Main definitions

* `Z80OS.Basic.body` — the functions of the evaluation as trees of calls.
* `Z80OS.Basic.Stray` — the main loop in front of a token for which it has no branch.
* `Z80OS.Basic.Terminates` — an evaluation gives a value or an error.
* `Z80OS.Basic.Derails` — an evaluation comes to such a token, or out of what C defines.

## Main results

* `Z80OS.Basic.run_body_evalNumeric` — the trees do what the functions do.
* `Z80OS.Basic.evaluation_terminates_iff` — when an evaluation ends.
-/

namespace Z80OS.Basic

open CallTree

/-! ## The calls -/

/-- The calls of an evaluation, each of them with the state of the random number generator and the
place of a token. A turn of the main loop has what has been put out and the operators on the
stack. -/
inductive Call
  | evalNumeric (r src : ℕ)
  | evalShuntingYard (r src : ℕ) (output : List RpnToken) (opstack : List UInt8)
  | tFuncCall (r toks : ℕ)
  | tVariableGetPtr (r toks : ℕ)

/-- What the functions give besides an error: a value and the token behind it. -/
abbrev Call.Value : Call → Type
  | .evalNumeric _ _ => ℤ
  | .evalShuntingYard _ _ _ _ => List RpnToken
  | .tFuncCall _ _ => ℤ
  | .tVariableGetPtr _ _ => Ref

/-- What a call gives. -/
abbrev Call.Answer (c : Call) : Type := Except Error (c.Value × ℕ) × ℕ

/-- A body that gives an `α` and the token behind it, or an error. -/
abbrev Body (α : Type) : Type := Tree Call Call.Answer (Except Error (α × ℕ) × ℕ)

/-- Asks for the value of an expression. -/
def askNumeric (src r : ℕ) : Body ℤ := Tree.ask (A := Call.Answer) (.evalNumeric r src)

/-- Asks for the output of the rest of an expression. -/
def askYard (src : ℕ) (output : List RpnToken) (opstack : List UInt8) (r : ℕ) :
    Body (List RpnToken) :=
  Tree.ask (A := Call.Answer) (.evalShuntingYard r src output opstack)

/-- Asks for the value of a function. -/
def askFunc (toks r : ℕ) : Body ℤ := Tree.ask (A := Call.Answer) (.tFuncCall r toks)

/-- Asks for the place of a variable. -/
def askVariable (toks r : ℕ) : Body Ref := Tree.ask (A := Call.Answer) (.tVariableGetPtr r toks)

/-- A call in `ERROR_HANDLE`, and what is done with its value. -/
def handled {α β : Type} (call : ℕ → Body α) (r : ℕ) (next : α × ℕ → ℕ → Body β) : Body β :=
  (call r).bind fun
    | (.ok a, r) => next a r
    | (.error _, r) => (call r).bind fun
      | (.ok _, _) => .fail
      | (.error e, r) => .ret (.error e, r)

/-- The bodies of the functions. -/
def body (s : State) : ∀ c : Call, Tree Call Call.Answer c.Answer
  | .evalNumeric r src =>
    if s.ram src = tokNumeric && evalIsEndOfExpression s.ram (src + numericSize) then
      .ret (.ok (numericGet s.ram src, src + numericSize), r)
    else if s.ram src = tokRegister && evalIsEndOfExpression s.ram (src + registerSize) then
      .ofOption ((register? s.ram src).map fun i =>
        (.ok (s.load (.register i), src + registerSize), r))
    else
      handled (askYard src [] []) r fun p r =>
        .ofOption ((evalRpn p.1 []).map fun result => (.ok (result, p.2), r))
  | .evalShuntingYard r src output opstack =>
    if evalIsEndOfExpression s.ram src then
      if outputSize (output ++ opstack.map .operator) < statementSizeMax then
        .ret (.ok (output ++ opstack.map .operator, src), r)
      else .fail
    else if s.ram src = tokNumeric then
      if OutputFits (output ++ [.numeric (numericGet s.ram src)]) then
        askYard (src + numericSize) (output ++ [.numeric (numericGet s.ram src)]) opstack r
      else .fail
    else if s.ram src = tokFunc then
      handled (askFunc src) r fun p r =>
        if OutputFits (output ++ [.numeric p.1]) then
          askYard p.2 (output ++ [.numeric p.1]) opstack r
        else .fail
    else if s.ram src = tokVariable || s.ram src = tokRegister then
      handled (askVariable src) r fun p r =>
        if OutputFits (output ++ [.numeric (s.load p.1)]) then
          askYard p.2 (output ++ [.numeric (s.load p.1)]) opstack r
        else .fail
    else if s.ram src = tokOperator then
      let op := s.ram (src + 1)
      let popped := opstack.takeWhile fun o => precedence o > precedence op
      let kept := opstack.dropWhile fun o => precedence o > precedence op
      if OutputFits (output ++ popped.map .operator) ∧ kept.length < opstackMax then
        askYard (src + opSize) (output ++ popped.map .operator) (op :: kept) r
      else .fail
    else askYard src output opstack r
  | .tFuncCall r toks =>
    if s.ram toks ≠ tokFunc then .ret (.error .syntaxError, r)
    else if s.ram (toks + 1) ≠ funcRnd then .ret (.error .unknownFunc, r)
    else if opCheck s.ram (toks + 2) opLparen then
      handled (askNumeric (toks + 2)) r fun p r =>
        if p.1 = 0 then .fail
        else
          let r := rand16 r
          .ret (.ok (int16 ((r % ofNumeric p.1 : ℕ) + 1), p.2 + opSize), r)
    else
      let r := rand16 r
      .ret (.ok (toNumeric r, toks + 2), r)
  | .tVariableGetPtr r toks =>
    match varToken s.ram toks with
    | none => .ret (.error .syntaxError, r)
    | some next =>
        if opCheck s.ram next opLparen then
          handled (askNumeric (next + opSize)) r fun p r =>
            .ofOption ((arrayRef s toks p.1).map fun
              | .error e => (.error e, r)
              | .ok ref => (.ok (ref, p.2 + opSize), r))
        else
          .ofOption ((programGetNumericRef s toks).map fun
            | none => (.error .undefinedVar, r)
            | some ref => (.ok (ref, next), r))

section

variable {s : State}

/-! ## The trees do what the functions do -/

/-- The value of what is handled: an error is run again, a value goes on. -/
theorem eval_handled {α β : Type} {g : ∀ c : Call, Option c.Answer} {call : ℕ → Body α} {r : ℕ}
    {next : α × ℕ → ℕ → Body β} :
    (handled call r next).eval g =
      match errorHandle (fun r => (call r).eval g) r with
      | none => none
      | some (.error e, r) => some (.error e, r)
      | some (.ok a, r) => (next a r).eval g := by
  unfold handled errorHandle
  rw [Tree.eval_bind]
  dsimp only
  rcases (call r).eval g with _ | ⟨_ | a, r⟩
  · rfl
  · rw [Option.bind_some, Tree.eval_bind]
    dsimp only
    rcases (call r).eval g with _ | ⟨_ | a, r⟩ <;> rfl
  · rfl

/-- The call that a function of the evaluation answers. -/
def answer (k : ℕ) (s : State) : ∀ c : Call, Option c.Answer
  | .evalNumeric r src => evalNumeric k s r src
  | .evalShuntingYard r src output opstack => evalShuntingYard k s r src output opstack
  | .tFuncCall r toks => tFuncCall k s r toks
  | .tVariableGetPtr r toks => tVariableGetPtr k s r toks

/-- A call with a number of levels is the evaluation with this number.

**Proof sketch.** Induction on the levels, and by cases on the call. The body asks what the code
calls under the same tests, and passes the answer on in the same way. -/
theorem run_body (k : ℕ) (c : Call) : run (body s) k c = answer k s c := by
  induction k generalizing c with
  | zero => cases c <;> rfl
  | succ k ih =>
    rw [run_succ, show run (body s) k = answer k s from funext ih]
    cases c with
    | evalNumeric r src =>
      simp only [body, answer, evalNumeric]
      split_ifs
      · rfl
      · exact Tree.eval_ofOption _
      · rw [eval_handled]
        simp only [askYard, Tree.eval_ask, answer]
        rcases errorHandle (fun r => evalShuntingYard k s r src [] []) r with
          _ | ⟨_ | ⟨output, stop⟩, r⟩
        · rfl
        · rfl
        · exact Tree.eval_ofOption _
    | evalShuntingYard r src output opstack =>
      simp only [body, answer, evalShuntingYard]
      split_ifs
      · rfl
      · rfl
      · simp only [askYard, Tree.eval_ask, answer]
      · rfl
      · rw [eval_handled]
        simp only [askFunc, Tree.eval_ask, answer]
        rcases errorHandle (fun r => tFuncCall k s r src) r with _ | ⟨_ | ⟨val, stop⟩, r⟩
        · rfl
        · rfl
        · dsimp only
          split_ifs
          · simp only [askYard, Tree.eval_ask, answer]
          · rfl
      · rw [eval_handled]
        simp only [askVariable, Tree.eval_ask, answer]
        rcases errorHandle (fun r => tVariableGetPtr k s r src) r with
          _ | ⟨_ | ⟨ref, stop⟩, r⟩
        · rfl
        · rfl
        · dsimp only
          split_ifs
          · simp only [askYard, Tree.eval_ask, answer]
          · rfl
      · simp only [askYard, Tree.eval_ask, answer]
      · rfl
      · simp only [askYard, Tree.eval_ask, answer]
    | tFuncCall r toks =>
      simp only [body, answer, tFuncCall]
      split_ifs
      · rfl
      · rfl
      · rw [eval_handled]
        simp only [askNumeric, Tree.eval_ask, answer]
        rcases errorHandle (fun r => evalNumeric k s r (toks + 2)) r with
          _ | ⟨_ | ⟨param, stop⟩, r⟩
        · rfl
        · rfl
        · dsimp only
          split_ifs <;> rfl
      · rfl
    | tVariableGetPtr r toks =>
      simp only [body, answer, tVariableGetPtr]
      cases varToken s.ram toks with
      | none => rfl
      | some next =>
        dsimp only
        split_ifs
        · rw [eval_handled]
          simp only [askNumeric, Tree.eval_ask, answer]
          rcases errorHandle (fun r => evalNumeric k s r (next + opSize)) r with
            _ | ⟨_ | ⟨index, stop⟩, r⟩
          · rfl
          · rfl
          · exact Tree.eval_ofOption _
        · exact Tree.eval_ofOption _

/-- **The trees do what the functions do.** -/
theorem run_body_evalNumeric (k r src : ℕ) :
    run (body s) k (.evalNumeric r src) = evalNumeric k s r src :=
  run_body k _

/-! ## Places -/

variable {R P : ∀ c : Call, c.Answer → Prop} {c d : Call}

/-- A call in `ERROR_HANDLE` that gives no error has given a value at the first time. -/
theorem yields_handled {α β : Type} {call : ℕ → Body α} {r : ℕ} {next : α × ℕ → ℕ → Body β}
    {q : Except Error (β × ℕ) × ℕ} (h : (handled call r next).Yields P q) :
    (∃ p r', (call r).Yields P (.ok p, r') ∧ (next p r').Yields P q) ∨
      ∃ e r', q = (.error e, r') := by
  rw [handled, Tree.yields_bind] at h
  obtain ⟨⟨e | p, r'⟩, hcall, hq⟩ := h
  · right
    dsimp only at hq
    rw [Tree.yields_bind] at hq
    obtain ⟨⟨e | p, r'⟩, -, hq⟩ := hq
    · exact ⟨e, r', hq⟩
    · exact hq.elim
  · exact .inl ⟨p, r', hcall, hq⟩

/-- How a turn of the main loop comes to a value that has the token at `stop` behind it. -/
inductive TurnYields (s : State) (P : ∀ c : Call, c.Answer → Prop) (r src stop : ℕ) : Prop
  | stop (heq : stop = src)
  | numeric {output x : List RpnToken} {opstack : List UInt8} {r' : ℕ}
    (htok : s.ram src = tokNumeric)
    (hrest : P (.evalShuntingYard r (src + numericSize) output opstack) (.ok (x, stop), r'))
  | func {output x : List RpnToken} {opstack : List UInt8} {p : ℤ × ℕ} {r₁ r' : ℕ}
    (htok : s.ram src = tokFunc) (hval : P (.tFuncCall r src) (.ok p, r₁))
    (hrest : P (.evalShuntingYard r₁ p.2 output opstack) (.ok (x, stop), r'))
  | lookup {output x : List RpnToken} {opstack : List UInt8} {p : Ref × ℕ} {r₁ r' : ℕ}
    (htok : s.ram src = tokVariable ∨ s.ram src = tokRegister)
    (hval : P (.tVariableGetPtr r src) (.ok p, r₁))
    (hrest : P (.evalShuntingYard r₁ p.2 output opstack) (.ok (x, stop), r'))
  | operator {output x : List RpnToken} {opstack : List UInt8} {r' : ℕ}
    (htok : s.ram src = tokOperator)
    (hrest : P (.evalShuntingYard r (src + opSize) output opstack) (.ok (x, stop), r'))
  | stray {output x : List RpnToken} {opstack : List UInt8} {r' : ℕ}
    (hrest : P (.evalShuntingYard r src output opstack) (.ok (x, stop), r'))

section

variable {r r' src toks stop : ℕ} {n : ℤ}

/-- An expression that has a value is a number, a register, or what the main loop has read. -/
theorem yields_evalNumeric (h : (body s (.evalNumeric r src)).Yields P (.ok (n, stop), r')) :
    s.ram src = tokNumeric ∧ stop = src + numericSize ∨
      s.ram src = tokRegister ∧ stop = src + registerSize ∨
        ∃ p r₁, P (.evalShuntingYard r src [] []) (.ok p, r₁) ∧ stop = p.2 := by
  simp only [body] at h
  split_ifs at h with hnum hreg
  · rw [Bool.and_eq_true, decide_eq_true_eq] at hnum
    simp only [Tree.yields_ret, Prod.mk.injEq, Except.ok.injEq] at h
    exact .inl ⟨hnum.1, h.1.2⟩
  · rw [Bool.and_eq_true, decide_eq_true_eq] at hreg
    simp only [Tree.yields_ofOption, Option.map_eq_some_iff, Prod.mk.injEq, Except.ok.injEq] at h
    obtain ⟨-, -, ⟨-, hstop⟩, -⟩ := h
    exact .inr (.inl ⟨hreg.1, hstop.symm⟩)
  · rcases yields_handled h with ⟨p, r₁, hyard, h⟩ | ⟨e, r₁, h⟩
    · simp only [Tree.yields_ofOption, Option.map_eq_some_iff, Prod.mk.injEq,
        Except.ok.injEq] at h
      obtain ⟨-, -, ⟨-, hstop⟩, -⟩ := h
      exact .inr (.inr ⟨p, r₁, Tree.yields_ask.1 hyard, hstop.symm⟩)
    · simp at h

/-- What a turn of the loop over an expression yields comes from its operand, or from the rest. -/
theorem yields_evalShuntingYard {output x : List RpnToken} {opstack : List UInt8}
    (h : (body s (.evalShuntingYard r src output opstack)).Yields P (.ok (x, stop), r')) :
    TurnYields s P r src stop := by
  simp only [body] at h
  split_ifs at h with hend hlt hnum hfits hfunc hvar hop hkept
  · simp only [Tree.yields_ret, Prod.mk.injEq, Except.ok.injEq] at h
    exact .stop h.1.2
  · exact h.elim
  · exact .numeric hnum (Tree.yields_ask.1 h)
  · exact h.elim
  · rcases yields_handled h with ⟨p, r₁, hval, h⟩ | ⟨e, r₁, h⟩
    · split_ifs at h
      · exact .func hfunc (Tree.yields_ask.1 hval) (Tree.yields_ask.1 h)
      · exact h.elim
    · simp at h
  · rcases yields_handled h with ⟨p, r₁, hval, h⟩ | ⟨e, r₁, h⟩
    · split_ifs at h
      · exact .lookup (by simpa using hvar) (Tree.yields_ask.1 hval) (Tree.yields_ask.1 h)
      · exact h.elim
    · simp at h
  · exact .operator hop (Tree.yields_ask.1 h)
  · exact h.elim
  · exact .stray (Tree.yields_ask.1 h)

/-- A call of a function that has a value ends behind the name, or behind its argument. -/
theorem yields_tFuncCall (h : (body s (.tFuncCall r toks)).Yields P (.ok (n, stop), r')) :
    s.ram toks = tokFunc ∧ (stop = toks + 2 ∨
      ∃ p r₁, P (.evalNumeric r (toks + 2)) (.ok p, r₁) ∧ stop = p.2 + opSize) := by
  simp only [body] at h
  split_ifs at h with hfunc
  · simp at h
  · simp at h
  · refine ⟨not_not.1 hfunc, .inr ?_⟩
    rcases yields_handled h with ⟨p, r₁, hval, h⟩ | ⟨e, r₁, h⟩
    · split_ifs at h
      · exact h.elim
      · simp only [Tree.yields_ret, Prod.mk.injEq, Except.ok.injEq] at h
        exact ⟨p, r₁, Tree.yields_ask.1 hval, h.1.2⟩
    · simp at h
  · simp only [Tree.yields_ret, Prod.mk.injEq, Except.ok.injEq] at h
    exact ⟨not_not.1 hfunc, .inl h.1.2⟩

/-- A variable that is found ends behind its token, or behind its index. -/
theorem yields_tVariableGetPtr {ref : Ref}
    (h : (body s (.tVariableGetPtr r toks)).Yields P (.ok (ref, stop), r')) :
    ∃ next, varToken s.ram toks = some next ∧ (stop = next ∨
      ∃ p r₁, P (.evalNumeric r (next + opSize)) (.ok p, r₁) ∧ stop = p.2 + opSize) := by
  simp only [body] at h
  cases hvar : varToken s.ram toks with
  | none => simp [hvar] at h
  | some next =>
    rw [hvar] at h
    dsimp only at h
    refine ⟨next, rfl, ?_⟩
    split_ifs at h
    · rcases yields_handled h with ⟨p, r₁, hval, h⟩ | ⟨e, r₁, h⟩
      · rw [Tree.yields_ofOption, Option.map_eq_some_iff] at h
        obtain ⟨e | found, -, h⟩ := h
        · simp at h
        · simp only [Prod.mk.injEq, Except.ok.injEq] at h
          exact .inr ⟨p, r₁, Tree.yields_ask.1 hval, h.1.2.symm⟩
      · simp at h
    · rw [Tree.yields_ofOption, Option.map_eq_some_iff] at h
      obtain ⟨_ | found, -, h⟩ := h
      · simp at h
      · simp only [Prod.mk.injEq, Except.ok.injEq] at h
        exact .inl h.1.2.symm

end

/-- The calls that are made in `ERROR_HANDLE` and behind it. -/
theorem reaches_handled {α β : Type} {call : ℕ → Body α} {r : ℕ} {next : α × ℕ → ℕ → Body β}
    (h : (handled call r next).Reaches R d) :
    (∃ r', (call r').Reaches R d) ∨
      ∃ p r', (call r).Yields R (.ok p, r') ∧ (next p r').Reaches R d := by
  rw [handled, Tree.reaches_bind] at h
  rcases h with h | ⟨⟨e | p, r'⟩, hcall, hd⟩
  · exact .inl ⟨r, h⟩
  · dsimp only at hd
    rw [Tree.reaches_bind] at hd
    rcases hd with hd | ⟨⟨e | p, r''⟩, -, hd⟩
    · exact .inl ⟨r', hd⟩
    · exact hd.elim
    · exact hd.elim
  · exact .inr ⟨p, r', hcall, hd⟩

/-! ## What a call calls -/

/-- The main loop in front of a token for which it has no branch. -/
def Stray (s : State) : Call → Prop
  | .evalNumeric _ _ => False
  | .evalShuntingYard _ src _ _ => evalIsEndOfExpression s.ram src = false ∧
    s.ram src ∉ [tokNumeric, tokFunc, tokVariable, tokRegister, tokOperator]
  | .tFuncCall _ _ => False
  | .tVariableGetPtr _ _ => False

/-- A call in `ERROR_HANDLE` is made. -/
theorem reaches_handled_left {α β : Type} {call : ℕ → Body α} {r : ℕ}
    {next : α × ℕ → ℕ → Body β} (h : (call r).Reaches R d) : (handled call r next).Reaches R d := by
  rw [handled, Tree.reaches_bind]
  exact .inl h

/-- The calls of a turn of the main loop, for the token at `src`. It goes on behind the token, or
where a function or a variable has ended. -/
inductive TurnCalls (s : State) (c : Call) (r src : ℕ) : Call → Prop
  | numeric {output : List RpnToken} {opstack : List UInt8} (htok : s.ram src = tokNumeric) :
    TurnCalls s c r src (.evalShuntingYard r (src + numericSize) output opstack)
  | func {r' : ℕ} (htok : s.ram src = tokFunc) : TurnCalls s c r src (.tFuncCall r' src)
  | behindFunc {p : ℤ × ℕ} {r' : ℕ} {output : List RpnToken} {opstack : List UInt8}
    (htok : s.ram src = tokFunc) (hcall : Calls (body s) c (.tFuncCall r src))
    (hval : Returns (body s) (.tFuncCall r src) (.ok p, r')) :
    TurnCalls s c r src (.evalShuntingYard r' p.2 output opstack)
  | lookup {r' : ℕ} (htok : s.ram src = tokVariable ∨ s.ram src = tokRegister) :
    TurnCalls s c r src (.tVariableGetPtr r' src)
  | behindLookup {p : Ref × ℕ} {r' : ℕ} {output : List RpnToken} {opstack : List UInt8}
    (htok : s.ram src = tokVariable ∨ s.ram src = tokRegister)
    (hcall : Calls (body s) c (.tVariableGetPtr r src))
    (hval : Returns (body s) (.tVariableGetPtr r src) (.ok p, r')) :
    TurnCalls s c r src (.evalShuntingYard r' p.2 output opstack)
  | operator {output : List RpnToken} {opstack : List UInt8} (htok : s.ram src = tokOperator) :
    TurnCalls s c r src (.evalShuntingYard r (src + opSize) output opstack)
  | stray (hstray : Stray s c) : TurnCalls s c r src c

/-- The main loop calls what it needs for the token in front of it.

**Proof sketch.** By the tests of the loop. Behind a function or a variable the call goes on only
when the answer of the other call is a value. -/
theorem turnCalls_of_calls {r src : ℕ} {output : List RpnToken} {opstack : List UInt8}
    (h : Calls (body s) (.evalShuntingYard r src output opstack) d) :
    TurnCalls s (.evalShuntingYard r src output opstack) r src d := by
  simp only [Calls, body] at h
  split_ifs at h with hend hlt hnum hfits hfunc hvar hop hkept
  · exact h.elim
  · exact h.elim
  · rw [askYard, Tree.reaches_ask] at h
    exact h ▸ .numeric hnum
  · exact h.elim
  · rcases reaches_handled h with ⟨r', h⟩ | ⟨p, r', hval, h⟩
    · rw [askFunc, Tree.reaches_ask] at h
      exact h ▸ .func hfunc
    · have hcall : Calls (body s) (.evalShuntingYard r src output opstack) (.tFuncCall r src) := by
        rw [Calls, body, if_neg hend, if_neg hnum, if_pos hfunc]
        exact reaches_handled_left (Tree.reaches_ask.2 rfl)
      split_ifs at h
      · rw [askYard, Tree.reaches_ask] at h
        exact h ▸ .behindFunc hfunc hcall (Tree.yields_ask.1 hval)
      · exact h.elim
  · have htok : s.ram src = tokVariable ∨ s.ram src = tokRegister := by simpa using hvar
    rcases reaches_handled h with ⟨r', h⟩ | ⟨p, r', hval, h⟩
    · rw [askVariable, Tree.reaches_ask] at h
      exact h ▸ .lookup htok
    · have hcall : Calls (body s) (.evalShuntingYard r src output opstack)
          (.tVariableGetPtr r src) := by
        rw [Calls, body, if_neg hend, if_neg hnum, if_neg hfunc, if_pos hvar]
        exact reaches_handled_left (Tree.reaches_ask.2 rfl)
      split_ifs at h
      · rw [askYard, Tree.reaches_ask] at h
        exact h ▸ .behindLookup htok hcall (Tree.yields_ask.1 hval)
      · exact h.elim
  · rw [askYard, Tree.reaches_ask] at h
    exact h ▸ .operator hop
  · exact h.elim
  · have hstray : Stray s (.evalShuntingYard r src output opstack) := by
      refine ⟨Bool.eq_false_iff.2 hend, ?_⟩
      simp only [Bool.or_eq_true, decide_eq_true_eq, not_or] at hvar
      simp [hnum, hfunc, hvar, hop]
    rw [askYard, Tree.reaches_ask] at h
    subst h
    exact .stray hstray

/-- An evaluation without a shortcut calls the main loop. -/
theorem calls_evalNumeric {r src : ℕ} (h : Calls (body s) (.evalNumeric r src) d) :
    ∃ r', d = .evalShuntingYard r' src [] [] := by
  simp only [Calls, body] at h
  split_ifs at h
  · exact h.elim
  · exact absurd h (by simp)
  · rcases reaches_handled h with ⟨r', h⟩ | ⟨p, r', -, h⟩
    · rw [askYard, Tree.reaches_ask] at h
      exact ⟨r', h⟩
    · exact absurd h (by simp)

/-- A function calls the evaluation of its argument, and no other function. -/
theorem calls_tFuncCall {r toks : ℕ} (h : Calls (body s) (.tFuncCall r toks) d) :
    s.ram toks = tokFunc ∧ opCheck s.ram (toks + 2) opLparen = true ∧
      ∃ r', d = .evalNumeric r' (toks + 2) := by
  simp only [Calls, body] at h
  split_ifs at h with hfunc hrnd hopen
  · exact h.elim
  · exact h.elim
  · rcases reaches_handled h with ⟨r', h⟩ | ⟨p, r', -, h⟩
    · rw [askNumeric, Tree.reaches_ask] at h
      exact ⟨not_not.1 hfunc, hopen, r', h⟩
    · split_ifs at h <;> exact h.elim
  · exact h.elim

/-- A variable with an index calls the evaluation of the index, and no other function. -/
theorem calls_tVariableGetPtr {r toks : ℕ} (h : Calls (body s) (.tVariableGetPtr r toks) d) :
    ∃ next r', varToken s.ram toks = some next ∧ opCheck s.ram next opLparen = true ∧
      d = .evalNumeric r' (next + opSize) := by
  simp only [Calls, body] at h
  cases hvar : varToken s.ram toks with
  | none => simp [hvar] at h
  | some next =>
    rw [hvar] at h
    dsimp only at h
    split_ifs at h with hopen
    · rcases reaches_handled h with ⟨r', h⟩ | ⟨p, r', -, h⟩
      · rw [askNumeric, Tree.reaches_ask] at h
        exact ⟨next, r', rfl, hopen, h⟩
      · exact absurd h (by simp)
    · exact absurd h (by simp)

/-- The least place at which a call can end. -/
def Call.least : Call → ℕ
  | .evalNumeric _ src => src
  | .evalShuntingYard _ src _ _ => src
  | .tFuncCall _ toks => toks + 1
  | .tVariableGetPtr _ toks => toks + 1

/-- An answer that is no error lies at the least place or behind it. -/
def Call.Forward (c : Call) (a : c.Answer) : Prop :=
  ∀ x stop r, a = (.ok (x, stop), r) → c.least ≤ stop

/-- A variable has two bytes at least, and is not the end of a statement. -/
theorem le_of_varToken {m : Ram} {toks next : ℕ} (h : varToken m toks = some next) :
    m toks ≠ 0 ∧ toks + 2 ≤ next := by
  unfold varToken at h
  split_ifs at h with hv hr
  · simp only [Option.some.injEq] at h
    refine ⟨by rw [hv]; decide, ?_⟩
    rw [← h, tVarlenSkip]
    omega
  · simp only [Option.some.injEq] at h
    exact ⟨by rw [hr]; decide, Nat.le_of_eq h⟩

/-- **The evaluation goes forward.** Behind a call that gives a value, the evaluation goes on at
the place of the call or behind it, and behind a function or a variable it goes on behind it.

**Proof sketch.** By induction on the computation (`Returns.induct`), with one case for each
activation: what it yields is its own place moved on, or the place where a call that it has made
ended. -/
theorem forward_of_returns {a : c.Answer} (h : Returns (body s) c a) : c.Forward a := by
  refine h.induct (P := Call.Forward) ?_
  rintro c q hq x stop r' rfl
  cases c with
  | evalNumeric r src =>
    rcases yields_evalNumeric hq with ⟨-, rfl⟩ | ⟨-, rfl⟩ | ⟨p, r₁, hyard, rfl⟩
    · exact Nat.le_add_right _ _
    · exact Nat.le_add_right _ _
    · exact hyard _ _ _ rfl
  | evalShuntingYard r src output opstack =>
    cases yields_evalShuntingYard hq with
    | stop heq => exact Nat.le_of_eq heq.symm
    | numeric _ hrest => exact Nat.le_trans (Nat.le_add_right _ _) (hrest _ _ _ rfl)
    | func _ hval hrest =>
      have hlt : src + 1 ≤ _ := hval _ _ _ rfl
      exact Nat.le_trans (Nat.le_of_succ_le hlt) (hrest _ _ _ rfl)
    | lookup _ hval hrest =>
      have hlt : src + 1 ≤ _ := hval _ _ _ rfl
      exact Nat.le_trans (Nat.le_of_succ_le hlt) (hrest _ _ _ rfl)
    | operator _ hrest => exact Nat.le_trans (Nat.le_add_right _ _) (hrest _ _ _ rfl)
    | stray hrest => exact hrest _ _ _ rfl
  | tFuncCall r toks =>
    obtain ⟨-, rfl | ⟨p, r₁, harg, rfl⟩⟩ := yields_tFuncCall hq
    · exact Nat.le_succ (toks + 1)
    · have hle : toks + 2 ≤ p.2 := harg _ _ _ rfl
      rw [Call.least]
      omega
  | tVariableGetPtr r toks =>
    obtain ⟨next, hvar, rfl | ⟨p, r₁, hindex, rfl⟩⟩ := yields_tVariableGetPtr hq
    · exact Nat.le_of_succ_le (le_of_varToken hvar).2
    · have hnext := (le_of_varToken hvar).2
      have hle : next + opSize ≤ p.2 := hindex _ _ _ rfl
      rw [Call.least]
      omega

/-! ## The size of a call -/

/-- The size of a call: how much of the memory up to the address `n` is left, and at the same place
how far the function is from the tokens. -/
def Call.weight (n : ℕ) : Call → ℕ
  | .evalNumeric _ src => 4 * (n - src) + 3
  | .evalShuntingYard _ src _ _ => 4 * (n - src) + 2
  | .tFuncCall _ toks => 4 * (n - toks) + 1
  | .tVariableGetPtr _ toks => 4 * (n - toks) + 1

/-- In front of a stray token, the main loop begins the next turn with what it had. -/
theorem calls_iff_of_stray (h : Stray s c) : Calls (body s) c d ↔ d = c := by
  cases c with
  | evalNumeric r src => exact h.elim
  | tFuncCall r toks => exact h.elim
  | tVariableGetPtr r toks => exact h.elim
  | evalShuntingYard r src output opstack =>
    obtain ⟨hend, hkind⟩ := h
    simp only [List.mem_cons, List.not_mem_nil, or_false, not_or] at hkind
    obtain ⟨hn, hf, hv, hr, ho⟩ := hkind
    simp [Calls, body, hend, hn, hf, hv, hr, ho, askYard]

/-- **The calls become smaller.** A call that is made by another one, which is not in front of a
stray token, is smaller when there are only zeros in memory from the address `n` on.

**Proof sketch.** By cases on the call and on the token in front of it. An access to a token that is
there is in front of the end of memory, and what follows a token starts behind it, so that less
memory is left. Where a call starts at the same token it is one of a smaller kind. -/
theorem weight_lt_of_calls {n : ℕ} (hmem : ∀ a ≥ n, s.ram a = 0) (hc : ¬ Stray s c)
    (h : Calls (body s) c d) : d.weight n < c.weight n := by
  have hin : ∀ a, s.ram a ≠ 0 → a < n := fun a ha => Nat.lt_of_not_le fun hle => ha (hmem a hle)
  cases c with
  | evalNumeric r src =>
    obtain ⟨r', rfl⟩ := calls_evalNumeric h
    exact Nat.lt_succ_self _
  | evalShuntingYard r src output opstack =>
    cases turnCalls_of_calls h with
    | numeric htok =>
      have hsrc := hin src (by rw [htok]; decide)
      simp only [Call.weight, numericSize]
      omega
    | func htok =>
      simp only [Call.weight]
      omega
    | behindFunc htok _ hval =>
      have hsrc := hin src (by rw [htok]; decide)
      have hlt : src + 1 ≤ _ := forward_of_returns hval _ _ _ rfl
      simp only [Call.weight]
      omega
    | lookup htok =>
      simp only [Call.weight]
      omega
    | behindLookup htok _ hval =>
      have hsrc := hin src (by rcases htok with htok | htok <;> rw [htok] <;> decide)
      have hlt : src + 1 ≤ _ := forward_of_returns hval _ _ _ rfl
      simp only [Call.weight]
      omega
    | operator htok =>
      have hsrc := hin src (by rw [htok]; decide)
      simp only [Call.weight, opSize]
      omega
    | stray hstray => exact absurd hstray hc
  | tFuncCall r toks =>
    obtain ⟨htok, -, r', rfl⟩ := calls_tFuncCall h
    have htoks := hin toks (by rw [htok]; decide)
    simp only [Call.weight]
    omega
  | tVariableGetPtr r toks =>
    obtain ⟨next, r', hvar, -, rfl⟩ := calls_tVariableGetPtr h
    obtain ⟨htok, hnext⟩ := le_of_varToken hvar
    have htoks := hin toks htok
    simp only [Call.weight]
    omega

/-! ## The end of an evaluation -/

/-- The evaluation gives a value or an error. -/
def Terminates (s : State) (r src : ℕ) : Prop := ∃ k a, evalNumeric k s r src = some a

/-- A call does something that C gives no meaning to. -/
def Undefined (s : State) (c : Call) : Prop := (body s c).Fails (Returns (body s))

/-- An evaluation terminates when its call returns. -/
theorem terminates_iff_returns {r src : ℕ} :
    Terminates s r src ↔ ∃ a, Returns (body s) (.evalNumeric r src) a := by
  simp only [Terminates, Returns, run_body_evalNumeric]
  exact ⟨fun ⟨k, a, h⟩ => ⟨a, k, h⟩, fun ⟨a, k, h⟩ => ⟨k, a, h⟩⟩

/-- In the course of the evaluation, the main loop comes to a token for which it has no branch, or
something is done that C gives no meaning to. -/
def Derails (s : State) (r src : ℕ) : Prop :=
  ∃ c, Relation.ReflTransGen (Calls (body s)) (.evalNumeric r src) c ∧ (Stray s c ∨ Undefined s c)

/-- **When an evaluation ends.** In a memory that ends somewhere, the evaluation of the tokens at
any place gives a value or an error exactly when the main loop never comes to a token for which it
has no branch and nothing is done that C gives no meaning to.

**Proof sketch.** Every call has a weight, and the calls that it makes have smaller ones, except
that a loop at a stray token makes the same call again (`weight_lt_of_calls`, `calls_iff_of_stray`).
So a call has an answer exactly when none of the calls below it is of this kind or undefined
(`returns_iff`). -/
theorem evaluation_terminates_iff (s : State) (hmem : ∃ n, ∀ a ≥ n, s.ram a = 0) (r src : ℕ) :
    Terminates s r src ↔ ¬ Derails s r src := by
  obtain ⟨n, hn⟩ := hmem
  have hself : ∀ c, Calls (body s) c c ↔ Stray s c := fun c =>
    ⟨fun h => by_contra fun hc => Nat.lt_irrefl _ (weight_lt_of_calls hn hc h),
      fun h => (calls_iff_of_stray h).2 rfl⟩
  rw [terminates_iff_returns, returns_iff (Call.weight n)]
  · simp only [hself, Derails, Undefined, not_exists, not_and, not_or]
  · intro c d h
    by_cases hc : Stray s c
    · exact .inl ((calls_iff_of_stray hc).1 h)
    · exact .inr (weight_lt_of_calls hn hc h)

/-! ## A string in an expression -/

/-- A shortcut is not taken, and the evaluation begins with the main loop. -/
theorem calls_evalShuntingYard (s : State) (r : ℕ) {src : ℕ} (hnum : s.ram src = tokNumeric)
    (hend : evalIsEndOfExpression s.ram (src + numericSize) = false) :
    Calls (body s) (.evalNumeric r src) (.evalShuntingYard r src [] []) := by
  have hne : tokNumeric ≠ tokRegister := by decide
  simp [Calls, body, hnum, hend, hne, handled, askYard]

/-- The main loop goes on behind a number. -/
theorem calls_numeric (s : State) (r : ℕ) {src : ℕ} (output : List RpnToken) (opstack : List UInt8)
    (hnum : s.ram src = tokNumeric)
    (hfits : OutputFits (output ++ [.numeric (numericGet s.ram src)])) :
    Calls (body s) (.evalShuntingYard r src output opstack)
      (.evalShuntingYard r (src + numericSize) (output ++ [.numeric (numericGet s.ram src)])
        opstack) := by
  simp [Calls, body, hnum, hfits, (OperandAt.numeric hnum).not_end, askYard]

end

/-- There are zeros behind a statement. -/
theorem stateWith_ends (toks : List UInt8) : ∃ n, ∀ a ≥ n, (stateWith toks).ram a = 0 := by
  refine ⟨toks.length, fun a ha => ?_⟩
  simp only [stateWith, State.memcpy, State.withRam, Ram.memcpy]
  rw [if_neg (by omega)]
  rfl

/-- The tokens of `PRINT 1 + 2`. -/
def sumStatement : List UInt8 :=
  [tokKeyword, keywordPrint] ++ numericToken 1 ++ [tokOperator, opPlus] ++ numericToken 2 ++
    [tokTerminator]

/-- The evaluation of `1+2`. -/
theorem evaluation_terminates_sum :
    Terminates (stateWith sumStatement) 0 2 ∧ ¬ Derails (stateWith sumStatement) 0 2 := by
  have hends : Terminates (stateWith sumStatement) 0 2 := ⟨5, (.ok (3, 10), 0), rfl⟩
  exact ⟨hends,
    (evaluation_terminates_iff (stateWith sumStatement) (stateWith_ends _) 0 2).1 hends⟩

/-- The tokens of `PRINT 1"A"`. -/
def stringStatement : List UInt8 :=
  [tokKeyword, keywordPrint] ++ numericToken 1 ++ tokString :: sized (ascii ['A']) ++
    [tokTerminator]

/-- All evaluations within a statement that the tokenizer has made from a line end. -/
def AlwaysTerminates : Prop :=
  ∀ input toks, statementTokenize input = some (.noerror, toks) → ∀ (s : State) (stmt : ℕ),
    s.ram.slice stmt toks.length = toks → ∀ i < toks.length, ∀ r, Terminates s r (stmt + i)

/-- The evaluation of the expression in `PRINT 1"A"` does not end. -/
theorem not_alwaysTerminates : ¬ AlwaysTerminates := by
  intro hall
  have htok : statementTokenize (ascii ['P', 'R', 'I', 'N', 'T', ' ', '1', '"', 'A', '"']) =
      some (.noerror, stringStatement) := by decide +kernel
  have hends := hall _ _ htok (stateWith stringStatement) 0 (by decide +kernel) 2 (by decide) 0
  rw [Nat.zero_add] at hends
  have hloop := calls_evalShuntingYard (stateWith stringStatement) 0
    (show (stateWith stringStatement).ram 2 = tokNumeric by decide) (by decide)
  have hnum := calls_numeric (stateWith stringStatement) 0 [] []
    (show (stateWith stringStatement).ram 2 = tokNumeric by decide)
    (show 3 ≤ statementSizeMax by decide)
  have hstray : Stray (stateWith stringStatement)
      (.evalShuntingYard 0 (2 + numericSize)
        ([] ++ [.numeric (numericGet (stateWith stringStatement).ram 2)]) []) :=
    ⟨by decide, by decide⟩
  have hcourse := (Relation.ReflTransGen.single hloop).tail hnum
  obtain ⟨a, k, hk⟩ := exists_returns_of_calls hcourse (terminates_iff_returns.1 hends)
  rw [run_eq_none_of_calls_self ((calls_iff_of_stray hstray).2 rfl)] at hk
  exact absurd hk (by simp)

end Z80OS.Basic
