import Z80OS.Basic.Nesting

set_option relaxedAutoImplicit false
set_option autoImplicit false

/-!
# Shapes of expressions

Whether the evaluation of an expression keeps inside of its stacks and its buffer depends on where
the operands and the operators stand in it, and not on their values. The tokens of an expression are
read as a sequence of numbers and operators, in which an operand with an index or an argument counts
as one number. This sequence has a form in reverse Polish notation, and its stack of numbers has a
height at each of its places.

## Main definitions

* `Z80OS.Basic.Item`, `Z80OS.Basic.Scan` — the items of an expression.
* `Z80OS.Basic.postfixForm`, `Z80OS.Basic.endHeight` — the reverse Polish notation of a sequence of
  items, and the height of the stack of numbers behind it.
* `Z80OS.Basic.GoodShape`, `Z80OS.Basic.WellShaped` — the expressions that need no more than there
  is.
* `Z80OS.Basic.StackSafe` — the evaluation of an expression keeps inside of its arrays.

## Main results

* `Z80OS.Basic.stackSafe_of_wellShaped` — well-shaped expressions are safe.
* `Z80OS.Basic.wellShaped_of_evaluates` — an expression that has a value is well-shaped.
-/

namespace Z80OS.Basic

/-! ## Shapes -/

/-- An item of an expression: an operand, which is a number in the end, or an operator. -/
inductive Item
  | number
  | operator (op : UInt8)
  deriving DecidableEq

/-- The number of bytes of an item in the buffer. -/
def Item.size : Item → ℕ
  | .number => numericSize
  | .operator _ => opSize

/-- The number of bytes of some items in the buffer. -/
def itemsSize (items : List Item) : ℕ := (items.map Item.size).sum

/-- An operator is put behind the operands in front of the next operator of a smaller precedence.
Those that wait for this are given, the last one first. -/
def postfixForm : List UInt8 → List Item → List Item
  | waiting, [] => waiting.map .operator
  | waiting, .number :: items => .number :: postfixForm waiting items
  | waiting, .operator op :: items =>
    (waiting.takeWhile fun o => precedence o > precedence op).map .operator ++
      postfixForm (op :: waiting.dropWhile fun o => precedence o > precedence op) items

/-- No more operators ever wait than there are places for them. -/
def FewWait : List UInt8 → List Item → Prop
  | _, [] => True
  | waiting, .number :: items => FewWait waiting items
  | waiting, .operator op :: items =>
    (waiting.dropWhile fun o => precedence o > precedence op).length < opstackMax ∧
      FewWait (op :: waiting.dropWhile fun o => precedence o > precedence op) items

/-- The height of the stack of numbers behind an item, if there is room for a number, and if `+` and
`*` have two numbers. A minus sign takes what it finds, and other operators take nothing. -/
def heightStep (h : ℕ) : Item → Option ℕ
  | .number => if h < opstackMax then some (h + 1) else none
  | .operator op =>
    if op = opPlus ∨ op = opMult then if 2 ≤ h then some (h - 1) else none
    else if op = opMinus ∧ 2 ≤ h then some (h - 1)
    else some h

/-- The height of the stack of numbers behind some items. -/
def endHeight : ℕ → List Item → Option ℕ
  | h, [] => some h
  | h, t :: items => (heightStep h t).bind fun h => endHeight h items

/-- A sequence of items needs no more than there is: at most 16 operators wait, the items fit the
buffer with a terminator, and in reverse Polish notation the stack of numbers has enough numbers and
enough room, and a number in the end. -/
structure GoodShape (items : List Item) : Prop where
  wait : FewWait [] items
  fits : itemsSize items < statementSizeMax
  height : ∃ h, endHeight 0 (postfixForm [] items) = some (h + 1)

/-- The items of the expression at an address, up to its end. The items of an index or of an
argument have the property `P`. An argument begins with its parenthesis. -/
inductive Scan (m : Ram) (P : List Item → Prop) : ℕ → List Item → ℕ → Prop
  | stop {src : ℕ} (hend : evalIsEndOfExpression m src = true) : Scan m P src [] src
  | numeric {src stop : ℕ} {items : List Item} (hend : evalIsEndOfExpression m src = false)
    (htok : m src = tokNumeric) (hrest : Scan m P (src + numericSize) items stop) :
    Scan m P src (.number :: items) stop
  | random {src stop : ℕ} {items : List Item} (hend : evalIsEndOfExpression m src = false)
    (htok : m src = tokFunc) (hopen : opCheck m (src + 2) opLparen = false)
    (hrest : Scan m P (src + 2) items stop) : Scan m P src (.number :: items) stop
  | randomOf {src mid stop : ℕ} {arg items : List Item}
    (hend : evalIsEndOfExpression m src = false) (htok : m src = tokFunc)
    (hopen : opCheck m (src + 2) opLparen = true) (harg : Scan m P (src + 2) arg mid) (hP : P arg)
    (hrest : Scan m P (mid + opSize) items stop) : Scan m P src (.number :: items) stop
  | scalar {src next stop : ℕ} {items : List Item} (hend : evalIsEndOfExpression m src = false)
    (htok : varToken m src = some next) (hopen : opCheck m next opLparen = false)
    (hrest : Scan m P next items stop) : Scan m P src (.number :: items) stop
  | element {src next mid stop : ℕ} {index items : List Item}
    (hend : evalIsEndOfExpression m src = false) (htok : varToken m src = some next)
    (hopen : opCheck m next opLparen = true) (hindex : Scan m P (next + opSize) index mid)
    (hP : P index) (hrest : Scan m P (mid + opSize) items stop) :
    Scan m P src (.number :: items) stop
  | operator {src stop : ℕ} {items : List Item} (hend : evalIsEndOfExpression m src = false)
    (htok : m src = tokOperator) (hrest : Scan m P (src + opSize) items stop) :
    Scan m P src (.operator (m (src + 1)) :: items) stop

/-- The expression at an address has an end, and it and the indices and arguments in it need no more
than there is. -/
def WellShaped (m : Ram) (src : ℕ) : Prop :=
  ∃ items stop, Scan m GoodShape src items stop ∧ GoodShape items

/-- An access that is not inside of a stack or of the buffer. -/
def StackFault.IsAccess : StackFault → Prop
  | .numstackEmpty | .numstackFull | .opstackEmpty | .opstackFull | .output => True
  | .undefined | .endless => False

/-- The evaluation of the expression keeps inside of its stacks and its buffer, whatever the shared
variables hold. -/
def StackSafe (s : State) (src : ℕ) : Prop :=
  ∀ k frame w f, Workspace.evalNumeric k s frame src w = .error f → ¬ f.IsAccess

/-! ## Reverse Polish notation -/

/-- What a token of the output is. -/
def RpnToken.item : RpnToken → Item
  | .numeric _ => .number
  | .operator op => .operator op

section

variable {items : List Item} {waiting : List UInt8} {output : List RpnToken}

/-- The size of items in a row is the sum of the sizes. -/
theorem itemsSize_append (items items' : List Item) :
    itemsSize (items ++ items') = itemsSize items + itemsSize items' := by simp [itemsSize]

/-- No items have no size. -/
@[simp] theorem itemsSize_nil : itemsSize [] = 0 := rfl

/-- The size of the first item and of the other ones. -/
@[simp] theorem itemsSize_cons (t : Item) (items : List Item) :
    itemsSize (t :: items) = t.size + itemsSize items := by simp [itemsSize]

/-- Every operator has two bytes. -/
theorem itemsSize_operators (ops : List UInt8) :
    itemsSize (ops.map .operator) = 2 * ops.length := by
  induction ops with
  | nil => rfl
  | cons op ops ih =>
    rw [List.map_cons, itemsSize_cons, ih, List.length_cons]
    show 2 + 2 * ops.length = 2 * (ops.length + 1)
    omega

/-- The size of the output is that of its items. -/
theorem outputSize_eq (output : List RpnToken) :
    outputSize output = itemsSize (output.map RpnToken.item) := by
  induction output with
  | nil => rfl
  | cons t output ih =>
    rw [List.map_cons, itemsSize_cons, ← ih, ← List.singleton_append, outputSize_append]
    congr 1
    cases t <;> rfl

/-- Operators are items of their own. -/
theorem map_item_operators (ops : List UInt8) :
    (ops.map RpnToken.operator).map RpnToken.item = ops.map .operator := by
  rw [List.map_map]
  rfl

/-- In reverse Polish notation there are the same items, and those that waited. -/
theorem itemsSize_postfixForm (waiting : List UInt8) (items : List Item) :
    itemsSize (postfixForm waiting items) = 2 * waiting.length + itemsSize items := by
  induction items generalizing waiting with
  | nil => rw [postfixForm, itemsSize_operators, itemsSize_nil, Nat.add_zero]
  | cons t items ih =>
    cases t with
    | number =>
      rw [postfixForm, itemsSize_cons, ih, itemsSize_cons]
      omega
    | operator op =>
      rw [postfixForm, itemsSize_append, itemsSize_operators, ih, itemsSize_cons]
      have hlen := congrArg List.length (List.takeWhile_append_dropWhile
        (p := fun o => decide (precedence o > precedence op)) (l := waiting))
      rw [List.length_append] at hlen
      have hsize : (Item.operator op).size = 2 := rfl
      rw [List.length_cons, hsize]
      omega

/-- The height of the stack behind a token. -/
theorem rpnStep_height (stack : List ℤ) (t : RpnToken) :
    (rpnStep stack t).map List.length = heightStep stack.length t.item := by
  cases t with
  | numeric n =>
    rw [rpnStep, RpnToken.item, heightStep]
    split_ifs <;> rfl
  | operator op =>
    rw [rpnStep, RpnToken.item, heightStep]
    by_cases hplus : op = opPlus
    · rw [if_pos hplus, if_pos (.inl hplus)]
      rcases stack with - | ⟨a, - | ⟨b, stack⟩⟩ <;> simp [binary]
    by_cases hmult : op = opMult
    · rw [if_neg hplus, if_pos hmult, if_pos (.inr hmult)]
      rcases stack with - | ⟨a, - | ⟨b, stack⟩⟩ <;> simp [binary]
    rw [if_neg hplus, if_neg hmult, if_neg (not_or.2 ⟨hplus, hmult⟩)]
    by_cases hminus : op = opMinus
    · rw [if_pos hminus]
      rcases stack with - | ⟨a, - | ⟨b, stack⟩⟩ <;> simp [minus, hminus]
    · rw [if_neg hminus, if_neg (fun h => hminus h.1)]
      rfl

/-- An expression in reverse Polish notation has a value when the stack has one number at least in
the end. -/
theorem evalRpn_isSome_iff (expr : List RpnToken) (stack : List ℤ) :
    (∃ v, evalRpn expr stack = some v) ↔
      ∃ h, endHeight stack.length (expr.map RpnToken.item) = some (h + 1) := by
  induction expr generalizing stack with
  | nil =>
    rcases stack with - | ⟨a, stack⟩
    · simp [evalRpn, endHeight]
    · simp [evalRpn, endHeight]
  | cons t expr ih =>
    rw [evalRpn_cons, List.map_cons, endHeight, ← rpnStep_height]
    cases rpnStep stack t with
    | none => simp
    | some stack' => exact ih stack'

end

/-! ## The items of an expression -/

/-- The end of an operand: without a parenthesis behind it, or with an index or an argument, whose
items begin at `start`. -/
def OperandEnd (m : Ram) (P : List Item → Prop) (next start stop : ℕ) : Prop :=
  (opCheck m next opLparen = false ∧ stop = next) ∨
    (opCheck m next opLparen = true ∧ ∃ items mid, Scan m P start items mid ∧ P items ∧
      stop = mid + opSize)

section

variable {m : Ram} {P : List Item → Prop} {src stop : ℕ} {items : List Item}

/-- A variable starts with its kind, or with that of a register. -/
theorem kind_of_varToken {next : ℕ} (h : varToken m src = some next) :
    m src = tokVariable ∨ m src = tokRegister := by
  unfold varToken at h
  split_ifs at h with hvar hreg
  · exact .inl hvar
  · exact .inr hreg

/-- A variable does not start with another kind. -/
theorem ne_of_varToken {next : ℕ} {kind : UInt8} (h : varToken m src = some next)
    (hvar : kind ≠ tokVariable) (hreg : kind ≠ tokRegister) : m src ≠ kind := by
  rcases kind_of_varToken h with h | h
  · exact h ▸ hvar.symm
  · exact h ▸ hreg.symm

/-- A token of another kind is not the end of an expression. -/
theorem not_end_of_ne (hterm : m src ≠ tokTerminator) (hsep : m src ≠ tokSeparator)
    (hkeyword : m src ≠ tokKeyword) (hop : m src ≠ tokOperator) :
    evalIsEndOfExpression m src = false := by
  simp [evalIsEndOfExpression, opCheck, tOperatorIsComparison, hterm, hsep, hkeyword, hop]

/-- A number does not end an expression. -/
theorem not_end_of_numeric (h : m src = tokNumeric) : evalIsEndOfExpression m src = false :=
  not_end_of_ne (h ▸ by decide) (h ▸ by decide) (h ▸ by decide) (h ▸ by decide)

/-- A register does not end an expression. -/
theorem not_end_of_register (h : m src = tokRegister) : evalIsEndOfExpression m src = false :=
  not_end_of_ne (h ▸ by decide) (h ▸ by decide) (h ▸ by decide) (h ▸ by decide)

/-- A parenthesis that is opened is not the end of an expression. -/
theorem not_end_of_lparen (h : opCheck m src opLparen = true) :
    evalIsEndOfExpression m src = false := by
  simp only [opCheck, Bool.and_eq_true, decide_eq_true_eq] at h
  simp only [evalIsEndOfExpression, opCheck, tOperatorIsComparison, h.1, h.2]
  decide

/-- Nothing is read at the end of an expression. -/
theorem Scan.at_end (h : Scan m P src items stop) (hend : evalIsEndOfExpression m src = true) :
    items = [] ∧ stop = src := by
  cases h with
  | stop => exact ⟨rfl, rfl⟩
  | numeric hmore | random hmore | randomOf hmore | scalar hmore | element hmore
  | operator hmore => exact absurd (hmore.symm.trans hend) (by simp)

/-- A number is read, and what is behind it. -/
theorem Scan.numeric_inv (h : Scan m P src items stop) (hmore : evalIsEndOfExpression m src = false)
    (hkind : m src = tokNumeric) :
    ∃ rest, items = .number :: rest ∧ Scan m P (src + numericSize) rest stop := by
  cases h with
  | stop hend => exact absurd (hmore.symm.trans hend) (by simp)
  | numeric _ _ hrest => exact ⟨_, rfl, hrest⟩
  | random _ htok => exact absurd (hkind.symm.trans htok) (by decide)
  | randomOf _ htok => exact absurd (hkind.symm.trans htok) (by decide)
  | scalar _ htok => exact absurd hkind (ne_of_varToken htok (by decide) (by decide))
  | element _ htok => exact absurd hkind (ne_of_varToken htok (by decide) (by decide))
  | operator _ htok => exact absurd (hkind.symm.trans htok) (by decide)

/-- A function is read with its argument, and what is behind it. -/
theorem Scan.func_inv (h : Scan m P src items stop) (hmore : evalIsEndOfExpression m src = false)
    (hkind : m src = tokFunc) :
    ∃ next rest, OperandEnd m P (src + 2) (src + 2) next ∧ items = .number :: rest ∧
      Scan m P next rest stop := by
  cases h with
  | stop hend => exact absurd (hmore.symm.trans hend) (by simp)
  | numeric _ htok => exact absurd (hkind.symm.trans htok) (by decide)
  | random _ _ hopen hrest => exact ⟨_, _, .inl ⟨hopen, rfl⟩, rfl, hrest⟩
  | randomOf _ _ hopen harg hP hrest =>
    exact ⟨_, _, .inr ⟨hopen, _, _, harg, hP, rfl⟩, rfl, hrest⟩
  | scalar _ htok => exact absurd hkind (ne_of_varToken htok (by decide) (by decide))
  | element _ htok => exact absurd hkind (ne_of_varToken htok (by decide) (by decide))
  | operator _ htok => exact absurd (hkind.symm.trans htok) (by decide)

/-- A variable is read with its index, and what is behind it. -/
theorem Scan.variable_inv (h : Scan m P src items stop)
    (hmore : evalIsEndOfExpression m src = false)
    (hkind : m src = tokVariable ∨ m src = tokRegister) :
    ∃ next stop' rest, varToken m src = some next ∧ OperandEnd m P next (next + opSize) stop' ∧
      items = .number :: rest ∧ Scan m P stop' rest stop := by
  have other : ∀ {kind : UInt8}, m src = kind → kind ≠ tokVariable → kind ≠ tokRegister → False :=
    fun h hvar hreg => hkind.elim (fun h' => hvar (h.symm.trans h')) fun h' =>
      hreg (h.symm.trans h')
  cases h with
  | stop hend => exact absurd (hmore.symm.trans hend) (by simp)
  | numeric _ htok => exact (other htok (by decide) (by decide)).elim
  | random _ htok => exact (other htok (by decide) (by decide)).elim
  | randomOf _ htok => exact (other htok (by decide) (by decide)).elim
  | scalar _ htok hopen hrest => exact ⟨_, _, _, htok, .inl ⟨hopen, rfl⟩, rfl, hrest⟩
  | element _ htok hopen hindex hP hrest =>
    exact ⟨_, _, _, htok, .inr ⟨hopen, _, _, hindex, hP, rfl⟩, rfl, hrest⟩
  | operator _ htok => exact (other htok (by decide) (by decide)).elim

/-- An operator is read, and what is behind it. -/
theorem Scan.operator_inv (h : Scan m P src items stop)
    (hmore : evalIsEndOfExpression m src = false) (hkind : m src = tokOperator) :
    ∃ rest, items = .operator (m (src + 1)) :: rest ∧ Scan m P (src + opSize) rest stop := by
  cases h with
  | stop hend => exact absurd (hmore.symm.trans hend) (by simp)
  | numeric _ htok => exact absurd (hkind.symm.trans htok) (by decide)
  | random _ htok => exact absurd (hkind.symm.trans htok) (by decide)
  | randomOf _ htok => exact absurd (hkind.symm.trans htok) (by decide)
  | scalar _ htok => exact absurd hkind (ne_of_varToken htok (by decide) (by decide))
  | element _ htok => exact absurd hkind (ne_of_varToken htok (by decide) (by decide))
  | operator _ _ hrest => exact ⟨_, rfl, hrest⟩

/-- A number at the end is the only item. -/
theorem Scan.single_numeric (h : Scan m P src items stop) (hkind : m src = tokNumeric)
    (hend : evalIsEndOfExpression m (src + numericSize) = true) :
    items = [.number] ∧ stop = src + numericSize := by
  obtain ⟨rest, rfl, hrest⟩ := h.numeric_inv (not_end_of_numeric hkind) hkind
  obtain ⟨rfl, rfl⟩ := hrest.at_end hend
  exact ⟨rfl, rfl⟩

/-- A register at the end is the only item. -/
theorem Scan.single_register (h : Scan m P src items stop) (hkind : m src = tokRegister)
    (hend : evalIsEndOfExpression m (src + registerSize) = true) :
    items = [.number] ∧ stop = src + registerSize := by
  obtain ⟨next, stop', rest, hvar, hstop, rfl, hrest⟩ :=
    h.variable_inv (not_end_of_register hkind) (.inr hkind)
  have hnext : next = src + registerSize := by
    rw [varToken, if_neg (hkind ▸ by decide), if_pos hkind] at hvar
    exact (Option.some.inj hvar).symm
  subst hnext
  obtain ⟨-, rfl⟩ | ⟨hopen, -⟩ := hstop
  · obtain ⟨rfl, rfl⟩ := hrest.at_end hend
    exact ⟨rfl, rfl⟩
  · exact absurd hend (by rw [not_end_of_lparen hopen]; simp)

/-- There is an item at every place that is not the end. -/
theorem Scan.kind (h : Scan m P src items stop) (hmore : evalIsEndOfExpression m src = false) :
    m src = tokNumeric ∨ m src = tokFunc ∨ (m src = tokVariable ∨ m src = tokRegister) ∨
      m src = tokOperator := by
  cases h with
  | stop hend => exact absurd (hmore.symm.trans hend) (by simp)
  | numeric _ htok => exact .inl htok
  | random _ htok => exact .inr (.inl htok)
  | randomOf _ htok => exact .inr (.inl htok)
  | scalar _ htok => exact .inr (.inr (.inl (kind_of_varToken htok)))
  | element _ htok => exact .inr (.inr (.inl (kind_of_varToken htok)))
  | operator _ htok => exact .inr (.inr (.inr htok))

end

/-! ## Evaluations inside of the arrays -/

/-- An evaluation makes no access outside of an array, and its value, with what is shared then, has
a property. -/
structure Safe {α : Type} (Q : α → Workspace → Prop) (c : Evaluation α) : Prop where
  fault : ∀ f, c = .error f → ¬ f.IsAccess
  value : ∀ a w, c = .ok (.ok a, w) → Q a w

section

variable {α β : Type} {Q : α → Workspace → Prop} {R : β → Workspace → Prop}

/-- A value that is as it is to be. -/
theorem Safe.ok {a : α} {w : Workspace} (h : Q a w) : Safe Q (.ok (.ok a, w)) where
  fault f he := absurd he (by simp)
  value a' w' he := by
    simp only [Except.ok.injEq, Prod.mk.injEq] at he
    obtain ⟨rfl, rfl⟩ := he
    exact h

/-- An error is safe. -/
theorem Safe.failed (e : Error) (w : Workspace) : Safe Q (.ok (.error e, w)) where
  fault f he := absurd he (by simp)
  value a' w' he := absurd he (by simp)

/-- A fault that is no access outside of an array is safe. -/
theorem Safe.error {f : StackFault} (h : ¬ f.IsAccess) : Safe Q (.error f) where
  fault f' he := Except.error.inj he ▸ h
  value a' w' he := absurd he (by simp)

/-- What is safe with each value of a safe evaluation, is safe behind it. -/
theorem Safe.andThen {c : Evaluation α} {next : α → Workspace → Evaluation β} (h : Safe Q c)
    (hnext : ∀ a w, c = .ok (.ok a, w) → Q a w → Safe R (next a w)) : Safe R (c.andThen next) := by
  unfold Evaluation.andThen
  split
  · next f => exact .error (h.fault f rfl)
  · next e w => exact .failed e w
  · next a w => exact hnext a w rfl (h.value a w rfl)

/-- A value that comes out of the handling of an error has come out of the evaluation. -/
theorem Workspace.errorHandle_ok {call : Workspace → Evaluation α} {w w' : Workspace} {a : α}
    (h : Workspace.errorHandle call w = .ok (.ok a, w')) : call w = .ok (.ok a, w') := by
  unfold Workspace.errorHandle at h
  split at h
  · split at h
    · simp at h
    · exact absurd h (by simp)
    · exact absurd h (by simp)
  · exact h

/-- A call that is handled is made again when it fails. -/
theorem Safe.errorHandle {call : Workspace → Evaluation α} (h : ∀ w, Safe Q (call w))
    (w : Workspace) : Safe Q (Workspace.errorHandle call w) where
  fault f he := by
    unfold Workspace.errorHandle at he
    split at he
    · next e w' _ =>
      split at he
      · exact absurd he (by simp)
      · obtain rfl := Except.error.inj he
        exact id
      · next hagain =>
        obtain rfl := Except.error.inj he
        exact (h w').fault _ hagain
    · exact (h w).fault f he
  value a w' he := (h w).value a w' (Workspace.errorHandle_ok he)

end

/-- Well-shaped expressions are safe for `k` turns. -/
def NumericSafe (k : ℕ) (s : State) : Prop :=
  ∀ src items stop, Scan s.ram GoodShape src items stop → GoodShape items →
    ∀ frame w, Safe (fun p _ => p.2 = stop) (Workspace.evalNumeric k s frame src w)

/-- What is in front of the loop of the algorithm, when the rest of the expression is known. -/
structure Ahead (m : Ram) (frame : ℕ) (opstack : List UInt8) (output : List RpnToken)
    (items : List Item) (stop : ℕ) (w : Workspace) : Prop where
  ops : OpsAt w frame opstack
  scan : Scan m GoodShape w.workingSrc items stop
  wait : FewWait opstack items
  held : opstack.length ≤ opstackMax
  fits : outputSize output + 2 * opstack.length + itemsSize items < statementSizeMax

/-- The loop is safe for `k` turns. -/
def YardSafe (k : ℕ) (s : State) : Prop :=
  ∀ frame opstack output items stop w, Ahead s.ram frame opstack output items stop w →
    Safe (fun p _ => p.2 = stop ∧
        p.1.map RpnToken.item = output.map RpnToken.item ++ postfixForm opstack items)
      (Workspace.evalShuntingYard k s frame opstack.length output w)

/-- The calls of functions are safe for `k` turns. -/
def FuncSafe (k : ℕ) (s : State) : Prop :=
  ∀ toks stop, OperandEnd s.ram GoodShape (toks + 2) (toks + 2) stop →
    ∀ frame w, Safe (fun p _ => p.2 = stop) (Workspace.tFuncCall k s frame toks w)

/-- The pointers to variables are safe for `k` turns. -/
def PtrSafe (k : ℕ) (s : State) : Prop :=
  ∀ toks next stop, varToken s.ram toks = some next →
    OperandEnd s.ram GoodShape next (next + opSize) stop →
    ∀ frame w, Safe (fun p _ => p.2 = stop) (Workspace.tVariableGetPtr k s frame toks w)

section

variable {k : ℕ} {s : State}

/-- A function is safe with one level more than its argument. -/
theorem tFuncCall_safe (h : NumericSafe k s) : FuncSafe (k + 1) s := by
  intro toks stop hstop frame w
  rw [Workspace.tFuncCall]
  split_ifs with hfunc hrnd hopen
  · exact .failed _ _
  · exact .failed _ _
  · obtain ⟨hclosed, -⟩ | ⟨-, items, mid, hscan, hgood, rfl⟩ := hstop
    · rw [hopen] at hclosed
      exact absurd hclosed (by simp)
    refine (Safe.errorHandle (h _ _ _ hscan hgood frame) w).andThen fun p w' _ hp => ?_
    by_cases hzero : p.1 = 0
    · rw [if_pos hzero]
      exact .error id
    · rw [if_neg hzero]
      exact .ok (by rw [hp])
  · obtain ⟨-, rfl⟩ | ⟨hopened, -⟩ := hstop
    · exact .ok rfl
    · exact absurd hopened hopen

/-- A variable is safe with one level more than its index. -/
theorem tVariableGetPtr_safe (h : NumericSafe k s) : PtrSafe (k + 1) s := by
  intro toks next stop hvar hstop frame w
  rw [Workspace.tVariableGetPtr, hvar]
  dsimp only
  split_ifs with hopen
  · obtain ⟨hclosed, -⟩ | ⟨-, items, mid, hscan, hgood, rfl⟩ := hstop
    · rw [hopen] at hclosed
      exact absurd hclosed (by simp)
    refine (Safe.errorHandle (h _ _ _ hscan hgood frame) w).andThen fun p w' _ hp => ?_
    cases arrayRef s toks p.1 with
    | none => exact .error id
    | some ref =>
      cases ref with
      | error e => exact .failed _ _
      | ok ref => exact .ok (by rw [hp])
  · obtain ⟨-, rfl⟩ | ⟨hopened, -⟩ := hstop
    · cases programGetNumericRef s toks with
      | none => exact .error id
      | some ref =>
        cases ref with
        | none => exact .failed _ _
        | some ref => exact .ok rfl
    · exact absurd hopened hopen

/-- An expression is safe with one level more than its output. -/
theorem evalNumeric_safe (h : YardSafe k s) : NumericSafe (k + 1) s := by
  intro src items stop hscan hgood frame w
  rw [Workspace.evalNumeric]
  split_ifs with hnum hreg
  · rw [Bool.and_eq_true, decide_eq_true_eq] at hnum
    exact .ok (hscan.single_numeric hnum.1 hnum.2).2.symm
  · rw [Bool.and_eq_true, decide_eq_true_eq] at hreg
    cases register? s.ram src with
    | none => exact .error id
    | some i => exact .ok (hscan.single_register hreg.1 hreg.2).2.symm
  · have henter : ∀ w : Workspace, Safe (fun p _ => p.2 = stop ∧
          p.1.map RpnToken.item = postfixForm [] items)
        (Workspace.evalShuntingYard k s frame 0 [] (w.enter frame src)) := fun w =>
      h frame [] [] items stop _ ⟨⟨rfl, trivial⟩, hscan, hgood.wait, Nat.zero_le _,
        (Nat.zero_add _).symm ▸ hgood.fits⟩
    refine (Safe.errorHandle henter w).andThen fun p w' _ hp => ?_
    obtain ⟨hstop, hform⟩ := hp
    obtain ⟨v, hv⟩ := (evalRpn_isSome_iff p.1 []).2 (by rw [hform]; exact hgood.height)
    obtain ⟨w'', hrun, -⟩ := (Workspace.evalRpn_spec p.1 w').1 v hv
    rw [hrun]
    exact .ok hstop

/-- An operand is written to the output, and the loop goes on behind it. -/
theorem YardSafe.operand (h : YardSafe k s) {frame stop : ℕ} {opstack : List UInt8}
    {output : List RpnToken} {items : List Item} {w : Workspace} (n : ℤ)
    (hops : OpsAt w frame opstack) (hscan : Scan s.ram GoodShape w.workingSrc items stop)
    (hwait : FewWait opstack (.number :: items)) (hheld : opstack.length ≤ opstackMax)
    (hfits : outputSize output + 2 * opstack.length + itemsSize (.number :: items) <
      statementSizeMax) :
    Safe (fun p _ => p.2 = stop ∧ p.1.map RpnToken.item =
        output.map RpnToken.item ++ postfixForm opstack (.number :: items))
      ((emit output (.numeric n)).bind fun output =>
        Workspace.evalShuntingYard k s frame opstack.length output w) := by
  have hitem : Item.number.size = 3 := rfl
  rw [itemsSize_cons, hitem] at hfits
  rw [Workspace.emit_eq (by rw [OutputFits, outputSize_append, outputSize_numeric]; omega)]
  have hnext := h frame opstack (output ++ [.numeric n]) items stop w ⟨hops, hscan, hwait, hheld, by
    rw [outputSize_append, outputSize_numeric]
    omega⟩
  rw [List.map_append, List.append_assoc] at hnext
  exact hnext

/-- An operator pops those in front of it and is pushed, and the loop goes on behind it.

**Proof sketch.** The operators in front are popped and go to the output, for which there is room
(`Workspace.popOps_eq`), and the operator is pushed, for which there is room as well
(`Workspace.pushOp_eq`). The loop is safe behind it by the hypothesis. -/
theorem YardSafe.operator (h : YardSafe k s) {frame stop : ℕ} {opstack : List UInt8}
    {output : List RpnToken} {items : List Item} {w : Workspace} (op : UInt8)
    (hops : OpsAt w frame opstack)
    (hscan : Scan s.ram GoodShape (w.workingSrc + opSize) items stop)
    (hwait : FewWait opstack (.operator op :: items))
    (hfits : outputSize output + 2 * opstack.length + itemsSize (.operator op :: items) <
      statementSizeMax) :
    Safe (fun p _ => p.2 = stop ∧ p.1.map RpnToken.item =
        output.map RpnToken.item ++ postfixForm opstack (.operator op :: items))
      ((Workspace.popOps (fun o => precedence o > precedence op) opstack.length output w).bind
        fun q => (q.2.2.pushOp op).bind fun w =>
          Workspace.evalShuntingYard k s frame (q.1 + 1) q.2.1
            { w with workingSrc := w.workingSrc + opSize }) := by
  obtain ⟨hroom, hwait⟩ := hwait
  obtain ⟨hpop, -⟩ := Workspace.popOps_eq output hops
    fun o => precedence o > precedence op
  generalize hpopped : opstack.takeWhile (fun o => decide (precedence o > precedence op)) = popped
    at hpop
  generalize hkept : opstack.dropWhile (fun o => decide (precedence o > precedence op)) = kept
    at hpop hroom hwait
  have hlen : opstack.length = popped.length + kept.length := by
    rw [← hpopped, ← hkept, ← List.length_append, List.takeWhile_append_dropWhile]
  have hitem : (Item.operator op).size = 2 := rfl
  rw [itemsSize_cons, hitem] at hfits
  obtain ⟨w₁, hrun, hops₁, -, -, hsrc₁⟩ := hpop (by
    rw [OutputFits, outputSize_append, outputSize_operators]
    omega)
  obtain ⟨w₂, hpush, hops₂, -, -, hsrc₂⟩ := Workspace.pushOp_eq hops₁ hroom op
  rw [hrun]
  simp only [Except.bind, hpush]
  have hnext := h frame (op :: kept) (output ++ popped.map .operator) items stop
    { w₂ with workingSrc := w₂.workingSrc + opSize }
    ⟨⟨hops₂.ptr, hops₂.stacked⟩, by rw [hsrc₂, hsrc₁]; exact hscan, hwait, hroom, by
      rw [outputSize_append, outputSize_operators, List.length_cons]
      omega⟩
  rw [List.map_append, map_item_operators, List.append_assoc] at hnext
  rw [postfixForm, hpopped, hkept]
  exact hnext

/-- The output of an expression is safe with one level more than its operands.

**Proof sketch.** By the tests of the loop. What is to come at a token is an item and the rest
(`Scan`), the evaluation of an operand is safe one level below and leaves the saved pointers, and
the rest is put out by the next turn. -/
theorem evalShuntingYard_safe (h : YardSafe k s) (hfunc : FuncSafe k s) (hptr : PtrSafe k s) :
    YardSafe (k + 1) s := by
  intro frame opstack output items stop w hahead
  obtain ⟨hops, hscan, hwait, hheld, hfits⟩ := hahead
  obtain ⟨-, -, hfuncAgrees, hptrAgrees⟩ := evaluations_agree k s
  -- the loop goes on with the pointers that have been saved
  have restored : ∀ (w' : Workspace) (n : ℤ) {next : ℕ} {rest : List Item},
      SameBelow (frame + 1) w w' → Scan s.ram GoodShape next rest stop →
      items = .number :: rest →
      Safe (fun p _ => p.2 = stop ∧ p.1.map RpnToken.item =
          output.map RpnToken.item ++ postfixForm opstack items)
        ((emit output (.numeric n)).bind fun output =>
          Workspace.evalShuntingYard k s frame opstack.length output
            { w' with workingOpstackPtr := w.workingOpstackPtr, workingSrc := next }) := by
    rintro w' n next rest hsame hrest rfl
    exact h.operand n (hops.restored hsame next) hrest hwait hheld hfits
  rw [Workspace.evalShuntingYard]
  by_cases hend : evalIsEndOfExpression s.ram w.workingSrc = true
  · rw [if_pos hend]
    obtain ⟨rfl, rfl⟩ := hscan.at_end hend
    obtain ⟨hpop, -⟩ := Workspace.popOps_eq output hops fun _ => true
    have htake : opstack.takeWhile (fun _ => true) = opstack :=
      List.takeWhile_eq_self_iff.2 fun _ _ => rfl
    rw [itemsSize_nil, Nat.add_zero, ← outputSize_operators, ← outputSize_append] at hfits
    rw [htake] at hpop
    obtain ⟨w', hrun, -, -, -, hsrc⟩ := hpop hfits.le
    rw [hrun]
    simp only [Except.bind]
    rw [if_pos hfits, hsrc]
    exact .ok ⟨rfl, by rw [List.map_append, map_item_operators, postfixForm]⟩
  have hmore : evalIsEndOfExpression s.ram w.workingSrc = false := Bool.eq_false_iff.2 hend
  rw [if_neg hend]
  by_cases hnum : s.ram w.workingSrc = tokNumeric
  · rw [if_pos hnum]
    obtain ⟨rest, rfl, hrest⟩ := hscan.numeric_inv hmore hnum
    exact h.operand (w := { w with workingSrc := w.workingSrc + numericSize }) _
      ⟨hops.ptr, hops.stacked⟩ hrest hwait hheld hfits
  rw [if_neg hnum]
  by_cases htok : s.ram w.workingSrc = tokFunc
  · rw [if_pos htok]
    obtain ⟨next, rest, hnext, hitems, hrest⟩ := hscan.func_inv hmore htok
    refine (Safe.errorHandle (hfunc _ _ hnext (frame + 1)) w).andThen fun p w' hp hstop => ?_
    have hcall := Simulates.errorHandle _ (fun r => tFuncCall k s r w.workingSrc)
      (fun w' => hfuncAgrees (frame + 1) w.workingSrc w') w
    exact restored w' _ (hcall.sound _ _ hp).2 (hstop ▸ hrest) hitems
  rw [if_neg htok]
  by_cases hvar : (s.ram w.workingSrc = tokVariable || s.ram w.workingSrc = tokRegister) = true
  · rw [if_pos hvar]
    have hkind : s.ram w.workingSrc = tokVariable ∨ s.ram w.workingSrc = tokRegister := by
      simpa using hvar
    obtain ⟨next, stop', rest, hnext, hstop', hitems, hrest⟩ := hscan.variable_inv hmore hkind
    refine (Safe.errorHandle (hptr _ _ _ hnext hstop' (frame + 1)) w).andThen
      fun p w' hp hstop => ?_
    have hcall := Simulates.errorHandle _ (fun r => tVariableGetPtr k s r w.workingSrc)
      (fun w' => hptrAgrees (frame + 1) w.workingSrc w') w
    exact restored w' _ (hcall.sound _ _ hp).2 (hstop ▸ hrest) hitems
  rw [if_neg hvar]
  by_cases hop : s.ram w.workingSrc = tokOperator
  · rw [if_pos hop]
    obtain ⟨rest, rfl, hrest⟩ := hscan.operator_inv hmore hop
    exact h.operator _ hops hrest hwait hfits
  · rcases hscan.kind hmore with hk | hk | hk | hk
    · exact absurd hk hnum
    · exact absurd hk htok
    · exact absurd (by simpa using hk) hvar
    · exact absurd hk hop

end

/-- The evaluation of a well-shaped expression keeps inside of its stacks and its buffer. -/
theorem stackSafe_of_wellShaped {s : State} {src : ℕ} (h : WellShaped s.ram src) :
    StackSafe s src := by
  obtain ⟨items, stop, hscan, hgood⟩ := h
  suffices hall : ∀ k, NumericSafe k s ∧ YardSafe k s ∧ FuncSafe k s ∧ PtrSafe k s from
    fun k frame w f hf => ((hall k).1 src items stop hscan hgood frame w).fault f hf
  intro k
  induction k with
  | zero =>
    refine ⟨?_, ?_, ?_, ?_⟩
    · exact fun _ _ _ _ _ _ _ => .error id
    · exact fun _ _ _ _ _ _ _ => .error id
    · exact fun _ _ _ _ _ => .error id
    · exact fun _ _ _ _ _ _ _ => .error id
  | succ k ih =>
    obtain ⟨hnum, hyard, hfunc, hptr⟩ := ih
    exact ⟨evalNumeric_safe hyard, evalShuntingYard_safe hyard hfunc hptr, tFuncCall_safe hnum,
      tVariableGetPtr_safe hnum⟩

/-! ## Evaluations with a value -/

/-- An expression that has a value within `k` turns is well-shaped. -/
def NumericShaped (k : ℕ) (s : State) : Prop :=
  ∀ r src v stop r', evalNumeric k s r src = some (.ok (v, stop), r') →
    ∃ items, Scan s.ram GoodShape src items stop ∧ GoodShape items

/-- The loop reads items, and puts out their reverse Polish notation, with room for a terminator. -/
def YardShaped (k : ℕ) (s : State) : Prop :=
  ∀ r src output opstack out stop r',
    evalShuntingYard k s r src output opstack = some (.ok (out, stop), r') →
    ∃ items, Scan s.ram GoodShape src items stop ∧ FewWait opstack items ∧
      out.map RpnToken.item = output.map RpnToken.item ++ postfixForm opstack items ∧
      outputSize out < statementSizeMax

/-- A call of a function that has a value ends behind its argument. -/
def FuncShaped (k : ℕ) (s : State) : Prop :=
  ∀ r toks v stop r', tFuncCall k s r toks = some (.ok (v, stop), r') →
    OperandEnd s.ram GoodShape (toks + 2) (toks + 2) stop

/-- A variable that is found ends behind its index. -/
def PtrShaped (k : ℕ) (s : State) : Prop :=
  ∀ r toks ref stop r', tVariableGetPtr k s r toks = some (.ok (ref, stop), r') →
    ∃ next, varToken s.ram toks = some next ∧
      OperandEnd s.ram GoodShape next (next + opSize) stop

/-- The parts of an evaluation with a value have values. -/
theorem Evaluated.andThen_eq_ok {α β : Type} {l : Evaluated α} {next : α → ℕ → Evaluated β} {b : β}
    {r : ℕ} (h : l.andThen next = some (.ok b, r)) :
    ∃ a r', l = some (.ok a, r') ∧ next a r' = some (.ok b, r) := by
  unfold Evaluated.andThen at h
  split at h
  · exact absurd h (by simp)
  · simp at h
  · next a r' => exact ⟨a, r', rfl, h⟩

/-- A value that comes out of the handling of an error has come out of the evaluation. -/
theorem errorHandle_eq_ok {α : Type} {call : ℕ → Evaluated α} {r r' : ℕ} {a : α}
    (h : errorHandle call r = some (.ok a, r')) : call r = some (.ok a, r') := by
  unfold errorHandle at h
  split at h
  · split at h
    · simp at h
    · exact absurd h (by simp)
  · exact h

/-- A single operand. -/
theorem goodShape_number : GoodShape [.number] := ⟨trivial, by decide, 0, rfl⟩

section

variable {k : ℕ} {s : State}

/-- A function has its shape with one level more than its argument. -/
theorem tFuncCall_shaped (h : NumericShaped k s) : FuncShaped (k + 1) s := by
  intro r toks v stop r' hcall
  rw [tFuncCall_succ] at hcall
  split_ifs at hcall with hfunc hrnd hopen
  · simp at hcall
  · simp at hcall
  · obtain ⟨p, r₁, harg, hnext⟩ := Evaluated.andThen_eq_ok hcall
    have hcalled := errorHandle_eq_ok harg
    obtain ⟨items, hscan, hgood⟩ := h _ _ p.1 p.2 _ hcalled
    split_ifs at hnext
    simp only [Option.some.injEq, Prod.mk.injEq, Except.ok.injEq] at hnext
    exact .inr ⟨hopen, items, p.2, hscan, hgood, hnext.1.2.symm⟩
  · simp only [Option.some.injEq, Prod.mk.injEq, Except.ok.injEq] at hcall
    exact .inl ⟨Bool.eq_false_iff.2 hopen, hcall.1.2.symm⟩

/-- A variable has its shape with one level more than its index. -/
theorem tVariableGetPtr_shaped (h : NumericShaped k s) : PtrShaped (k + 1) s := by
  intro r toks ref stop r' hcall
  cases hvar : varToken s.ram toks with
  | none =>
    rw [tVariableGetPtr, hvar] at hcall
    simp at hcall
  | some next =>
    rw [tVariableGetPtr_succ r toks hvar] at hcall
    refine ⟨next, rfl, ?_⟩
    split_ifs at hcall with hopen
    · obtain ⟨p, r₁, hindex, hnext⟩ := Evaluated.andThen_eq_ok hcall
      have hcalled := errorHandle_eq_ok hindex
      obtain ⟨items, hscan, hgood⟩ := h _ _ p.1 p.2 _ hcalled
      rcases hfound : arrayRef s toks p.1 with - | (e | ref')
      · simp [hfound] at hnext
      · simp [hfound, Except.map] at hnext
      · simp only [hfound, Option.map_some, Except.map, Option.some.injEq, Prod.mk.injEq,
          Except.ok.injEq] at hnext
        exact .inr ⟨hopen, items, p.2, hscan, hgood, hnext.1.2.symm⟩
    · rcases hfound : programGetNumericRef s toks with - | (- | ref')
      · simp [hfound] at hcall
      · simp [hfound] at hcall
      · simp only [hfound, Option.map_some, Option.elim, Option.some.injEq, Prod.mk.injEq,
          Except.ok.injEq] at hcall
        exact .inl ⟨Bool.eq_false_iff.2 hopen, hcall.1.2.symm⟩

/-- An expression has its shape with one level more than its output.

**Proof sketch.** A single number or register is a shape by itself. Otherwise the loop has left a
postfix form (`YardShaped`) whose evaluation succeeds, so that it has the right height
(`evalRpn_isSome_iff`). -/
theorem evalNumeric_shaped (h : YardShaped k s) : NumericShaped (k + 1) s := by
  intro r src v stop r' hcall
  rw [evalNumeric_succ] at hcall
  split_ifs at hcall with hnum hreg
  · rw [Bool.and_eq_true, decide_eq_true_eq] at hnum
    simp only [Option.some.injEq, Prod.mk.injEq, Except.ok.injEq] at hcall
    rw [← hcall.1.2]
    exact ⟨[.number], .numeric (not_end_of_numeric hnum.1) hnum.1 (.stop hnum.2),
      goodShape_number⟩
  · rw [Bool.and_eq_true, decide_eq_true_eq] at hreg
    obtain ⟨i, -, hi⟩ := Option.map_eq_some_iff.1 hcall
    simp only [Prod.mk.injEq, Except.ok.injEq] at hi
    rw [← hi.1.2]
    have hvar : varToken s.ram src = some (src + registerSize) := by
      rw [varToken, if_neg (by rw [hreg.1]; decide), if_pos hreg.1]
    have hopen : opCheck s.ram (src + registerSize) opLparen = false := by
      by_contra hopen
      have hmore := not_end_of_lparen (Bool.eq_true_of_not_eq_false hopen)
      exact absurd hreg.2 (by rw [hmore]; simp)
    exact ⟨[.number], .scalar (not_end_of_register hreg.1) hvar hopen (.stop hreg.2),
      goodShape_number⟩
  · obtain ⟨p, r₁, hyard, hnext⟩ := Evaluated.andThen_eq_ok hcall
    obtain ⟨items, hscan, hwait, hform, hfits⟩ := h _ _ _ _ _ _ _ (errorHandle_eq_ok hyard)
    obtain ⟨v', hv', heq⟩ := Option.map_eq_some_iff.1 hnext
    simp only [Prod.mk.injEq, Except.ok.injEq] at heq
    rw [← heq.1.2]
    refine ⟨items, hscan, hwait, ?_, ?_⟩
    · rw [outputSize_eq, hform] at hfits
      simpa [itemsSize_postfixForm] using hfits
    · have hheight := (evalRpn_isSome_iff p.1 []).1 ⟨v', hv'⟩
      rw [hform] at hheight
      exact hheight

/-- The output of an expression has its shape with one level more than its operands.

**Proof sketch.** By the tests of the loop. The value of an operand means that its token has a shape
one level below, and the next turn gives the shape of the rest. -/
theorem evalShuntingYard_shaped (h : YardShaped k s) (hfunc : FuncShaped k s)
    (hptr : PtrShaped k s) : YardShaped (k + 1) s := by
  intro r src output opstack out stop r' hcall
  rw [evalShuntingYard_succ] at hcall
  -- an operand is a number in front of the rest
  have operand : ∀ {n : ℤ} {next r : ℕ},
      (if OutputFits (output ++ [.numeric n]) then
        evalShuntingYard k s r next (output ++ [.numeric n]) opstack
      else none) = some (.ok (out, stop), r') →
      ∃ items, Scan s.ram GoodShape next items stop ∧ FewWait opstack (.number :: items) ∧
        out.map RpnToken.item =
          output.map RpnToken.item ++ postfixForm opstack (.number :: items) ∧
        outputSize out < statementSizeMax := by
    intro n next r hrest
    split_ifs at hrest
    obtain ⟨items, hscan, hwait, hform, hlt⟩ := h _ _ _ _ _ _ _ hrest
    rw [List.map_append, List.append_assoc] at hform
    exact ⟨items, hscan, hwait, hform, hlt⟩
  by_cases hend : evalIsEndOfExpression s.ram src = true
  · rw [if_pos hend] at hcall
    split_ifs at hcall with hlt
    simp only [Option.some.injEq, Prod.mk.injEq, Except.ok.injEq] at hcall
    obtain ⟨⟨rfl, rfl⟩, -⟩ := hcall
    exact ⟨[], .stop hend, trivial, by rw [List.map_append, map_item_operators, postfixForm], hlt⟩
  have hmore : evalIsEndOfExpression s.ram src = false := Bool.eq_false_iff.2 hend
  rw [if_neg hend] at hcall
  by_cases hnum : s.ram src = tokNumeric
  · rw [if_pos hnum] at hcall
    obtain ⟨items, hscan, hwait, hout⟩ := operand hcall
    exact ⟨_, .numeric hmore hnum hscan, hwait, hout⟩
  rw [if_neg hnum] at hcall
  by_cases htok : s.ram src = tokFunc
  · rw [if_pos htok] at hcall
    obtain ⟨p, r₁, hval, hrest⟩ := Evaluated.andThen_eq_ok hcall
    obtain ⟨items, hscan, hwait, hout⟩ := operand hrest
    have hcalled := errorHandle_eq_ok hval
    obtain ⟨hopen, hstop⟩ | ⟨hopen, arg, mid, harg, hgood, hstop⟩ :=
      hfunc _ _ p.1 p.2 _ hcalled
    · exact ⟨_, .random hmore htok hopen (hstop ▸ hscan), hwait, hout⟩
    · exact ⟨_, .randomOf hmore htok hopen harg hgood (hstop ▸ hscan), hwait, hout⟩
  rw [if_neg htok] at hcall
  by_cases hvar : (s.ram src = tokVariable || s.ram src = tokRegister) = true
  · rw [if_pos hvar] at hcall
    obtain ⟨p, r₁, hval, hrest⟩ := Evaluated.andThen_eq_ok hcall
    obtain ⟨items, hscan, hwait, hout⟩ := operand hrest
    have hcalled := errorHandle_eq_ok hval
    obtain ⟨next, hnext, ⟨hopen, hstop⟩ | ⟨hopen, index, mid, hindex, hgood, hstop⟩⟩ :=
      hptr _ _ p.1 p.2 _ hcalled
    · exact ⟨_, .scalar hmore hnext hopen (hstop ▸ hscan), hwait, hout⟩
    · exact ⟨_, .element hmore hnext hopen hindex hgood (hstop ▸ hscan), hwait, hout⟩
  rw [if_neg hvar] at hcall
  by_cases hop : s.ram src = tokOperator
  · rw [if_pos hop] at hcall
    split_ifs at hcall with hroom
    obtain ⟨items, hscan, hwait, hform, hlt⟩ := h _ _ _ _ _ _ _ hcall
    rw [List.map_append, map_item_operators, List.append_assoc] at hform
    exact ⟨_, .operator hmore hop hscan, ⟨hroom.2, hwait⟩, hform, hlt⟩
  · rw [if_neg hop] at hcall
    obtain ⟨items, hscan, -⟩ := h _ _ _ _ _ _ _ hcall
    rcases hscan.kind hmore with hk | hk | hk | hk
    · exact absurd hk hnum
    · exact absurd hk htok
    · exact absurd (by simpa using hk) hvar
    · exact absurd hk hop

end

/-- What has a value is well-shaped. -/
theorem evaluations_shaped (k : ℕ) (s : State) :
    NumericShaped k s ∧ YardShaped k s ∧ FuncShaped k s ∧ PtrShaped k s := by
  induction k with
  | zero =>
    refine ⟨?_, ?_, ?_, ?_⟩
    · exact fun _ _ _ _ _ h => absurd h (by simp [evalNumeric])
    · exact fun _ _ _ _ _ _ _ h => absurd h (by simp [evalShuntingYard])
    · exact fun _ _ _ _ _ h => absurd h (by simp [tFuncCall])
    · exact fun _ _ _ _ _ h => absurd h (by simp [tVariableGetPtr])
  | succ k ih =>
    obtain ⟨hnum, hyard, hfunc, hptr⟩ := ih
    exact ⟨evalNumeric_shaped hyard, evalShuntingYard_shaped hyard hfunc hptr,
      tFuncCall_shaped hnum, tVariableGetPtr_shaped hnum⟩

/-- An expression that has a value is well-shaped. -/
theorem wellShaped_of_evaluates {k : ℕ} {s : State} {r src stop r' : ℕ} {v : ℤ}
    (h : evalNumeric k s r src = some (.ok (v, stop), r')) : WellShaped s.ram src := by
  obtain ⟨items, hscan, hgood⟩ := (evaluations_shaped k s).1 _ _ _ _ _ h
  exact ⟨items, stop, hscan, hgood⟩

end Z80OS.Basic
