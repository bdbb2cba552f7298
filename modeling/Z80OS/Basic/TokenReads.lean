import Z80OS.Basic.Dispatch
import Z80OS.Basic.Halting
import Z80OS.Basic.Shapes
import Z80OS.Basic.Walkers

set_option relaxedAutoImplicit false
set_option autoImplicit false

/-!
# What an interpretation reads

The interpreter goes through a statement with a pointer and looks at the bytes in front of it.
Before it goes on it mostly looks what token it passes. A closing parenthesis behind an index or an
argument, and all the tokens behind the variable of a `DIM`, are passed without a look.

This file lists the bytes of a statement that its interpretation reads: those that an activation of
a function of the evaluation reads itself, and those that a statement reads besides its expressions.
The bytes of the token of a variable count as read together.

## Main definitions

* `Z80OS.Basic.Call.reads` — what an activation of a function of the evaluation reads.
* `Z80OS.Basic.Enters` — the evaluations that a statement makes.
* `Z80OS.Basic.StatementReads` — what a statement reads.
* `Z80OS.Basic.Call.Malformed`, `Z80OS.Basic.MalformedDim` — array accesses, calls of `RND` and
  `DIM` statements in which a token is missing.
* `Z80OS.Basic.StaysWithin` — an interpretation reads nothing behind the statement, and answers with
  a syntax error where such a token is missing.
* `Z80OS.Basic.NothingMissing` — the interpretation comes to no place where such a token is missing.
-/

namespace Z80OS.Basic

open CallTree

/-! ## Tokens -/

section

variable (m : Ram) (toks : ℕ)

/-- What a test for an operator reads, and a test for the end of an expression. -/
def operatorReads : List ℕ := if m toks = tokOperator then [toks, toks + 1] else [toks]

/-- What a test for a keyword reads. -/
def keywordReads : List ℕ := if m toks = tokKeyword then [toks, toks + 1] else [toks]

/-- What is read for a number. -/
def numericReads : List ℕ := if m toks = tokNumeric then [toks, toks + 1, toks + 2] else [toks]

/-- What is read of a string: its characters and the terminator. -/
def stringReads : List ℕ := (List.range ((m.string toks).length + 1)).map (toks + ·)

/-- What is read for a token with a size whose text is a string. -/
def sizedReads : List ℕ := toks :: (toks + 1) :: stringReads m (toks + 2)

/-- What is read for a variable. -/
def variableReads : List ℕ :=
  if m toks = tokVariable then sizedReads m toks
  else if m toks = tokRegister then [toks, toks + 1]
  else [toks]

end

/-! ## Expressions -/

/-- What an activation of a function of the evaluation reads itself. A turn of the main loop is an
activation. -/
def Call.reads (m : Ram) : Call → List ℕ
  | .evalNumeric _ src =>
    if m src = tokNumeric then
      operatorReads m (src + numericSize) ++
        if evalIsEndOfExpression m (src + numericSize) then numericReads m src else [src]
    else if m src = tokRegister then
      operatorReads m (src + registerSize) ++
        if evalIsEndOfExpression m (src + registerSize) then variableReads m src else [src]
    else [src]
  | .evalShuntingYard _ src _ _ => operatorReads m src ++ numericReads m src
  | .tFuncCall _ toks =>
    if m toks = tokFunc then
      toks :: (toks + 1) :: if m (toks + 1) = funcRnd then operatorReads m (toks + 2) else []
    else [toks]
  | .tVariableGetPtr _ toks =>
    variableReads m toks ++
      match varToken m toks with
      | none => []
      | some next => operatorReads m next

/-- The height of a stack of numbers without an end, behind an item. -/
def leftBehind (h : ℕ) : Item → Option ℕ
  | .number => some (h + 1)
  | .operator op =>
    if op = opPlus ∨ op = opMult then if 2 ≤ h then some (h - 1) else none
    else if op = opMinus ∧ 2 ≤ h then some (h - 1)
    else some h

/-- The items have a value: there is a number in the end, and `+` and `*` have two numbers. -/
def HasOperands (items : List Item) : Prop :=
  ∃ h, (postfixForm [] items).foldlM leftBehind 0 = some (h + 1)

/-- The items of the expression at an address up to its end, where no index and no argument lacks an
operand or its closing parenthesis. -/
inductive Closed (m : Ram) : ℕ → List Item → ℕ → Prop
  | stop {src : ℕ} (hend : evalIsEndOfExpression m src = true) : Closed m src [] src
  | numeric {src stop : ℕ} {items : List Item} (hend : evalIsEndOfExpression m src = false)
    (htok : m src = tokNumeric) (hrest : Closed m (src + numericSize) items stop) :
    Closed m src (.number :: items) stop
  | random {src stop : ℕ} {items : List Item} (hend : evalIsEndOfExpression m src = false)
    (htok : m src = tokFunc) (hopen : opCheck m (src + 2) opLparen = false)
    (hrest : Closed m (src + 2) items stop) : Closed m src (.number :: items) stop
  | randomOf {src mid stop : ℕ} {arg items : List Item}
    (hend : evalIsEndOfExpression m src = false) (htok : m src = tokFunc)
    (hopen : opCheck m (src + 2) opLparen = true) (harg : Closed m (src + 2) arg mid)
    (hoperands : HasOperands arg) (hclose : opCheck m mid opRparen = true)
    (hrest : Closed m (mid + opSize) items stop) : Closed m src (.number :: items) stop
  | scalar {src next stop : ℕ} {items : List Item} (hend : evalIsEndOfExpression m src = false)
    (htok : varToken m src = some next) (hopen : opCheck m next opLparen = false)
    (hrest : Closed m next items stop) : Closed m src (.number :: items) stop
  | element {src next mid stop : ℕ} {index items : List Item}
    (hend : evalIsEndOfExpression m src = false) (htok : varToken m src = some next)
    (hopen : opCheck m next opLparen = true) (hindex : Closed m (next + opSize) index mid)
    (hoperands : HasOperands index) (hclose : opCheck m mid opRparen = true)
    (hrest : Closed m (mid + opSize) items stop) : Closed m src (.number :: items) stop
  | operator {src stop : ℕ} {items : List Item} (hend : evalIsEndOfExpression m src = false)
    (htok : m src = tokOperator) (hrest : Closed m (src + opSize) items stop) :
    Closed m src (.operator (m (src + 1)) :: items) stop

/-- The index or the argument at an address is complete. -/
def Complete (m : Ram) (src : ℕ) : Prop :=
  ∃ items mid, Closed m src items mid ∧ HasOperands items ∧ opCheck m mid opRparen = true

/-- An activation is for an array access whose index is not complete, or for a call of `RND` whose
argument is not complete. -/
def Call.Malformed (m : Ram) : Call → Prop
  | .evalNumeric _ _ => False
  | .evalShuntingYard _ _ _ _ => False
  | .tFuncCall _ toks =>
    m toks = tokFunc ∧ m (toks + 1) = funcRnd ∧ opCheck m (toks + 2) opLparen = true ∧
      ¬ Complete m (toks + 2)
  | .tVariableGetPtr _ toks =>
    ∃ next, varToken m toks = some next ∧ opCheck m next opLparen = true ∧
      ¬ Complete m (next + opSize)

/-! ## Statements -/

/-- Behind the keyword of a `DIM` are a variable and a size in parentheses. -/
def CompleteDim (m : Ram) (toks : ℕ) : Prop :=
  ∃ next, varToken m toks = some next ∧ opCheck m next opLparen = true ∧
    m (next + opSize) = tokNumeric ∧ opCheck m (next + opSize + numericSize) opRparen = true

/-- What a `DIM` reads behind its keyword. The array is created in free memory. -/
def dimReads (m : Ram) (toks : ℕ) : List ℕ :=
  variableReads m toks ++
    match varToken m toks with
    | none => []
    | some next => [next + opSize + 1, next + opSize + 2]

/-- What a `FOR` reads behind its keyword. -/
def forReads (m : Ram) (toks : ℕ) : List ℕ :=
  variableReads m toks ++
    match varToken m toks with
    | none => []
    | some next =>
      operatorReads m next ++
        if opCheck m next opEqual then
          numericReads m (next + opSize) ++
            if m (next + opSize) = tokNumeric then
              keywordReads m (next + opSize + numericSize) ++
                if kwCheck m (next + opSize + numericSize) keywordTo then
                  numericReads m (next + opSize + numericSize + kwSize)
                else []
            else []
        else []

/-- What the loop of `statement_size` reads at an address that it comes to. -/
def sizeReads (m : Ram) (toks : ℕ) : List ℕ :=
  if m toks = tokString ∨ m toks = tokVariable ∨ m toks = tokAlloc ∨ m toks = tokRemark then
    [toks, toks + 1]
  else [toks]

section

variable [Target]

/-- A `PRINT` whose items begin at an address comes to an item. -/
inductive PrintTurns : State → ℕ → State → ℕ → Prop
  | here {s : State} {toks : ℕ} : PrintTurns s toks s toks
  | next {s s₁ s' : State} {toks stop toks' : ℕ} (hitem : printItem s toks = .ok (.ok stop, s₁))
    (hsep : s₁.ram stop = tokSeparator) (h : PrintTurns s₁ (stop + sepSize) s' toks') :
    PrintTurns s toks s' toks'

/-- The statement at an address makes an evaluation. An expression that fails is evaluated again by
an `IF`, and the variable of an assignment that has not been defined is looked up again. -/
inductive Enters (s : State) (a : ℕ) : State → Call → Prop
  | item {s' : State} {toks : ℕ} (hk : KeywordAt s a keywordPrint)
    (h : PrintTurns s (a + kwSize) s' toks) (hstring : s'.ram toks ≠ tokString) :
    Enters s a s' (.evalNumeric s'.r toks)
  | left (hif : IsIf s a) : Enters s a s (.evalNumeric s.r (a + kwSize))
  | leftAgain {s' : State} {e : Error} (hif : IsIf s a)
    (h : eval s (a + kwSize) = .ok (.error e, s')) :
    Enters s a s' (.evalNumeric s'.r (a + kwSize))
  | right {s' : State} {left : ℤ} {stop : ℕ} (hif : IsIf s a)
    (h : ifEval s (a + kwSize) = .ok (.ok (left, stop), s'))
    (hcmp : tOperatorIsComparison s'.ram stop = true) :
    Enters s a s' (.evalNumeric s'.r (stop + opSize))
  | rightAgain {s₁ s' : State} {left : ℤ} {stop : ℕ} {e : Error} (hif : IsIf s a)
    (h : ifEval s (a + kwSize) = .ok (.ok (left, stop), s₁))
    (hcmp : tOperatorIsComparison s₁.ram stop = true)
    (hagain : eval s₁ (stop + opSize) = .ok (.error e, s')) :
    Enters s a s' (.evalNumeric s'.r (stop + opSize))
  | assigned (ha : AssignAt s a) : Enters s a s (.tVariableGetPtr s.r a)
  | assignedAgain {s₁ s' : State} (ha : AssignAt s a)
    (h : getPtr s a = .ok (.error .undefinedVar, s₁))
    (hset : programSetNumeric s₁ a 0 = .ok (.noerror, s')) : Enters s a s' (.tVariableGetPtr s'.r a)
  | value {s' : State} {ref : Ref} {next : ℕ} (ha : AssignAt s a)
    (h : assignPtr s a = .ok (.ok (ref, next), s')) (heq : opCheck s'.ram next opEqual = true) :
    Enters s a s' (.evalNumeric s'.r (next + opSize))

/-- In an evaluation of the statement at an address there is an activation. -/
def ComesTo (s : State) (a : ℕ) (s' : State) (d : Call) : Prop :=
  ∃ c, Enters s a s' c ∧ Relation.ReflTransGen (Calls (body s')) c d

/-- The interpretation of the statement at an address reads a byte of it. What the sub-statement of
an `IF` reads is not counted here. -/
inductive StatementReads (s : State) (a : ℕ) : ℕ → Prop
  | kind : StatementReads s a a
  | keyword (h : s.ram a = tokKeyword) : StatementReads s a (a + 1)
  | lineno {p : ℕ} (h : s.ram a = tokNumeric) (hp : p ∈ numericReads s.ram a) : StatementReads s a p
  | size {p i : ℕ} (h : s.ram a = tokNumeric)
    (hbefore : ∀ j < i, s.ram ((sizeNext s.ram)^[j] (a + numericSize)) ≠ tokTerminator)
    (hp : p ∈ sizeReads s.ram ((sizeNext s.ram)^[i] (a + numericSize))) : StatementReads s a p
  | copied {i size : ℕ} (h : s.ram a = tokNumeric)
    (hsize : statementSize s.ram (a + numericSize) = some size) (hi : i < size) :
    StatementReads s a (a + numericSize + i)
  | string {s' : State} {toks p : ℕ} (hk : KeywordAt s a keywordPrint)
    (h : PrintTurns s (a + kwSize) s' toks) (hstring : s'.ram toks = tokString)
    (hp : p ∈ sizedReads s'.ram toks) : StatementReads s a p
  | item {s' : State} {toks : ℕ} (hk : KeywordAt s a keywordPrint)
    (h : PrintTurns s (a + kwSize) s' toks) : StatementReads s a toks
  | behindItem {s₁ s' : State} {toks stop : ℕ} (hk : KeywordAt s a keywordPrint)
    (h : PrintTurns s (a + kwSize) s₁ toks) (hitem : printItem s₁ toks = .ok (.ok stop, s')) :
    StatementReads s a stop
  | jump {kw : UInt8} {p : ℕ} (hk : KeywordAt s a kw)
    (hkw : kw ∈ [keywordGoto, keywordJumpto, keywordGosub, keywordJumpsub])
    (hp : p ∈ numericReads s.ram (a + kwSize)) : StatementReads s a p
  | loop {p : ℕ} (hk : KeywordAt s a keywordFor) (hp : p ∈ forReads s.ram (a + kwSize)) :
    StatementReads s a p
  | loopEnd {p : ℕ} (hk : KeywordAt s a keywordNext) (hp : p ∈ variableReads s.ram (a + kwSize)) :
    StatementReads s a p
  | dim {p : ℕ} (hk : KeywordAt s a keywordDim) (hp : p ∈ dimReads s.ram (a + kwSize)) :
    StatementReads s a p
  | comparison {s' : State} {left : ℤ} {stop p : ℕ} (hif : IsIf s a)
    (h : ifEval s (a + kwSize) = .ok (.ok (left, stop), s')) (hp : p ∈ operatorReads s'.ram stop) :
    StatementReads s a p
  | thenKeyword {s₁ s' : State} {left right : ℤ} {stop stop' p : ℕ} (hif : IsIf s a)
    (h : ifEval s (a + kwSize) = .ok (.ok (left, stop), s₁))
    (hcmp : tOperatorIsComparison s₁.ram stop = true)
    (hright : ifEval s₁ (stop + opSize) = .ok (.ok (right, stop'), s'))
    (hp : p ∈ keywordReads s'.ram stop') : StatementReads s a p
  | assigned {p : ℕ} (ha : AssignAt s a) (hp : p ∈ variableReads s.ram a) : StatementReads s a p
  | equal {s' : State} {ref : Ref} {next p : ℕ} (ha : AssignAt s a)
    (h : assignPtr s a = .ok (.ok (ref, next), s')) (hp : p ∈ operatorReads s'.ram next) :
    StatementReads s a p
  | evaluation {s' : State} {d : Call} {p : ℕ} (h : ComesTo s a s' d) (hp : p ∈ d.reads s'.ram) :
    StatementReads s a p

/-! ## What is claimed -/

/-- The interpretation of the statement at `a` and of its sub-statements reads no byte behind the
address `e`. An array access, a call of `RND` or a `DIM` in which a token is missing is answered
with a syntax error. -/
structure StaysWithin (s : State) (a e : ℕ) : Prop where
  reads : ∀ s' a' p, Executes nestingMax s a s' a' → StatementReads s' a' p → p ≤ e
  call : ∀ s' a' s'' d, Executes nestingMax s a s' a' → ComesTo s' a' s'' d →
    d.Malformed s''.ram → ∃ r, Returns (body s'') d (.error .syntaxError, r)
  dim : ∀ s' a', Executes nestingMax s a s' a' → KeywordAt s' a' keywordDim →
    ¬ CompleteDim s'.ram (a' + kwSize) →
      ∃ s'', statementInterpret 1 s' a' = .ok (.done .syntaxError, s'')

/-- The interpretation of the statement at `a` and of its sub-statements comes to no array access
and no call of `RND` with an operand or a parenthesis missing, and to no `DIM` with something
missing behind its variable. -/
structure NothingMissing (s : State) (a : ℕ) : Prop where
  call : ∀ s' a' s'' d, Executes nestingMax s a s' a' → ComesTo s' a' s'' d → ¬ d.Malformed s''.ram
  dim : ∀ s' a', Executes nestingMax s a s' a' → KeywordAt s' a' keywordDim →
    varToken s'.ram (a' + kwSize) ≠ none → CompleteDim s'.ram (a' + kwSize)

end

end Z80OS.Basic
