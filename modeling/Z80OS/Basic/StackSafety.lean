import Z80OS.Basic.Halting
import Z80OS.Basic.Shapes

set_option relaxedAutoImplicit false
set_option autoImplicit false

/-!
# Stacks that are too small

The code checks the number of entries of its stacks in front of a minus sign only. In front of `+`
and `*` it pops two numbers, a number or an operator is pushed without a check, and a token is
written to the buffer without one. The evaluation of a well-shaped expression stays inside of the
arrays. Other expressions have no value. When all of their operands have values, their evaluation
comes to an access outside of an array; an operand that fails can end the evaluation before.

## Main definitions

* `Z80OS.Basic.Valued` — the items of an expression, when its operands have values.

## Main results

* `Z80OS.Basic.stackSafe_iff_of_valued` — the expressions that are safe, when their operands have
  values.
* `Z80OS.Basic.evaluation_stackSafe` — the expressions that are safe.
-/

namespace Z80OS.Basic

open CallTree

/-- The items of the expression at an address, up to its end. The operands have values, within some
number of turns and whatever the state of the random number generator. -/
inductive Valued (s : State) : ℕ → List Item → ℕ → Prop
  | stop {src : ℕ} (hend : evalIsEndOfExpression s.ram src = true) : Valued s src [] src
  | numeric {src stop : ℕ} {items : List Item} (hmore : evalIsEndOfExpression s.ram src = false)
    (hkind : s.ram src = tokNumeric) (hrest : Valued s (src + numericSize) items stop) :
    Valued s src (.number :: items) stop
  | func {src next stop k : ℕ} {items : List Item}
    (hmore : evalIsEndOfExpression s.ram src = false) (hkind : s.ram src = tokFunc)
    (hval : ∀ r, ∃ v r', tFuncCall k s r src = some (.ok (v, next), r'))
    (hrest : Valued s next items stop) : Valued s src (.number :: items) stop
  | ptr {src next stop k : ℕ} {items : List Item}
    (hmore : evalIsEndOfExpression s.ram src = false)
    (hkind : s.ram src = tokVariable ∨ s.ram src = tokRegister)
    (hval : ∀ r, ∃ ref r', tVariableGetPtr k s r src = some (.ok (ref, next), r'))
    (hrest : Valued s next items stop) : Valued s src (.number :: items) stop
  | operator {src stop : ℕ} {items : List Item} (hmore : evalIsEndOfExpression s.ram src = false)
    (hkind : s.ram src = tokOperator) (hrest : Valued s (src + opSize) items stop) :
    Valued s src (.operator (s.ram (src + 1)) :: items) stop

/-- The loop of the algorithm comes to an access outside of an array, or puts out the reverse Polish
notation of the items inside of its arrays. -/
def Settled (opstack : List UInt8) (output : List RpnToken) (items : List Item)
    (c : Evaluation (List RpnToken × ℕ)) : Prop :=
  (∃ f, c = .error f ∧ f.IsAccess) ∨
    ∃ p w', c = .ok (.ok p, w') ∧ FewWait opstack items ∧ outputSize p.1 < statementSizeMax ∧
      p.1.map RpnToken.item = output.map RpnToken.item ++ postfixForm opstack items

section

variable {k : ℕ} {s : State} {items : List Item} {opstack : List UInt8} {output : List RpnToken}

/-- More turns give the same answers. -/
theorem answer_mono {c : Call} {k' : ℕ} {a : c.Answer} (hk : k ≤ k')
    (h : answer k s c = some a) : answer k' s c = some a := by
  rw [← run_body] at h ⊢
  exact run_mono hk h

/-- A value needs no handling of an error. -/
theorem errorHandle_of_ok {α : Type} {call : ℕ → Evaluated α} {r r' : ℕ} {a : α}
    (h : call r = some (.ok a, r')) : errorHandle call r = some (.ok a, r') := by
  rw [errorHandle, h]

/-- The items of an expression are read in the same way when its operands have values. -/
theorem Valued.scan {src stop : ℕ} (h : Valued s src items stop) :
    Scan s.ram GoodShape src items stop := by
  induction h with
  | stop hend => exact .stop hend
  | numeric hmore hkind _ ih => exact .numeric hmore hkind ih
  | @func src next stop k items hmore hkind hval _ ih =>
    obtain ⟨v, r', hcall⟩ := hval 0
    obtain ⟨hopen, rfl⟩ | ⟨hopen, arg, mid, harg, hgood, rfl⟩ :=
      (evaluations_shaped k s).2.2.1 _ _ _ _ _ hcall
    · exact .random hmore hkind hopen ih
    · exact .randomOf hmore hkind hopen harg hgood ih
  | @ptr src next stop k items hmore hkind hval _ ih =>
    obtain ⟨ref, r', hcall⟩ := hval 0
    obtain ⟨mid, hvar, ⟨hopen, rfl⟩ | ⟨hopen, index, mid', hindex, hgood, rfl⟩⟩ :=
      (evaluations_shaped k s).2.2.2 _ _ _ _ _ hcall
    · exact .scalar hmore hvar hopen ih
    · exact .element hmore hvar hopen hindex hgood ih
  | operator hmore hkind _ ih => exact .operator hmore hkind ih

/-- An operand is written to the output when there is room. -/
theorem settled_operand {frame : ℕ} {w : Workspace} (n : ℤ)
    (h : ∀ output, OutputFits output → Settled opstack output items
      (Workspace.evalShuntingYard k s frame opstack.length output w)) :
    Settled opstack output (.number :: items) ((emit output (.numeric n)).bind fun output =>
      Workspace.evalShuntingYard k s frame opstack.length output w) := by
  by_cases hfits : OutputFits (output ++ [.numeric n])
  · rw [Workspace.emit_eq hfits]
    simp only [Except.bind]
    have hnext := h (output ++ [RpnToken.numeric n]) hfits
    refine hnext.imp id ?_
    rintro ⟨p, w', hrun, hwait, hlt, hform⟩
    rw [List.map_append, List.append_assoc] at hform
    exact ⟨p, w', hrun, hwait, hlt, hform⟩
  · rw [Workspace.emit_full hfits]
    exact .inl ⟨.output, rfl, trivial⟩

/-- An operator is pushed when there is room for it, and for those in front of it in the output.

**Proof sketch.** Without room for the operators that are popped, or for the one that is pushed, the
loop faults (`Workspace.popOps_eq`, `Workspace.pushOp_full`). With room it goes on behind the
operator, from where the hypothesis applies. -/
theorem settled_operator {frame : ℕ} {w : Workspace} (op : UInt8) (hops : OpsAt w frame opstack)
    (hout : OutputFits output)
    (h : ∀ opstack output w', OpsAt w' frame opstack → w'.workingSrc = w.workingSrc + opSize →
      opstack.length ≤ opstackMax → OutputFits output →
      Settled opstack output items
        (Workspace.evalShuntingYard k s frame opstack.length output w')) :
    Settled opstack output (.operator op :: items)
      ((Workspace.popOps (fun o => precedence o > precedence op) opstack.length output w).bind
        fun q => (q.2.2.pushOp op).bind fun w =>
          Workspace.evalShuntingYard k s frame (q.1 + 1) q.2.1
            { w with workingSrc := w.workingSrc + opSize }) := by
  obtain ⟨hpop, hfull⟩ := Workspace.popOps_eq output hops
    fun o => precedence o > precedence op
  rw [Settled, FewWait, postfixForm]
  generalize opstack.takeWhile (fun o => decide (precedence o > precedence op)) = popped
    at hpop hfull ⊢
  generalize opstack.dropWhile (fun o => decide (precedence o > precedence op)) = kept at hpop ⊢
  by_cases hfits : OutputFits (output ++ popped.map .operator)
  · obtain ⟨w₁, hrun, hops₁, -, -, hsrc₁⟩ := hpop hfits
    rw [hrun]
    simp only [Except.bind]
    by_cases hroom : kept.length < opstackMax
    · obtain ⟨w₂, hpush, hops₂, -, -, hsrc₂⟩ := Workspace.pushOp_eq hops₁ hroom op
      rw [hpush]
      have hnext := h (op :: kept) (output ++ popped.map .operator)
        { w₂ with workingSrc := w₂.workingSrc + opSize } ⟨hops₂.ptr, hops₂.stacked⟩
        (by simp only [hsrc₂, hsrc₁]) hroom hfits
      refine hnext.imp id ?_
      rintro ⟨p, w', hrun', hwait, hlt, hform⟩
      rw [List.map_append, map_item_operators, List.append_assoc] at hform
      exact ⟨p, w', hrun', ⟨hroom, hwait⟩, hlt, hform⟩
    · rw [Workspace.pushOp_full hops₁ hroom]
      exact .inl ⟨.opstackFull, rfl, trivial⟩
  · rw [hfull hout hfits]
    exact .inl ⟨.output, rfl, trivial⟩

/-- At the end the operators that are left are written to the output when there is room, and a
terminator behind them. -/
theorem settled_end {frame : ℕ} {w : Workspace} (hops : OpsAt w frame opstack)
    (hout : OutputFits output) :
    Settled opstack output []
      ((Workspace.popOps (fun _ => true) opstack.length output w).bind fun q =>
        if outputSize q.2.1 < statementSizeMax then .ok (.ok (q.2.1, q.2.2.workingSrc), q.2.2)
        else .error .output) := by
  obtain ⟨hpop, hfull⟩ := Workspace.popOps_eq output hops fun _ => true
  have htake : opstack.takeWhile (fun _ => true) = opstack :=
    List.takeWhile_eq_self_iff.2 fun _ _ => rfl
  rw [htake] at hpop hfull
  by_cases hfits : OutputFits (output ++ opstack.map .operator)
  · obtain ⟨w', hrun, -⟩ := hpop hfits
    rw [hrun]
    simp only [Except.bind]
    by_cases hlt : outputSize (output ++ opstack.map .operator) < statementSizeMax
    · rw [if_pos hlt]
      exact .inr ⟨_, _, rfl, trivial, hlt, by rw [List.map_append, map_item_operators, postfixForm]⟩
    · rw [if_neg hlt]
      exact .inl ⟨.output, rfl, trivial⟩
  · rw [hfull hout hfits]
    exact .inl ⟨.output, rfl, trivial⟩

/-- Behind the call for an operand the loop goes on with the pointers that have been saved. -/
theorem settled_restored {k frame next : ℕ} {w w' : Workspace} (n : ℤ)
    (hops : OpsAt w frame opstack) (hsame : SameBelow (frame + 1) w w')
    (hheld : opstack.length ≤ opstackMax)
    (h : ∀ frame opstack output w, OpsAt w frame opstack → w.workingSrc = next →
      opstack.length ≤ opstackMax → OutputFits output →
      Settled opstack output items
        (Workspace.evalShuntingYard k s frame opstack.length output w)) :
    Settled opstack output (.number :: items)
      ((emit output (.numeric n)).bind fun output =>
        Workspace.evalShuntingYard k s frame opstack.length output
          { w' with workingOpstackPtr := w.workingOpstackPtr, workingSrc := next }) :=
  settled_operand n fun _ hout => h _ _ _ _ (hops.restored hsame next) rfl hheld hout

/-- The loop over an expression whose operands have values.

**Proof sketch.** Induction on the operands and operators. An operand has a value, so that its
evaluation ends with one and with the pointers that are restored, in a workspace as well
(`Simulates.complete`, `settled_restored`). A number is put out (`settled_operand`), an operator is
held or put out (`settled_operator`), and both may end at an array that is full. -/
theorem Valued.settled {src stop : ℕ} (h : Valued s src items stop) :
    ∃ k₀, ∀ k ≥ k₀, ∀ frame opstack output w, OpsAt w frame opstack → w.workingSrc = src →
      opstack.length ≤ opstackMax → OutputFits output →
      Settled opstack output items
        (Workspace.evalShuntingYard k s frame opstack.length output w) := by
  induction h with
  | stop hend =>
    refine ⟨1, fun k hk frame opstack output w hops hsrc hheld hout => ?_⟩
    obtain ⟨k, rfl⟩ := Nat.exists_eq_add_of_le' hk
    rw [Workspace.evalShuntingYard, hsrc, if_pos hend]
    exact settled_end hops hout
  | @numeric src stop items hmore hkind _ ih =>
    obtain ⟨k₀, ih⟩ := ih
    refine ⟨k₀ + 1, fun k hk frame opstack output w hops hsrc hheld hout => ?_⟩
    obtain ⟨k, rfl⟩ := Nat.exists_eq_add_of_le' (Nat.le_of_add_left_le hk)
    rw [Workspace.evalShuntingYard, hsrc, if_neg (Bool.eq_false_iff.1 hmore), if_pos hkind]
    exact settled_operand (w := { w with workingSrc := src + numericSize }) _ fun output hout =>
      ih k (by omega) _ _ _ _ ⟨hops.ptr, hops.stacked⟩ rfl hheld hout
  | @func src next stop k₁ items hmore hkind hval _ ih =>
    obtain ⟨k₀, ih⟩ := ih
    refine ⟨max k₀ k₁ + 1, fun k hk frame opstack output w hops hsrc hheld hout => ?_⟩
    obtain ⟨k, rfl⟩ := Nat.exists_eq_add_of_le' (Nat.le_of_add_left_le hk)
    have hnum : s.ram src ≠ tokNumeric := by
      rw [hkind]
      decide
    rw [Workspace.evalShuntingYard, hsrc, if_neg (Bool.eq_false_iff.1 hmore), if_neg hnum,
      if_pos hkind]
    obtain ⟨v, r', hcall⟩ := hval w.r
    have hanswer := answer_mono (c := .tFuncCall w.r src) (show k₁ ≤ k by omega) hcall
    have hsim := Simulates.errorHandle _ (fun r => tFuncCall k s r src)
      (fun w' => (evaluations_agree k s).2.2.1 (frame + 1) src w') w
    obtain ⟨w', hrun⟩ := hsim.complete _ _ (errorHandle_of_ok hanswer)
    obtain ⟨-, hsame⟩ := hsim.sound _ _ hrun
    rw [hrun]
    exact settled_restored (w := w) _ hops hsame hheld (ih k (by omega))
  | @ptr src next stop k₁ items hmore hkind hval _ ih =>
    obtain ⟨k₀, ih⟩ := ih
    refine ⟨max k₀ k₁ + 1, fun k hk frame opstack output w hops hsrc hheld hout => ?_⟩
    obtain ⟨k, rfl⟩ := Nat.exists_eq_add_of_le' (Nat.le_of_add_left_le hk)
    have hnum : s.ram src ≠ tokNumeric := by
      rcases hkind with hkind | hkind <;>
        · rw [hkind]
          decide
    have hfunc : s.ram src ≠ tokFunc := by
      rcases hkind with hkind | hkind <;>
        · rw [hkind]
          decide
    rw [Workspace.evalShuntingYard, hsrc, if_neg (Bool.eq_false_iff.1 hmore), if_neg hnum,
      if_neg hfunc, if_pos (by simpa using hkind)]
    obtain ⟨ref, r', hcall⟩ := hval w.r
    have hanswer := answer_mono (c := .tVariableGetPtr w.r src) (show k₁ ≤ k by omega) hcall
    have hsim := Simulates.errorHandle _ (fun r => tVariableGetPtr k s r src)
      (fun w' => (evaluations_agree k s).2.2.2 (frame + 1) src w') w
    obtain ⟨w', hrun⟩ := hsim.complete _ _ (errorHandle_of_ok hanswer)
    obtain ⟨-, hsame⟩ := hsim.sound _ _ hrun
    rw [hrun]
    exact settled_restored (w := w) _ hops hsame hheld (ih k (by omega))
  | @operator src stop items hmore hkind _ ih =>
    obtain ⟨k₀, ih⟩ := ih
    refine ⟨k₀ + 1, fun k hk frame opstack output w hops hsrc hheld hout => ?_⟩
    obtain ⟨k, rfl⟩ := Nat.exists_eq_add_of_le' (Nat.le_of_add_left_le hk)
    have hnum : s.ram src ≠ tokNumeric := by
      rw [hkind]
      decide
    have hfunc : s.ram src ≠ tokFunc := by
      rw [hkind]
      decide
    have hvar : ¬ (s.ram src = tokVariable || s.ram src = tokRegister) = true := by
      rw [hkind]
      decide
    rw [Workspace.evalShuntingYard, hsrc, if_neg (Bool.eq_false_iff.1 hmore), if_neg hnum,
      if_neg hfunc, if_neg hvar, if_pos hkind, ← hsrc]
    refine settled_operator _ hops hout fun opstack output w' hops' hsrc' hheld' hout' => ?_
    exact ih k (by omega) _ _ _ _ hops' (hsrc' ▸ hsrc ▸ rfl) hheld' hout'

/-- **Expressions whose operands have values** are safe exactly when they have a good shape.

**Proof sketch.** A single number or register has a good shape. Otherwise the run of the loop faults
on a stack or the output, which contradicts safety, or ends with the postfix form of the items
(`Valued.settled`); that its evaluation does not fault says that the form has the right height
(`evalRpn_isSome_iff`). The converse is `stackSafe_of_wellShaped`. -/
theorem stackSafe_iff_of_valued {src stop : ℕ} (h : Valued s src items stop) :
    StackSafe s src ↔ GoodShape items := by
  constructor
  · intro hsafe
    obtain ⟨k, hk⟩ := h.settled
    have w : Workspace := ⟨0, 0, (0, 0), fun _ _ => 0, fun _ => 0, 0⟩
    have hloop := hk k le_rfl 0 [] [] (w.enter 0 src) ⟨rfl, trivial⟩ rfl
      (Nat.zero_le _) (Nat.zero_le _)
    have hrun : ∀ f, Workspace.evalNumeric (k + 1) s 0 src w = .error f → ¬ f.IsAccess :=
      hsafe (k + 1) 0 w
    rw [Workspace.evalNumeric] at hrun
    split_ifs at hrun with hnum hreg
    · rw [Bool.and_eq_true, decide_eq_true_eq] at hnum
      rw [(h.scan.single_numeric hnum.1 hnum.2).1]
      exact goodShape_number
    · rw [Bool.and_eq_true, decide_eq_true_eq] at hreg
      rw [(h.scan.single_register hreg.1 hreg.2).1]
      exact goodShape_number
    · obtain ⟨f, hfault, haccess⟩ | ⟨p, w', hout, hwait, hlt, hform⟩ := hloop
      · refine absurd haccess (hrun f ?_)
        rw [List.length_nil] at hfault
        rw [Workspace.errorHandle, hfault]
        rfl
      · rw [List.length_nil] at hout
        rw [Workspace.errorHandle, hout] at hrun
        have hfits : itemsSize items < statementSizeMax := by
          rw [outputSize_eq, hform] at hlt
          simpa [itemsSize_postfixForm] using hlt
        refine ⟨hwait, hfits, ?_⟩
        cases hv : evalRpn p.1 [] with
        | some v =>
          have hheight := (evalRpn_isSome_iff p.1 []).1 ⟨v, hv⟩
          rw [hform] at hheight
          exact hheight
        | none =>
          obtain ⟨f, hf, hkind⟩ := (Workspace.evalRpn_spec p.1 w').2 hv
          refine absurd ?_ (hrun f ?_)
          · rcases hkind with rfl | rfl <;> exact trivial
          · rw [Evaluation.andThen, hf]
            rfl
  · intro hgood
    exact stackSafe_of_wellShaped ⟨items, stop, h.scan, hgood⟩

end

/-- **Stack safety of the evaluator.** For every state and every place in it:

* the evaluation of a well-shaped expression makes no access outside of an array, whatever the
  shared variables hold;
* an expression that is not well-shaped has no value;
* when the operands of an expression have values, its evaluation makes no access outside of an array
  if and only if the expression has a good shape.

**Proof sketch.** The parts are `stackSafe_of_wellShaped`, `wellShaped_of_evaluates` and
`stackSafe_iff_of_valued`. In the last one no operand fails in front of an access outside of an
array. -/
theorem evaluation_stackSafe (s : State) (src : ℕ) :
    (WellShaped s.ram src → StackSafe s src) ∧
    (¬ WellShaped s.ram src → ∀ k r v stop r',
      evalNumeric k s r src ≠ some (.ok (v, stop), r')) ∧
    ∀ items stop, Valued s src items stop → (StackSafe s src ↔ GoodShape items) :=
  ⟨stackSafe_of_wellShaped, fun hbad _ _ _ _ _ hval => hbad (wellShaped_of_evaluates hval),
    fun _ _ => stackSafe_iff_of_valued⟩

/-- The tokens of `RND + 2`. -/
def randomPlusTwo : List UInt8 :=
  [tokFunc, funcRnd, tokOperator, opPlus] ++ numericToken 2 ++ [tokTerminator]

/-- The evaluation of `RND+2`. -/
theorem evaluation_stackSafe_random : StackSafe (stateWith randomPlusTwo) 0 := by
  have hval : ∀ r, ∃ v r', tFuncCall 1 (stateWith randomPlusTwo) r 0 = some (.ok (v, 2), r') :=
    fun r => ⟨toNumeric (rand16 r), rand16 r, rfl⟩
  have hvalued : Valued (stateWith randomPlusTwo) 0 [.number, .operator opPlus, .number] 7 :=
    .func (by decide) (by decide) hval (.operator (by decide) (by decide)
      (.numeric (by decide) (by decide) (.stop (by decide))))
  refine ((evaluation_stackSafe _ _).2.2 _ _ hvalued).2 ⟨?_, by decide, 0, by decide⟩
  exact ⟨by decide, trivial⟩

/-- The tokens of `1 +`. -/
def missingOperand : List UInt8 := numericToken 1 ++ [tokOperator, opPlus, tokTerminator]

/-- The evaluations of all expressions that the tokenizer has made from a line of at most 255
characters are safe. -/
def AlwaysStackSafe : Prop :=
  ∀ input toks, input.length ≤ 255 → statementTokenize input = some (.noerror, toks) →
    ∀ (s : State) (src : ℕ), s.ram.slice src toks.length = toks → StackSafe s src

/-- In `1 +`, two numbers are popped, and there is one. -/
theorem not_alwaysStackSafe : ¬ AlwaysStackSafe := by
  intro hall
  have htok : statementTokenize (ascii ['1', ' ', '+']) = some (.noerror, missingOperand) := by
    decide +kernel
  have hsafe := hall _ _ (by decide) htok (stateWith missingOperand) 0 (by decide +kernel)
  have hvalued : Valued (stateWith missingOperand) 0 [.number, .operator opPlus] 5 :=
    .numeric (by decide) (by decide) (.operator (by decide) (by decide) (.stop (by decide)))
  obtain ⟨-, -, h, hh⟩ := (stackSafe_iff_of_valued hvalued).1 hsafe
  have hnone : endHeight 0 (postfixForm [] [.number, .operator opPlus]) = none := by decide
  rw [hnone] at hh
  exact absurd hh (by simp)

end Z80OS.Basic
