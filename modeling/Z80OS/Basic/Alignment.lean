import Z80OS.Basic.TokenReads

set_option relaxedAutoImplicit false
set_option autoImplicit false

/-!
# Evaluations at the starts of tokens

As long as the pointer into a statement stands at the start of a token or at the terminator, nothing
behind the terminator is read. The evaluation of an expression keeps it there when every index and
every argument that it comes to is complete: then what is passed without a look is the parenthesis
that closes it.

## Main definitions

* `Z80OS.Basic.Aligned` — a token begins at an address, or the terminator is there.
* `Z80OS.Basic.Clean` — an evaluation comes to no index and no argument that is not complete.

## Main results

* `Z80OS.Basic.Clean.endsAligned` — a clean evaluation ends at the start of a token.
* `Z80OS.Basic.Clean.aligned` — all its activations begin at the starts of tokens.
* `Z80OS.Basic.Call.reads_le` — such an activation reads nothing behind the terminator.
-/

namespace Z80OS.Basic

open CallTree

/-! ## The starts of tokens -/

/-- At the address `p` begins a token of a statement whose terminator is at the address `e`, or the
terminator is there. -/
def Aligned (m : Ram) (e p : ℕ) : Prop :=
  ∃ ts, Stream ts ∧ m.Holds p (stored ts) ∧ p + (encode ts).length = e

section

variable {m : Ram} {e p next : ℕ}

namespace Aligned

/-- A place in front of the end of a statement is not behind it. -/
theorem le (h : Aligned m e p) : p ≤ e := by
  obtain ⟨ts, -, -, he⟩ := h
  omega

/-- Behind a token is the start of the next one. -/
theorem cases (h : Aligned m e p) : m p = tokTerminator ∧ p = e ∨
    ∃ t : Token, t.Valid ∧ m.Holds p t.bytes ∧ m p = t.kind ∧ Aligned m e (p + t.bytes.length) := by
  obtain ⟨ts, hs, hm, he⟩ := h
  cases ts with
  | nil =>
    rw [stored_nil, Ram.holds_cons] at hm
    exact .inl ⟨hm.1, he⟩
  | cons t ts =>
    rw [stored_cons, Ram.holds_append] at hm
    rw [encode_cons, List.length_append, ← Nat.add_assoc] at he
    exact .inr ⟨t, hs.1, hm.1, t.apply_of_holds hm.1, ts, hs.2.2, hm.2, he⟩

/-- The loop of `statement_size` goes from the start of a token to the start of the next one. -/
theorem behind (h : Aligned m e p) (hne : m p ≠ tokTerminator) : Aligned m e (sizeNext m p) := by
  rcases h.cases with ⟨hend, -⟩ | ⟨t, hv, hm, -, hnext⟩
  · exact absurd hend hne
  · rwa [sizeNext_token hv hm]

/-- The steps from token to token stay in front of the end. -/
theorem iterate (h : Aligned m e p) {i : ℕ}
    (hbefore : ∀ j < i, m ((sizeNext m)^[j] p) ≠ tokTerminator) :
    Aligned m e ((sizeNext m)^[i] p) := by
  induction i with
  | zero => exact h
  | succ i ih =>
    rw [Function.iterate_succ_apply']
    exact (ih fun j hj => hbefore j (Nat.lt_succ_of_lt hj)).behind (hbefore i (Nat.lt_succ_self i))

/-- Behind a number is a place for a token. -/
theorem numeric (h : Aligned m e p) (hk : m p = tokNumeric) : Aligned m e (p + numericSize) := by
  have hnext := h.behind (by rw [hk]; decide)
  rwa [sizeNext, if_pos hk] at hnext

/-- Behind a keyword is a place for a token. -/
theorem keyword (h : Aligned m e p) (hk : m p = tokKeyword) : Aligned m e (p + kwSize) := by
  have hnext := h.behind (by rw [hk]; decide)
  rwa [sizeNext, hk, if_neg (by decide), if_pos rfl] at hnext

/-- Behind an operator is a place for a token. -/
theorem operator (h : Aligned m e p) (hk : m p = tokOperator) : Aligned m e (p + opSize) := by
  have hnext := h.behind (by rw [hk]; decide)
  rwa [sizeNext, hk, if_neg (by decide), if_neg (by decide), if_pos rfl] at hnext

/-- Behind an operator that has been tested is a place for a token. -/
theorem opCheck {op : UInt8} (h : Aligned m e p) (hk : opCheck m p op = true) :
    Aligned m e (p + opSize) := by
  simp only [Basic.opCheck, Bool.and_eq_true, decide_eq_true_eq] at hk
  exact h.operator hk.1

/-- Behind a function is a place for a token, and there is only one function. -/
theorem func (h : Aligned m e p) (hk : m p = tokFunc) :
    Aligned m e (p + 2) ∧ m (p + 1) = funcRnd := by
  rcases h.cases with ⟨hend, -⟩ | ⟨t, hv, hm, hkind, hnext⟩
  · rw [hk] at hend
    exact absurd hend (by decide)
  · rw [hk] at hkind
    cases t with
    | func f =>
      rw [Token.bytes, Ram.holds_cons, Ram.holds_cons] at hm
      exact ⟨hnext, hm.2.1.trans hv⟩
    | _ => exact absurd hkind (by simp only [Token.kind]; decide)

/-- Behind a separator is a place for a token. -/
theorem separator (h : Aligned m e p) (hk : m p = tokSeparator) : Aligned m e (p + sepSize) := by
  have hnext := h.behind (by rw [hk]; decide)
  rwa [sizeNext, hk, if_neg (by decide), if_neg (by decide), if_neg (by decide), if_neg (by decide),
    if_neg (by decide), if_pos rfl] at hnext

/-- Behind a register is a place for a token. -/
theorem register (h : Aligned m e p) (hk : m p = tokRegister) : Aligned m e (p + registerSize) := by
  have hnext := h.behind (by rw [hk]; decide)
  rwa [sizeNext, hk, if_neg (by decide), if_neg (by decide), if_neg (by decide), if_neg (by decide),
    if_pos rfl] at hnext

/-- Behind a string or a name is a place for a token. -/
theorem skip (h : Aligned m e p) (hk : m p = tokString ∨ m p = tokVariable) :
    Aligned m e (tVarlenSkip m p) := by
  have hnext := h.behind (by rcases hk with hk | hk <;> rw [hk] <;> decide)
  rcases hk with hk | hk
  all_goals
    rwa [sizeNext, hk, if_neg (by decide), if_neg (by decide), if_neg (by decide),
      if_neg (by decide), if_neg (by decide), if_neg (by decide), if_pos (by decide)] at hnext

/-- Behind a variable is a place for a token. -/
theorem varToken (h : Aligned m e p) (hv : Basic.varToken m p = some next) : Aligned m e next := by
  unfold Basic.varToken at hv
  split_ifs at hv with hk hk
  · exact Option.some.inj hv ▸ h.skip (.inr hk)
  · exact Option.some.inj hv ▸ h.register hk

/-! ### What is read of a token -/

/-- The text of a string or the name of a variable, with its terminator, ends in front of the next
token. -/
theorem string_lt (h : Aligned m e p) (hk : m p = tokString ∨ m p = tokVariable) :
    p + 2 + (m.string (p + 2)).length < e := by
  have sized : ∀ {kind : UInt8} {text : List UInt8}, m.Holds p (kind :: sized text) → 0 ∉ text →
      text.length < 255 → Aligned m e (p + (kind :: sized text).length) →
      p + 2 + (m.string (p + 2)).length < e := by
    intro kind text hm h0 hlen hnext
    have hle := hnext.le
    simp only [Basic.sized, Ram.holds_cons, List.cons_append] at hm
    rw [hm.2.2.string h0 (by unfold ramSize; omega)]
    simp only [Basic.sized, List.length_cons, List.cons_append, List.length_append,
      List.length_nil] at hle
    omega
  rcases h.cases with ⟨hend, -⟩ | ⟨t, hv, hm, hkind, hnext⟩
  · rcases hk with hk | hk <;> rw [hk] at hend <;> exact absurd hend (by decide)
  · cases t with
    | string text => exact sized hm hv.2.1 hv.1 hnext
    | var name =>
      have hfour : name.length ≤ 4 := hv.le_four
      exact sized hm (fun h0 => ne_zero_of_isLetter (hv.letters 0 h0) rfl) (by omega) hnext
    | _ => rcases hk with hk | hk <;> rw [hk] at hkind <;>
        exact absurd hkind (by simp only [Token.kind]; decide)

/-- An operator is read up to the end at most. -/
theorem operatorReads (h : Aligned m e p) : ∀ q ∈ operatorReads m p, q ≤ e := by
  intro q hq
  unfold Basic.operatorReads at hq
  split_ifs at hq with hk
  · have hnext := (h.operator hk).le
    have hle := h.le
    simp only [List.mem_cons, List.not_mem_nil, or_false, opSize] at hq hnext
    omega
  · rw [List.mem_singleton] at hq
    exact hq ▸ h.le

/-- A keyword is read up to the end at most. -/
theorem keywordReads (h : Aligned m e p) : ∀ q ∈ keywordReads m p, q ≤ e := by
  intro q hq
  unfold Basic.keywordReads at hq
  split_ifs at hq with hk
  · have hnext := (h.keyword hk).le
    simp only [List.mem_cons, List.not_mem_nil, or_false, kwSize] at hq hnext
    omega
  · rw [List.mem_singleton] at hq
    exact hq ▸ h.le

/-- A number is read up to the end at most. -/
theorem numericReads (h : Aligned m e p) : ∀ q ∈ numericReads m p, q ≤ e := by
  intro q hq
  unfold Basic.numericReads at hq
  split_ifs at hq with hk
  · have hnext := (h.numeric hk).le
    simp only [List.mem_cons, List.not_mem_nil, or_false, numericSize] at hq hnext
    omega
  · rw [List.mem_singleton] at hq
    exact hq ▸ h.le

/-- A string or a name is read up to the end at most. -/
theorem sizedReads (h : Aligned m e p) (hk : m p = tokString ∨ m p = tokVariable) :
    ∀ q ∈ sizedReads m p, q ≤ e := by
  intro q hq
  have hlt := h.string_lt hk
  simp only [Basic.sizedReads, Basic.stringReads, List.mem_cons, List.mem_map, List.mem_range] at hq
  rcases hq with rfl | rfl | ⟨i, hi, rfl⟩ <;> omega

/-- A variable is read up to the end at most. -/
theorem variableReads (h : Aligned m e p) : ∀ q ∈ variableReads m p, q ≤ e := by
  intro q hq
  unfold Basic.variableReads at hq
  split_ifs at hq with hvar hreg
  · exact h.sizedReads (.inr hvar) q hq
  · have hnext := (h.register hreg).le
    simp only [List.mem_cons, List.not_mem_nil, or_false, registerSize] at hq hnext
    omega
  · rw [List.mem_singleton] at hq
    exact hq ▸ h.le

/-- The size of a token is read up to the end at most. -/
theorem sizeReads (h : Aligned m e p) : ∀ q ∈ sizeReads m p, q ≤ e := by
  intro q hq
  unfold Basic.sizeReads at hq
  split_ifs at hq with hk
  · have hnext := (h.behind (by rcases hk with hk | hk | hk | hk <;> rw [hk] <;> decide)).le
    have hskip : sizeNext m p = tVarlenSkip m p := by
      unfold sizeNext
      rcases hk with hk | hk | hk | hk <;> rw [hk] <;> rfl
    rw [hskip, tVarlenSkip] at hnext
    simp only [List.mem_cons, List.not_mem_nil, or_false] at hq
    omega
  · rw [List.mem_singleton] at hq
    exact hq ▸ h.le

end Aligned

end

/-! ## Indices and arguments -/

section

variable {m : Ram} {P Q : List Item → Prop} {e src stop next start : ℕ} {items : List Item}

/-- The end of an expression does not depend on what is asked of its indices and arguments.

**Proof sketch.** By induction on the first scan. At each token the second one reads the same token
(`Scan.numeric_inv`, `Scan.func_inv`, `Scan.variable_inv`, `Scan.operator_inv`), since the bytes
decide which it is and whether an index follows. -/
theorem Scan.stop_eq {items' : List Item} {stop' : ℕ} (h : Scan m P src items stop)
    (h' : Scan m Q src items' stop') : stop' = stop := by
  induction h generalizing items' stop' with
  | stop hend => exact (h'.at_end hend).2
  | numeric hmore htok _ ih =>
    obtain ⟨rest, -, hrest⟩ := h'.numeric_inv hmore htok
    exact ih hrest
  | random hmore htok hopen _ ih =>
    obtain ⟨next, rest, ⟨-, rfl⟩ | ⟨hopen', -⟩, -, hrest⟩ := h'.func_inv hmore htok
    · exact ih hrest
    · exact absurd (hopen.symm.trans hopen') (by simp)
  | randomOf hmore htok hopen _ _ _ iharg ih =>
    obtain ⟨next, rest, ⟨hopen', -⟩ | ⟨-, arg, mid, harg, -, rfl⟩, -, hrest⟩ :=
      h'.func_inv hmore htok
    · exact absurd (hopen'.symm.trans hopen) (by simp)
    · exact ih (iharg harg ▸ hrest)
  | scalar hmore htok hopen _ ih =>
    obtain ⟨next, behind, rest, hnext, hstop, -, hrest⟩ :=
      h'.variable_inv hmore (kind_of_varToken htok)
    obtain rfl := Option.some.inj (hnext.symm.trans htok)
    obtain ⟨-, rfl⟩ | ⟨hopen', -⟩ := hstop
    · exact ih hrest
    · exact absurd (hopen.symm.trans hopen') (by simp)
  | element hmore htok hopen _ _ _ ihindex ih =>
    obtain ⟨next, behind, rest, hnext, hstop, -, hrest⟩ :=
      h'.variable_inv hmore (kind_of_varToken htok)
    obtain rfl := Option.some.inj (hnext.symm.trans htok)
    obtain ⟨hopen', -⟩ | ⟨-, index, mid, hindex, -, rfl⟩ := hstop
    · exact absurd (hopen'.symm.trans hopen) (by simp)
    · exact ih (ihindex hindex ▸ hrest)
  | operator hmore htok _ ih =>
    obtain ⟨rest, -, hrest⟩ := h'.operator_inv hmore htok
    exact ih hrest

/-- The items of an expression without gaps are its items. -/
theorem Closed.scan (h : Closed m src items stop) : Scan m HasOperands src items stop := by
  induction h with
  | stop hend => exact .stop hend
  | numeric hend htok _ ih => exact .numeric hend htok ih
  | random hend htok hopen _ ih => exact .random hend htok hopen ih
  | randomOf hend htok hopen _ hoperands _ _ iharg ih =>
    exact .randomOf hend htok hopen iharg hoperands ih
  | scalar hend htok hopen _ ih => exact .scalar hend htok hopen ih
  | element hend htok hopen _ hoperands _ _ ihindex ih =>
    exact .element hend htok hopen ihindex hoperands ih
  | operator hend htok _ ih => exact .operator hend htok ih

/-- An expression without gaps ends at the start of a token. -/
theorem Closed.aligned (h : Closed m src items stop) (hsrc : Aligned m e src) :
    Aligned m e stop := by
  induction h with
  | stop => exact hsrc
  | numeric _ htok _ ih => exact ih (hsrc.numeric htok)
  | random _ htok _ _ ih => exact ih (hsrc.func htok).1
  | randomOf _ htok _ _ _ hclose _ iharg ih =>
    exact ih ((iharg (hsrc.func htok).1).opCheck hclose)
  | scalar _ htok _ _ ih => exact ih (hsrc.varToken htok)
  | element _ htok hopen _ _ hclose _ ihindex ih =>
    exact ih ((ihindex ((hsrc.varToken htok).opCheck hopen)).opCheck hclose)
  | operator _ htok _ ih => exact ih (hsrc.operator htok)

/-- What is passed behind a complete index is the parenthesis that closes it. -/
theorem Complete.aligned (h : Complete m src) (hsrc : Aligned m e src)
    (hscan : Scan m P src items stop) : Aligned m e (stop + opSize) := by
  obtain ⟨items', mid, hclosed, -, hclose⟩ := h
  rw [hclosed.scan.stop_eq hscan]
  exact (hclosed.aligned hsrc).opCheck hclose

/-- A call of a function ends at the start of a token when its argument is complete. -/
theorem OperandEnd.func_aligned {toks r : ℕ} (h : OperandEnd m P (toks + 2) (toks + 2) stop)
    (htoks : Aligned m e toks) (hk : m toks = tokFunc)
    (hwell : ¬ (Call.tFuncCall r toks).Malformed m) : Aligned m e stop := by
  obtain ⟨hnext, hrnd⟩ := htoks.func hk
  obtain ⟨-, rfl⟩ | ⟨hopen, arg, mid, harg, -, rfl⟩ := h
  · exact hnext
  · have hcomplete : Complete m (toks + 2) := by_contra fun hnot => hwell ⟨hk, hrnd, hopen, hnot⟩
    exact hcomplete.aligned hnext harg

/-- A variable ends at the start of a token when its index is complete. -/
theorem OperandEnd.variable_aligned {toks r : ℕ} (h : OperandEnd m P next (next + opSize) stop)
    (htoks : Aligned m e toks) (hvar : varToken m toks = some next)
    (hwell : ¬ (Call.tVariableGetPtr r toks).Malformed m) : Aligned m e stop := by
  have hnext := htoks.varToken hvar
  obtain ⟨-, rfl⟩ | ⟨hopen, index, mid, hindex, -, rfl⟩ := h
  · exact hnext
  · have hcomplete : Complete m (next + opSize) :=
      by_contra fun hnot => hwell ⟨next, hvar, hopen, hnot⟩
    exact hcomplete.aligned (hnext.opCheck hopen) hindex

end

/-! ## Evaluations -/

/-- The token at which an activation begins. -/
def Call.place : Call → ℕ
  | .evalNumeric _ src => src
  | .evalShuntingYard _ src _ _ => src
  | .tFuncCall _ toks => toks
  | .tVariableGetPtr _ toks => toks

/-- In an evaluation there is no array access whose index is not complete, and no call of `RND`
whose argument is not complete. -/
def Clean (s : State) (c : Call) : Prop :=
  ∀ d, Relation.ReflTransGen (Calls (body s)) c d → ¬ d.Malformed s.ram

/-- A value has the start of a token behind it. -/
def EndsAligned (m : Ram) (e : ℕ) (c : Call) (a : c.Answer) : Prop :=
  ∀ x stop r, a = (.ok (x, stop), r) → Aligned m e stop

section

variable {s : State} {e : ℕ} {c d : Call}

/-- The calls of a call that is clean are clean. -/
theorem Clean.of_calls (h : Clean s c) (hd : Calls (body s) c d) : Clean s d :=
  fun d' hd' => h d' (.head hd hd')

/-- An answer of a function is what the function gives. -/
theorem exists_answer {a : c.Answer} (h : Returns (body s) c a) : ∃ k, answer k s c = some a := by
  obtain ⟨k, hk⟩ := h
  exact ⟨k, run_body k c ▸ hk⟩

/-- A call of a function that has a value ends at the start of a token. -/
theorem func_endsAligned {r toks : ℕ} {a : Call.Answer (.tFuncCall r toks)}
    (h : Returns (body s) (.tFuncCall r toks) a)
    (hk : s.ram toks = tokFunc) (htoks : Aligned s.ram e toks)
    (hwell : ¬ (Call.tFuncCall r toks).Malformed s.ram) :
    EndsAligned s.ram e (.tFuncCall r toks) a := by
  rintro x stop r' rfl
  obtain ⟨k, hval⟩ := exists_answer h
  exact ((evaluations_shaped k s).2.2.1 r toks x stop r' hval).func_aligned htoks hk hwell

/-- A variable that is found ends at the start of a token. -/
theorem variable_endsAligned {r toks : ℕ} {a : Call.Answer (.tVariableGetPtr r toks)}
    (h : Returns (body s) (.tVariableGetPtr r toks) a) (htoks : Aligned s.ram e toks)
    (hwell : ¬ (Call.tVariableGetPtr r toks).Malformed s.ram) :
    EndsAligned s.ram e (.tVariableGetPtr r toks) a := by
  rintro x stop r' rfl
  obtain ⟨k, hval⟩ := exists_answer h
  obtain ⟨next, hnext, hend⟩ := (evaluations_shaped k s).2.2.2 r toks x stop r' hval
  exact hend.variable_aligned htoks hnext hwell

/-- A clean activation that begins at the start of a token ends at one.

**Proof sketch.** Every branch passes tokens that it has looked at. Behind a function or a variable
the evaluation goes on where that has ended, and this is behind a parenthesis that has been
closed. -/
theorem Clean.endsAligned {a : c.Answer} (h : Returns (body s) c a) :
    Clean s c → Aligned s.ram e c.place → EndsAligned s.ram e c a := by
  refine h.induct_calls
    (P := fun c a => Clean s c → Aligned s.ram e c.place → EndsAligned s.ram e c a) ?_
  intro c q hret hq hclean hplace
  have hwell := hclean c .refl
  cases c with
  | evalNumeric r src =>
    rintro x stop r' rfl
    rcases yields_evalNumeric hq with ⟨hnum, rfl⟩ | ⟨hreg, rfl⟩ | ⟨p, r₁, ⟨hcall, -, hends⟩, rfl⟩
    · exact hplace.numeric hnum
    · exact hplace.register hreg
    · exact hends (hclean.of_calls hcall) hplace _ _ _ rfl
  | evalShuntingYard r src output opstack =>
    rintro x stop r' rfl
    cases yields_evalShuntingYard hq with
    | stop heq => exact heq ▸ hplace
    | numeric htok hrest =>
      obtain ⟨hcall, -, hends⟩ := hrest
      exact hends (hclean.of_calls hcall) (hplace.numeric htok) _ _ _ rfl
    | func htok hval hrest =>
      obtain ⟨hcall, hret', -⟩ := hval
      have hmid := func_endsAligned hret' htok hplace (hclean.of_calls hcall _ .refl) _ _ _ rfl
      obtain ⟨hcall', -, hends⟩ := hrest
      exact hends (hclean.of_calls hcall') hmid _ _ _ rfl
    | lookup _ hval hrest =>
      obtain ⟨hcall, hret', -⟩ := hval
      have hmid := variable_endsAligned hret' hplace (hclean.of_calls hcall _ .refl) _ _ _ rfl
      obtain ⟨hcall', -, hends⟩ := hrest
      exact hends (hclean.of_calls hcall') hmid _ _ _ rfl
    | operator htok hrest =>
      obtain ⟨hcall, -, hends⟩ := hrest
      exact hends (hclean.of_calls hcall) (hplace.operator htok) _ _ _ rfl
    | stray hrest =>
      obtain ⟨hcall, -, hends⟩ := hrest
      exact hends (hclean.of_calls hcall) hplace _ _ _ rfl
  | tFuncCall r toks =>
    rintro x stop r' rfl
    exact func_endsAligned hret (yields_tFuncCall hq).1 hplace hwell _ _ _ rfl
  | tVariableGetPtr r toks => exact variable_endsAligned hret hplace hwell

/-- **What a clean activation calls begins at the start of a token.** -/
theorem Clean.aligned_of_calls (hclean : Clean s c) (hplace : Aligned s.ram e c.place)
    (h : Calls (body s) c d) : Aligned s.ram e d.place := by
  cases c with
  | evalNumeric r src =>
    obtain ⟨r', rfl⟩ := calls_evalNumeric h
    exact hplace
  | evalShuntingYard r src output opstack =>
    cases turnCalls_of_calls h with
    | numeric htok => exact hplace.numeric htok
    | func => exact hplace
    | behindFunc _ hcall hval => exact (hclean.of_calls hcall).endsAligned hval hplace _ _ _ rfl
    | lookup => exact hplace
    | behindLookup _ hcall hval => exact (hclean.of_calls hcall).endsAligned hval hplace _ _ _ rfl
    | operator htok => exact hplace.operator htok
    | stray => exact hplace
  | tFuncCall r toks =>
    obtain ⟨htok, -, r', rfl⟩ := calls_tFuncCall h
    exact (hplace.func htok).1
  | tVariableGetPtr r toks =>
    obtain ⟨next, r', hvar, hopen, rfl⟩ := calls_tVariableGetPtr h
    exact (hplace.varToken hvar).opCheck hopen

/-- **All activations in a clean evaluation begin at the start of a token.** -/
theorem Clean.aligned (hclean : Clean s c) (hplace : Aligned s.ram e c.place)
    (h : Relation.ReflTransGen (Calls (body s)) c d) : Aligned s.ram e d.place := by
  induction h with
  | refl => exact hplace
  | tail hcourse hcall ih =>
    exact Clean.aligned_of_calls (fun d' hd' => hclean d' (hcourse.trans hd')) ih hcall

end

/-- An activation that begins at the start of a token reads nothing behind the terminator.

**Proof sketch.** By cases on the activation and the kind of token at its place. What it reads lies
within that token or is the operator behind it, and both end at the terminator at the latest
(`Aligned.operatorReads`, `Aligned.numericReads`, `Aligned.variableReads`). -/
theorem Call.reads_le {m : Ram} {e : ℕ} {c : Call} (h : Aligned m e c.place) :
    ∀ q ∈ c.reads m, q ≤ e := by
  intro q hq
  have hsrc : ∀ q ∈ [c.place], q ≤ e := fun q hq => List.mem_singleton.1 hq ▸ h.le
  cases c with
  | evalNumeric r src =>
    simp only [Call.reads] at hq
    split_ifs at hq with hnum hend hreg hend
    · rcases List.mem_append.1 hq with hq | hq
      · exact (h.numeric hnum).operatorReads q hq
      · exact h.numericReads q hq
    · rcases List.mem_append.1 hq with hq | hq
      · exact (h.numeric hnum).operatorReads q hq
      · exact hsrc q hq
    · rcases List.mem_append.1 hq with hq | hq
      · exact (h.register hreg).operatorReads q hq
      · exact h.variableReads q hq
    · rcases List.mem_append.1 hq with hq | hq
      · exact (h.register hreg).operatorReads q hq
      · exact hsrc q hq
    · exact hsrc q hq
  | evalShuntingYard r src output opstack =>
    rcases List.mem_append.1 hq with hq | hq
    · exact h.operatorReads q hq
    · exact h.numericReads q hq
  | tFuncCall r toks =>
    simp only [Call.reads] at hq
    split_ifs at hq with hfunc hrnd
    · obtain ⟨hnext, -⟩ := h.func hfunc
      have hle : toks + 2 ≤ e := hnext.le
      rcases List.mem_cons.1 hq with rfl | hq
      · omega
      rcases List.mem_cons.1 hq with rfl | hq
      · omega
      · exact hnext.operatorReads q hq
    · have hle : toks + 2 ≤ e := (h.func hfunc).1.le
      simp only [List.mem_cons, List.not_mem_nil, or_false] at hq
      omega
    · exact hsrc q hq
  | tVariableGetPtr r toks =>
    rcases List.mem_append.1 hq with hq | hq
    · exact h.variableReads q hq
    · cases hvar : varToken m toks with
      | none => simp [hvar] at hq
      | some next =>
        rw [hvar] at hq
        exact (h.varToken hvar).operatorReads q hq

end Z80OS.Basic
