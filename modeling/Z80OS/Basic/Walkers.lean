import Z80OS.Lib.Walks
import Z80OS.Basic.Stream

set_option relaxedAutoImplicit false
set_option autoImplicit false

/-!
# The walkers over a statement

Three parts of the interpreter know where the tokens of a statement begin: the tokenizer, which
writes them one behind the other, `statement_size`, which skips them, and the printers of the
listing, each of which returns the address behind its token. The printer of a remark counts the size
of its text from the byte of the size on. So it returns the address of the NUL behind the text, and
the listing takes the NUL for the terminator.

## Main definitions

* `Z80OS.Basic.statementSizeVisits`, `Z80OS.Basic.programListStmtVisits` — the walks of the two
  loops.
* `Z80OS.Basic.WalkersAgree` — the three of them agree where the tokens of a statement begin.

## Main results

* `Z80OS.Basic.statementSize_eq_visits`, `Z80OS.Basic.programListStmt_eq_visits` — the loops are
  their walks.
* `Z80OS.Basic.statementSizeVisits_eq` — `statement_size` goes where the tokenizer has written.
* `Z80OS.Basic.walkersAgree_iff` — the three agree when there is no remark.
-/

namespace Z80OS.Basic

open Walks

/-! ## The loops as walks -/

/-- The loops end at a terminator. -/
def AtTerminator (m : Ram) (toks : ℕ) : Prop := m toks = tokTerminator

instance (m : Ram) : DecidablePred (AtTerminator m) :=
  fun toks => inferInstanceAs (Decidable (m toks = tokTerminator))

/-- The printers go on behind the token at an address. -/
def listNext (m : Ram) (toks : ℕ) : Option ℕ := (tDefsList m toks).map Prod.snd

/-- What is printed for the token at an address. -/
def listText (m : Ram) (toks : ℕ) : List UInt8 := ((tDefsList m toks).map Prod.fst).getD []

/-- The addresses that the loop of `statement_size` comes to: those of tokens, and the last one, at
which it ends. -/
def statementSizeVisits (m : Ram) (stmt : ℕ) : Option (List ℕ × ℕ) :=
  walk (AtTerminator m) (fun p => some (sizeNext m p)) ramSize stmt

/-- The addresses that the loop of `program_list_stmt` comes to: those of tokens, and the last one,
at which it ends. -/
def programListStmtVisits (m : Ram) (toks : ℕ) : Option (List ℕ × ℕ) :=
  walk (AtTerminator m) (listNext m) ramSize toks

/-- **The size of a statement** is that up to the address at which the walk ends. -/
theorem statementSize_eq_visits (m : Ram) (stmt : ℕ) :
    statementSize m stmt = (statementSizeVisits m stmt).map fun w => (w.2 + 1 - stmt) % 256 := by
  have hend : statementEnd m ramSize stmt = (statementSizeVisits m stmt).map fun w =>
      w.1.foldr (fun _ stop => stop) (w.2 + 1) := by
    refine run_eq_walk (statementEnd m) (fun a => a + 1) (fun _ stop => stop) (fun _ => rfl)
      (fun k a h => ?_) (fun k a h => ?_) ramSize stmt
    · have hm : m a = tokTerminator := h
      rw [statementEnd, if_pos hm]
    · rw [statementEnd_of_ne h, Option.bind_some]
      simp
  rw [statementSize, hend, Option.map_map]
  congr 1
  funext w
  suffices hfold : ∀ l : List ℕ, l.foldr (fun _ stop => stop) (w.2 + 1) = w.2 + 1 by
    rw [Function.comp_apply, hfold]
  intro l
  induction l with
  | nil => rfl
  | cons p l ih => exact ih

/-- **The listing of a statement** has the text of each token that the walk passes. -/
theorem programListStmt_eq_visits (m : Ram) (toks : ℕ) :
    programListStmt m toks = (programListStmtVisits m toks).map fun w =>
      w.1.foldr (fun p text => listText m p ++ text) newline := by
  refine run_eq_walk (programListStmtTo m) (fun _ => newline) (fun p text => listText m p ++ text)
    (fun _ => rfl) (fun k a h => ?_) (fun k a h => ?_) ramSize toks
  · have hm : m a = tokTerminator := h
    rw [programListStmtTo, tDefsList, if_pos hm]
    simp [hm]
  · have hm : m a ≠ tokTerminator := h
    cases hd : tDefsList m a with
    | none => simp [programListStmtTo, listNext, hd]
    | some p => simp [programListStmtTo, listNext, listText, hd, hm]

/-! ## The walks over a stream -/

variable {m : Ram} {a : ℕ} {t : Token} {ts : List Token}

/-- A walk over a stream passes the tokens, when it goes from each token to its end. It ends at the
terminator, or one byte in front of it when it does so at the end of the last token, a remark.

**Proof sketch.** Induction on the stream. The last byte of a remark is a NUL, at which the walk
ends like at the terminator behind it. -/
theorem walk_stream {next : ℕ → Option ℕ} {short : Token → Bool} (hs : Stream ts)
    (hm : m.Holds a (stored ts)) (hshort : ∀ t, short t = true → t.isRemark = true)
    (hnext : ∀ p (t : Token), t.Valid → m.Holds p t.bytes →
      next p = some (p + t.bytes.length - if short t then 1 else 0))
    {k : ℕ} (hk : ts.length < k) :
    walk (AtTerminator m) next k a =
      some ((starts a ts).1, (starts a ts).2 - if ts.any short then 1 else 0) := by
  induction ts generalizing a k with
  | nil =>
    obtain ⟨k, rfl⟩ := Nat.exists_eq_succ_of_ne_zero (Nat.ne_of_gt (Nat.zero_lt_of_lt hk))
    exact walk_of_stop hm.1
  | cons t ts ih =>
    obtain ⟨k, rfl⟩ := Nat.exists_eq_succ_of_ne_zero (Nat.ne_of_gt (Nat.zero_lt_of_lt hk))
    rw [stored_cons, Ram.holds_append] at hm
    have hkind : ¬ AtTerminator m a := fun h =>
      t.kind_ne_terminator ((t.apply_of_holds hm.1).symm.trans h)
    rw [walk_of_next hkind (hnext a t hs.1 hm.1), List.any_cons]
    have hk' := Nat.lt_of_succ_lt_succ hk
    cases hsh : short t with
    | false =>
      simp only [Bool.false_eq_true, if_false, Nat.sub_zero, Bool.false_or]
      rw [ih hs.2.2 hm.2 hk']
      rfl
    | true =>
      have hrem := hshort t hsh
      obtain rfl := hs.2.1 hrem
      obtain ⟨k, rfl⟩ := Nat.exists_eq_succ_of_ne_zero (Nat.ne_of_gt (Nat.zero_lt_of_lt hk'))
      have hend : AtTerminator m (a + t.bytes.length - 1) := apply_end_of_remark hm.1 hrem
      simp only [if_true, Bool.true_or]
      rw [walk_of_stop hend]
      rfl

/-- A statement that fits into the buffer has fewer tokens than there are bytes of memory. -/
theorem length_lt_ramSize (hlen : (stored ts).length ≤ statementSizeMax) : ts.length < ramSize := by
  have h := length_le_length_encode ts
  rw [stored, List.length_append, List.length_singleton, statementSizeMax] at hlen
  rw [ramSize]
  omega

/-- **`statement_size` goes where the tokenizer has written.** -/
theorem statementSizeVisits_eq (hs : Stream ts) (hm : m.Holds a (stored ts))
    (hlen : (stored ts).length ≤ statementSizeMax) :
    statementSizeVisits m a = some (starts a ts) := by
  have h : statementSizeVisits m a =
      some ((starts a ts).1, (starts a ts).2 - if ts.any (fun _ => false) then 1 else 0) :=
    walk_stream hs hm (fun _ h => absurd h Bool.false_ne_true)
      (fun _ _ hv ht => congrArg some (sizeNext_token hv ht)) (length_lt_ramSize hlen)
  simpa using h

/-- **The listing goes where the tokenizer has written, but for the end of a remark.** Behind a
remark it ends one byte in front of the terminator. -/
theorem programListStmtVisits_eq (hs : Stream ts) (hm : m.Holds a (stored ts))
    (hlen : (stored ts).length ≤ statementSizeMax) :
    programListStmtVisits m a =
      some ((starts a ts).1, (starts a ts).2 - if ts.any Token.isRemark then 1 else 0) := by
  refine walk_stream hs hm (fun _ h => h) (fun p t hv ht => ?_) (length_lt_ramSize hlen)
  rw [listNext, tDefsList_eq hv ht, Option.map_some]

/-! ## Agreement -/

/-- The tokenizer, `statement_size` and the listing agree where the tokens of the statement at an
address begin, and where its terminator is. -/
def WalkersAgree (m : Ram) (a : ℕ) (text : List UInt8) : Prop :=
  ∃ w, statementTokenizeStarts text = some w ∧
    statementSizeVisits m a = some (w.1.map (a + ·), a + w.2) ∧
    programListStmtVisits m a = some (w.1.map (a + ·), a + w.2)

/-- None of the tokens that the tokenizer writes is a remark. -/
def NoRemark (m : Ram) (a : ℕ) (text : List UInt8) : Prop :=
  ∀ w, statementTokenizeStarts text = some w → ∀ p ∈ w.1, m (a + p) ≠ tokRemark

/-- The places of tokens that start later are as much later. -/
theorem starts_add (a b : ℕ) (ts : List Token) :
    starts (a + b) ts = ((starts b ts).1.map (a + ·), a + (starts b ts).2) := by
  induction ts generalizing b with
  | nil => rfl
  | cons t ts ih =>
    rw [starts, starts, Nat.add_assoc, ih]
    rfl

/-- At the starts of the tokens are their kinds. -/
theorem exists_remark_iff (hm : m.Holds a (stored ts)) :
    (∃ p ∈ (starts a ts).1, m p = tokRemark) ↔ ts.any Token.isRemark = true := by
  induction ts generalizing a with
  | nil => simp [starts]
  | cons t ts ih =>
    rw [stored_cons, Ram.holds_append] at hm
    have hkind : m a = tokRemark ↔ t.isRemark = true := by
      rw [t.apply_of_holds hm.1]
      cases t <;> simp [Token.kind, Token.isRemark] <;> decide
    simp only [starts, List.mem_cons, exists_eq_or_imp, hkind, ih hm.2, List.any_cons,
      Bool.or_eq_true]

/-- The end of tokens is not in front of their start. -/
theorem le_starts (a : ℕ) (ts : List Token) : a ≤ (starts a ts).2 := by
  induction ts generalizing a with
  | nil => exact Nat.le_refl a
  | cons t ts ih => exact (Nat.le_add_right ..).trans (ih _)

/-- **The walkers agree when there is no remark.** For every statement that the tokenizer accepts,
at every address: the places where the listing finds tokens and the end are those where
`statement_size` finds them and those where the tokenizer has written them, if and only if it has
written no remark.

**Proof sketch.** `statement_size` always agrees with the tokenizer. The listing ends one byte
earlier behind a remark. -/
theorem walkersAgree_iff {text out : List UInt8} (h0 : 0 ∉ text)
    (h : statementTokenize text = some (.noerror, out)) (hm : m.Holds a out) :
    WalkersAgree m a text ↔ NoRemark m a text := by
  obtain ⟨ts, rfl, hs, hne, hlen, hstarts⟩ := exists_starts_of_statementTokenize h0 h
  have hsize := statementSizeVisits_eq hs hm hlen
  have hlist := programListStmtVisits_eq hs hm hlen
  have hadd : starts a ts = ((starts 0 ts).1.map (a + ·), a + (starts 0 ts).2) := starts_add a 0 ts
  rw [hadd] at hsize hlist
  have hrem : NoRemark m a text ↔ ts.any Token.isRemark = false := by
    rw [← Bool.not_eq_true, ← exists_remark_iff hm, hadd]
    simp [NoRemark, hstarts]
  rw [hrem]
  constructor
  · rintro ⟨w, hw, -, hl⟩
    obtain rfl := Option.some.inj (hstarts.symm.trans hw)
    rw [hlist] at hl
    by_contra hany
    rw [Bool.not_eq_false] at hany
    -- the tokens are not empty, so that the end is not at the start of memory
    have hpos : 0 < (starts 0 ts).2 := by
      cases ts with
      | nil => exact absurd rfl hne
      | cons t ts =>
        have hle : 0 + t.bytes.length ≤ (starts (0 + t.bytes.length) ts).2 := le_starts _ ts
        exact Nat.lt_of_lt_of_le (by simpa using t.length_bytes_pos) hle
    simp only [hany, if_true, Option.some.injEq, Prod.mk.injEq, true_and] at hl
    omega
  · intro hany
    refine ⟨_, hstarts, hsize, ?_⟩
    simpa [hany] using hlist

/-- `GOTO 10` is passed in the same way by all of them. -/
theorem walkersAgree_goto :
    WalkersAgree (Ram.memcpy (fun _ => 0) 0x8100 [tokKeyword, keywordGoto, tokNumeric, 10, 0, 0])
      0x8100 (ascii ['G', 'O', 'T', 'O', ' ', '1', '0']) := by
  refine (walkersAgree_iff (by decide) (by decide +kernel) (Ram.holds_memcpy ..)).2 ?_
  intro w hw
  have hstarts : statementTokenizeStarts (ascii ['G', 'O', 'T', 'O', ' ', '1', '0']) =
      some ([0, 2], 5) := by decide +kernel
  obtain rfl := Option.some.inj (hstarts.symm.trans hw)
  exact List.forall_mem_cons.2 ⟨by decide, List.forall_mem_singleton.2 (by decide)⟩

/-- The walkers agree over every statement that the tokenizer accepts. -/
def AlwaysWalkersAgree : Prop :=
  ∀ text out m a, 0 ∉ text → statementTokenize text = some (.noerror, out) → m.Holds a out →
    WalkersAgree m a text

/-- Over the statement `REM` the listing ends in front of the terminator. -/
theorem not_alwaysWalkersAgree : ¬ AlwaysWalkersAgree := by
  intro hall
  have htok : statementTokenize (ascii ['R', 'E', 'M']) = some (.noerror, stored [.remark []]) := by
    decide +kernel
  have hm := Ram.holds_memcpy (fun _ => 0) 0x8100 (stored [.remark []])
  obtain ⟨w, -, hsize, hlist⟩ := hall _ _ _ _ (by decide) htok hm
  have hs : Stream [.remark []] := ⟨⟨by decide, List.not_mem_nil⟩, fun _ => rfl, trivial⟩
  have hlen : (stored [.remark []]).length ≤ statementSizeMax := by decide
  rw [statementSizeVisits_eq hs hm hlen] at hsize
  rw [programListStmtVisits_eq hs hm hlen, ← hsize] at hlist
  exact absurd hlist (by decide)

end Z80OS.Basic
