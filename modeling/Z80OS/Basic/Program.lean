import Mathlib.Data.List.Induction
import Z80OS.Basic.Executions
import Z80OS.Basic.Stream

set_option relaxedAutoImplicit false
set_option autoImplicit false

/-!
# The program as a list of lines

What the memory of the interpreter stands for: a list of lines, each with its number, the statement
that was inserted and the statement as it is now. A statement changes only where a `GOTO` or `GOSUB`
has been executed, which has then been rewritten to a jump to an address.

## Main definitions

* `Z80OS.Basic.ProgLine` — a line of the program.
* `Z80OS.Basic.lookup` — the line that a search for a number finds, from a line on.
* `Z80OS.Basic.Rewritten` — a statement with jumps in place of some of its `GOTO` and `GOSUB`.
* `Z80OS.Basic.Represents` — memory stands for a program.

## Main results

* `Z80OS.Basic.Represents.programSearchLineno_eq` — the search in memory is the search in the
  program.
* `Z80OS.Basic.Represents.frame` — memory stands for the same program when the bytes of the lines
  are the same.
-/

namespace Z80OS.Basic

/-- A line of the program. -/
structure ProgLine where
  addr : ℕ
  lineno : ℤ
  /-- The statement that was inserted. -/
  typed : List Token
  /-- The statement as it is now. -/
  stmt : List Token

namespace ProgLine

/-- The line as it was inserted. -/
def line (l : ProgLine) : Line := ⟨l.addr, l.lineno, stored l.typed⟩

/-- The address behind the line. -/
def stop (l : ProgLine) : ℕ := progStmt l.addr + (stored l.stmt).length

/-- A line has its header in front of its end. -/
theorem addr_lt_stop (l : ProgLine) : l.addr + 6 < l.stop := by
  simp only [stop, progStmt, progHdrSize, stored, List.length_append, List.length_singleton]
  omega

end ProgLine

/-- The address of a line, and `NULL` when there is none. -/
def addrOf : Option ProgLine → ℕ
  | none => null
  | some l => l.addr

/-- No line has no address. -/
@[simp] theorem addrOf_none : addrOf none = null := rfl

/-- A line has its address. -/
@[simp] theorem addrOf_some (l : ProgLine) : addrOf (some l) = l.addr := rfl

/-! ## Searching for a number -/

/-- The search backwards, when `succ` is the line behind the lines. -/
def lookupBackwards (n : ℤ) : ℕ → List ProgLine → ℕ
  | _, [] => null
  | succ, l :: before => if n ≤ l.lineno then lookupBackwards n l.addr before else succ

/-- The line that the search for a number finds from the line `l` on, with the lines `before` in
front of it and `after` behind it. -/
def lookup (before : List ProgLine) (l : ProgLine) (after : List ProgLine) (n : ℤ) : ℕ :=
  if n < l.lineno then lookupBackwards n l.addr before.reverse
  else addrOf ((l :: after).find? fun x => n ≤ x.lineno)

/-- The search finds nothing, or a line of the program. -/
theorem lookupBackwards_mem (n : ℤ) (before : List ProgLine) (l : ProgLine) :
    lookupBackwards n l.addr before = null ∨
      ∃ x ∈ l :: before, lookupBackwards n l.addr before = x.addr := by
  induction before generalizing l with
  | nil => exact .inl rfl
  | cons b before ih =>
    rw [lookupBackwards]
    split
    · cases ih b with
      | inl h => exact .inl h
      | inr h =>
        obtain ⟨x, hx, he⟩ := h
        exact .inr ⟨x, List.mem_cons_of_mem _ hx, he⟩
    · exact .inr ⟨l, List.mem_cons_self, rfl⟩

/-- A search finds no line or one of the program. -/
theorem lookup_mem (before : List ProgLine) (l : ProgLine) (after : List ProgLine) (n : ℤ) :
    lookup before l after n = null ∨
      ∃ x ∈ before ++ l :: after, lookup before l after n = x.addr := by
  unfold lookup
  split
  · cases lookupBackwards_mem n before.reverse l with
    | inl h => exact .inl h
    | inr h =>
      obtain ⟨x, hx, he⟩ := h
      refine .inr ⟨x, ?_, he⟩
      simp only [List.mem_cons, List.mem_reverse] at hx
      simp only [List.mem_append, List.mem_cons]
      exact hx.elim (fun h => .inr (.inl h)) .inl
  · cases hf : (l :: after).find? fun x => n ≤ x.lineno with
    | none => exact .inl rfl
    | some x =>
      exact .inr ⟨x, List.mem_append_right _ (List.mem_of_find?_eq_some hf), rfl⟩

/-- A line that is found stays the one that is found when lines are added behind the program. -/
theorem lookup_append {before : List ProgLine} {l : ProgLine} {after new : List ProgLine} {n : ℤ}
    (h : lookup before l after n ≠ null) :
    lookup before l (after ++ new) n = lookup before l after n := by
  unfold lookup at h ⊢
  split
  · rfl
  · next hn =>
    rw [if_neg hn] at h
    rw [← List.cons_append, List.find?_append]
    cases hf : (l :: after).find? fun x => n ≤ x.lineno with
    | none => exact absurd (by rw [hf]; rfl) h
    | some x => rfl

/-- What the search looks at in a line. -/
def ProgLine.key (l : ProgLine) : ℕ × ℤ := (l.addr, l.lineno)

/-- The address of a line is the second part of its key. -/
theorem addrOf_eq (o : Option ProgLine) :
    addrOf o = ((o.map ProgLine.key).map Prod.fst).getD null := by
  cases o <;> rfl

/-- A search backwards depends on the keys of the lines only. -/
theorem lookupBackwards_congr {n : ℤ} {succ : ℕ} {before before' : List ProgLine}
    (h : before.map ProgLine.key = before'.map ProgLine.key) :
    lookupBackwards n succ before = lookupBackwards n succ before' := by
  induction before generalizing before' succ with
  | nil =>
    obtain rfl : before' = [] := by simpa using h.symm
    rfl
  | cons l before ih =>
    cases before' with
    | nil => exact absurd h (by simp)
    | cons l' before' =>
      simp only [List.map_cons, List.cons.injEq, ProgLine.key, Prod.mk.injEq] at h
      rw [lookupBackwards, lookupBackwards, h.1.2, h.1.1, ih h.2]

/-- A search forwards depends on the keys of the lines only. -/
theorem addrOf_find?_congr {n : ℤ} {ls ls' : List ProgLine}
    (h : ls.map ProgLine.key = ls'.map ProgLine.key) :
    addrOf (ls.find? fun x => n ≤ x.lineno) = addrOf (ls'.find? fun x => n ≤ x.lineno) := by
  have hmap : ∀ ks : List ProgLine, (ks.find? fun x => n ≤ x.lineno).map ProgLine.key =
      (ks.map ProgLine.key).find? fun k => n ≤ k.2 := by
    intro ks
    rw [List.find?_map]
    rfl
  rw [addrOf_eq, addrOf_eq, hmap, hmap, h]

/-- The search depends only on the numbers and the addresses of the lines. -/
theorem lookup_congr {before before' : List ProgLine} {l l' : ProgLine}
    {after after' : List ProgLine} (hb : before.map ProgLine.key = before'.map ProgLine.key)
    (hl : l.key = l'.key) (ha : after.map ProgLine.key = after'.map ProgLine.key) (n : ℤ) :
    lookup before l after n = lookup before' l' after' n := by
  have hkey := hl
  simp only [ProgLine.key, Prod.mk.injEq] at hkey
  have hrev : before.reverse.map ProgLine.key = before'.reverse.map ProgLine.key := by
    rw [List.map_reverse, List.map_reverse, hb]
  have hcons : (l :: after).map ProgLine.key = (l' :: after').map ProgLine.key := by
    rw [List.map_cons, List.map_cons, hl, ha]
  unfold lookup
  rw [hkey.1, hkey.2, lookupBackwards_congr hrev, addrOf_find?_congr hcons]

/-! ## Rewritten statements -/

/-- The keywords that are rewritten, and the keywords that they are rewritten to. -/
def IsJump (kw jump : UInt8) : Prop :=
  kw = keywordGoto ∧ jump = keywordJumpto ∨ kw = keywordGosub ∧ jump = keywordJumpsub

/-- No keyword that is rewritten is one that it is rewritten to. -/
theorem IsJump.ne {kw jump kw' jump' : UInt8} (h : IsJump kw jump) (h' : IsJump kw' jump') :
    kw ≠ jump' := by
  rcases h with ⟨rfl, rfl⟩ | ⟨rfl, rfl⟩ <;> rcases h' with ⟨rfl, rfl⟩ | ⟨rfl, rfl⟩ <;> decide

/-- A statement after some of its jumps to a number have been rewritten to jumps to an address,
where `T` says which number stands for which address. -/
inductive Rewritten (T : ℤ → ℕ → Prop) : List Token → List Token → Prop
  | nil : Rewritten T [] []
  | same {ts ts' : List Token} (t : Token) (h : Rewritten T ts ts') :
      Rewritten T (t :: ts) (t :: ts')
  | jump {ts ts' : List Token} {kw jump : UInt8} {w p : ℕ} (hkw : IsJump kw jump)
      (hT : T (toNumeric w) p) (h : Rewritten T ts ts') :
      Rewritten T (.keyword kw :: .numeric w :: ts) (.keyword jump :: .numeric p :: ts')

/-- Rewriting a jump of a stream gives a stream. -/
theorem Stream.patch {pre post : List Token} {kw jump : UInt8} {w p : ℕ}
    (h : Stream (pre ++ .keyword kw :: .numeric w :: post)) (hkw : IsJump kw jump)
    (hp : p < 65536) : Stream (pre ++ .keyword jump :: .numeric p :: post) := by
  induction pre with
  | nil =>
    refine ⟨?_, by simp [Token.isRemark], hp, by simp [Token.isRemark], h.2.2.2.2⟩
    rcases hkw with ⟨-, rfl⟩ | ⟨-, rfl⟩ <;> simp [Token.Valid, keywords]
  | cons t pre ih =>
    refine ⟨h.1, fun hr => ?_, ih h.2.2⟩
    exact absurd (h.2.1 hr) (by simp)

namespace Rewritten

variable {T T' : ℤ → ℕ → Prop} {ts ts' pre post : List Token} {kw jump : UInt8} {w p : ℕ}

/-- A statement is a rewritten form of itself. -/
theorem refl (ts : List Token) : Rewritten T ts ts := by
  induction ts with
  | nil => exact .nil
  | cons t ts ih => exact .same t ih

/-- A statement that is rewritten to fewer lines. -/
theorem mono (h : Rewritten T ts ts') (hT : ∀ n p, T n p → T' n p) : Rewritten T' ts ts' := by
  induction h with
  | nil => exact .nil
  | same t _ ih => exact .same t ih
  | jump hkw ht _ ih => exact .jump hkw (hT _ _ ht) ih

/-- A rewritten statement has as many bytes. -/
theorem length_encode (h : Rewritten T ts ts') : (encode ts').length = (encode ts).length := by
  induction h with
  | nil => rfl
  | same t _ ih => simp [ih]
  | jump _ _ _ ih => simp [ih, Token.bytes]

/-- A rewritten statement is stored in as many bytes. -/
theorem length_stored (h : Rewritten T ts ts') : (stored ts').length = (stored ts).length := by
  simp [stored, h.length_encode]

/-- A rewritten statement has as many tokens. -/
theorem length_eq (h : Rewritten T ts ts') : ts'.length = ts.length := by
  induction h with
  | nil => rfl
  | same t _ ih => simp [ih]
  | jump _ _ _ ih => simp [ih]

/-- One more jump is rewritten. -/
theorem patch (h : Rewritten T ts (pre ++ .keyword kw :: .numeric w :: post))
    (hkw : IsJump kw jump) (hT : T (toNumeric w) p) :
    Rewritten T ts (pre ++ .keyword jump :: .numeric p :: post) := by
  generalize hcur : pre ++ .keyword kw :: .numeric w :: post = cur at h
  induction h generalizing pre with
  | nil => exact absurd hcur (by simp)
  | same t h ih =>
    cases pre with
    | nil =>
      simp only [List.nil_append, List.cons.injEq] at hcur
      obtain ⟨rfl, rfl⟩ := hcur
      cases h with
      | same _ h => exact .jump hkw hT h
    | cons u pre =>
      simp only [List.cons_append, List.cons.injEq] at hcur
      obtain ⟨rfl, hrest⟩ := hcur
      exact .same _ (ih hrest)
  | jump hkw' hT' h ih =>
    cases pre with
    | nil =>
      simp only [List.nil_append, List.cons.injEq, Token.keyword.injEq] at hcur
      exact absurd hcur.1 (hkw.ne hkw')
    | cons u pre =>
      cases pre with
      | nil => simp at hcur
      | cons v pre =>
        simp only [List.cons_append, List.cons.injEq] at hcur
        obtain ⟨rfl, rfl, hrest⟩ := hcur
        exact .jump hkw' hT' (ih hrest)

/-- A keyword of a rewritten statement has been there from the beginning, or is a jump whose address
stands for the number that was there.

**Proof sketch.** By induction on the rewriting. If the keyword is the first token, it was kept or
is the jump of this step. Otherwise the token or the two tokens in front of it are passed over and
the induction hypothesis applies. -/
theorem keyword_cases (h : Rewritten T ts (pre ++ .keyword kw :: post)) :
    ∃ pre₀ post₀, (encode pre₀).length = (encode pre).length ∧
      (ts = pre₀ ++ .keyword kw :: post₀ ∧ Rewritten T post₀ post ∨
        ∃ kw₀ w p post₁ post₀', IsJump kw₀ kw ∧ ts = pre₀ ++ .keyword kw₀ :: post₀ ∧
          post₀ = .numeric w :: post₀' ∧ post = .numeric p :: post₁ ∧ T (toNumeric w) p ∧
          Rewritten T post₀' post₁) := by
  generalize hcur : pre ++ .keyword kw :: post = cur at h
  induction h generalizing pre with
  | nil => exact absurd hcur (by simp)
  | @same ts₀ ts' t h ih =>
    cases pre with
    | nil =>
      simp only [List.nil_append, List.cons.injEq] at hcur
      obtain ⟨rfl, rfl⟩ := hcur
      exact ⟨[], ts₀, rfl, .inl ⟨rfl, h⟩⟩
    | cons u pre =>
      simp only [List.cons_append, List.cons.injEq] at hcur
      obtain ⟨rfl, hrest⟩ := hcur
      obtain ⟨pre₀, post₀, hlen, hcase⟩ := ih hrest
      refine ⟨u :: pre₀, post₀, by simp [hlen], ?_⟩
      rcases hcase with ⟨rfl, hr⟩ | ⟨kw₀, w, p, post₁, post₀', hj, rfl, rest⟩
      · exact .inl ⟨rfl, hr⟩
      · exact .inr ⟨kw₀, w, p, post₁, post₀', hj, rfl, rest⟩
  | @jump ts₀ ts' kw₁ jump₁ w₁ p₁ hkw' hT' h ih =>
    cases pre with
    | nil =>
      simp only [List.nil_append, List.cons.injEq, Token.keyword.injEq] at hcur
      obtain ⟨rfl, rfl⟩ := hcur
      exact ⟨[], _, rfl, .inr ⟨kw₁, w₁, p₁, ts', ts₀, hkw', rfl, rfl, rfl, hT', h⟩⟩
    | cons u pre =>
      cases pre with
      | nil => simp at hcur
      | cons v pre =>
        simp only [List.cons_append, List.cons.injEq] at hcur
        obtain ⟨rfl, rfl, hrest⟩ := hcur
        obtain ⟨pre₀, post₀, hlen, hcase⟩ := ih hrest
        refine ⟨.keyword kw₁ :: .numeric w₁ :: pre₀, post₀, by simp [hlen, Token.bytes], ?_⟩
        rcases hcase with ⟨rfl, hr⟩ | ⟨kw₀, w, p, post₁, post₀', hj, rfl, rest⟩
        · exact .inl ⟨rfl, hr⟩
        · exact .inr ⟨kw₀, w, p, post₁, post₀', hj, rfl, rest⟩

end Rewritten

/-! ## Programs in memory -/

/-- The number of a jump has been replaced by the line that the search for it found, when the
program had no more lines than it has now. -/
def Cached (before : List ProgLine) (l : ProgLine) (after : List ProgLine) (n : ℤ) (p : ℕ) : Prop :=
  ∃ after', after' <+: after ∧ lookup before l after' n = p

/-- The line `l` is in memory, with the lines `before` in front of it and `after` behind it. -/
structure LineAt (m : Ram) (before : List ProgLine) (l : ProgLine) (after : List ProgLine) :
    Prop where
  lineno : progLineno m l.addr = l.lineno
  prev : progPrev m l.addr = addrOf before.getLast?
  next : progNext m l.addr = addrOf after.head?
  stmt : m.Holds (progStmt l.addr) (stored l.stmt)
  stream : Stream l.stmt
  rewritten : Rewritten (Cached before l after) l.typed l.stmt

/-- The memory of the interpreter stands for a program. -/
structure Represents [Target] (s : State) (p : List ProgLine) : Prop where
  inserted : s.inserted = p.map ProgLine.line
  lines : ∀ before l after, p = before ++ l :: after → LineAt s.ram before l after
  last : s.programLastInsertedLine = addrOf p.getLast?
  start_le : ∀ l ∈ p, Target.programStart ≤ l.addr
  spaced : p.Pairwise fun l x => l.stop ≤ x.addr
  stop_le : ∀ l ∈ p, l.stop ≤ s.programEndPtr
  short : ∀ l ∈ p, l.stop < l.addr + progHdrSize + 256
  typed : ∀ l ∈ p, Stream l.typed
  start_le_end : Target.programStart ≤ s.programEndPtr
  end_le : s.programEndPtr ≤ ramSize

/-- A word is read from its two bytes. -/
theorem Ram.word_congr {m m' : Ram} {a : ℕ} (h0 : m' a = m a) (h1 : m' (a + 1) = m (a + 1)) :
    m'.word a = m.word a := by
  simp only [Ram.word, h0, h1]

/-- A line stays in memory when its bytes are the same. -/
theorem LineAt.congr {m m' : Ram} {before after : List ProgLine} {l : ProgLine}
    (h : LineAt m before l after) (hm : ∀ a, l.addr ≤ a → a < l.stop → m' a = m a) :
    LineAt m' before l after := by
  have hstop := l.addr_lt_stop
  have hw : ∀ d < 6, m' (l.addr + d) = m (l.addr + d) :=
    fun d hd => hm _ (by omega) (by omega)
  refine ⟨?_, ?_, ?_, ?_, h.stream, h.rewritten⟩
  · rw [← h.lineno, progLineno, progLineno, Ram.numeric, Ram.numeric,
      Ram.word_congr (hm l.addr (by omega) (by omega)) (hw 1 (by omega))]
  · rw [← h.prev, progPrev, progPrev, Ram.word_congr (hw 2 (by omega)) (hw 3 (by omega))]
  · rw [← h.next, progNext, progNext, Ram.word_congr (hw 4 (by omega)) (hw 5 (by omega))]
  · apply h.stmt.congr
    intro i hi
    apply hm
    · simp only [progStmt, progHdrSize]
      omega
    · simp only [ProgLine.stop]
      omega

/-- What a jump has found depends on the keys of the lines only. -/
theorem Cached.congr {before before' : List ProgLine} {l l' : ProgLine}
    {after after' : List ProgLine} {n : ℤ} {p : ℕ} (h : Cached before l after n p)
    (hb : before.map ProgLine.key = before'.map ProgLine.key) (hl : l.key = l'.key)
    (ha : after.map ProgLine.key = after'.map ProgLine.key) : Cached before' l' after' n p := by
  obtain ⟨mid, ⟨rest, rfl⟩, he⟩ := h
  refine ⟨after'.take mid.length, List.take_prefix _ _, ?_⟩
  rw [← he]
  refine (lookup_congr hb hl ?_ n).symm
  rw [List.map_take, ← ha, List.map_append, List.take_left' (by simp)]

/-- More lines behind the program do not make a difference. -/
theorem Cached.append {before : List ProgLine} {l : ProgLine} {after : List ProgLine} {n : ℤ}
    {p : ℕ} (h : Cached before l after n p) (new : List ProgLine) :
    Cached before l (after ++ new) n p := by
  obtain ⟨mid, hmid, he⟩ := h
  exact ⟨mid, hmid.trans (List.prefix_append _ _), he⟩

/-- The lines around a line may be replaced by lines with the same numbers in the same places. -/
theorem LineAt.congr_lines {m : Ram} {before before' after after' : List ProgLine} {l : ProgLine}
    (h : LineAt m before l after) (hb : before.map ProgLine.key = before'.map ProgLine.key)
    (ha : after.map ProgLine.key = after'.map ProgLine.key) : LineAt m before' l after' where
  lineno := h.lineno
  prev := by
    have hlast := congrArg List.getLast? hb
    rw [List.getLast?_map, List.getLast?_map] at hlast
    rw [h.prev, addrOf_eq, addrOf_eq, hlast]
  next := by
    have hhead := congrArg List.head? ha
    rw [List.head?_map, List.head?_map] at hhead
    rw [h.next, addrOf_eq, addrOf_eq, hhead]
  stmt := h.stmt
  stream := h.stream
  rewritten := h.rewritten.mono fun _ _ hc => hc.congr hb rfl ha

/-- Two places in a list. -/
theorem split_cases {before before' after after' : List ProgLine} {l x : ProgLine}
    (h : before ++ l :: after = before' ++ x :: after') :
    (∃ mid, before = before' ++ x :: mid ∧ after' = mid ++ l :: after) ∨
      (before = before' ∧ l = x ∧ after = after') ∨
        ∃ mid, before' = before ++ l :: mid ∧ after = mid ++ x :: after' := by
  rw [List.append_eq_append_iff] at h
  rcases h with ⟨mid, h1, h2⟩ | ⟨mid, h1, h2⟩
  · cases mid with
    | nil =>
      simp only [List.append_nil, List.nil_append, List.cons.injEq] at h1 h2
      exact .inr (.inl ⟨h1.symm, h2.1, h2.2⟩)
    | cons y mid =>
      simp only [List.cons_append, List.cons.injEq] at h2
      obtain ⟨rfl, rfl⟩ := h2
      exact .inr (.inr ⟨mid, h1, rfl⟩)
  · cases mid with
    | nil =>
      simp only [List.append_nil, List.nil_append, List.cons.injEq] at h1 h2
      exact .inr (.inl ⟨h1, h2.1.symm, h2.2.symm⟩)
    | cons y mid =>
      simp only [List.cons_append, List.cons.injEq] at h2
      obtain ⟨rfl, rfl⟩ := h2
      exact .inl ⟨mid, h1, rfl⟩

namespace Represents

variable [Target] {s s' : State} {p before after : List ProgLine} {l : ProgLine}

/-- Memory stands for the same program when the bytes of the lines are the same. -/
theorem frame (h : Represents s p) (s' : State) (hins : s'.inserted = s.inserted)
    (hlast : s'.programLastInsertedLine = s.programLastInsertedLine)
    (hend : s.programEndPtr ≤ s'.programEndPtr) (hle : s'.programEndPtr ≤ ramSize)
    (hm : ∀ l ∈ p, ∀ a, l.addr ≤ a → a < l.stop → s'.ram a = s.ram a) : Represents s' p where
  inserted := hins.trans h.inserted
  lines before l after hp :=
    (h.lines before l after hp).congr (hm l (by rw [hp]; simp))
  last := hlast.trans h.last
  start_le := h.start_le
  spaced := h.spaced
  stop_le l hl := (h.stop_le l hl).trans hend
  short := h.short
  typed := h.typed
  start_le_end := h.start_le_end.trans hend
  end_le := hle

/-- Memory stands for the same program when nothing about the program has changed. -/
theorem same (h : Represents s p) (hins : s'.inserted = s.inserted)
    (hlast : s'.programLastInsertedLine = s.programLastInsertedLine)
    (hend : s'.programEndPtr = s.programEndPtr) (hm : s'.ram = s.ram) : Represents s' p :=
  h.frame s' hins hlast hend.ge (hend.trans_le h.end_le) fun _ _ _ _ _ => by rw [hm]

/-- Every line has an address. -/
theorem addr_pos (h : Represents s p) (hl : l ∈ p) : null < l.addr := by
  have h1 := h.start_le l hl
  have h2 := Target.statement_pos
  have h3 := Target.statement_le
  unfold null
  omega

/-- Every line is inside of memory. -/
theorem stop_le_ramSize (h : Represents s p) (hl : l ∈ p) : l.stop ≤ ramSize :=
  (h.stop_le l hl).trans h.end_le

/-- The lines in front of a line end where it starts at the latest. -/
theorem stop_le_addr (h : Represents s p) (hp : p = before ++ l :: after) {x : ProgLine}
    (hx : x ∈ before) : x.stop ≤ l.addr := by
  have hs := h.spaced
  rw [hp, List.pairwise_append] at hs
  exact hs.2.2 x hx l List.mem_cons_self

/-- The lines behind a line start where it ends at the earliest. -/
theorem stop_le_addr_after (h : Represents s p) (hp : p = before ++ l :: after) {x : ProgLine}
    (hx : x ∈ after) : l.stop ≤ x.addr := by
  have hs := h.spaced
  rw [hp, List.pairwise_append] at hs
  exact (List.pairwise_cons.1 hs.2.1).1 x hx

/-- There are fewer lines than bytes of memory. -/
theorem length_lt (h : Represents s p) : p.length < ramSize := by
  -- every line takes at least a byte of the region
  have key : ∀ (q : List ProgLine) (lo hi : ℕ), q.Pairwise (fun l x => l.stop ≤ x.addr) →
      (∀ l ∈ q, lo ≤ l.addr ∧ l.stop ≤ hi) → lo ≤ hi → lo + q.length ≤ hi := by
    intro q
    induction q with
    | nil =>
      intro lo hi _ _ hle
      simpa using hle
    | cons l q ih =>
      intro lo hi hq hb _
      obtain ⟨hl, hq⟩ := List.pairwise_cons.1 hq
      have h1 := hb l List.mem_cons_self
      have h2 := l.addr_lt_stop
      have h3 := ih l.stop hi hq
        (fun x hx => ⟨hl x hx, (hb x (List.mem_cons_of_mem _ hx)).2⟩) h1.2
      simp only [List.length_cons]
      omega
  have h1 := key p Target.programStart s.programEndPtr h.spaced
    (fun l hl => ⟨h.start_le l hl, h.stop_le l hl⟩) h.start_le_end
  have h2 := h.end_le
  have h3 := Target.statement_pos
  have h4 := Target.statement_le
  omega

/-! ### The search -/

/-- The search backwards along the links is one through the lines. -/
theorem searchBackwards_eq (h : Represents s p) (hp : p = before ++ l :: after) {n : ℤ}
    (hn : n ≤ l.lineno) {k : ℕ} (hk : before.length < k) :
    searchBackwards s.ram n k l.addr = some (lookupBackwards n l.addr before.reverse) := by
  induction before using List.reverseRecOn generalizing l after k with
  | nil =>
    obtain ⟨k, rfl⟩ : ∃ k', k = k' + 1 := ⟨k - 1, by simp at hk; omega⟩
    have hl := h.lines _ _ _ hp
    rw [searchBackwards, hl.lineno, if_pos hn, hl.prev]
    simp [lookupBackwards]
  | append_singleton before b ih =>
    obtain ⟨k, rfl⟩ : ∃ k', k = k' + 1 := ⟨k - 1, by simp at hk; omega⟩
    have hl := h.lines _ _ _ hp
    have hp' : p = before ++ b :: l :: after := by simp [hp]
    have hb := h.lines _ _ _ hp'
    have hpos := h.addr_pos (l := b) (by rw [hp']; simp)
    rw [searchBackwards, hl.lineno, if_pos hn, hl.prev]
    simp only [List.getLast?_append, List.getLast?_singleton, Option.some_or, addrOf_some,
      List.reverse_append, List.reverse_singleton, List.singleton_append, lookupBackwards]
    rw [if_neg hpos.ne']
    by_cases hbn : n ≤ b.lineno
    · rw [if_pos hbn]
      exact ih hp' hbn (by simp at hk; omega)
    · obtain ⟨k, rfl⟩ : ∃ k', k = k' + 1 := ⟨k - 1, by simp at hk; omega⟩
      rw [if_neg hbn, searchBackwards, hb.lineno, if_neg hbn, hb.next]
      rfl

/-- The search forwards along the links is one through the lines. -/
theorem searchForwards_eq (h : Represents s p) (hp : p = before ++ l :: after) {n : ℤ} {k : ℕ}
    (hk : after.length < k) :
    searchForwards s.ram n k l.addr = some (addrOf ((l :: after).find? fun x => n ≤ x.lineno)) := by
  induction after generalizing before l k with
  | nil =>
    obtain ⟨k, rfl⟩ : ∃ k', k = k' + 1 := ⟨k - 1, by simp at hk; omega⟩
    have hl := h.lines _ _ _ hp
    rw [searchForwards, hl.lineno, hl.next]
    by_cases hn : n ≤ l.lineno
    · simp [hn, Int.not_lt.2 hn]
    · simp [hn, Int.not_le.1 hn]
  | cons x after ih =>
    obtain ⟨k, rfl⟩ : ∃ k', k = k' + 1 := ⟨k - 1, by simp at hk; omega⟩
    have hl := h.lines _ _ _ hp
    have hpos := h.addr_pos (l := x) (by rw [hp]; simp)
    rw [searchForwards, hl.lineno, hl.next]
    by_cases hn : n ≤ l.lineno
    · simp [hn, Int.not_lt.2 hn]
    · have hp' : p = (before ++ [l]) ++ x :: after := by simp [hp]
      have hfind : (l :: x :: after).find? (fun x => n ≤ x.lineno) =
          (x :: after).find? fun x => n ≤ x.lineno :=
        List.find?_cons_of_neg (by simpa using hn)
      rw [if_pos (Int.not_le.1 hn), List.head?_cons, addrOf_some, if_neg hpos.ne',
        ih hp' (by simpa using hk), hfind]

/-- The search in memory from a line on is the search in the program. -/
theorem programSearchLineno_eq (h : Represents s p) (hp : p = before ++ l :: after)
    (hcur : s.programCurrentLine = l.addr) (n : ℤ) :
    programSearchLineno s n = some (lookup before l after n) := by
  have hlen := h.length_lt
  rw [hp] at hlen
  simp only [List.length_append, List.length_cons] at hlen
  rw [programSearchLineno, hcur, (h.lines _ _ _ hp).lineno, lookup]
  by_cases hn : n < l.lineno
  · rw [if_pos hn, if_pos hn]
    exact h.searchBackwards_eq hp (Int.le_of_lt hn) (by omega)
  · rw [if_neg hn, if_neg hn]
    exact h.searchForwards_eq hp (by omega)

end Represents

end Z80OS.Basic
