import Mathlib.Data.List.Basic
import Z80OS.Basic.Storing

set_option relaxedAutoImplicit false
set_option autoImplicit false

/-!
# The search for a line

A line is searched for from the current line on: forwards when its number is not less than the one
of the current line, and backwards otherwise. The search backwards goes to the first line whose
number is less, and then one line forwards. When there is no such line, because the number is not
greater than the one of the first line, it gives up instead of giving the first line.

## Main definitions

* `Z80OS.Basic.Ascending` — the numbers of the lines ascend.
* `Z80OS.Basic.firstFrom` — the first line whose number is not less than a number.
* `Z80OS.Basic.TypesLine` — a step of a session in which a line of the program is typed.

## Main results

* `Z80OS.Basic.represents_of_typed` — lines that are typed are the program in memory.
* `Z80OS.Basic.programSearchLineno_eq_iff` — when the search finds the first line from a number on.
-/

namespace Z80OS.Basic

/-- The numbers of the lines ascend. -/
def Ascending (p : List ProgLine) : Prop := p.Pairwise fun l x => l.lineno < x.lineno

/-- The address of the first line whose number is at least `n`, or `NULL` when there is none. -/
def firstFrom (p : List ProgLine) (n : ℤ) : ℕ := addrOf (p.find? fun x => n ≤ x.lineno)

/-! ## The search in an ascending program -/

section Lookup

variable {before after : List ProgLine} {l : ProgLine} {n : ℤ}

/-- The first line from a number on is behind all lines with smaller numbers. -/
theorem firstFrom_append (h : ∀ x ∈ before, x.lineno < n) :
    firstFrom (before ++ after) n = firstFrom after n := by
  have hnone : before.find? (fun x => n ≤ x.lineno) = none := by
    rw [List.find?_eq_none]
    intro x hx
    have := h x hx
    simp only [decide_eq_true_eq]
    omega
  rw [firstFrom, firstFrom, List.find?_append, hnone, Option.none_or]

/-- The first line from a number on is in front of what follows it. -/
theorem firstFrom_append_of_mem {x : ProgLine} (hx : x ∈ before) (hn : n ≤ x.lineno) :
    firstFrom (before ++ after) n = firstFrom before n := by
  cases hf : before.find? (fun x => n ≤ x.lineno) with
  | none =>
    rw [List.find?_eq_none] at hf
    exact absurd hn (by simpa using hf x hx)
  | some y => rw [firstFrom, firstFrom, List.find?_append, hf, Option.some_or]

/-- The search backwards finds the first line from a number on, when there is a line with a smaller
number. -/
theorem lookupBackwards_eq_firstFrom (hasc : Ascending (before ++ [l])) (hl : n ≤ l.lineno)
    (hsmall : ∃ x ∈ before, x.lineno < n) :
    lookupBackwards n l.addr before.reverse = firstFrom (before ++ [l]) n := by
  induction before using List.reverseRecOn generalizing l with
  | nil => exact absurd hsmall (by simp)
  | append_singleton before b ih =>
    rw [List.reverse_append, List.reverse_singleton, List.singleton_append, lookupBackwards]
    have hasc' : Ascending (before ++ [b]) := (List.pairwise_append.1 hasc).1
    by_cases hb : n ≤ b.lineno
    · obtain ⟨x, hx, hlt⟩ := hsmall
      have hx' : x ∈ before := by
        rcases List.mem_append.1 hx with hx | hx
        · exact hx
        · rw [List.mem_singleton.1 hx] at hlt
          omega
      have hfind : firstFrom (before ++ [b] ++ [l]) n = firstFrom (before ++ [b]) n :=
        firstFrom_append_of_mem (List.mem_append_right _ List.mem_cons_self) hb
      rw [if_pos hb, ih hasc' hb ⟨x, hx', hlt⟩, hfind]
    · have hall : ∀ x ∈ before ++ [b], x.lineno < n := by
        intro x hx
        rcases List.mem_append.1 hx with hx | hx
        · have := (List.pairwise_append.1 hasc').2.2 x hx b List.mem_cons_self
          omega
        · rw [List.mem_singleton.1 hx]
          omega
      rw [if_neg hb, firstFrom_append hall, firstFrom, List.find?_cons_of_pos (by simpa using hl),
        addrOf_some]

/-- The search backwards gives up when no line in front of the current one has a smaller number. -/
theorem lookupBackwards_eq_null (succ : ℕ) (h : ∀ x ∈ before, n ≤ x.lineno) :
    lookupBackwards n succ before = null := by
  induction before generalizing succ with
  | nil => rfl
  | cons b before ih =>
    rw [lookupBackwards, if_pos (h b List.mem_cons_self)]
    exact ih b.addr fun x hx => h x (List.mem_cons_of_mem _ hx)

/-- The search from a line of an ascending program on. -/
theorem lookup_eq_firstFrom (hasc : Ascending (before ++ l :: after))
    (h : n < l.lineno → ∃ x ∈ before, x.lineno < n) :
    lookup before l after n = firstFrom (before ++ l :: after) n := by
  obtain ⟨hbefore, -, hlt⟩ := List.pairwise_append.1 hasc
  unfold lookup
  by_cases hn : n < l.lineno
  · have hasc' : Ascending (before ++ [l]) := by
      refine List.pairwise_append.2 ⟨hbefore, List.pairwise_singleton _ _, fun x hx y hy => ?_⟩
      rw [List.mem_singleton.1 hy]
      exact hlt x hx l List.mem_cons_self
    have hfind : firstFrom (before ++ [l] ++ after) n = firstFrom (before ++ [l]) n :=
      firstFrom_append_of_mem (List.mem_append_right _ List.mem_cons_self) (Int.le_of_lt hn)
    rw [if_pos hn, lookupBackwards_eq_firstFrom hasc' (Int.le_of_lt hn) (h hn), ← hfind,
      ← List.append_cons]
  · rw [if_neg hn, firstFrom_append]
    · rfl
    · intro x hx
      have := hlt x hx l List.mem_cons_self
      omega

end Lookup

section

variable [Target] {s s' : State} {p before after : List ProgLine} {l : ProgLine}

/-- **When the search finds the first line from a number on.** In a program whose lines ascend, and
from any current line, the search for a number gives the first line whose number is not less, or
`NULL` when there is none, exactly when the number is not less than the one of the current line or a
line in front of it has a smaller number.

**Proof sketch.** Backwards, induction on the lines in front of the current one: the first line with
a smaller number is the last of those in front of the wanted one. When there is no such line the
search ends with `NULL`, and the first line of the program is not at `NULL`. Forwards, all the lines
in front of the current one have smaller numbers. -/
theorem programSearchLineno_eq_iff (s : State) (p before after : List ProgLine) (l : ProgLine)
    (h : Represents s p) (hasc : Ascending p) (hp : p = before ++ l :: after)
    (hcur : s.programCurrentLine = l.addr) (n : ℤ) :
    programSearchLineno s n = some (firstFrom p n) ↔
      (n < l.lineno → ∃ x ∈ before, x.lineno < n) := by
  rw [h.programSearchLineno_eq hp hcur, Option.some.injEq]
  constructor
  · intro he hn
    by_contra hnone
    have hall : ∀ x ∈ before, n ≤ x.lineno := fun x hx => by
      by_contra hlt
      exact hnone ⟨x, hx, by omega⟩
    have hnull : lookup before l after n = null := by
      rw [lookup, if_pos hn]
      exact lookupBackwards_eq_null _ fun x hx => hall x (List.mem_reverse.1 hx)
    obtain ⟨first, rest, hfirst⟩ : ∃ first rest, p = first :: rest :=
      List.exists_cons_of_ne_nil (by simp [hp])
    have hle : n ≤ first.lineno := by
      cases before with
      | nil =>
        rw [List.nil_append, hfirst, List.cons.injEq] at hp
        rw [hp.1]
        exact Int.le_of_lt hn
      | cons b before =>
        rw [List.cons_append, hfirst, List.cons.injEq] at hp
        rw [hp.1]
        exact hall b List.mem_cons_self
    have haddr : firstFrom p n = first.addr := by
      rw [hfirst, firstFrom, List.find?_cons_of_pos (by simpa using hle), addrOf_some]
    have hpos := h.addr_pos (l := first) (by rw [hfirst]; exact List.mem_cons_self)
    rw [← haddr, ← he, hnull] at hpos
    exact Nat.lt_irrefl _ hpos
  · intro hsmall
    subst hp
    exact lookup_eq_firstFrom hasc hsmall

/-! ## Lines that are typed -/

/-- A program in memory ends behind its last line. -/
theorem Represents.anchored (h : Represents s p) : Anchored s where
  start_le := h.start_le_end
  last := by
    rw [h.last]
    cases hlast : p.getLast? with
    | none => exact .inl rfl
    | some x =>
      have hx := List.mem_of_getLast? hlast
      have hstop := h.stop_le x hx
      have hlt := x.addr_lt_stop
      refine .inr ⟨h.start_le x hx, ?_⟩
      unfold progHdrSize
      rw [addrOf_some]
      omega

/-- A line of the program is typed, which the tokenizer accepts and for which there is memory. -/
def TypesLine (s : State) (input : Input) : Prop :=
  ∃ text out, input = .line text ∧ 0 ∉ text ∧ statementTokenize text = some (.noerror, out) ∧
    out.head? = some tokNumeric ∧
      s.programEndPtr + progHdrSize + (out.length - numericSize) ≤ Target.programMax

/-- A line that is typed is the last line of the program. -/
theorem Represents.typesLine (h : Represents s p) {input : Input} {e : Error}
    (ht : TypesLine s input) (hstep : basicStep s input = .ok (e, s')) :
    ∃ w rest, Represents s' (p ++ [⟨s.programEndPtr, toNumeric w, rest, rest⟩]) := by
  obtain ⟨text, out, rfl, htext, htok, hnum, hfits⟩ := ht
  have hmax := Target.max_le
  obtain ⟨w, rest, hout, hs, hsum, hlen, hline⟩ :=
    processLine_number h.anchored htext htok hnum
  have hbuffer : Represents (s.memcpy Target.statement out) p :=
    h.buffer (Nat.add_le_add_left hlen _)
  obtain rfl : (s.memcpy Target.statement out).link (toNumeric w) (stored rest) = s' :=
    (Prod.mk.inj (Except.ok.inj (hline.symm.trans hstep))).2
  refine ⟨w, rest, hbuffer.link hs.1 hs.2.2 (by omega) ?_⟩
  unfold numericSize at hfits
  show s.programEndPtr + (stored rest).length + progHdrSize ≤ ramSize
  omega

/-- **Lines that are typed are the program in memory.** -/
theorem represents_of_typed {s₀ : State} {inputs : List Input} {es : List Error}
    (htyped : Run.Always basicRun (fun s input _ _ => TypesLine s input) (boot s₀) inputs)
    (hrun : Run.exec basicRun (boot s₀) inputs = some (es, s)) :
    ∃ p, Represents s p ∧ p.length = inputs.length := by
  induction inputs using List.reverseRecOn generalizing es s with
  | nil =>
    simp only [Run.exec_nil, Option.some.injEq, Prod.mk.injEq] at hrun
    exact ⟨[], hrun.2 ▸ represents_programNew _, rfl⟩
  | append_singleton inputs input ih =>
    cases hfirst : Run.exec basicRun (boot s₀) inputs with
    | none => simp [Run.exec_append_of_none hfirst] at hrun
    | some r =>
      obtain ⟨es₁, s₁⟩ := r
      obtain ⟨p, hrep, hlen⟩ := ih htyped.left hfirst
      rw [Run.exec_append hfirst, Option.map_eq_some_iff] at hrun
      obtain ⟨⟨es₂, s₂⟩, hlast, he⟩ := hrun
      obtain ⟨e, _, s₃, hstep, hnil, -⟩ := Run.exec_cons_eq_some hlast
      have hs : s₃ = s := by
        simp only [Run.exec_nil, Option.some.injEq, Prod.mk.injEq] at hnil he
        rw [hnil.2, he.2]
      have hnext := hrep.typesLine (htyped.last hfirst hstep) (basicRun_eq_some hstep)
      obtain ⟨w, rest, hnext⟩ := hnext
      exact ⟨_, hs ▸ hnext, by simp [hlen]⟩

/-- A test for `TypesLine`. -/
def typesLineTest (s : State) : Input → Bool
  | .go => false
  | .line text =>
    !text.contains 0 &&
    match statementTokenize text with
    | some (.noerror, out) => out.head? = some tokNumeric &&
        s.programEndPtr + progHdrSize + (out.length - numericSize) ≤ Target.programMax
    | _ => false

/-- The test finds out that a line is entered. -/
theorem typesLine_of_test {input : Input} (h : typesLineTest s input = true) :
    TypesLine s input := by
  cases input with
  | go => exact absurd h (by simp [typesLineTest])
  | line text =>
    simp only [typesLineTest, Bool.and_eq_true, Bool.not_eq_true'] at h
    obtain ⟨h0, h⟩ := h
    split at h
    · next out htok =>
      simp only [Bool.and_eq_true, decide_eq_true_eq] at h
      exact ⟨text, out, rfl, by simpa using h0, htok, h.1, h.2⟩
    · exact absurd h (by simp)

end

/-! ## A program of three lines -/

/-- Three lines that are entered in order. -/
def threeLines : List Input :=
  [.line (ascii ['1', '0', ' ', 'X', '=', '1']), .line (ascii ['2', '0', ' ', 'X', '=', '2']),
   .line (ascii ['3', '0', ' ', 'G', 'O', 'T', 'O', ' ', '1', '0'])]

/-- The state in which the third of the lines is the current one. -/
def thirdLine : State :=
  letI := Target.small
  { sessionEnd threeLines with
    programCurrentLine := (sessionEnd threeLines).programLastInsertedLine }

/-- Memory stands for the three lines, and the third one is the current one. -/
theorem exists_represents_thirdLine :
    letI := Target.small
    ∃ a b c, Represents thirdLine [a, b, c] ∧ a.lineno = 10 ∧ b.lineno = 20 ∧ c.lineno = 30 ∧
      thirdLine.programCurrentLine = c.addr := by
  let _ := Target.small
  have hsome : (Run.exec basicRun (boot State.zeroed) threeLines).isSome = true := by
    decide +kernel
  obtain ⟨⟨es, s⟩, hrun⟩ := Option.isSome_iff_exists.1 hsome
  have hs : sessionEnd threeLines = s := by
    rw [sessionEnd, hrun]
    rfl
  have htyped : Run.Always basicRun (fun s input _ _ => TypesLine s input) (boot State.zeroed)
      threeLines :=
    Run.Always.of_check (p := fun s input _ _ => typesLineTest s input)
      (fun _ _ _ _ h => typesLine_of_test h) (by decide +kernel)
  obtain ⟨p, hrep, hlen⟩ := represents_of_typed htyped hrun
  obtain ⟨a, b, c, rfl⟩ := List.length_eq_three.1 hlen
  have hnumbers : s.inserted.map Line.lineno = [10, 20, 30] := by
    rw [← hs]
    decide +kernel
  rw [hrep.inserted] at hnumbers
  simp only [List.map_cons, List.map_nil, ProgLine.line, List.cons.injEq, and_true] at hnumbers
  refine ⟨a, b, c, ?_, hnumbers.1, hnumbers.2.1, hnumbers.2.2, ?_⟩
  · rw [thirdLine, hs]
    exact hrep.same rfl rfl rfl rfl
  · rw [thirdLine, hs]
    exact hrep.last

/-- From the third line, the second one is found. -/
theorem programSearchLineno_second :
    letI := Target.small
    ∃ p, Represents thirdLine p ∧ programSearchLineno thirdLine 20 = some (firstFrom p 20) := by
  let _ := Target.small
  obtain ⟨a, b, c, hrep, ha, hb, hc, hcur⟩ := exists_represents_thirdLine
  have hasc : Ascending [a, b, c] := by
    simp [Ascending, ha, hb, hc]
  exact ⟨_, hrep, (programSearchLineno_eq_iff thirdLine [a, b, c] [a, b] [] c hrep hasc rfl hcur
    20).2 fun _ => ⟨a, by simp, by omega⟩⟩

/-- The search finds the first line from a number on in every program whose lines ascend, from every
current line. -/
def SearchFindsFirst [Target] : Prop :=
  ∀ (s : State) (p before after : List ProgLine) (l : ProgLine), Represents s p → Ascending p →
    p = before ++ l :: after → s.programCurrentLine = l.addr → ∀ n,
      programSearchLineno s n = some (firstFrom p n)

/-- From the third line, the first one is not found. -/
theorem not_searchFindsFirst : ¬ @SearchFindsFirst Target.small := by
  intro hall
  let _ := Target.small
  obtain ⟨a, b, c, hrep, ha, hb, hc, hcur⟩ := exists_represents_thirdLine
  have hasc : Ascending [a, b, c] := by
    simp [Ascending, ha, hb, hc]
  have hfound := hall thirdLine [a, b, c] [a, b] [] c hrep hasc rfl hcur 10
  have hnull : programSearchLineno thirdLine 10 = some null := by decide +kernel
  have hfirst : firstFrom [a, b, c] 10 = a.addr := by
    rw [firstFrom, List.find?_cons_of_pos (by simp [ha]), addrOf_some]
  rw [hnull, Option.some.injEq, hfirst] at hfound
  have hpos := hrep.addr_pos (l := a) (by simp)
  rw [← hfound] at hpos
  exact Nat.lt_irrefl _ hpos

end Z80OS.Basic
