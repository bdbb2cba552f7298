import Z80OS.Basic.Capacity
import Z80OS.Basic.Changes
import Z80OS.Basic.Relisting

set_option relaxedAutoImplicit false
set_option autoImplicit false

/-!
# Faithful listings

A statement that is listed and read again is the same statement when its tokens are listable, before
the line has been executed, and afterwards unless a jump to a number has been rewritten.

## Main results

* `Z80OS.Basic.listing_faithful` — listings of statements that have been tokenized and of lines that
  have been inserted.
-/

namespace Z80OS.Basic

/-- A text that the tokenizer accepts is read back from the listing of its tokens, wherever they are
stored, exactly when they are listable. -/
theorem relist_of_statementTokenize {text out : List UInt8} (h0 : 0 ∉ text)
    (h : statementTokenize text = some (.noerror, out)) :
    ∃ ts, Stream ts ∧ out = stored ts ∧
      ∀ (m : Ram) (a : ℕ), m.Holds a out → (relist m a = some (.noerror, out) ↔ Listable ts) := by
  obtain ⟨ts, rfl, hs, hne, hlen⟩ := exists_of_statementTokenize h0 h
  exact ⟨ts, hs, rfl, fun m a hm => relist_eq_iff hs hne hlen hm⟩

section

variable [Target] {s : State} {p : List ProgLine}

/-- A line that has been inserted is read back from its listing exactly when its tokens are
listable, as long as it has not been rewritten. -/
theorem Represents.relist_iff (h : Represents s p) (hu : Unrewritten s) {l : Line}
    (hl : l ∈ s.inserted) : ∃ ts, Stream ts ∧ l.stmt = stored ts ∧ (ts ≠ [] →
      (relist s.ram (progStmt l.addr) = some (.noerror, l.stmt) ↔ Listable ts)) := by
  have hholds := (hu l hl).2
  rw [h.inserted, List.mem_map] at hl
  obtain ⟨x, hx, rfl⟩ := hl
  obtain ⟨before, after, hp⟩ := List.append_of_mem hx
  have hlen := (h.lines _ _ _ hp).rewritten.length_stored
  have hshort := h.short x hx
  rw [ProgLine.stop, hlen] at hshort
  refine ⟨x.typed, h.typed x hx, rfl, fun hne => ?_⟩
  apply relist_eq_iff (h.typed x hx) hne _ hholds
  unfold progStmt progHdrSize at hshort
  unfold statementSizeMax
  omega

end

/-- **Listing is faithful.** For every text that the tokenizer accepts, the listing of its tokens is
tokenized to the same tokens if and only if they are listable, wherever they are stored. In every
session of tame and modest statements in which the program executes no `GOTO` and `GOSUB`, no step
leaves a table, and the same is true of every line that has been inserted, after any number of
executions. A line without a statement is no text that the tokenizer accepts.

**Proof sketch.** The tokens of an accepted text are a valid stream, and the listing of a stored
stream is the sequence of the texts of its tokens. The text of a token is read as the token, unless
the beginning of the next text is read with it, or the text has a sign or a terminator in it. While
no jump is rewritten, the lines are in memory as they were inserted. -/
theorem listing_faithful [Target] (s₀ : State) (inputs : List Input) :
    (∀ text out, 0 ∉ text → statementTokenize text = some (.noerror, out) →
      ∃ ts, Stream ts ∧ out = stored ts ∧ ∀ (m : Ram) (a : ℕ), m.Holds a out →
        (relist m a = some (.noerror, out) ↔ Listable ts)) ∧
    (Run.Each basicRun (Tamely fun s a => ¬ JumpsByNumber s a ∧ Modest s a) (boot s₀) inputs →
      Run.Each basicRun Enforces (boot s₀) inputs ∧
      Run.Always basicRun (fun _ _ _ s' => ∀ l ∈ s'.inserted, ∃ ts, Stream ts ∧
        l.stmt = stored ts ∧ (ts ≠ [] →
          (relist s'.ram (progStmt l.addr) = some (.noerror, l.stmt) ↔ Listable ts)))
        (boot s₀) inputs) := by
  refine ⟨fun text out h0 h => relist_of_statementTokenize h0 h, fun h => ?_⟩
  have hboot : Unrewritten (boot s₀) := fun l hl => absurd hl List.not_mem_nil
  have htame : Run.Each basicRun (Tamely fun s a => ¬ JumpsByNumber s a) (boot s₀) inputs :=
    h.mono fun s input ht => ht.mono fun _ _ hc => hc.1
  have hmodest : Run.Each basicRun StepModest (boot s₀) inputs :=
    h.mono fun s input ht s₁ a hex => (ht.2 s₁ a hex).2.2
  refine ⟨Contained.each hmodest, (carries_unrewritten.always hboot htame.always).mono ?_⟩
  rintro s input e s' ⟨⟨hu, p, hrep, -⟩, -⟩ l hl
  exact hrep.relist_iff hu hl

/-- A program that prints something, is listed, and prints it again. -/
def printSession : List Input :=
  [.line (ascii ['1', '0', ' ', 'X', '=', 'X', '+', '1']),
   .line (ascii ['2', '0', ' ', 'P', 'R', 'I', 'N', 'T', ' ', '"', 'X', '"', ',', 'X']),
   .line (ascii ['3', '0', ' ', 'E', 'N', 'D']),
   .line (ascii ['R', 'U', 'N']), .go, .go, .go,
   .line (ascii ['L', 'I', 'S', 'T']),
   .line (ascii ['R', 'U', 'N']), .go, .go, .go]

/-- A stream that can be listed, in a session in which it is entered and listed. -/
theorem listing_faithful_printSession :
    (∃ ts, Stream ts ∧ stored [.register 23, .operator opEqual, .numeric 1] = stored ts ∧
      ∀ (m : Ram) (a : ℕ), m.Holds a (stored [.register 23, .operator opEqual, .numeric 1]) →
        (relist m a = some (.noerror, stored [.register 23, .operator opEqual, .numeric 1]) ↔
          Listable ts)) ∧
    letI := Target.small
    Run.Each basicRun Enforces (boot State.zeroed) printSession ∧
    Run.Always basicRun (fun _ _ _ s' => ∀ l ∈ s'.inserted, ∃ ts, Stream ts ∧
      l.stmt = stored ts ∧ (ts ≠ [] →
        (relist s'.ram (progStmt l.addr) = some (.noerror, l.stmt) ↔ Listable ts)))
      (boot State.zeroed) printSession := by
  let _ := Target.small
  constructor
  · exact (listing_faithful State.zeroed printSession).1 (ascii ['X', '=', '1']) _ (by decide)
      (by decide +kernel)
  · apply (listing_faithful State.zeroed printSession).2
    refine each_tamely_of_test (c := fun s a => ! jumpsByNumberTest s a && modestTest s a)
      (fun _ _ h => ?_) (by decide +kernel)
    rw [Bool.and_eq_true] at h
    exact ⟨not_jumpsByNumber_of_test h.1, modest_of_test h.2⟩

/-- The name of a variable is printed with its terminator, at which the listing of `AB=1` ends. -/
theorem not_listing_faithful :
    ¬ ∀ text out, 0 ∉ text → statementTokenize text = some (.noerror, out) →
      ∀ (m : Ram) (a : ℕ), m.Holds a out → relist m a = some (.noerror, out) := by
  intro h
  have hm := h (ascii ['A', 'B', '=', '1'])
    (stored [.var (ascii ['A', 'B']), .operator opEqual, .numeric 1]) (by decide)
    (by decide +kernel)
    _ 0 (Ram.holds_memcpy (fun _ => 0) 0 _)
  exact absurd hm (by decide +kernel)

end Z80OS.Basic
