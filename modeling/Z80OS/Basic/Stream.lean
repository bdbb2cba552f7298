import Mathlib.Data.List.TakeWhile
import Z80OS.Basic.Listing

set_option relaxedAutoImplicit false
set_option autoImplicit false

/-!
# Streams of tokens

The bytes of a statement, read as tokens. The tokenizer writes streams of valid tokens only, and
the printers of the listing print a stream token by token.

## Main definitions

* `Z80OS.Basic.Token`, `Z80OS.Basic.Token.bytes`, `Z80OS.Basic.Token.text` — a token, its bytes in
  a stream, and what is printed for it.
* `Z80OS.Basic.Token.Valid`, `Z80OS.Basic.Stream` — the tokens and the sequences of tokens that the
  tokenizer writes.
* `Z80OS.Basic.encode`, `Z80OS.Basic.listing` — the bytes of a sequence of tokens, and what is
  printed for it.
* `Z80OS.Basic.Ram.Holds` — the bytes at an address.

## Main results

* `Z80OS.Basic.exists_of_statementTokenize` — an accepted text is a stream of valid tokens.
* `Z80OS.Basic.programListStmt_eq` — the listing of a stored stream.
-/

namespace Z80OS.Basic

/-- A token. -/
inductive Token
  | string (text : List UInt8)
  | keyword (kw : UInt8)
  | numeric (w : ℕ)
  | operator (op : UInt8)
  | var (name : List UInt8)
  | separator
  | func (f : UInt8)
  | remark (text : List UInt8)
  | register (i : UInt8)
  deriving DecidableEq

namespace Token

/-- The bytes of a token. -/
def bytes : Token → List UInt8
  | string text => tokString :: sized text
  | keyword kw => [tokKeyword, kw]
  | numeric w => tokNumeric :: bytes16 w
  | operator op => [tokOperator, op]
  | var name => tokVariable :: sized name
  | separator => [tokSeparator]
  | func f => [tokFunc, f]
  | remark text => tokRemark :: sized text
  | register i => [tokRegister, i]

/-- What is printed for a token. -/
def text : Token → List UInt8
  | string text => 0x22 :: text ++ [0x22, 0x20]
  | keyword kw => keywordText kw ++ [0x20]
  | numeric w => printNumeric (toNumeric w) ++ [0x20]
  | operator op => operatorText op
  | var name => name ++ [0]
  | separator => ascii [',', ' ']
  | func f => funcText f
  | remark text => ascii ['R', 'E', 'M'] ++ text
  | register i => [i + 0x41]

/-- The names of variables that the tokenizer writes. A name of four letters may have been cut off,
and then it can be a keyword. -/
structure IsName (name : List UInt8) : Prop where
  letters : ∀ c ∈ name, isLetter c = true
  two_le : 2 ≤ name.length
  le_four : name.length ≤ varnameSize
  not_rem : ¬ ascii ['R', 'E', 'M'] <+: name
  not_func : name ≠ ascii ['R', 'N', 'D']
  keyword_length : keywords.lookup name ≠ none → name.length = varnameSize

/-- The tokens that the tokenizer writes. -/
def Valid : Token → Prop
  | string text => text.length < 255 ∧ 0 ∉ text ∧ 0x22 ∉ text
  | keyword kw => kw ∈ keywords.map Prod.snd
  | numeric w => w < 65536
  | operator op => op ≤ opMult
  | var name => IsName name
  | separator => True
  | func f => f = funcRnd
  | remark text => text.length < 255 ∧ 0 ∉ text
  | register i => i.toNat < numRegisters

/-- A remark. -/
def isRemark : Token → Bool
  | remark _ => true
  | _ => false

end Token

/-- The sequences of tokens that the tokenizer writes: of valid tokens, with no remark in front of
another token. -/
def Stream : List Token → Prop
  | [] => True
  | t :: ts => t.Valid ∧ (t.isRemark = true → ts = []) ∧ Stream ts

/-- The bytes of a sequence of tokens. -/
def encode (ts : List Token) : List UInt8 := ts.flatMap Token.bytes

/-- The bytes of a statement: its tokens and the terminator. -/
def stored (ts : List Token) : List UInt8 := encode ts ++ [tokTerminator]

/-- Where the tokens of a sequence begin that is written to an address, and where it ends. -/
def starts (a : ℕ) : List Token → List ℕ × ℕ
  | [] => ([], a)
  | t :: ts => (a :: (starts (a + t.bytes.length) ts).1, (starts (a + t.bytes.length) ts).2)

/-- What is printed for a sequence of tokens. -/
def listing (ts : List Token) : List UInt8 := ts.flatMap Token.text

/-- No tokens have no bytes. -/
@[simp] theorem encode_nil : encode [] = [] := rfl

/-- The bytes of the first token in front of those of the other ones. -/
@[simp] theorem encode_cons (t : Token) (ts : List Token) :
    encode (t :: ts) = t.bytes ++ encode ts := rfl

/-- The bytes of tokens one after the other. -/
@[simp] theorem encode_append (ts us : List Token) : encode (ts ++ us) = encode ts ++ encode us :=
  List.flatMap_append

/-- An empty statement is stored as a terminator. -/
@[simp] theorem stored_nil : stored [] = [tokTerminator] := rfl

/-- A statement is stored with the bytes of its first token in front. -/
@[simp] theorem stored_cons (t : Token) (ts : List Token) :
    stored (t :: ts) = t.bytes ++ stored ts := by
  simp [stored]

/-- A statement is stored with the bytes of its first tokens in front. -/
theorem stored_append (ts us : List Token) : stored (ts ++ us) = encode ts ++ stored us := by
  simp [stored]

/-- No tokens have an empty listing. -/
@[simp] theorem listing_nil : listing [] = [] := rfl

/-- The text of the first token in front of the listing of the other ones. -/
@[simp] theorem listing_cons (t : Token) (ts : List Token) :
    listing (t :: ts) = t.text ++ listing ts := rfl

/-- The rest of a stream is a stream. -/
theorem Stream.append {ts us : List Token} (h : Stream (ts ++ us)) : Stream us := by
  induction ts with
  | nil => exact h
  | cons t ts ih => exact ih h.2.2

/-- Every token of a stream is valid. -/
theorem Stream.valid {ts : List Token} (h : Stream ts) : ∀ t ∈ ts, t.Valid := by
  induction ts with
  | nil => intro t ht; exact absurd ht List.not_mem_nil
  | cons u ts ih =>
    intro t ht
    cases List.mem_cons.1 ht with
    | inl he => exact he ▸ h.1
    | inr hm => exact ih h.2.2 t hm

/-! ## Bytes in memory -/

/-- Memory has bytes at an address. -/
def Ram.Holds (m : Ram) (a : ℕ) : List UInt8 → Prop
  | [] => True
  | b :: bs => m a = b ∧ Ram.Holds m (a + 1) bs

namespace Ram

variable {m m' : Ram} {a : ℕ} {b : UInt8} {bs cs : List UInt8}

/-- Every place holds no bytes. -/
@[simp] theorem holds_nil : m.Holds a [] := trivial

/-- Bytes are held when the first one is, and the other ones behind it. -/
@[simp] theorem holds_cons : m.Holds a (b :: bs) ↔ m a = b ∧ m.Holds (a + 1) bs := Iff.rfl

/-- Bytes are held when the first ones are, and the other ones behind them. -/
@[simp] theorem holds_append :
    m.Holds a (bs ++ cs) ↔ m.Holds a bs ∧ m.Holds (a + bs.length) cs := by
  induction bs generalizing a with
  | nil => simp
  | cons b bs ih =>
    rw [List.cons_append, holds_cons, holds_cons, ih, and_assoc, List.length_cons,
      Nat.add_right_comm, Nat.add_assoc]

/-- Bytes are held when each of them is. -/
theorem holds_iff_getElem :
    m.Holds a bs ↔ ∀ (i : ℕ) (h : i < bs.length), m (a + i) = bs[i] := by
  induction bs generalizing a with
  | nil => simp
  | cons b bs ih =>
    rw [holds_cons, ih]
    constructor
    · rintro ⟨h0, hs⟩ i hi
      cases i with
      | zero => exact h0
      | succ i =>
        rw [show a + (i + 1) = a + 1 + i by omega]
        exact hs i (by simpa using hi)
    · intro h
      refine ⟨h 0 (by simp), fun i hi => ?_⟩
      rw [show a + 1 + i = a + (i + 1) by omega]
      exact h (i + 1) (by simpa using hi)

/-- What is held is what is read. -/
theorem Holds.slice (h : m.Holds a bs) : m.slice a bs.length = bs := by
  rw [holds_iff_getElem] at h
  apply List.ext_getElem
  · simp [Ram.slice]
  · intro i hi hi'
    simp [Ram.slice, h i hi']

/-- Bytes stay where they are when memory is the same there. -/
theorem Holds.congr (h : m.Holds a bs) (hm : ∀ i < bs.length, m' (a + i) = m (a + i)) :
    m'.Holds a bs := by
  rw [holds_iff_getElem] at h ⊢
  intro i hi
  rw [hm i hi, h i hi]

/-- A copy leaves what is in front of it. -/
theorem memcpy_of_lt {i : ℕ} (h : i < a) : m.memcpy a bs i = m i := by
  rw [memcpy, if_neg (by omega)]

/-- A copy leaves what is behind it. -/
theorem memcpy_of_le {i : ℕ} (h : a + bs.length ≤ i) : m.memcpy a bs i = m i := by
  rw [memcpy, if_neg (by omega)]

/-- A copy puts every byte to its place. -/
theorem memcpy_add {i : ℕ} (h : i < bs.length) : m.memcpy a bs (a + i) = bs[i] := by
  rw [memcpy, if_pos (by omega), Nat.add_sub_cancel_left]
  simp [h]

/-- The bytes that have been copied are where they have been copied to. -/
theorem holds_memcpy (m : Ram) (a : ℕ) (bs : List UInt8) : (m.memcpy a bs).Holds a bs :=
  holds_iff_getElem.2 fun _ hi => memcpy_add hi

/-- Bytes stay where they are when other bytes are overwritten. -/
theorem Holds.memcpy {b : ℕ} (h : m.Holds a bs)
    (hd : a + bs.length ≤ b ∨ b + cs.length ≤ a) : (m.memcpy b cs).Holds a bs := by
  apply h.congr
  intro i hi
  cases hd with
  | inl hd => exact memcpy_of_lt (by omega)
  | inr hd => exact memcpy_of_le (by omega)

/-- A string with its terminator in memory. -/
theorem Holds.string (h : m.Holds a (bs ++ [0])) (h0 : 0 ∉ bs) (hlen : bs.length < ramSize) :
    m.string a = bs := by
  suffices hto : ∀ k, bs.length < k → m.stringTo k a = bs from hto _ hlen
  clear hlen
  intro k hk
  induction bs generalizing a k with
  | nil =>
    obtain ⟨k, rfl⟩ : ∃ k', k = k' + 1 := ⟨k - 1, by simp at hk; omega⟩
    simp only [List.nil_append, holds_cons] at h
    simp [stringTo, h.1]
  | cons b bs ih =>
    obtain ⟨k, rfl⟩ : ∃ k', k = k' + 1 := ⟨k - 1, by simp at hk; omega⟩
    rw [List.cons_append, holds_cons] at h
    have hb : b ≠ 0 := fun he => h0 (he ▸ List.mem_cons_self)
    rw [stringTo, h.1, if_neg hb,
      ih h.2 (fun hm => h0 (List.mem_cons_of_mem _ hm)) k (by simpa using hk)]

end Ram

/-! ## Numbers -/

/-- A number is stored in 16 bits. -/
theorem ofNumeric_lt (n : ℤ) : ofNumeric n < 65536 := by
  unfold ofNumeric
  omega

/-- A word of 16 bits stands for a number with a sign. -/
theorem toNumeric_mem {w : ℕ} (h : w < 65536) : -32768 ≤ toNumeric w ∧ toNumeric w < 32768 := by
  unfold toNumeric
  split <;> omega

/-- A number of 16 bits is read as it was written. -/
theorem toNumeric_ofNumeric {n : ℤ} (h : -32768 ≤ n ∧ n < 32768) : toNumeric (ofNumeric n) = n := by
  unfold toNumeric ofNumeric
  split <;> omega

/-! ## The kind of a token -/

/-- The kind of a token. -/
def Token.kind : Token → UInt8
  | string _ => tokString
  | keyword _ => tokKeyword
  | numeric _ => tokNumeric
  | operator _ => tokOperator
  | var _ => tokVariable
  | separator => tokSeparator
  | func _ => tokFunc
  | remark _ => tokRemark
  | register _ => tokRegister

/-- The bytes of a token start with its kind. -/
theorem Token.bytes_eq_kind_cons (t : Token) : ∃ data, t.bytes = t.kind :: data := by
  cases t <;> exact ⟨_, rfl⟩

/-- No kind of a token is the terminator. -/
theorem Token.kind_ne_terminator (t : Token) : t.kind ≠ tokTerminator := by
  cases t <;> simp only [kind] <;> decide

/-- A token has a byte at least. -/
theorem Token.length_bytes_pos (t : Token) : 0 < t.bytes.length := by
  obtain ⟨data, h⟩ := t.bytes_eq_kind_cons
  simp [h]

/-! ## Listing a stored stream -/

variable {m : Ram} {a : ℕ} {t : Token} {ts : List Token}

/-- Where the bytes of a token are held, its kind is read. -/
theorem Token.apply_of_holds (hm : m.Holds a t.bytes) : m a = t.kind := by
  obtain ⟨data, hdata⟩ := t.bytes_eq_kind_cons
  rw [hdata, Ram.holds_cons] at hm
  exact hm.1

/-- The bytes of the size in front of a text that is not too long. -/
theorem toNat_sized {text : List UInt8} (h : text.length < 255) :
    (UInt8.ofNat (text.length + 1)).toNat = text.length + 1 := by
  rw [UInt8.toNat_ofNat', Nat.mod_eq_of_lt (by omega)]

/-- The number of a numeric token in memory. -/
theorem Ram.Holds.numeric {w : ℕ} (h : m.Holds a (bytes16 w)) (hw : w < 65536) :
    m.numeric a = toNumeric w := by
  simp only [bytes16, holds_cons] at h
  rw [Ram.numeric, Ram.word, h.1, h.2.1, word16_ofNat, Nat.mod_eq_of_lt hw]

/-- Listing a valid token in memory. A remark ends in front of its terminator.

**Proof sketch.** By cases on the token. The first byte selects the branch of the listing; the text
of a string, a name or a remark is read off the bytes behind it (`Ram.Holds.string`,
`Ram.Holds.slice`), a number off its two bytes. -/
theorem tDefsList_eq (hv : t.Valid) (hm : m.Holds a t.bytes) :
    tDefsList m a = some (t.text, a + t.bytes.length - if t.isRemark then 1 else 0) := by
  cases t with
  | string text =>
    simp only [Token.bytes, sized, Ram.holds_cons, List.cons_append] at hm
    obtain ⟨hk, hs, ht⟩ := hm
    rw [tDefsList, hk, if_neg (by decide), if_pos rfl, hs, toNat_sized hv.1,
      ht.string hv.2.1 (by have := hv.1; unfold ramSize; omega)]
    simp [Token.text, Token.bytes, sized, Token.isRemark]; omega
  | keyword kw =>
    simp only [Token.bytes, Ram.holds_cons] at hm
    rw [tDefsList, hm.1, hm.2.1]
    rfl
  | numeric w =>
    simp only [Token.bytes, Ram.holds_cons] at hm
    rw [tDefsList, hm.1, hm.2.numeric hv]
    rfl
  | operator op =>
    simp only [Token.bytes, Ram.holds_cons] at hm
    rw [tDefsList, hm.1, hm.2.1]
    rfl
  | var name =>
    have hlen : name.length ≤ 4 := hv.le_four
    simp only [Token.bytes, sized, Ram.holds_cons, List.cons_append] at hm
    obtain ⟨hk, hs, ht⟩ := hm
    have hslice := ht.slice
    rw [List.length_append] at hslice
    rw [tDefsList, hk, hs, toNat_sized (by omega), show a + 1 + 1 = a + 1 + 1 from rfl]
    simp only [List.length_singleton] at hslice
    rw [if_neg (by decide), if_neg (by decide), if_neg (by decide), if_neg (by decide),
      if_neg (by decide), if_pos rfl, hslice]
    simp [Token.text, Token.bytes, sized, Token.isRemark]; omega
  | separator =>
    simp only [Token.bytes, Ram.holds_cons] at hm
    rw [tDefsList, hm.1]
    rfl
  | func f =>
    simp only [Token.bytes, Ram.holds_cons] at hm
    rw [tDefsList, hm.1, hm.2.1]
    rfl
  | remark text =>
    simp only [Token.bytes, sized, Ram.holds_cons, List.cons_append] at hm
    obtain ⟨hk, hs, ht⟩ := hm
    rw [tDefsList, hk, hs, toNat_sized hv.1,
      ht.string hv.2 (by have := hv.1; unfold ramSize; omega)]
    rw [if_neg (by decide), if_neg (by decide), if_neg (by decide), if_neg (by decide),
      if_neg (by decide), if_neg (by decide), if_neg (by decide), if_neg (by decide),
      if_neg (by decide), if_pos rfl]
    simp [Token.text, Token.bytes, sized, Token.isRemark]; omega
  | register i =>
    simp only [Token.bytes, Ram.holds_cons] at hm
    rw [tDefsList, hm.1, hm.2.1]
    rfl

/-- The last byte of a remark is a NUL. -/
theorem apply_end_of_remark (hm : m.Holds a t.bytes) (hr : t.isRemark = true) :
    m (a + t.bytes.length - 1) = 0 := by
  cases t with
  | remark text =>
    simp only [Token.bytes, sized, Ram.holds_cons, List.cons_append, Ram.holds_append] at hm
    simpa [Token.bytes, sized, Nat.add_assoc, Nat.add_comm, Nat.add_left_comm] using hm.2.2.2.1
  | _ => exact absurd hr (by simp [Token.isRemark])

/-- A statement is listed as its listing, with the end of a line behind it. -/
theorem programListStmtTo_eq (h : Stream ts) (hm : m.Holds a (stored ts)) {k : ℕ}
    (hk : ts.length < k) : programListStmtTo m k a = some (listing ts ++ newline) := by
  induction ts generalizing a k with
  | nil =>
    obtain ⟨k, rfl⟩ : ∃ k', k = k' + 1 := ⟨k - 1, by simp at hk; omega⟩
    simp only [stored_nil, Ram.holds_cons] at hm
    simp [programListStmtTo, tDefsList, hm.1]
  | cons t ts ih =>
    obtain ⟨k, rfl⟩ : ∃ k', k = k' + 1 := ⟨k - 1, by simp at hk; omega⟩
    obtain ⟨hv, hrem, hts⟩ := h
    simp only [stored_cons, Ram.holds_append] at hm
    have hkind : m a = t.kind := t.apply_of_holds hm.1
    rw [programListStmtTo, tDefsList_eq hv hm.1]
    simp only [hkind, if_neg t.kind_ne_terminator, listing_cons]
    cases hr : t.isRemark with
    | false =>
      simp only [Bool.false_eq_true, if_false, Nat.sub_zero]
      rw [ih hts hm.2 (by simpa using hk)]
      simp
    | true =>
      -- the printer stops at the terminator of the remark, which is the end of the statement for it
      have hnil := hrem hr
      subst hnil
      have hend : m (a + t.bytes.length - 1) = 0 := apply_end_of_remark hm.1 hr
      obtain ⟨k, rfl⟩ : ∃ k', k = k' + 1 := ⟨k - 1, by simp at hk; omega⟩
      simp [programListStmtTo, tDefsList, hend, tokTerminator]

/-- The listing of a stored statement. -/
theorem programListStmt_eq (h : Stream ts) (hm : m.Holds a (stored ts))
    (hlen : ts.length < ramSize) : programListStmt m a = some (listing ts ++ newline) :=
  programListStmtTo_eq h hm hlen

/-- A stream has a byte for each token at least. -/
theorem length_le_length_encode (ts : List Token) : ts.length ≤ (encode ts).length := by
  induction ts with
  | nil => simp
  | cons t ts ih =>
    have := t.length_bytes_pos
    simp only [List.length_cons, encode_cons, List.length_append]
    omega

/-! ## The size of a stored stream -/

/-- Skipping a token with a size. -/
theorem tVarlenSkip_eq {kind : UInt8} {text : List UInt8} (hm : m.Holds a (kind :: sized text))
    (h : text.length < 255) : tVarlenSkip m a = a + (kind :: sized text).length := by
  simp only [sized, Ram.holds_cons, List.cons_append] at hm
  rw [tVarlenSkip, hm.2.1, toNat_sized h]
  simp [sized]
  omega

/-- Where `statement_size` goes on from an address. A byte that is not the kind of a token is not
passed. -/
def sizeNext (m : Ram) (stmt : ℕ) : ℕ :=
  if m stmt = tokNumeric then stmt + numericSize
  else if m stmt = tokKeyword then stmt + kwSize
  else if m stmt = tokOperator then stmt + opSize
  else if m stmt = tokFunc then stmt + funcSize
  else if m stmt = tokRegister then stmt + registerSize
  else if m stmt = tokSeparator then stmt + 1
  else if m stmt = tokString ∨ m stmt = tokVariable ∨ m stmt = tokAlloc ∨ m stmt = tokRemark then
    tVarlenSkip m stmt
  else stmt

/-- In front of its terminator the end of a statement is searched for behind the next token. -/
theorem statementEnd_of_ne {k : ℕ} (h : m a ≠ tokTerminator) :
    statementEnd m (k + 1) a = statementEnd m k (sizeNext m a) := by
  rw [statementEnd, if_neg h, sizeNext]
  simp only [apply_ite (statementEnd m k)]

/-- The end of a token in memory is the end of its bytes. -/
theorem sizeNext_token (hv : t.Valid) (hm : m.Holds a t.bytes) :
    sizeNext m a = a + t.bytes.length := by
  rw [sizeNext, t.apply_of_holds hm]
  cases t with
  | string text => rw [tVarlenSkip_eq hm hv.1]; rfl
  | var name =>
    have : name.length ≤ 4 := hv.le_four
    rw [tVarlenSkip_eq hm (by omega)]; rfl
  | remark text => rw [tVarlenSkip_eq hm hv.1]; rfl
  | _ => rfl

/-- In front of a token the end of a statement is searched for behind it. -/
theorem statementEnd_token (hv : t.Valid) (hm : m.Holds a t.bytes) (k : ℕ) :
    statementEnd m (k + 1) a = statementEnd m k (a + t.bytes.length) := by
  rw [statementEnd_of_ne (t.apply_of_holds hm ▸ t.kind_ne_terminator), sizeNext_token hv hm]

/-- The end of a statement is behind its terminator. -/
theorem statementEnd_eq (h : Stream ts) (hm : m.Holds a (stored ts)) {k : ℕ}
    (hk : ts.length < k) : statementEnd m k a = some (a + (stored ts).length) := by
  induction ts generalizing a k with
  | nil =>
    obtain ⟨k, rfl⟩ : ∃ k', k = k' + 1 := ⟨k - 1, by simp at hk; omega⟩
    simp only [stored_nil, Ram.holds_cons] at hm
    simp [statementEnd, hm.1]
  | cons t ts ih =>
    obtain ⟨k, rfl⟩ : ∃ k', k = k' + 1 := ⟨k - 1, by simp at hk; omega⟩
    simp only [stored_cons, Ram.holds_append] at hm
    rw [statementEnd_token h.1 hm.1, ih h.2.2 hm.2 (by simpa using hk)]
    simp [Nat.add_assoc]

/-- The size of a statement, when it is less than 256 bytes. -/
theorem statementSize_eq (h : Stream ts) (hm : m.Holds a (stored ts))
    (hlen : (stored ts).length < 256) : statementSize m a = some (stored ts).length := by
  have hts : ts.length < ramSize := by
    have := length_le_length_encode ts
    simp only [stored, List.length_append] at hlen
    unfold ramSize
    omega
  rw [statementSize, statementEnd_eq h hm hts, Option.map_some, Nat.add_sub_cancel_left,
    Nat.mod_eq_of_lt hlen]

/-! ## What the tokenizer writes -/

/-- A letter is not the end of a text. -/
theorem ne_zero_of_isLetter {c : UInt8} (h : isLetter c = true) : c ≠ 0 := by
  rintro rfl
  exact absurd h (by decide)

/-- The letters of a word are letters. -/
theorem isLetter_of_mem_word {input : List UInt8} {c : UInt8} (h : c ∈ word input) :
    isLetter c = true := by
  have := List.mem_takeWhile_imp h
  exact this

/-- Every keyword that is found is in the table. -/
theorem lookup_keywords_mem {name : List UInt8} {kw : UInt8} (h : keywords.lookup name = some kw) :
    kw ∈ keywords.map Prod.snd := by
  rw [List.lookup_eq_some_iff] at h
  obtain ⟨l₁, l₂, he, -⟩ := h
  rw [he]
  simp

/-- A letter is the name of a register. -/
theorem toNat_sub_letter {c : UInt8} (h : isLetter c = true) : (c - 0x41).toNat < numRegisters := by
  simp only [isLetter, Bool.and_eq_true, decide_eq_true_eq, UInt8.le_iff_toNat_le] at h
  rw [UInt8.toNat_sub_of_le _ _ (by rw [UInt8.le_iff_toNat_le]; exact h.1)]
  have h2 := h.2
  simp only [UInt8.reduceToNat, numRegisters] at h2 ⊢
  omega

/-- What a parser writes is a token, valid when it fits the buffer, and what it leaves is a proper
end of its text. -/
structure Reads (input toks rest : List UInt8) (t : Token) : Prop where
  bytes : toks = t.bytes
  valid : t.bytes.length ≤ statementSizeMax → t.Valid
  remark : t.isRemark = true → rest = []
  suffix : rest <:+ input
  shorter : rest.length < input.length

variable {input toks rest : List UInt8}

/-- A remark is read as a token. -/
theorem tRemParse_reads (h0 : 0 ∉ input) (h : tRemParse input = some (toks, rest)) :
    ∃ t, Reads input toks rest t := by
  unfold tRemParse at h
  split at h
  · next text =>
    simp only [Option.some.injEq, Prod.mk.injEq] at h
    obtain ⟨rfl, rfl⟩ := h
    refine ⟨.remark text, rfl, fun hl => ⟨?_, ?_⟩, fun _ => rfl, List.nil_suffix, by simp⟩
    · simp only [Token.bytes, sized, List.length_cons, List.cons_append, List.length_append,
        List.length_nil, statementSizeMax] at hl
      omega
    · intro hm
      exact h0 (by simp [hm])
  · exact absurd h (by simp)

/-- A separator is read as a token. -/
theorem tSepParse_reads (h : tSepParse input = some (toks, rest)) :
    ∃ t, Reads input toks rest t := by
  unfold tSepParse at h
  split at h
  · simp only [Option.some.injEq, Prod.mk.injEq] at h
    obtain ⟨rfl, rfl⟩ := h
    exact ⟨.separator, rfl, fun _ => trivial, by simp [Token.isRemark], List.suffix_cons _ _,
      by simp⟩
  · exact absurd h (by simp)

/-- A string is read as a token. -/
theorem tStringParse_reads (h0 : 0 ∉ input) (h : tStringParse input = some (some (toks, rest))) :
    ∃ t, Reads input toks rest t := by
  unfold tStringParse at h
  split at h
  · next text =>
    cases hd : text.dropWhile (· ≠ 0x22) with
    | nil =>
      simp only [hd] at h
      exact absurd h (by simp)
    | cons q rest' =>
      simp only [hd, Option.some.injEq, Prod.mk.injEq] at h
      obtain ⟨rfl, rfl⟩ := h
      have hsuf : q :: rest' <:+ text := hd ▸ List.dropWhile_suffix _
      have hsuf' : rest' <:+ text := (List.suffix_cons q rest').trans hsuf
      refine ⟨.string (text.takeWhile (· ≠ 0x22)), rfl, fun hl => ⟨?_, ?_, ?_⟩,
        by simp [Token.isRemark], hsuf'.trans (List.suffix_cons _ _), ?_⟩
      · simp only [Token.bytes, sized, List.length_cons, List.cons_append, List.length_append,
          List.length_nil, statementSizeMax] at hl
        omega
      · intro hm
        exact h0 (List.mem_cons_of_mem _ ((List.takeWhile_prefix _).subset hm))
      · intro hm
        have := List.mem_takeWhile_imp hm
        simp at this
      · have := hsuf'.length_le
        simp only [List.length_cons]
        omega
  · exact absurd h (by simp)

/-- An operator is read as a token. -/
theorem tOperatorParse_reads (h : tOperatorParse input = some (toks, rest)) :
    ∃ t, Reads input toks rest t := by
  have key : ∀ op, op ≤ opMult → toks = [tokOperator, op] → rest <:+ input →
      rest.length < input.length → ∃ t, Reads input toks rest t := by
    intro op hop ht hs hl
    exact ⟨.operator op, ht, fun _ => hop, by simp [Token.isRemark], hs, hl⟩
  unfold tOperatorParse at h
  split at h
  case h_11 => exact absurd h (by simp)
  all_goals
    simp only [Option.some.injEq, Prod.mk.injEq] at h
    obtain ⟨rfl, rfl⟩ := h
    refine key _ (by decide) rfl ?_ (by simp only [List.length_cons]; omega)
    simp [List.suffix_cons_iff]

/-- A number is read as a token. -/
theorem tNumericParse_reads (h : tNumericParse input = some (toks, rest)) :
    ∃ t, Reads input toks rest t := by
  unfold tNumericParse at h
  cases hd : input.takeWhile isDigit with
  | nil => simp [hd] at h
  | cons d ds =>
    simp only [hd, Option.some.injEq, Prod.mk.injEq] at h
    obtain ⟨rfl, rfl⟩ := h
    refine ⟨.numeric (ofNumeric (digitsValue (d :: ds))), rfl, fun _ => ofNumeric_lt _,
      by simp [Token.isRemark], List.dropWhile_suffix _, ?_⟩
    have hl := congrArg List.length (List.takeWhile_append_dropWhile (p := isDigit) (l := input))
    rw [hd, List.length_append, List.length_cons] at hl
    omega

/-- The letters at the start of a text and what is behind them. -/
theorem word_append (input : List UInt8) : word input ++ input.dropWhile isLetter = input :=
  List.takeWhile_append_dropWhile

/-- Behind a word there is less than before. -/
theorem length_dropWhile_lt (h : word input ≠ []) :
    (input.dropWhile isLetter).length < input.length := by
  have hl := congrArg List.length (word_append input)
  rw [List.length_append] at hl
  have := List.length_pos_iff.2 h
  omega

/-- A keyword is read as a token. -/
theorem tKeywordParse_reads (h : tKeywordParse input = some (toks, rest)) :
    ∃ t, Reads input toks rest t := by
  unfold tKeywordParse at h
  cases hl : keywords.lookup (word input) with
  | none => simp [hl] at h
  | some code =>
    simp only [hl, Option.some.injEq, Prod.mk.injEq] at h
    obtain ⟨rfl, rfl⟩ := h
    have hne : word input ≠ [] := by
      intro he
      rw [he, show keywords.lookup [] = none by decide] at hl
      exact absurd hl (by simp)
    exact ⟨.keyword code, rfl, fun _ => lookup_keywords_mem hl, by simp [Token.isRemark],
      List.dropWhile_suffix _, length_dropWhile_lt hne⟩

/-- A function is read as a token. -/
theorem tFuncParse_reads (h : tFuncParse input = some (toks, rest)) :
    ∃ t, Reads input toks rest t := by
  unfold tFuncParse at h
  split at h
  · next hw =>
    simp only [Option.some.injEq, Prod.mk.injEq] at h
    obtain ⟨rfl, rfl⟩ := h
    exact ⟨.func funcRnd, rfl, fun _ => rfl, by simp [Token.isRemark], List.dropWhile_suffix _,
      length_dropWhile_lt (by rw [hw]; decide)⟩
  · exact absurd h (by simp)

/-- The name of a variable that is read when nothing else can be read.

**Proof sketch.** The word is cut to four letters. A name that is a function or a keyword would be
the whole word, which those parsers refused; one that begins a remark would begin the text. -/
theorem isName_take (h2 : 2 ≤ (word input).length) (hrem : tRemParse input = none)
    (hkw : tKeywordParse input = none) (hfunc : tFuncParse input = none) :
    Token.IsName ((word input).take varnameSize) where
  letters c hc := isLetter_of_mem_word (List.mem_of_mem_take hc)
  two_le := by
    rw [List.length_take, varnameSize]
    omega
  le_four := by
    rw [List.length_take]
    omega
  not_rem := by
    intro hp
    have hp' : ascii ['R', 'E', 'M'] <+: input :=
      hp.trans ((List.take_prefix _ _).trans (List.takeWhile_prefix _))
    obtain ⟨text, rfl⟩ := hp'
    exact absurd hrem (by simp [ascii, tRemParse])
  not_func := by
    intro he
    have hlen := congrArg List.length he
    rw [List.length_take] at hlen
    have hword : (word input).take varnameSize = word input := by
      apply List.take_of_length_le
      simp only [ascii, List.map_cons, List.map_nil, List.length_cons, List.length_nil,
        varnameSize] at hlen ⊢
      omega
    rw [tFuncParse, if_pos (by rw [← hword, he])] at hfunc
    exact absurd hfunc (by simp)
  keyword_length := by
    intro hne
    by_contra hlen
    rw [List.length_take] at hlen
    have hword : (word input).take varnameSize = word input :=
      List.take_of_length_le (by omega)
    rw [hword] at hne
    unfold tKeywordParse at hkw
    cases hl : keywords.lookup (word input) with
    | none => exact hne hl
    | some code => simp [hl] at hkw

/-- A name is read as a token, when nothing else is read. -/
theorem tVariableParse_reads (hrem : tRemParse input = none) (hkw : tKeywordParse input = none)
    (hfunc : tFuncParse input = none) (h : tVariableParse input = some (toks, rest)) :
    ∃ t, Reads input toks rest t := by
  unfold tVariableParse at h
  split at h
  · exact absurd h (by simp)
  · next c hw =>
    simp only [Option.some.injEq, Prod.mk.injEq] at h
    obtain ⟨rfl, rfl⟩ := h
    have hc : isLetter c = true := isLetter_of_mem_word (show c ∈ word input by simp [hw])
    exact ⟨.register (c - 0x41), rfl, fun _ => toNat_sub_letter hc, by simp [Token.isRemark],
      List.dropWhile_suffix _, length_dropWhile_lt (by simp [hw])⟩
  · next hnil hone =>
    simp only [Option.some.injEq, Prod.mk.injEq] at h
    obtain ⟨rfl, rfl⟩ := h
    have hne : word input ≠ [] := hnil
    have h2 : 2 ≤ (word input).length := by
      match hw : word input with
      | [] => exact absurd hw hnil
      | [c] => exact absurd hw (hone c)
      | _ :: _ :: _ => simp
    exact ⟨.var ((word input).take varnameSize), rfl, fun _ => isName_take h2 hrem hkw hfunc,
      by simp [Token.isRemark], List.dropWhile_suffix _, length_dropWhile_lt hne⟩

/-- What the tokenizer reads at a place is a token.

**Proof sketch.** The parsers are tried in the order of the source, and the one that succeeds has
read a token of its kind. A variable is read only where no remark, keyword or function begins, which
is what makes its name valid. -/
theorem statementTokenizeString_reads (h0 : 0 ∉ input)
    (h : statementTokenizeString input = some (some (toks, rest))) :
    ∃ t, Reads input toks rest t := by
  unfold statementTokenizeString at h
  split at h
  · next r hr =>
    simp only [Option.some.injEq] at h
    exact tRemParse_reads h0 (h ▸ hr)
  next hrem =>
  split at h
  · next r hr =>
    simp only [Option.some.injEq] at h
    exact tSepParse_reads (h ▸ hr)
  split at h
  · exact absurd h (by simp)
  · next r hr =>
    simp only [Option.some.injEq] at h
    exact tStringParse_reads h0 (h ▸ hr)
  split at h
  · next r hr =>
    simp only [Option.some.injEq] at h
    exact tOperatorParse_reads (h ▸ hr)
  split at h
  · next r hr =>
    simp only [Option.some.injEq] at h
    exact tNumericParse_reads (h ▸ hr)
  split at h
  · exact absurd h (by simp)
  split at h
  · next r hr =>
    simp only [Option.some.injEq] at h
    exact tKeywordParse_reads (h ▸ hr)
  next hkw =>
  split at h
  · next r hr =>
    simp only [Option.some.injEq] at h
    exact tFuncParse_reads (h ▸ hr)
  next hfunc =>
  simp only [Option.some.injEq] at h
  exact tVariableParse_reads hrem hkw hfunc h

/-- The loop of the tokenizer writes the bytes of a stream, as long as they fit into the buffer, and
the tokens start where it says.

**Proof sketch.** By induction on the bound of the loop. At the end of the text nothing is written;
otherwise a token is read (`statementTokenizeString_reads`), which begins where the loop stands, and
the induction hypothesis gives the tokens behind it. -/
theorem tokenizeLoop_spec {k : ℕ} {stmt out : List UInt8} (h0 : 0 ∉ input)
    (h : tokenizeLoop k stmt input = some (.noerror, out)) :
    ∃ ts, out = stmt ++ stored ts ∧ ((stored ts).length ≤ statementSizeMax → Stream ts) ∧
      (input = [] → ts = []) ∧
      tokenizeLoopStarts k stmt.length input = some (starts stmt.length ts) := by
  induction k generalizing stmt input with
  | zero => exact absurd h (by simp [tokenizeLoop])
  | succ k ih =>
    rw [tokenizeLoop] at h
    cases hd : input.dropWhile (· = 0x20) with
    | nil =>
      simp only [hd, Option.some.injEq, Prod.mk.injEq, true_and] at h
      exact ⟨[], h.symm, fun _ => trivial, fun _ => rfl, by simp only [tokenizeLoopStarts, hd]; rfl⟩
    | cons c rest =>
      simp only [hd] at h
      have hsuf : c :: rest <:+ input := hd ▸ List.dropWhile_suffix _
      have hne : input ≠ [] := by
        rintro rfl
        exact absurd hd (by simp)
      have h0' : 0 ∉ c :: rest := fun hm => h0 (hsuf.subset hm)
      cases ht : statementTokenizeString (c :: rest) with
      | none => simp [ht] at h
      | some p =>
        cases p with
        | none => simp [ht] at h
        | some p =>
          obtain ⟨toks, rest'⟩ := p
          simp only [ht] at h
          obtain ⟨t, hr⟩ := statementTokenizeString_reads h0' ht
          have h0'' : 0 ∉ rest' := fun hm => h0' (hr.suffix.subset hm)
          obtain ⟨ts, hout, hstream, hnil, hstarts⟩ := ih h0'' h
          refine ⟨t :: ts, ?_, ?_, fun he => absurd he hne, ?_⟩
          · rw [hout, hr.bytes, stored_cons, List.append_assoc]
          · intro hl
            rw [stored_cons, List.length_append] at hl
            exact ⟨hr.valid (by omega), fun hrem => hnil (hr.remark hrem), hstream (by omega)⟩
          · rw [List.length_append, hr.bytes] at hstarts
            simp only [tokenizeLoopStarts, hd, ht, hr.bytes, hstarts, Option.map_some, starts]

/-- An accepted text is stored as a stream of valid tokens, which begin where the tokenizer has
written them.

**Proof sketch.** The first token is read before the loop (`statementTokenizeString_reads`) and the
others by the loop (`tokenizeLoop_spec`). The text is refused when they do not fit into the
buffer. -/
theorem exists_starts_of_statementTokenize {out : List UInt8} (h0 : 0 ∉ input)
    (h : statementTokenize input = some (.noerror, out)) :
    ∃ ts, out = stored ts ∧ Stream ts ∧ ts ≠ [] ∧ (stored ts).length ≤ statementSizeMax ∧
      statementTokenizeStarts input = some (starts 0 ts) := by
  unfold statementTokenize at h
  cases ht : statementTokenizeString input with
  | none => simp [ht] at h
  | some p =>
    cases p with
    | none => simp [ht] at h
    | some p =>
      obtain ⟨toks, rest⟩ := p
      simp only [ht] at h
      cases hl : tokenizeLoop (input.length + 1) toks rest with
      | none => simp [hl] at h
      | some q =>
        obtain ⟨e, stmt⟩ := q
        simp only [hl] at h
        split at h
        · next hle =>
          simp only [Option.some.injEq, Prod.mk.injEq] at h
          obtain ⟨rfl, rfl⟩ := h
          obtain ⟨t, hr⟩ := statementTokenizeString_reads h0 ht
          obtain ⟨ts, hout, hstream, hnil, hstarts⟩ :=
            tokenizeLoop_spec (fun hm => h0 (hr.suffix.subset hm)) hl
          have hst : stmt = stored (t :: ts) := by rw [hout, hr.bytes, stored_cons]
          rw [hst] at hle
          have hlen := hle
          rw [stored_cons, List.length_append] at hlen
          refine ⟨t :: ts, hst, ⟨hr.valid (by omega), fun hrem => hnil (hr.remark hrem),
            hstream (by omega)⟩, by simp, hle, ?_⟩
          rw [hr.bytes] at hstarts
          simp only [statementTokenizeStarts, ht, hr.bytes, hstarts, Option.map_some, starts,
            Nat.zero_add]
        · exact absurd h (by simp)

/-- An accepted text is stored as a stream of valid tokens. -/
theorem exists_of_statementTokenize {out : List UInt8} (h0 : 0 ∉ input)
    (h : statementTokenize input = some (.noerror, out)) :
    ∃ ts, out = stored ts ∧ Stream ts ∧ ts ≠ [] ∧ (stored ts).length ≤ statementSizeMax := by
  obtain ⟨ts, hout, hs, hne, hlen, -⟩ := exists_starts_of_statementTokenize h0 h
  exact ⟨ts, hout, hs, hne, hlen⟩

/-- What the tokenizer writes fits into the buffer. -/
theorem length_le_of_statementTokenize {text out : List UInt8} {e : Error}
    (h : statementTokenize text = some (e, out)) : out.length ≤ statementSizeMax := by
  unfold statementTokenize at h
  split at h
  · exact absurd h (by simp)
  · simp only [Option.some.injEq, Prod.mk.injEq] at h
    rw [← h.2]
    exact Nat.zero_le _
  · split at h
    · exact absurd h (by simp)
    · next stmt _ =>
      by_cases hle : stmt.length ≤ statementSizeMax
      · rw [if_pos hle, Option.some.injEq, Prod.mk.injEq] at h
        exact h.2 ▸ hle
      · rw [if_neg hle] at h
        exact absurd h (by simp)

end Z80OS.Basic
