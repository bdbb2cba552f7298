import Mathlib.Logic.Function.Iterate
import Mathlib.Data.List.Nodup
import Mathlib.Data.List.GetD

set_option relaxedAutoImplicit false
set_option autoImplicit false

/-!
# Chains in a link table

A link table gives every cell the name of the next cell, or an end marker. Allocation tables,
free lists and intrusive lists are of this form. This file has the predicate saying which cells
a walk from a given cell visits, and what the usual updates of the table do to it.

## Main definitions

* `LinkTable.Chain` — the walk from `a` visits exactly the cells of `l` and then meets the end
  marker.
* `LinkTable.Walk` — the walk from `a` starts with the cells of `l`.

## Main results

* `LinkTable.Chain.unique`, `LinkTable.Chain.nodup` — the visited cells are determined, and no
  cell is visited twice.
* `LinkTable.Chain.congr` — a chain depends only on the links of its own cells.
* `LinkTable.Chain.snoc` — linking a fresh cell behind the last one appends it to the chain.
* `LinkTable.Chain.getD_succ` — the link of the `i`-th cell is the `(i + 1)`-st cell.
* `LinkTable.Walk.prefix_of_chain` — a walk stays on the chain.
* `LinkTable.Walk.of_relink` — what a walk can gain when two links are replaced.
-/

namespace LinkTable

variable {α : Type*} (next : α → α) (eof : α)

/-- Following `next` from the given cell visits the cells of the list, in this order, and then
meets the end marker `eof`. -/
def Chain : α → List α → Prop
  | a, [] => a = eof
  | a, b :: l => a = b ∧ b ≠ eof ∧ Chain (next b) l

variable {next eof} {a b c : α} {l m : List α}

/-- The empty chain starts with the end mark. -/
@[simp] theorem chain_nil : Chain next eof a [] ↔ a = eof := Iff.rfl

/-- A chain starts with its first cell, and goes on with the next one. -/
@[simp] theorem chain_cons :
    Chain next eof a (b :: l) ↔ a = b ∧ b ≠ eof ∧ Chain next eof (next b) l := Iff.rfl

/-- A single cell whose link is the end marker. -/
theorem chain_singleton (ha : a ≠ eof) (hn : next a = eof) : Chain next eof a [a] :=
  ⟨rfl, ha, hn⟩

namespace Chain

/-- The walk determines the visited cells. -/
theorem unique (hl : Chain next eof a l) (hm : Chain next eof a m) : l = m := by
  induction l generalizing a m with
  | nil =>
    cases m with
    | nil => rfl
    | cons b m => exact absurd hl (hm.1 ▸ hm.2.1)
  | cons b l ih =>
    cases m with
    | nil => exact absurd hm (hl.1 ▸ hl.2.1)
    | cons c m =>
      obtain ⟨rfl, -, hl⟩ := hl
      obtain ⟨rfl, -, hm⟩ := hm
      rw [ih hl hm]

/-- The end marker is not a cell of a chain. -/
theorem ne_eof (h : Chain next eof a l) (hb : b ∈ l) : b ≠ eof := by
  induction l generalizing a with
  | nil => simp at hb
  | cons c l ih =>
    obtain ⟨-, hc, h⟩ := h
    rcases List.mem_cons.mp hb with rfl | hb
    · exact hc
    · exact ih h hb

/-- From a cell of a chain the walk visits the cells from there on. -/
theorem of_append (h : Chain next eof a (l ++ b :: m)) : Chain next eof b (b :: m) := by
  induction l generalizing a with
  | nil => exact ⟨rfl, h.2.1, h.2.2⟩
  | cons c l ih => exact ih h.2.2

/-- No cell is visited twice.

**Proof sketch.** If the first cell occurred again, the walk from it would visit both the whole
chain and the part after the second occurrence, against `unique`. -/
theorem nodup (h : Chain next eof a l) : l.Nodup := by
  induction l generalizing a with
  | nil => exact List.nodup_nil
  | cons b l ih =>
    refine List.nodup_cons.mpr ⟨fun hb => ?_, ih h.2.2⟩
    obtain ⟨l₁, l₂, rfl⟩ := List.append_of_mem hb
    have h₁ : Chain next eof b (b :: (l₁ ++ b :: l₂)) := ⟨rfl, h.2.1, h.2.2⟩
    have h₂ : Chain next eof b (b :: l₂) := of_append (l := b :: l₁) h
    have := congrArg List.length (unique h₁ h₂)
    simp at this
    omega

/-- A chain depends only on the links of its own cells. -/
theorem congr {next' : α → α} (h : Chain next eof a l) (hn : ∀ b ∈ l, next' b = next b) :
    Chain next' eof a l := by
  induction l generalizing a with
  | nil => exact h
  | cons b l ih =>
    obtain ⟨rfl, hb, h⟩ := h
    refine ⟨rfl, hb, ?_⟩
    rw [hn _ List.mem_cons_self]
    exact ih h fun c hc => hn c (List.mem_cons_of_mem _ hc)

/-- The last cell of a chain links to the end marker. -/
theorem next_last (h : Chain next eof a (l ++ [b])) : next b = eof := by
  induction l generalizing a with
  | nil => exact h.2.2
  | cons c l ih => exact ih h.2.2

/-- The link of the `i`-th cell is the `(i + 1)`-st cell, or the end marker after the last. -/
theorem getD_succ (h : Chain next eof a l) {i : ℕ} (hi : i < l.length) :
    next (l.getD i eof) = l.getD (i + 1) eof := by
  induction l generalizing a i with
  | nil => simp at hi
  | cons b l ih =>
    obtain ⟨-, -, h⟩ := h
    cases i with
    | zero =>
      cases l with
      | nil => exact h
      | cons c l => exact h.1
    | succ i => simpa using ih h (by simpa using hi)

/-- A link of a chain leads to a cell of the chain or to the end marker, so it is never a value
`z` that is neither. -/
theorem next_ne {z : α} (h : Chain next eof a l) (hz : z ∉ l) (hze : z ≠ eof) (hb : b ∈ l) :
    next b ≠ z := by
  obtain ⟨i, hi, rfl⟩ := List.getElem_of_mem hb
  have hs := h.getD_succ hi
  rw [List.getD_eq_getElem _ _ hi] at hs
  rw [hs]
  rcases Nat.lt_or_ge (i + 1) l.length with hlt | hge
  · rw [List.getD_eq_getElem _ _ hlt]
    exact fun he => hz (he ▸ List.getElem_mem hlt)
  · rw [List.getD_eq_default _ _ hge]
    exact hze.symm

/-- **Extension of a chain.** Linking the last cell `b` to a cell `c` outside the chain, and `c`
to the end marker, appends `c` to the chain.

**Proof sketch.** Induction on the cells before `b`: their links are unchanged, since neither
`b` nor `c` is among them. -/
theorem snoc [DecidableEq α] (h : Chain next eof a (l ++ [b])) (hc : c ∉ l ++ [b])
    (hce : c ≠ eof) :
    Chain (Function.update (Function.update next b c) c eof) eof a (l ++ [b, c]) := by
  have hnd := h.nodup
  have hbe := h.ne_eof (b := b) (by simp)
  have hcb : b ≠ c := fun he => hc (by simp [he])
  induction l generalizing a with
  | nil =>
    obtain ⟨rfl, -, -⟩ := h
    refine ⟨rfl, hbe, ?_⟩
    rw [Function.update_of_ne hcb, Function.update_self]
    exact ⟨rfl, hce, Function.update_self ..⟩
  | cons d l ih =>
    obtain ⟨rfl, hd, h⟩ := h
    refine ⟨rfl, hd, ?_⟩
    simp only [List.cons_append, List.nodup_cons, List.mem_append, List.mem_cons,
      List.not_mem_nil, or_false, not_or] at hnd hc
    rw [Function.update_of_ne (fun he => hc.1 he.symm), Function.update_of_ne hnd.1.2]
    exact ih h (by simpa using hc.2) hnd.2

end Chain

/-! ## Walks -/

/-- Following `next` from the given cell visits the cells of the list first. -/
def Walk (next : α → α) : α → List α → Prop
  | _, [] => True
  | a, b :: l => a = b ∧ Walk next (next b) l

/-- The empty walk can start anywhere. -/
@[simp] theorem walk_nil : Walk next a [] := trivial

/-- A walk starts with its first cell, and goes on with the next one. -/
@[simp] theorem walk_cons : Walk next a (b :: l) ↔ a = b ∧ Walk next (next b) l := Iff.rfl

/-- A chain is a walk. -/
theorem Chain.walk (h : Chain next eof a l) : Walk next a l := by
  induction l generalizing a with
  | nil => exact walk_nil
  | cons b l ih => exact ⟨h.1, ih h.2.2⟩

namespace Walk

/-- A walk does not leave the chain. -/
theorem prefix_of_chain (h : Walk next a m) (hm : ∀ b ∈ m, b ≠ eof)
    (hl : Chain next eof a l) : m <+: l := by
  induction m generalizing a l with
  | nil => exact List.nil_prefix
  | cons b m ih =>
    obtain ⟨rfl, h⟩ := h
    cases l with
    | nil => exact absurd hl (hm a List.mem_cons_self)
    | cons c l =>
      obtain ⟨rfl, -, hl⟩ := hl
      exact List.cons_prefix_cons.mpr
        ⟨rfl, ih h (fun b hb => hm b (List.mem_cons_of_mem _ hb)) hl⟩

/-- A walk depends only on the links of its own cells. -/
theorem congr {next' : α → α} (h : Walk next a l) (hn : ∀ b ∈ l, next' b = next b) :
    Walk next' a l := by
  induction l generalizing a with
  | nil => exact walk_nil
  | cons b l ih =>
    obtain ⟨rfl, h⟩ := h
    refine ⟨rfl, ?_⟩
    rw [hn _ List.mem_cons_self]
    exact ih h fun c hc => hn c (List.mem_cons_of_mem _ hc)

/-- Links that agree with those of a walk up to its `i`-th cell lead to it.

**Proof sketch.** Induction on the walk. -/
theorem iterate {next' : α → α} (h : Walk next a l) {i : ℕ} (hi : i < l.length) (z : α)
    (hn : ∀ j < i, next' (l.getD j z) = next (l.getD j z)) : next'^[i] a = l.getD i z := by
  induction l generalizing a i with
  | nil => exact absurd hi (Nat.not_lt_zero i)
  | cons b l ih =>
    obtain ⟨rfl, h⟩ := h
    cases i with
    | zero => rfl
    | succ i =>
      have hfirst : next' a = next a := hn 0 (Nat.zero_lt_succ i)
      rw [Function.iterate_succ_apply, hfirst]
      exact ih h (Nat.lt_of_succ_lt_succ hi) fun j hj => hn (j + 1) (Nat.succ_lt_succ hj)

/-- A walk from the end marker visits no cell. -/
theorem eq_nil (h : Walk next eof l) (hl : ∀ b ∈ l, b ≠ eof) : l = [] := by
  cases l with
  | nil => rfl
  | cons b l => exact absurd h.1.symm (hl b List.mem_cons_self)

/-- **Two links replaced.** When the cell `b` is linked to `c`, and the cell `d` to the end marker,
a walk visits what it had visited before, or in addition the cell `c` behind `b`. Nothing is known
about `d` unless the walk visits `c`.

**Proof sketch.** Induction on the walk. At `d` the walk ends. At `b` it goes on to `c`, which then
is `d`. The other links are the old ones. -/
theorem of_relink [DecidableEq α] {d : α}
    (h : Walk (Function.update (Function.update next b c) d eof) a l)
    (hl : ∀ x ∈ l, x ≠ eof) (hc : c ∈ l → d = c) :
    Walk next a l ∨ ∃ m, l = m ++ [b, c] ∧ Walk next a (m ++ [b]) := by
  induction l generalizing a with
  | nil => exact .inl walk_nil
  | cons x l ih =>
    obtain ⟨rfl, h⟩ := h
    have hl' : ∀ x ∈ l, x ≠ eof := fun x hx => hl x (List.mem_cons_of_mem _ hx)
    by_cases hd : a = d
    · -- the walk ends here
      subst hd
      rw [Function.update_self] at h
      rw [h.eq_nil hl']
      exact .inl ⟨rfl, walk_nil⟩
    rw [Function.update_of_ne hd] at h
    by_cases hb : a = b
    · -- the walk goes on to `c` and ends there
      subst hb
      rw [Function.update_self] at h
      cases l with
      | nil => exact .inl ⟨rfl, walk_nil⟩
      | cons y l =>
        obtain ⟨rfl, h⟩ := h
        obtain rfl := hc (by simp)
        rw [Function.update_self] at h
        rw [h.eq_nil fun x hx => hl' x (List.mem_cons_of_mem _ hx)]
        exact .inr ⟨[], rfl, rfl, walk_nil⟩
    · rw [Function.update_of_ne hb] at h
      rcases ih h hl' (fun hin => hc (List.mem_cons_of_mem _ hin)) with hwalk | ⟨m, rfl, hwalk⟩
      · exact .inl ⟨rfl, hwalk⟩
      · exact .inr ⟨a :: m, rfl, rfl, hwalk⟩

end Walk

end LinkTable
