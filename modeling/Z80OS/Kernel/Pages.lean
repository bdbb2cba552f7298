import Mathlib.Data.List.Nodup
import Z80OS.Kernel.Memory
import Z80OS.Lib.Run

set_option relaxedAutoImplicit false
set_option autoImplicit false

/-!
# The page allocator

Pages are allocated and freed in any order. A page can be freed that is free already, that has never
been allocated, or that does not exist; such a page is marked as free in the table, too, but the
allocation looks only at the pages that exist.

## Main definitions

* `Z80OS.MemoryCall`, `Z80OS.memoryCall` — the calls and what they do.
* `Z80OS.outstanding` — the pages that have been allocated and not been freed since.
* `Z80OS.Memory.Holds` — what the page table says about them.

## Main results

* `Z80OS.page_allocator` — the outstanding pages are different, and an allocation answers with the
  lowest page that is not outstanding.
-/

namespace Z80OS

/-! ## Calls -/

/-- The calls of the memory manager after its initialisation. -/
inductive MemoryCall
  | allocate
  | free (page : Fin pagesMax)
  deriving DecidableEq

/-- The answer to a call, if it has one, and the memory manager after it. -/
def memoryCall (m : Memory) : MemoryCall → Option (Option ℤ × Memory)
  | .allocate => some (some (memoryAllocate m).1, (memoryAllocate m).2)
  | .free page => some (none, memoryFree m page)

/-- The pages that are outstanding after a call, when `out` were outstanding before: an allocation
that answers with a page adds it, and a free removes the page from all allocations. -/
def outstandingAfter (out : List ℤ) : MemoryCall → Option ℤ → List ℤ
  | .allocate, some page => if page < 0 then out else page :: out
  | .allocate, none => out
  | .free page, _ => out.filter (· ≠ ((page : ℕ) : ℤ))

/-- The pages that have been allocated and not been freed since, one for each allocation. -/
def outstanding : List ℤ → List MemoryCall → List (Option ℤ) → List ℤ
  | out, c :: calls, r :: answers => outstanding (outstandingAfter out c r) calls answers
  | out, _, _ => out

/-! ## The page table -/

/-- The pages `out` are outstanding: they are different pages of the first `pages` ones, and of
these, the others are free. -/
structure Memory.Holds (m : Memory) (pages : ℕ) (out : List ℤ) : Prop where
  numPages : m.numPages = pages
  nodup : out.Nodup
  exists_page : ∀ p ∈ out, ∃ i : Fin pagesMax, (i : ℕ) < pages ∧ p = ((i : ℕ) : ℤ)
  free_iff : ∀ i : Fin pagesMax, (i : ℕ) < pages →
    (m.pageTable i = .free ↔ ((i : ℕ) : ℤ) ∉ out)

variable {m m' : Memory} {pages : ℕ} {out : List ℤ} {c : MemoryCall} {r : Option ℤ}

/-- No page is outstanding after the initialisation. -/
theorem memoryInit_holds (h : pages ≤ pagesMax) : (memoryInit m pages).2.Holds pages [] := by
  rw [memoryInit, dif_neg (Nat.not_lt.mpr h)]
  refine ⟨rfl, List.nodup_nil, fun p hp => absurd hp List.not_mem_nil, fun i hi => ?_⟩
  simp [hi]

namespace Memory.Holds

/-- A page is outstanding when it exists and is not free. -/
theorem mem_of_not_free (h : m.Holds pages out) {i : Fin pagesMax} (hi : (i : ℕ) < pages)
    (hfree : ¬ ((i : ℕ) < m.numPages ∧ m.pageTable i = .free)) : ((i : ℕ) : ℤ) ∈ out := by
  by_contra hout
  exact hfree ⟨h.numPages ▸ hi, (h.free_iff i hi).mpr hout⟩

/-- An allocation takes the lowest page that is not outstanding, or all pages are outstanding. -/
theorem allocate_cases (h : m.Holds pages out) :
    (∃ i : Fin pagesMax, (i : ℕ) < pages ∧ ((i : ℕ) : ℤ) ∉ out ∧
        (∀ j < i, ((j : ℕ) : ℤ) ∈ out) ∧ memoryAllocate m = (((i : ℕ) : ℤ), m.use i)) ∨
      (∀ i : Fin pagesMax, (i : ℕ) < pages → ((i : ℕ) : ℤ) ∈ out) ∧
        memoryAllocate m = (eNopages, m) := by
  cases hpage : m.freePage with
  | some i =>
    obtain ⟨⟨hi, hfree⟩, hlower⟩ := freePage_eq_some_iff.mp hpage
    rw [h.numPages] at hi
    refine .inl ⟨i, hi, (h.free_iff i hi).mp hfree, fun j hj => ?_, by rw [memoryAllocate, hpage]⟩
    exact h.mem_of_not_free (Nat.lt_trans (show (j : ℕ) < i from hj) hi) (hlower j hj)
  | none =>
    refine .inr ⟨fun i hi => ?_, by rw [memoryAllocate, hpage]⟩
    exact h.mem_of_not_free hi (freePage_eq_none_iff.mp hpage i)

/-- A page that is used is outstanding. -/
theorem use (h : m.Holds pages out) {i : Fin pagesMax} (hi : (i : ℕ) < pages)
    (hout : ((i : ℕ) : ℤ) ∉ out) : (m.use i).Holds pages (((i : ℕ) : ℤ) :: out) where
  numPages := h.numPages
  nodup := List.nodup_cons.mpr ⟨hout, h.nodup⟩
  exists_page := by
    intro p hp
    cases List.mem_cons.mp hp with
    | inl hp => exact ⟨i, hi, hp⟩
    | inr hp => exact h.exists_page p hp
  free_iff := by
    intro j hj
    rw [use_table]
    by_cases hji : j = i
    · subst hji
      simp
    · have hne : ((j : ℕ) : ℤ) ≠ ((i : ℕ) : ℤ) := fun heq => hji (Fin.ext (by omega))
      rw [if_neg hji, h.free_iff j hj, List.mem_cons, not_or]
      exact ⟨fun hj => ⟨hne, hj⟩, And.right⟩

/-- A page that is freed is not outstanding any more. -/
theorem free (h : m.Holds pages out) (page : Fin pagesMax) :
    (memoryFree m page).Holds pages (out.filter (· ≠ ((page : ℕ) : ℤ))) where
  numPages := h.numPages
  nodup := h.nodup.filter _
  exists_page p hp := h.exists_page p (List.mem_of_mem_filter hp)
  free_iff := by
    intro j hj
    rw [memoryFree_table, List.mem_filter]
    by_cases hjp : j = page
    · subst hjp
      simp
    · have hne : ((j : ℕ) : ℤ) ≠ ((page : ℕ) : ℤ) := fun heq => hjp (Fin.ext (by omega))
      rw [if_neg hjp, h.free_iff j hj]
      simp [hne]

/-- What a call keeps. -/
theorem call (h : m.Holds pages out) (hr : memoryCall m c = some (r, m')) :
    m'.Holds pages (outstandingAfter out c r) := by
  cases c with
  | allocate =>
    simp only [memoryCall, Option.some.injEq, Prod.mk.injEq] at hr
    obtain ⟨rfl, rfl⟩ := hr
    rcases h.allocate_cases with ⟨i, hi, hout, -, halloc⟩ | ⟨-, halloc⟩
    · rw [halloc, outstandingAfter, if_neg (by omega)]
      exact h.use hi hout
    · rw [halloc]
      exact h
  | free page =>
    simp only [memoryCall, Option.some.injEq, Prod.mk.injEq] at hr
    obtain ⟨rfl, rfl⟩ := hr
    exact h.free page

end Memory.Holds

/-- What a run keeps. -/
theorem run_outstanding {calls : List MemoryCall} {answers : List (Option ℤ)}
    (h : m.Holds pages out) (hrun : Run.exec memoryCall m calls = some (answers, m')) :
    m'.Holds pages (outstanding out calls answers) := by
  induction calls generalizing m out answers with
  | nil =>
    simp only [Run.exec_nil, Option.some.injEq, Prod.mk.injEq] at hrun
    obtain ⟨rfl, rfl⟩ := hrun
    exact h
  | cons c calls ih =>
    obtain ⟨r, rs, m₁, hcall, hrest, rfl⟩ := Run.exec_cons_eq_some hrun
    exact ih (h.call hcall) hrest

/-- **The page allocator.** After the initialisation with any number of pages and any calls, the
outstanding pages are pairwise different and below the number of pages. The next allocation answers
with the lowest page that is not outstanding, and with `E_NOPAGES` when all pages are.

**Proof sketch.** The run keeps the table in step with the outstanding pages (`run_outstanding`). An
allocation gives the first page whose entry is free, or there is none (`allocate_cases`), so that no
two pages fit the description of its answer. -/
theorem page_allocator (m₀ : Memory) (calls : List MemoryCall) {answers : List (Option ℤ)}
    (h : pages ≤ pagesMax)
    (hrun : Run.exec memoryCall (memoryInit m₀ pages).2 calls = some (answers, m)) :
    (outstanding [] calls answers).Nodup ∧
      (∀ p ∈ outstanding [] calls answers, 0 ≤ p ∧ p < pages) ∧
      (∀ p : ℕ, (memoryAllocate m).1 = p ↔ p < pages ∧ (p : ℤ) ∉ outstanding [] calls answers ∧
        ∀ q < p, (q : ℤ) ∈ outstanding [] calls answers) ∧
      ((memoryAllocate m).1 = eNopages ↔
        ∀ p < pages, (p : ℤ) ∈ outstanding [] calls answers) := by
  have hholds := run_outstanding (memoryInit_holds h) hrun
  refine ⟨hholds.nodup, fun p hp => ?_, fun p => ?_, ?_⟩
  · obtain ⟨i, hi, rfl⟩ := hholds.exists_page p hp
    omega
  · rcases hholds.allocate_cases with ⟨i, hi, hout, hlower, halloc⟩ | ⟨hall, halloc⟩
    · rw [halloc]
      constructor
      · intro hp
        obtain rfl : (i : ℕ) = p := Int.ofNat.inj hp
        exact ⟨hi, hout, fun q hq => hlower ⟨q, Nat.lt_trans hq i.isLt⟩ hq⟩
      · rintro ⟨-, hp, hq⟩
        -- neither of the two pages is below the other one
        rcases Nat.lt_trichotomy i p with hlt | heq | hgt
        · exact absurd (hq i hlt) hout
        · rw [heq]
        · exact absurd (hlower ⟨p, Nat.lt_trans hgt i.isLt⟩ hgt) hp
    · rw [halloc]
      constructor
      · intro hp
        exact absurd hp (by unfold eNopages; omega)
      · rintro ⟨hp, hout, -⟩
        exact absurd (hall ⟨p, by omega⟩ hp) hout
  · rcases hholds.allocate_cases with ⟨i, hi, hout, -, halloc⟩ | ⟨hall, halloc⟩
    · rw [halloc]
      constructor
      · intro hp
        exact absurd hp (by simp only [eNopages]; omega)
      · intro hall
        exact absurd (hall i hi) hout
    · rw [halloc]
      exact iff_of_true rfl fun p hp => hall ⟨p, by omega⟩ hp

/-- An allocation, a free of it and of a page that does not exist, and two allocations. -/
def pageRun : List MemoryCall :=
  [.allocate, .free ⟨0, by decide⟩, .free ⟨5, by decide⟩, .allocate, .allocate]

/-- Two pages that are allocated, freed and allocated again. -/
theorem page_allocator_pageRun :
    ∃ answers m, Run.exec memoryCall (memoryInit .zeroed 2).2 pageRun = some (answers, m) ∧
      (outstanding [] pageRun answers).Nodup ∧
        ((memoryAllocate m).1 = eNopages ↔
          ∀ p : ℕ, p < 2 → (p : ℤ) ∈ outstanding [] pageRun answers) := by
  have hall : (Run.exec memoryCall (memoryInit .zeroed 2).2 pageRun).isSome = true := by decide
  obtain ⟨⟨answers, m⟩, hrun⟩ := Option.isSome_iff_exists.mp hall
  obtain ⟨hnodup, -, -, hnone⟩ := page_allocator .zeroed pageRun (by decide) hrun
  exact ⟨answers, m, hrun, hnodup, hnone⟩

end Z80OS
