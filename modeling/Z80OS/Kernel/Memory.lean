import Mathlib.Data.Int.Notation
import Mathlib.Logic.Function.Basic
import Mathlib.Tactic.SplitIfs
import Z80OS.Kernel.Scheduler

set_option relaxedAutoImplicit false
set_option autoImplicit false

/-!
# The memory manager

User memory comes in pages, the RAM banks. The kernel keeps a table of 256 pages, of which the
first `num_pages` exist.

## Main definitions

* `Z80OS.Memory` — the global variables of the memory manager.
* `Z80OS.memoryInit`, `Z80OS.memoryAllocate`, `Z80OS.memoryFree` — its operations.

## Main results

* `Z80OS.memoryAllocate_cases` — an allocation takes the first free page, if there is one.
-/

namespace Z80OS

/-- The state of a page. -/
inductive PageState
  | disabled | free | used
  deriving DecidableEq, Repr

/-- The number of entries of the page table. -/
def pagesMax : ℕ := 256

/-- The answer of `memory_allocate` when there is no free page. -/
def eNopages : ℤ := -1

/-- The answer of `memory_init` when there are too many pages. -/
def eInit : ℤ := -2

/-- The global variables of the memory manager. -/
structure Memory where
  numPages : ℕ
  pageTable : Fin pagesMax → PageState
  /-- The pages that exist are in the table. -/
  numPages_le : numPages ≤ pagesMax

/-- The memory manager before its initialisation, with every variable `0`. -/
def Memory.zeroed : Memory where
  numPages := 0
  pageTable := fun _ => .disabled
  numPages_le := Nat.zero_le _

/-- Initialises the memory manager for a number of pages. -/
def memoryInit (m : Memory) (pages : ℕ) : ℤ × Memory :=
  if h : pages > pagesMax then (eInit, m)
  else (0, ⟨pages, fun i => if i < pages then .free else .disabled, Nat.not_lt.mp h⟩)

/-- The memory in which a page is in use. -/
def Memory.use (m : Memory) (i : Fin pagesMax) : Memory :=
  { m with pageTable := Function.update m.pageTable i .used }

/-- The first free page. -/
def Memory.freePage (m : Memory) : Option (Fin pagesMax) :=
  (List.finRange pagesMax).find? fun i => (i : ℕ) < m.numPages ∧ m.pageTable i = .free

/-- Allocates a page. The answer is its index, or an error. -/
def memoryAllocate (m : Memory) : ℤ × Memory :=
  match m.freePage with
  | none => (eNopages, m)
  | some i => ((i : ℕ), m.use i)

/-- Frees a page, whatever its state is. -/
def memoryFree (m : Memory) (page : Fin pagesMax) : Memory :=
  { m with pageTable := Function.update m.pageTable page .free }

variable {m : Memory} {i j : Fin pagesMax}

/-- The first free page of the board is found. -/
theorem freePage_eq_some_iff : m.freePage = some i ↔
    ((i : ℕ) < m.numPages ∧ m.pageTable i = .free) ∧
      ∀ j < i, ¬ ((j : ℕ) < m.numPages ∧ m.pageTable j = .free) :=
  find?_finRange_eq_some_iff

/-- No page is found when none of the board is free. -/
theorem freePage_eq_none_iff : m.freePage = none ↔
    ∀ i : Fin pagesMax, ¬ ((i : ℕ) < m.numPages ∧ m.pageTable i = .free) :=
  find?_finRange_eq_none_iff

/-- The page table after a page has been used. -/
theorem use_table : (m.use i).pageTable j = if j = i then .used else m.pageTable j :=
  Function.update_apply ..

/-- The page table after a page has been freed. -/
theorem memoryFree_table :
    (memoryFree m i).pageTable j = if j = i then .free else m.pageTable j :=
  Function.update_apply ..

/-- The first pages are in use, and the others are free or do not exist. -/
def Memory.UsedTo (m : Memory) (n : ℕ) : Prop :=
  ∀ i, m.pageTable i = if (i : ℕ) < m.numPages then (if (i : ℕ) < n then .used else .free)
    else .disabled

/-- The initialisation knows the number of pages, and all of them are free. -/
theorem memoryInit_usedTo {pages : ℕ} (h : pages ≤ pagesMax) :
    (memoryInit m pages).2.numPages = pages ∧ (memoryInit m pages).2.UsedTo 0 := by
  rw [memoryInit, dif_neg (Nat.not_lt.mpr h)]
  exact ⟨rfl, fun i => by simp⟩

/-- An allocation takes the first free page, if there is one.

**Proof sketch.** The pages that are used are the first ones, so that the first free page is the one
behind them (`freePage_eq_some_iff`), or there is none (`freePage_eq_none_iff`). -/
theorem memoryAllocate_cases {n : ℕ} (h : m.UsedTo n) :
    m.numPages ≤ n ∧ memoryAllocate m = (eNopages, m) ∨
      ∃ i : Fin pagesMax, (i : ℕ) = n ∧ n < m.numPages ∧
        memoryAllocate m = ((n : ℤ), m.use i) ∧ (m.use i).UsedTo (n + 1) := by
  have hle := m.numPages_le
  by_cases hn : n < m.numPages
  · right
    refine ⟨⟨n, by omega⟩, rfl, hn, ?_, fun j => ?_⟩
    · have hfree : m.freePage = some ⟨n, by omega⟩ := by
        rw [freePage_eq_some_iff]
        refine ⟨⟨hn, by simp [h ⟨n, by omega⟩, hn]⟩, fun j hj => ?_⟩
        rintro ⟨-, hfree⟩
        have hjn : (j : ℕ) < n := hj
        rw [h j, if_pos (by omega), if_pos hjn] at hfree
        simp at hfree
      rw [memoryAllocate, hfree]
    · show _ = if (j : ℕ) < m.numPages then _ else _
      rw [use_table, h j]
      by_cases hj : (j : ℕ) = n
      · rw [if_pos (Fin.ext hj), if_pos (by omega), if_pos (by omega)]
      · rw [if_neg fun heq => hj (congrArg Fin.val heq)]
        split_ifs <;> first | rfl | omega
  · left
    refine ⟨Nat.not_lt.mp hn, ?_⟩
    have hnone : m.freePage = none := by
      rw [freePage_eq_none_iff]
      rintro j ⟨hj, hfree⟩
      rw [h j, if_pos hj, if_pos (by omega)] at hfree
      simp at hfree
    rw [memoryAllocate, hnone]

end Z80OS
