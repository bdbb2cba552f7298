import Mathlib.Data.List.FinRange
import Mathlib.Data.List.Rotate

set_option relaxedAutoImplicit false
set_option autoImplicit false

/-!
# Going round a table

A table with `n` entries is gone through from an entry on, from its end back to its beginning, and
up to where one began. This file has the order in which the entries with some property are met, and
how this order changes when one goes on behind the first of them.

## Main definitions

* `Cyclic.startingAt` — the entries in the order in which they are met.

## Main results

* `Cyclic.filter_startingAt_eq_cons` — an entry is met first when every entry with the property is
  met later.
* `Cyclic.filter_startingAt_next` — behind the first entry, the others come in the same order, and
  the first one comes last.
-/

namespace Cyclic

variable {n c : ℕ} {p : Fin n → Bool} {i : Fin n} {rest : List (Fin n)}

/-- The indices of a table with `n` entries in cyclic order, from the index `c` on. -/
def startingAt (n c : ℕ) : List (Fin n) := (List.finRange n).rotate c

/-- The rotation has all indices. -/
@[simp] theorem length_startingAt : (startingAt n c).length = n := by simp [startingAt]

/-- Every index is in the rotation. -/
@[simp] theorem mem_startingAt : i ∈ startingAt n c := by simp [startingAt]

/-- No index is in the rotation twice. -/
theorem nodup_startingAt : (startingAt n c).Nodup := List.nodup_rotate.2 (List.nodup_finRange n)

/-- The index that is met after `t` others. -/
theorem getElem_startingAt {t : ℕ} (ht : t < (startingAt n c).length) :
    ((startingAt n c)[t] : ℕ) = (t + c) % n := by
  simp [startingAt, List.getElem_rotate]

/-- The index `i` is met after the others have been met that are in front of it. -/
theorem split_startingAt {a b : List (Fin n)} (h : startingAt n c = a ++ i :: b) :
    (i : ℕ) = (a.length + c) % n ∧ ∀ j ∈ a, ∃ t < a.length, (j : ℕ) = (t + c) % n := by
  have hlen : a.length < (startingAt n c).length := by simp [h]
  constructor
  · have hget := getElem_startingAt hlen
    simpa [h] using hget
  · intro j hj
    obtain ⟨t, ht, rfl⟩ := List.getElem_of_mem hj
    refine ⟨t, ht, ?_⟩
    have hget := getElem_startingAt (Nat.lt_trans ht hlen)
    simpa [h, List.getElem_append_left ht] using hget

/-- **The entry that is met first.** It has the property, and no entry has it that is met before. -/
theorem filter_startingAt_eq_cons (hi : p i = true)
    (hfirst : ∀ t t' : ℕ, t' < t → t < n → (i : ℕ) = (t + c) % n → ∀ j : Fin n,
      (j : ℕ) = (t' + c) % n → p j = false) :
    ∃ rest, (startingAt n c).filter p = i :: rest := by
  obtain ⟨a, b, hab⟩ := List.append_of_mem (mem_startingAt (n := n) (c := c) (i := i))
  obtain ⟨hindex, hbefore⟩ := split_startingAt hab
  have hlen : a.length < n := by
    have := length_startingAt (n := n) (c := c)
    rw [hab, List.length_append, List.length_cons] at this
    omega
  refine ⟨b.filter p, ?_⟩
  have ha : a.filter p = [] := by
    rw [List.filter_eq_nil_iff]
    intro j hj
    obtain ⟨t', ht', hj'⟩ := hbefore j hj
    simp [hfirst a.length t' ht' hlen hindex j hj']
  rw [hab, List.filter_append, ha, List.nil_append, List.filter_cons_of_pos hi]

/-- **Going on behind the first entry.** -/
theorem filter_startingAt_next (h : (startingAt n c).filter p = i :: rest) :
    (startingAt n (i + 1)).filter p = rest ++ [i] := by
  obtain ⟨a, b, hab, ha, hi, rfl⟩ := List.filter_eq_cons_iff.1 h
  obtain ⟨hindex, -⟩ := split_startingAt hab
  have hnext : startingAt n (i + 1) = b ++ (a ++ [i]) := by
    have hrotate : startingAt n (i + 1) = (startingAt n c).rotate (a ++ [i]).length := by
      rw [startingAt, startingAt, List.rotate_rotate, ← List.rotate_mod,
        ← List.rotate_mod _ (c + _)]
      simp only [List.length_finRange, List.length_append, List.length_singleton]
      rw [hindex, Nat.mod_add_mod, ← Nat.add_assoc, Nat.add_comm c]
    rw [hrotate, hab, List.append_cons, List.rotate_append_length_eq]
  rw [hnext, List.filter_append, List.filter_append, List.filter_cons_of_pos hi]
  rw [List.filter_eq_nil_iff.2 ha, List.filter_nil, List.nil_append]

end Cyclic
