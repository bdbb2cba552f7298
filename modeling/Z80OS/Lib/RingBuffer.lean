import Mathlib.Data.Fin.Basic
import Mathlib.Data.Nat.ModEq
import Mathlib.Logic.Function.Basic

set_option relaxedAutoImplicit false
set_option autoImplicit false

/-!
# Ring buffers

A ring buffer has `n` slots and two counters that wrap round at `n`: the next item goes into the
slot of the head, and the oldest one is in the slot of the tail. The buffer is taken for empty when
the counters are equal, so it has room for `n - 1` items.

## Main definitions

* `RingBuffer` — the slots and the counters.
* `RingBuffer.Holds` — the items in the buffer, the oldest one first.

## Main results

* `RingBuffer.Holds.push`, `RingBuffer.Holds.drop` — the operations are those of a queue.
* `RingBuffer.Holds.empty_iff` — the counters are equal when there are no items.
-/

/-- A ring buffer with `n` slots. -/
structure RingBuffer (n : ℕ) (α : Type*) where
  data : Fin n → α
  head : Fin n
  tail : Fin n

namespace RingBuffer

variable {n : ℕ} {α : Type*} [NeZero n]

/-- The `i`-th slot from a slot on, round the ring. -/
def slot (t : Fin n) (i : ℕ) : Fin n := t + Fin.ofNat n i

/-- The buffer without items. -/
def clear (r : RingBuffer n α) : RingBuffer n α := { r with head := 0, tail := 0 }

/-- The buffer with an item put in. -/
def push (r : RingBuffer n α) (a : α) : RingBuffer n α :=
  { r with data := Function.update r.data r.head a, head := r.head + 1 }

/-- The item in the slot of the tail. -/
def front (r : RingBuffer n α) : α := r.data r.tail

/-- The buffer without the item in the slot of the tail. -/
def drop (r : RingBuffer n α) : RingBuffer n α := { r with tail := r.tail + 1 }

/-- The items in the buffer, the oldest one first. -/
structure Holds (r : RingBuffer n α) (q : List α) : Prop where
  length_lt : q.length < n
  head : r.head = slot r.tail q.length
  get : ∀ i (hi : i < q.length), r.data (slot r.tail i) = q[i]

variable {r : RingBuffer n α} {q : List α} {a : α} {t : Fin n} {i j : ℕ}

/-! ## Slots -/

/-- The first slot is the tail. -/
@[simp] theorem slot_zero : slot t 0 = t := by
  apply Fin.ext
  simp [slot]

/-- The next slot is one further from the same slot. -/
theorem slot_succ : slot t (i + 1) = slot t i + 1 := by
  apply Fin.ext
  simp [slot, Fin.val_add, Nat.add_assoc]

/-- The slots from the next slot on. -/
theorem slot_next : slot (t + 1) i = slot t (i + 1) := by
  apply Fin.ext
  simp only [slot, Fin.val_add, Fin.val_ofNat, Nat.add_mod_mod, Nat.mod_add_mod, Fin.val_one']
  rw [Nat.add_assoc, Nat.add_comm 1 i]

/-- Slots that are less than a round apart differ. -/
theorem slot_inj (hi : i < n) (hj : j < n) (h : slot t i = slot t j) : i = j := by
  have hmod := congrArg Fin.val h
  simp only [slot, Fin.val_add, Fin.val_ofNat, Nat.add_mod_mod] at hmod
  have hij : i % n = j % n := Nat.ModEq.add_left_cancel' (t : ℕ) hmod
  rwa [Nat.mod_eq_of_lt hi, Nat.mod_eq_of_lt hj] at hij

/-! ## The queue -/

/-- A buffer that has been cleared holds nothing. -/
theorem holds_clear : r.clear.Holds [] :=
  ⟨Nat.pos_of_neZero n, slot_zero.symm, fun _ hi => absurd hi (Nat.not_lt_zero _)⟩

namespace Holds

/-- The counters are equal when there are no items. -/
theorem empty_iff (h : r.Holds q) : r.head = r.tail ↔ q = [] := by
  rw [h.head]
  constructor
  · intro heq
    have hzero : slot r.tail q.length = slot r.tail 0 := heq.trans slot_zero.symm
    exact List.length_eq_zero_iff.mp (slot_inj h.length_lt (Nat.pos_of_neZero n) hzero)
  · rintro rfl
    exact slot_zero

/-- The oldest item is in the slot of the tail. -/
theorem front (h : r.Holds (a :: q)) : r.front = a := by
  have hget := h.get 0 (Nat.zero_lt_succ _)
  rwa [slot_zero] at hget

/-- Taking the oldest item out leaves the others. -/
theorem drop (h : r.Holds (a :: q)) : r.drop.Holds q := by
  refine ⟨Nat.lt_of_succ_lt h.length_lt, ?_, fun i hi => ?_⟩
  · show r.head = slot (r.tail + 1) q.length
    rw [slot_next]
    exact h.head
  · show r.data (slot (r.tail + 1) i) = q[i]
    rw [slot_next]
    exact h.get (i + 1) (Nat.succ_lt_succ hi)

/-- An item that is put in comes behind the others. -/
theorem push (h : r.Holds q) (hroom : q.length + 1 < n) : (r.push a).Holds (q ++ [a]) := by
  have hlen : (q ++ [a]).length = q.length + 1 := List.length_append
  refine ⟨hlen ▸ hroom, ?_, fun i hi => ?_⟩
  · show r.head + 1 = slot r.tail (q ++ [a]).length
    rw [hlen, slot_succ, h.head]
  · show Function.update r.data r.head a (slot r.tail i) = (q ++ [a])[i]
    rw [hlen] at hi
    rcases Nat.lt_or_ge i q.length with hlt | hge
    · have hne : slot r.tail i ≠ r.head := fun heq =>
        hlt.ne (slot_inj (hlt.trans h.length_lt) h.length_lt (heq.trans h.head))
      rw [Function.update_of_ne hne, List.getElem_append_left hlt]
      exact h.get i hlt
    · obtain rfl : i = q.length := by omega
      rw [← h.head, Function.update_self, List.getElem_append_right (le_refl _)]
      simp

end Holds

end RingBuffer
