import Mathlib.Logic.Function.Basic
import Mathlib.Data.Nat.Notation

set_option relaxedAutoImplicit false
set_option autoImplicit false

/-!
# Stores to a memory

A memory is a function of its addresses, and a run of stores is a list of addresses with what is
stored there. The stores of a block go to consecutive addresses, counted modulo the size of the
address space, so that a block may wrap around its end.

## Main definitions

* `Stores.all` — the memory after a run of stores.
* `Stores.block` — the stores of a block.
* `Stores.weave` — stores with others in between.

## Main results

* `Stores.all_of_notMem` — an address that no store goes to.
* `Stores.block_eq_iff` — a block does not wrap exactly when it ends inside the address space.
* `Stores.all_block`, `Stores.all_block_of_not` — what the memory holds after a block.
* `Stores.all_weave` — what the memory holds after stores with others in between.
-/

namespace Stores

variable {β : Type*} {N a k : ℕ} {b : β} {bs cs : List β} {m : ℕ → β} {l l' : List (ℕ × β)}

/-- The memory after a run of stores, in their order. -/
def all (m : ℕ → β) : List (ℕ × β) → ℕ → β
  | [] => m
  | (a, b) :: l => all (Function.update m a b) l

/-- The stores of a block at an address, in an address space of size `N`. -/
def block (N a : ℕ) (bs : List β) : List (ℕ × β) := bs.mapIdx fun i b => ((a + i) % N, b)

/-- Stores one after the other. -/
theorem all_append : all m (l ++ l') = all (all m l) l' := by
  induction l generalizing m with
  | nil => rfl
  | cons w l ih => exact ih

/-- An address that no store goes to keeps what it holds. -/
theorem all_of_notMem (h : k ∉ l.map Prod.fst) : all m l k = m k := by
  induction l generalizing m with
  | nil => rfl
  | cons w l ih =>
    rw [List.map_cons, List.mem_cons, not_or] at h
    exact (ih h.2).trans (Function.update_of_ne h.1 ..)

/-- A block is its first byte and the block behind it. -/
theorem block_cons : block N a (b :: bs) = (a % N, b) :: block N (a + 1) bs := by
  rw [block, List.mapIdx_cons, block]
  congr 2
  funext i b
  rw [Nat.add_assoc, Nat.add_comm 1 i]

/-- A block is its first bytes and the block behind them. -/
theorem block_append : block N a (bs ++ cs) = block N a bs ++ block N (a + bs.length) cs := by
  induction bs generalizing a with
  | nil => rfl
  | cons b bs ih =>
    rw [List.cons_append, block_cons, block_cons, ih, List.cons_append, List.length_cons,
      Nat.add_assoc a, Nat.add_comm 1]

/-- The addresses of a block. -/
theorem mem_map_block : k ∈ (block N a bs).map Prod.fst ↔ ∃ i < bs.length, (a + i) % N = k := by
  simp only [List.mem_map, block, List.mem_mapIdx, Prod.exists, Prod.mk.injEq, exists_and_right,
    exists_eq_right]
  constructor
  · rintro ⟨b, i, hi, heq, -⟩
    exact ⟨i, hi, heq⟩
  · rintro ⟨i, hi, heq⟩
    exact ⟨bs[i], i, hi, heq, rfl⟩

/-- **A block without wrapping.** The stores of a block go to the consecutive numbers from its
address on exactly when it is empty or ends inside the address space. -/
theorem block_eq_iff (ha : a < N) :
    block N a bs = bs.mapIdx (fun i b => (a + i, b)) ↔ a + bs.length ≤ N := by
  constructor
  · intro h
    by_contra hlen
    have hi : N - a < bs.length := by omega
    have hwrap := congrArg (fun l : List (ℕ × β) => l[N - a]?) h
    simp only [block, List.getElem?_mapIdx, List.getElem?_eq_getElem hi, Option.map_some,
      Option.some.injEq, Prod.mk.injEq, and_true] at hwrap
    have := Nat.mod_lt (a + (N - a)) (show 0 < N by omega)
    omega
  · intro hlen
    apply List.ext_getElem
    · rw [block, List.length_mapIdx, List.length_mapIdx]
    · intro i hi _
      rw [block, List.length_mapIdx] at hi
      simp only [block, List.getElem_mapIdx]
      rw [Nat.mod_eq_of_lt (by omega)]

/-- Outside of a block that does not wrap the memory is what it was. -/
theorem all_block_of_not (hlen : a + bs.length ≤ N) (h : k < a ∨ a + bs.length ≤ k) :
    all m (block N a bs) k = m k := by
  refine all_of_notMem fun hk => ?_
  obtain ⟨i, hi, heq⟩ := mem_map_block.mp hk
  rw [Nat.mod_eq_of_lt (by omega)] at heq
  omega

/-- Inside of a block that does not wrap the memory holds its elements.

**Proof sketch.** Induction on the block. Behind the first store no other one goes to its
address. -/
theorem all_block (hlen : a + bs.length ≤ N) (hk : k < bs.length) :
    all m (block N a bs) (a + k) = bs[k] := by
  induction bs generalizing a k m with
  | nil => exact absurd hk (Nat.not_lt_zero k)
  | cons b bs ih =>
    rw [List.length_cons] at hlen hk
    rw [block_cons, all]
    cases k with
    | zero =>
      rw [all_block_of_not (by omega) (.inl (by omega)), Nat.mod_eq_of_lt (by omega), Nat.add_zero,
        Function.update_self, List.getElem_cons_zero]
    | succ k =>
      rw [show a + (k + 1) = a + 1 + k by omega, ih (by omega) (by omega), List.getElem_cons_succ]

/-! ## Stores with others in between -/

/-- The stores of a list from the number `i` on, each of them behind the stores that `between` has
for its number, and at the end the stores for the next number. -/
def weave (between : ℕ → List (ℕ × β)) : ℕ → List (ℕ × β) → List (ℕ × β)
  | i, [] => between i
  | i, q :: l => between i ++ q :: weave between (i + 1) l

variable {between : ℕ → List (ℕ × β)} {i j : ℕ}

/-- The addresses of stores with others in between. -/
theorem mem_map_weave : k ∈ (weave between i l).map Prod.fst ↔
    k ∈ l.map Prod.fst ∨ ∃ j, i ≤ j ∧ j ≤ i + l.length ∧ k ∈ (between j).map Prod.fst := by
  induction l generalizing i with
  | nil =>
    simp only [weave, List.map_nil, List.not_mem_nil, false_or, List.length_nil, Nat.add_zero]
    refine ⟨fun h => ⟨i, Nat.le_refl i, Nat.le_refl i, h⟩, ?_⟩
    rintro ⟨j, hij, hji, h⟩
    rwa [Nat.le_antisymm hij hji]
  | cons q l ih =>
    rw [weave, List.map_append, List.mem_append, List.map_cons, List.mem_cons, ih, List.map_cons,
      List.mem_cons, List.length_cons]
    constructor
    · rintro (h | rfl | h | ⟨j, hij, hj, h⟩)
      · exact .inr ⟨i, Nat.le_refl i, by omega, h⟩
      · exact .inl (.inl rfl)
      · exact .inl (.inr h)
      · exact .inr ⟨j, by omega, by omega, h⟩
    · rintro ((rfl | h) | ⟨j, hij, hj, h⟩)
      · exact .inr (.inl rfl)
      · exact .inr (.inr (.inl h))
      · rcases Nat.eq_or_lt_of_le hij with rfl | hlt
        · exact .inl h
        · exact .inr (.inr (.inr ⟨j, hlt, by omega, h⟩))

/-- **Stores with others in between.** The memory holds what the `k`-th store has put there, when
neither a later store nor one behind it goes to its address.

**Proof sketch.** Induction on the stores. In front of the `k`-th one the memory does not matter. -/
theorem all_weave (hk : k < l.length) (hlater : ∀ j (hj : j < l.length), k < j → l[j].1 ≠ l[k].1)
    (hbetween : ∀ j, i + k < j → j ≤ i + l.length → l[k].1 ∉ (between j).map Prod.fst) :
    all m (weave between i l) l[k].1 = l[k].2 := by
  induction l generalizing i k m with
  | nil => exact absurd hk (Nat.not_lt_zero k)
  | cons q l ih =>
    rw [weave, all_append, all]
    cases k with
    | zero =>
      rw [List.getElem_cons_zero, all_of_notMem, Function.update_self]
      rw [mem_map_weave, List.mem_map]
      rintro (⟨x, hx, heq⟩ | ⟨j, hij, hj, hmem⟩)
      · obtain ⟨n, hn, rfl⟩ := List.mem_iff_getElem.mp hx
        exact hlater (n + 1) (Nat.succ_lt_succ hn) (Nat.succ_pos n) heq
      · exact hbetween j (by omega) (by rw [List.length_cons]; omega) hmem
    | succ k =>
      simp only [List.getElem_cons_succ]
      refine ih (Nat.lt_of_succ_lt_succ hk) (fun j hj hkj => ?_) fun j hij hj => ?_
      · exact hlater (j + 1) (Nat.succ_lt_succ hj) (Nat.succ_lt_succ hkj)
      · exact hbetween j (by omega) (by rw [List.length_cons]; omega)

end Stores
