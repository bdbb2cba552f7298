import Mathlib.Tactic.SplitIfs

set_option relaxedAutoImplicit false
set_option autoImplicit false

/-!
# A cache for one value

A cache keeps the value that has been fetched last, and a tag for its key. A request whose key looks
like the one of the tag is answered with the value that is there. When a tag says less than a key,
the value can be that of another key.

## Main definitions

* `TagCache.Tagging` — the tags of keys, and the keys that a tag is taken for.
* `TagCache.Tagging.read`, `TagCache.Tagging.readAll` — a request, and a sequence of requests.
* `TagCache.Tagging.served` — the key whose value the cache holds behind a sequence of requests.

## Main results

* `TagCache.Tagging.readAll_line` — what the cache holds.
* `TagCache.Tagging.served_append` — how the key changes with one more request.
* `TagCache.Tagging.served_eq_getLast` — tags that tell keys apart keep the value of the last one.
-/

namespace TagCache

/-- What a cache holds. -/
structure Line (Tag Val : Type*) where
  tag : Tag
  val : Val

/-- The tags of keys. The tag `t` is taken for that of the key `k` when `hit t k` holds. -/
structure Tagging (Key Tag : Type*) where
  tag : Key → Tag
  hit : Tag → Key → Bool

namespace Tagging

variable {Key Tag Val : Type*} {T : Tagging Key Tag} {f : Key → Val} {j k : Key} {ks : List Key}

/-- A request for the value of a key, which is fetched when the key is not taken for the last
one. -/
def read (T : Tagging Key Tag) (f : Key → Val) (l : Line Tag Val) (k : Key) : Line Tag Val :=
  if T.hit l.tag k then l else ⟨T.tag k, f k⟩

/-- A sequence of requests. -/
def readAll (T : Tagging Key Tag) (f : Key → Val) (l : Line Tag Val) (ks : List Key) :
    Line Tag Val :=
  ks.foldl (T.read f) l

/-- The line for a key. -/
def line (T : Tagging Key Tag) (f : Key → Val) (k : Key) : Line Tag Val := ⟨T.tag k, f k⟩

/-- The key whose value the cache holds behind the requests, when it has been that of `j` in front
of them. -/
def served (T : Tagging Key Tag) (j : Key) (ks : List Key) : Key :=
  ks.foldl (fun j k => if T.hit (T.tag j) k then j else k) j

/-- Without requests the buffer keeps its line. -/
@[simp] theorem served_nil : T.served j [] = j := rfl

/-- **One more request** is answered with the value that is there or with its own. -/
theorem served_append (j k : Key) (ks : List Key) :
    T.served j (ks ++ [k]) = if T.hit (T.tag (T.served j ks)) k then T.served j ks else k := by
  rw [served, List.foldl_append]
  rfl

/-- A request is served from the line when it hits, and fetches its own line otherwise. -/
theorem read_line : T.read f (T.line f j) k = T.line f (if T.hit (T.tag j) k then j else k) := by
  rw [read, line]
  split_ifs <;> rfl

/-- **What the cache holds** is the line for the key that has been served last. -/
theorem readAll_line : T.readAll f (T.line f j) ks = T.line f (T.served j ks) := by
  induction ks generalizing j with
  | nil => rfl
  | cons k ks ih =>
    rw [readAll, List.foldl_cons, read_line]
    exact ih

/-- **Tags that tell keys apart.** When no tag of one of the keys is taken for that of another one,
the cache holds the value of the key that has been asked for last. -/
theorem served_eq_getLast {P : Key → Prop} (h : ∀ j k, P j → P k → T.hit (T.tag j) k = true → j = k)
    (hj : P j) (hks : ∀ k ∈ ks, P k) : T.served j ks = ks.getLastD j := by
  induction ks generalizing j with
  | nil => rfl
  | cons k ks ih =>
    obtain ⟨hk, hks⟩ := List.forall_mem_cons.1 hks
    have hone : (if T.hit (T.tag j) k then j else k) = k := by
      split_ifs with hit
      · exact h j k hj hk hit
      · rfl
    rw [served, List.foldl_cons, hone, List.getLastD_cons]
    exact ih hk hks

end Tagging

end TagCache
