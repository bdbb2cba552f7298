import Z80OS.File.Contents
import Z80OS.File.Events
import Z80OS.File.Search

set_option relaxedAutoImplicit false
set_option autoImplicit false

/-!
# The search behind the first sector of the FAT

As long as one of the clusters 2 to 255 is free the search finds one of them. When none is, it goes
on with the word that lies behind the buffer, and its answer depends on the memory there and on the
other sectors of the FAT. This file says on what exactly, and how the free clusters of the first
sector become fewer when a cluster is linked to a chain.

## Main definitions

* `Z80OS.behindFirst` — the answer of the search from behind the first sector.
* `Z80OS.SameUpper` — two disks have the same free clusters behind the first sector of the FAT.
* `Z80OS.Machine.frozen` — the driver that finds the same bytes behind the buffer all the time.

## Main results

* `Z80OS.freeCluster_mem`, `Z80OS.freeCluster_of_nil` — the two kinds of answers.
* `Z80OS.behindFirst_frozen` — what the answer from behind the first sector depends on.
* `Z80OS.length_freeClusters_link` — a link uses up one free cluster.
-/

namespace Z80OS

/-- The sectors of the FAT behind the first one have the same free clusters. -/
def SameUpper (g : DiskInfo) (d d' : Disk) : Prop :=
  ∀ x, 256 ≤ x → InRange g x → (fatEntry g d' x = clusterFree ↔ fatEntry g d x = clusterFree)

/-- The answer of the search for a free cluster from the word on that lies behind the buffer with
the first sector of the FAT. -/
def behindFirst [Machine] (s : FileState) : ℕ :=
  (findFreeLoop (Machine.turns - 254) s 256 256 s.diskInfo.fatRegion).1

/-- The driver that finds behind the buffer what lies there in the state `s₀`. -/
@[reducible]
def Machine.frozen (M : Machine) (s₀ : FileState) : Machine :=
  { M with beyond := fun s i => M.beyond (s₀.cached s.currentCacheSector) i }

section

variable {M : Machine} {g : DiskInfo} {s s₀ : FileState} {d d' d₁ : Disk}
  {b c i k sector : ℕ} {l : List ℕ}

/-- The upper sectors of a disk are the same as its own. -/
theorem SameUpper.refl : SameUpper g d d := fun _ _ _ => Iff.rfl

/-- The same upper sectors are the same in turn. -/
theorem SameUpper.trans (h : SameUpper g d d') (h' : SameUpper g d' d₁) : SameUpper g d d₁ :=
  fun x hx hin => (h' x hx hin).trans (h x hx hin)

/-- The same upper sectors are the same the other way around. -/
theorem SameUpper.symm (h : SameUpper g d d') : SameUpper g d' d :=
  fun x hx hin => (h x hx hin).symm

/-- Linking one of the clusters 2 to 255 behind a cluster that is in use does not concern the free
clusters behind the first sector. -/
theorem SameUpper.link (h2 : 2 ≤ c) (hlt : c < 256) (hb : fatEntry g d b ≠ clusterFree) :
    SameUpper g d (linked g (linked g d b c) c clusterEof) := by
  intro x hx _
  rw [fatEntry_linked_linked (by omega), Function.update_of_ne (by omega)]
  by_cases hxb : x = b
  · have hzero : c ≠ clusterFree := by simp only [clusterFree]; omega
    rw [hxb, Function.update_self]
    exact iff_of_false hzero hb
  · rw [Function.update_of_ne hxb]

/-! ## The answers of the search -/

/-- The search counts the clusters in 16 bits. -/
theorem findFreeLoop_lt (hc : c < 65536) : (findFreeLoop k s c i sector).1 < 65536 := by
  induction k generalizing s c i sector with
  | zero => exact Nat.zero_lt_succ _
  | succ k ih =>
    have hnext : (c + 1) % 65536 < 65536 := Nat.mod_lt _ (by decide)
    simp only [findFreeLoop]
    split_ifs
    · exact hc
    · exact Nat.zero_lt_succ _
    · exact ih hnext
    · exact Nat.zero_lt_succ _
    · exact ih hnext

/-- The answer of a search is a word. -/
theorem freeCluster_lt : freeCluster s < 65536 := findFreeLoop_lt (by decide)

/-- When one of the clusters 2 to 255 is free the search finds one of them. -/
theorem freeCluster_mem (hg : Geometry g) (hs : s.Coherent) (hi : s.diskInfo = g)
    (hne : freeClusters g s.disk ≠ []) : freeCluster s ∈ freeClusters g s.disk := by
  subst hi
  obtain ⟨hu, hlt, h0⟩ := (someFree_of_pos (List.length_pos_of_ne_nil hne)).freeCluster
    (M := M) hg hs
  exact mem_freeClusters.mpr ⟨hlt, hu.two_le, h0⟩

/-- When none of the clusters 2 to 255 is free the search goes on behind the first sector. -/
theorem freeCluster_of_nil (hg : Geometry g) (hs : s.Coherent) (hi : s.diskInfo = g)
    (hnil : freeClusters g s.disk = []) : freeCluster s = behindFirst s := by
  subst hi
  refine freeCluster_of_used hs hg.bytesPerSector hg.fat_lt.ne fun b hb hlt h0 => ?_
  have hmem : b ∈ freeClusters s.diskInfo s.disk :=
    mem_freeClusters.mpr ⟨hlt, hb, (fatEntry_of_lt hlt).trans h0⟩
  rw [hnil] at hmem
  exact absurd hmem List.not_mem_nil

/-- With a `0` behind the buffer the answer from there is 256. -/
theorem behindFirst_filled_zero (hs : s.Coherent) : @behindFirst (Machine.filled 0) s = 256 := by
  let M := Machine.filled 0
  have hturns := M.turns_ge
  obtain ⟨k, hk⟩ : ∃ k, M.turns - 254 = k + 1 := ⟨M.turns - 255, by omega⟩
  have hword : (s.cached s.diskInfo.fatRegion).tempWord (256 * 2) = clusterFree := rfl
  rw [behindFirst, hk]
  simp only [findFreeLoop, readSectorCached_eq hs, hword, if_true]

/-- A word of the FAT in the sector in which the search reads it. -/
theorem tempWord_of_index (hi : i < 256) :
    (s.cached (g.fatRegion + k)).tempWord (i * 2) = fatEntry g s.disk (256 * k + i) := by
  have hsector : 2 * (256 * k + i) / 512 = k := by omega
  have hoffset : 2 * (256 * k + i) % 512 = 2 * i := by omega
  rw [tempWord_cached_fat hi, fatEntry, hsector, hoffset]

/-- A search finds a free cluster in the state `s`, with what lies behind the buffer in `s₀`, where
it finds one in `s₀`. -/
theorem tempWord_frozen (hsame : SameUpper g s₀.disk s.disk) (hlt : g.fatRegion + k < g.rootRegion)
    (hindex : i ≤ 256) (hfirst : k = 0 → i = 256) :
    @FileState.tempWord (M.frozen s₀) (s.cached (g.fatRegion + k)) (i * 2) = clusterFree ↔
      @FileState.tempWord M (s₀.cached (g.fatRegion + k)) (i * 2) = clusterFree := by
  rcases Nat.eq_or_lt_of_le hindex with rfl | hi
  · exact Iff.rfl
  · rw [tempWord_of_index hi, tempWord_of_index hi]
    exact hsame _ (by omega) ⟨by omega, by omega⟩

/-- **A search from behind the first sector** depends on the bytes behind the buffer and on the free
clusters of the upper sectors.

**Proof sketch.** Induction on the number of turns. In the first sector the loop stands at the index
256, and the next turn looks into the second sector. -/
theorem findFreeLoop_frozen {n : ℕ} (hg : Geometry g) (hs : s.Coherent) (hs₀ : s₀.Coherent)
    (hi : s.diskInfo = g) (hi₀ : s₀.diskInfo = g) (hsame : SameUpper g s₀.disk s.disk)
    (hlt : g.fatRegion + k < g.rootRegion) (hindex : i ≤ 256) (hfirst : k = 0 → i = 256) :
    (@findFreeLoop (M.frozen s₀) n s c i (g.fatRegion + k)).1 =
      (@findFreeLoop M n s₀ c i (g.fatRegion + k)).1 := by
  induction n generalizing c i k with
  | zero => rfl
  | succ n ih =>
    have hroot := hg.lt_sectorNumbers
    have hword := tempWord_frozen (M := M) hsame hlt hindex hfirst
    have hmod : (g.fatRegion + k + 1) % sectorNumbers = g.fatRegion + (k + 1) :=
      Nat.mod_eq_of_lt (by omega)
    simp only [findFreeLoop, readSectorCached_eq hs, readSectorCached_eq hs₀, hword,
      FileState.cached_diskInfo, hi, hi₀, hg.bytesPerSector, hmod]
    by_cases hfree : (s₀.cached (g.fatRegion + k)).tempWord (i * 2) = clusterFree
    · rw [if_pos hfree, if_pos hfree]
    rw [if_neg hfree, if_neg hfree]
    by_cases hpast : i + 1 > 512 / 2
    · simp only [if_pos hpast]
      by_cases hend : g.fatRegion + (k + 1) = g.rootRegion
      · rw [if_pos hend, if_pos hend]
      · rw [if_neg hend, if_neg hend, findFreeLoop_cached hs, findFreeLoop_cached hs₀]
        exact ih (by omega) (by omega) (by omega)
    · simp only [if_neg hpast]
      rw [if_neg hlt.ne, if_neg hlt.ne, findFreeLoop_cached hs, findFreeLoop_cached hs₀]
      exact ih hlt (by omega) (by omega)

/-- The answer from behind the first sector depends on the bytes behind the buffer and on the free
clusters of the upper sectors. -/
theorem behindFirst_frozen (hg : Geometry g) (hs : s.Coherent) (hs₀ : s₀.Coherent)
    (hi : s.diskInfo = g) (hi₀ : s₀.diskInfo = g) (hsame : SameUpper g s₀.disk s.disk) :
    @behindFirst (M.frozen s₀) s = @behindFirst M s₀ := by
  unfold behindFirst
  rw [hi, hi₀]
  exact findFreeLoop_frozen (k := 0) hg hs hs₀ hi hi₀ hsame hg.fat_lt (le_refl _) fun _ => rfl

/-! ## The free clusters of the first sector -/

/-- No cluster comes twice in the list of the free ones. -/
theorem nodup_freeClusters : (freeClusters g d).Nodup := List.nodup_range.filter _

/-- The free clusters are those of another disk with the same words in the first sector. -/
theorem freeClusters_congr (h : ∀ c < 256, fatEntry g d' c = fatEntry g d c) :
    freeClusters g d' = freeClusters g d := by
  refine List.filter_congr fun c hc => ?_
  rw [h c (List.mem_range.mp hc)]

/-- Linking a cluster behind another one makes no cluster free. -/
theorem mem_freeClusters_link (h2 : 2 ≤ c) (hc : c < 65536) {x : ℕ} :
    x ∈ freeClusters g (linked g (linked g d b c) c clusterEof) ↔
      x ∈ freeClusters g d ∧ x ≠ b ∧ x ≠ c := by
  have hmark : clusterEof ≠ clusterFree := by decide
  have hzero : c ≠ clusterFree := by simp only [clusterFree]; omega
  rw [mem_freeClusters, mem_freeClusters, fatEntry_linked_linked hc]
  by_cases hxc : x = c
  · simp only [hxc, Function.update_self, hmark, ne_eq, not_true_eq_false, and_false]
  rw [Function.update_of_ne hxc]
  by_cases hxb : x = b
  · simp only [hxb, Function.update_self, hzero, ne_eq, not_true_eq_false, and_false, false_and]
  · rw [Function.update_of_ne hxb]
    simp only [ne_eq, hxb, hxc, not_false_eq_true, and_true]

/-- A link uses up one free cluster. -/
theorem length_freeClusters_link (hc : c ∈ freeClusters g d) (hb : b ∉ freeClusters g d) :
    (freeClusters g (linked g (linked g d b c) c clusterEof)).length + 1 =
      (freeClusters g d).length := by
  obtain ⟨hlt, h2, -⟩ := mem_freeClusters.mp hc
  have hperm : (freeClusters g (linked g (linked g d b c) c clusterEof)).Perm
      ((freeClusters g d).erase c) := by
    refine (List.perm_ext_iff_of_nodup nodup_freeClusters (nodup_freeClusters.erase c)).mpr
      fun x => ?_
    rw [mem_freeClusters_link h2 (by omega), nodup_freeClusters.mem_erase_iff]
    constructor
    · rintro ⟨hx, -, hxc⟩
      exact ⟨hxc, hx⟩
    · rintro ⟨hxc, hx⟩
      exact ⟨hx, fun hxb => hb (hxb ▸ hx), hxc⟩
  rw [hperm.length_eq, List.length_erase_of_mem hc]
  have := List.length_pos_of_mem hc
  omega

end

end Z80OS
