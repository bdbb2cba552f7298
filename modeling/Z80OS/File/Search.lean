import Z80OS.File.Addressing

set_option relaxedAutoImplicit false
set_option autoImplicit false

/-!
# The search for a free cluster

The search looks at the words of the FAT from cluster 2 on, and stops at the root directory. It goes
on to the next sector one word late: the word at index 256 is read from behind the buffer, and from
there on the cluster that the search counts is not the one whose word it reads. So the search is
right as long as it does not leave the first sector of the FAT.

## Main definitions

* `Z80OS.Available` — the clusters that can be handed out.
* `Z80OS.FindsFirst` — an answer of the search is right.
* `Z80OS.Machine.filled` — the driver with the same byte everywhere behind the buffer.

## Main results

* `Z80OS.findsFirst_iff` — when the search is right.
-/

namespace Z80OS

/-- The cluster can be handed out: it has a word in the first FAT copy, which is `0`, and its
sectors lie on the disk. -/
structure Available (boot : Sector) (d : Disk) (c : ℕ) : Prop where
  two_le : 2 ≤ c
  lt : c < 65536
  inFat : 2 * c + 2 ≤ 512 * boot.word 0x16
  free : fatEntry (bootDiskInfo boot) d c = clusterFree
  onDisk : clusterSector (bootDiskInfo boot) c + (bootDiskInfo boot).sectorsPerCluster ≤
    (bootDiskInfo boot).numSectors

/-- The answer of a search: the smallest cluster that can be handed out, or `0` when there is
none. -/
def FindsFirst (boot : Sector) (d : Disk) (r : ℕ) : Prop :=
  (r ≠ 0 → IsLeast {c | Available boot d c} r) ∧ (r = 0 → ∀ c, ¬ Available boot d c)

/-- The first free cluster of the first FAT sector can be handed out. -/
def FirstFree (boot : Sector) (d : Disk) : Prop :=
  ∃ c < 256, Available boot d c ∧
    ∀ b, 2 ≤ b → b < c → fatEntry (bootDiskInfo boot) d b ≠ clusterFree

/-- The number of sectors in front of the root directory that the search takes for the FAT. The
product is 16 bits wide. -/
def fatSectors (boot : Sector) : ℕ := boot.word 0x16 * (boot.get 0x10).toNat % 65536

section

variable {boot : Sector} {d : Disk} {c r : ℕ}

/-- The first sector of the FAT has the words of the clusters below 256. -/
theorem fatEntry_of_lt {g : DiskInfo} (hc : c < 256) :
    fatEntry g d c = (d g.fatRegion).word (2 * c) := by
  rw [fatEntry, Nat.div_eq_of_lt (by omega), Nat.mod_eq_of_lt (by omega), Nat.add_zero]

/-- A search is right with the first free cluster when this can be handed out. -/
theorem findsFirst_of_first (hused : ∀ b, 2 ≤ b → b < c →
    fatEntry (bootDiskInfo boot) d b ≠ clusterFree) (h2 : 2 ≤ c) :
    FindsFirst boot d c ↔ Available boot d c := by
  constructor
  · intro h
    exact (h.1 (by omega)).1
  · intro h
    refine ⟨fun _ => ⟨h, fun b hb => ?_⟩, fun h0 => by omega⟩
    by_contra hlt
    exact hused b hb.two_le (by omega) hb.free

/-- The root directory starts behind the sectors of the FAT. -/
theorem bootDiskInfo_rootRegion :
    (bootDiskInfo boot).rootRegion = (bootDiskInfo boot).fatRegion + fatSectors boot := rfl

end

/-! ## The end of the first sector -/

/-- The driver with the given byte everywhere behind the buffer. -/
@[reducible]
def Machine.filled (b : UInt8) : Machine :=
  { Machine.linked with beyond := fun _ _ => b }

section

variable {M : Machine} {s : FileState} {boot : Sector} {k sector : ℕ}

/-- When all words of the first sector are in use the search reads a word from behind the buffer. -/
theorem freeCluster_of_used (h : s.Coherent) (hbps : s.diskInfo.bytesPerSector = 512)
    (hroot : s.diskInfo.fatRegion ≠ s.diskInfo.rootRegion)
    (hused : ∀ b, 2 ≤ b → b < 256 → (s.disk s.diskInfo.fatRegion).word (2 * b) ≠ 0) :
    freeCluster s = (findFreeLoop (M.turns - 254) s 256 256 s.diskInfo.fatRegion).1 := by
  have hturns := M.turns_ge
  obtain ⟨k, hk⟩ : ∃ k, M.turns = k + 254 := ⟨M.turns - 254, by omega⟩
  rw [freeCluster, hk, findFreeLoop_skip h hbps hroot (by decide) fun b hb hlt => hused b hb hlt,
    Nat.add_sub_cancel]

/-- With a `0` behind the buffer the search ends there. -/
theorem freeCluster_filled_zero (h : s.Coherent) (hbps : s.diskInfo.bytesPerSector = 512)
    (hroot : s.diskInfo.fatRegion ≠ s.diskInfo.rootRegion)
    (hused : ∀ b, 2 ≤ b → b < 256 → (s.disk s.diskInfo.fatRegion).word (2 * b) ≠ 0) :
    @freeCluster (Machine.filled 0) s = 256 := by
  let M := Machine.filled 0
  have hturns := M.turns_ge
  obtain ⟨k, hk⟩ : ∃ k, M.turns - 254 = k + 1 := ⟨M.turns - 255, by omega⟩
  have hword : (s.cached s.diskInfo.fatRegion).tempWord (256 * 2) = clusterFree := rfl
  rw [freeCluster_of_used h hbps hroot hused, hk]
  simp only [findFreeLoop, readSectorCached_eq h, hword, if_true]

/-- With another byte behind the buffer the search goes on to the second sector, where it counts the
clusters from 257 on. -/
theorem freeCluster_filled_one (h : s.Coherent) (hbps : s.diskInfo.bytesPerSector = 512)
    (hroot : s.diskInfo.fatRegion ≠ s.diskInfo.rootRegion)
    (hfat : s.diskInfo.fatRegion + 1 < sectorNumbers)
    (hused : ∀ b, 2 ≤ b → b < 256 → (s.disk s.diskInfo.fatRegion).word (2 * b) ≠ 0)
    (hnext : fatEntry s.diskInfo s.disk 256 = clusterFree) :
    @freeCluster (Machine.filled 1) s = 0 ∨ @freeCluster (Machine.filled 1) s = 257 := by
  let M := Machine.filled 1
  have hturns := M.turns_ge
  obtain ⟨k, hk⟩ : ∃ k, M.turns - 254 = k + 1 + 1 := ⟨M.turns - 256, by omega⟩
  have hword : (s.cached s.diskInfo.fatRegion).tempWord (256 * 2) ≠ clusterFree := by
    show word16 1 1 ≠ 0
    decide
  have hfirst : (s.cached (s.diskInfo.fatRegion + 1)).tempWord (0 * 2) = clusterFree := hnext
  rw [freeCluster_of_used h hbps hroot hused, hk]
  simp only [findFreeLoop, readSectorCached_eq h, if_neg hword, FileState.cached_diskInfo, hbps]
  simp only [show 256 + 1 > 512 / 2 by decide, if_true, Nat.mod_eq_of_lt hfat]
  by_cases hend : s.diskInfo.fatRegion + 1 = s.diskInfo.rootRegion
  · left
    rw [if_pos hend]
  · right
    rw [if_neg hend]
    simp only [readSectorCached_eq FileState.coherent_cached, FileState.cached_cached, hfirst,
      if_true]

/-- A search that starts at the root directory looks at one word. -/
theorem freeCluster_of_root (h : s.Coherent) (hbps : s.diskInfo.bytesPerSector = 512)
    (hroot : s.diskInfo.fatRegion = s.diskInfo.rootRegion) :
    freeCluster s = if fatEntry s.diskInfo s.disk 2 = clusterFree then 2 else 0 := by
  have hturns := M.turns_ge
  obtain ⟨k, hk⟩ : ∃ k, M.turns = k + 1 := ⟨M.turns - 1, by omega⟩
  rw [freeCluster, hk, fatEntry_of_lt (by decide)]
  simp only [findFreeLoop, readSectorCached_eq h, tempWord_cached_fat (show 2 < 256 by decide),
    FileState.cached_diskInfo, hbps, show ¬ 2 + 1 > 512 / 2 by decide, if_false, hroot, if_true]
  split_ifs <;> rfl

end

/-! ## The search -/

section

variable {s : FileState} {boot : Sector}

/-- **The search for a free cluster.** Whatever lies behind the buffer, the search finds the first
cluster that can be handed out exactly when this is the first free one of the first FAT sector. On a
disk without a FAT in front of the root directory the search ends after the word of cluster 2.

**Proof sketch.** When a word of the first sector is `0` the first of them is found. When none is, a
`0` behind the buffer makes the search answer 256, and another byte makes it pass over the word of
cluster 256; so one of the two answers is wrong. -/
theorem findsFirst_iff (hs : s.Coherent) (hi : s.diskInfo = bootDiskInfo boot)
    (h512 : boot.word 0x0b = 512) :
    (∀ M : Machine, FindsFirst boot s.disk (@fatFindFreeCluster M s).1) ↔
      (fatSectors boot ≠ 0 → FirstFree boot s.disk) ∧
      (fatSectors boot = 0 →
        if fatEntry (bootDiskInfo boot) s.disk 2 = clusterFree then Available boot s.disk 2
        else ∀ c, ¬ Available boot s.disk c) := by
  have hfind : ∀ M : Machine, (@fatFindFreeCluster M s).1 = @freeCluster M s := fun M => by
    obtain ⟨j, hj⟩ := fatFindFreeCluster_eq (M := M) hs
    rw [hj]
  have hbps : s.diskInfo.bytesPerSector = 512 := by rw [hi]; exact h512
  have hfat : s.diskInfo.fatRegion + 1 < sectorNumbers := by
    have hboot : (bootDiskInfo boot).fatRegion < 65536 := bootDiskInfo_fatRegion_lt
    rw [hi, sectorNumbers]
    omega
  simp only [hfind]
  rcases Nat.eq_zero_or_pos (fatSectors boot) with hzero | hpos
  · have hroot : s.diskInfo.fatRegion = s.diskInfo.rootRegion := by
      rw [hi, bootDiskInfo_rootRegion, hzero, Nat.add_zero]
    simp only [freeCluster_of_root hs hbps hroot, hi, hzero, ne_eq, not_true_eq_false,
      false_implies, true_implies, true_and]
    constructor
    · intro h
      have h2 := h (Machine.filled 0)
      split_ifs at h2 ⊢ with hfree
      · exact (h2.1 (by decide)).1
      · exact h2.2 rfl
    · intro h _
      split_ifs at h ⊢ with hfree
      · exact (findsFirst_of_first (fun b hb hlt => by omega) (le_refl 2)).mpr h
      · exact ⟨fun hne => absurd rfl hne, fun _ => h⟩
  · have hroot : s.diskInfo.fatRegion ≠ s.diskInfo.rootRegion := by
      rw [hi, bootDiskInfo_rootRegion]
      omega
    simp only [ne_eq, hpos.ne', not_false_eq_true, true_implies, false_implies, and_true]
    by_cases hfree : ∃ c, 2 ≤ c ∧ c < 256 ∧ (s.disk s.diskInfo.fatRegion).word (2 * c) = 0
    · -- the first free cluster of the first sector is the answer
      obtain ⟨h2, hlt, h0⟩ := Nat.find_spec hfree
      have hused : ∀ b, 2 ≤ b → b < Nat.find hfree →
          (s.disk s.diskInfo.fatRegion).word (2 * b) ≠ 0 :=
        fun b hb hbc hb0 => Nat.find_min hfree hbc ⟨hb, by omega, hb0⟩
      have hused' : ∀ b, 2 ≤ b → b < Nat.find hfree →
          fatEntry (bootDiskInfo boot) s.disk b ≠ clusterFree := fun b hb hbc => by
        rw [fatEntry_of_lt (by omega), ← hi]
        exact hused b hb hbc
      have hanswer : ∀ M : Machine, @freeCluster M s = Nat.find hfree :=
        fun M => freeCluster_eq_first hs hbps hroot h2 hlt h0 hused
      simp only [hanswer, findsFirst_of_first hused' h2]
      constructor
      · intro h
        exact ⟨_, hlt, h (Machine.filled 0), hused'⟩
      · rintro ⟨c, hc, hav, hbefore⟩ -
        suffices hsame : c = Nat.find hfree from hsame ▸ hav
        apply Nat.le_antisymm
        · by_contra hgt
          refine hbefore _ h2 (by omega) ?_
          rw [fatEntry_of_lt hlt, ← hi]
          exact h0
        · refine Nat.find_min' hfree ⟨hav.two_le, hc, ?_⟩
          rw [hi, ← fatEntry_of_lt hc]
          exact hav.free
    · have hused : ∀ b, 2 ≤ b → b < 256 → (s.disk s.diskInfo.fatRegion).word (2 * b) ≠ 0 :=
        fun b hb hlt h0 => hfree ⟨b, hb, hlt, h0⟩
      constructor
      · intro h
        have hzero := (h (Machine.filled 0)).1
        rw [freeCluster_filled_zero hs hbps hroot hused] at hzero
        have hav := (hzero (by decide)).1
        have hone := h (Machine.filled 1)
        rcases freeCluster_filled_one hs hbps hroot hfat hused (by rw [hi]; exact hav.free) with
          hend | hnext
        · exact absurd hav (hone.2 hend _)
        · have hleast := hone.1 (by rw [hnext]; decide)
          rw [hnext] at hleast
          exact absurd (hleast.2 hav) (by decide)
      · rintro ⟨c, hc, hav, -⟩
        refine absurd ?_ (hused c hav.two_le hc)
        rw [hi, ← fatEntry_of_lt hc]
        exact hav.free

end

/-! ## A small disk -/

section

attribute [local instance] Machine.linked

/-- A boot sector of a volume with 1000 sectors, and two sectors of FAT. -/
def smallBoot : Sector := (bootSector 1 2 1).memcpy 0x20 (bytes32 1000)

/-- The initialised driver with the volume, whose first FAT sector is the given one, when it is
about to open a file. -/
def searchState (fat : Sector) : FileState :=
  (filesystemInit (.zeroed fun k => if k = 0 then smallBoot else if k = 1 then fat else Sector.zero)
    ).named firstFd nameAB

/-- Behind a full first sector the search answers with 257, when 256 is the first free cluster. -/
theorem not_findsFirst_used :
    ¬ ∀ (s : FileState) (boot : Sector), s.Coherent → s.diskInfo = bootDiskInfo boot →
      boot.word 0x0b = 512 → boot.get 0x10 = 1 ∨ boot.get 0x10 = 2 →
      FindsFirst boot s.disk (fatFindFreeCluster s).1 := by
  intro h
  have hfinds := h (searchState fun _ => 0xff) smallBoot rfl rfl (by decide +kernel)
    (by decide +kernel)
  have hanswer : (fatFindFreeCluster (searchState fun _ => 0xff)).1 = 257 := by decide +kernel
  have hav : Available smallBoot (searchState fun _ => 0xff).disk 256 :=
    ⟨by decide, by decide, by decide +kernel, by decide +kernel, by decide +kernel⟩
  rw [hanswer] at hfinds
  exact absurd ((hfinds.1 (by decide)).2 hav) (by decide)

/-- On the disk without files the search finds cluster 2. -/
theorem findsFirst_unused :
    FindsFirst smallBoot (searchState Sector.zero).disk
      (fatFindFreeCluster (searchState Sector.zero)).1 := by
  have hall := (findsFirst_iff (s := searchState Sector.zero) rfl rfl (by decide +kernel)).mpr
    ⟨fun _ => ⟨2, by decide, ⟨by decide, by decide, by decide +kernel, by decide +kernel,
      by decide +kernel⟩, fun b hb hlt => by omega⟩,
      fun h => absurd h (show fatSectors smallBoot ≠ 0 by decide +kernel)⟩
  exact hall Machine.linked

end

end Z80OS
