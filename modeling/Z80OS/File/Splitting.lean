import Z80OS.File.Bytewise
import Z80OS.File.Format
import Z80OS.File.Lifecycle

set_option relaxedAutoImplicit false
set_option autoImplicit false

/-!
# Requests of a read

A request to read is served byte by byte, so it can be split anywhere. A request for no bytes is the
exception: in the middle of a sector the driver reads a byte before it looks at the count.

## Main definitions

* `Z80OS.clusterAhead` — the cluster of a byte ahead, as the driver follows the FAT.
* `Z80OS.StaysInside` — a read stays inside its buffer and gives what there is.

## Main results

* `Z80OS.fileRead_split` — one request, or two.
* `Z80OS.staysInside_iff` — when a read stays inside its buffer and gives what there is.
-/

namespace Z80OS

section

variable {M : Machine} {s : FileState} {fd : Fin fileLimit} {ptr n n₁ n₂ : ℕ}

/-- **Splitting a read.** A request for `n₁ + n₂` bytes delivers the same bytes and the same count
as a request for `n₁` bytes and one for `n₂` bytes behind those that have come, and leaves the same
descriptor. When the buffer is accepted, these are the bytes that single calls of `file_readbyte`
give.

**Proof sketch.** Each request gives the bytes ahead of the descriptor, and those ahead of the
second one are behind those of the first by `bytesAhead_add`. -/
theorem fileRead_split (h : s.Reads fd) (hmode : (s.fdtable fd).mode = fmodeRead) (h₁ : 1 ≤ n₁)
    (h₂ : 1 ≤ n₂) (hsum : n₁ + n₂ < 65536) (hptr : ptr + (n₁ + n₂) ≤ 65536) :
    let whole := fileRead s ptr (n₁ + n₂) fd
    let first := fileRead s ptr n₁ fd
    let second := fileRead first.2 (ptr + first.1.1) n₂ fd
    whole.1.2 = first.1.2 ++ second.1.2 ∧ whole.1.1 = first.1.1 + second.1.1 ∧
      whole.2.fdtable fd = second.2.fdtable fd ∧
      (0x6000 ≤ ptr → whole.1.2 = (readTail fd (n₁ + n₂) ⟨n₁ + n₂, 0, [], s⟩).stored) := by
  intro whole first second
  rcases Nat.lt_or_ge ptr 0x6000 with hlow | hhigh
  · have hlow' : ptr % 65536 < 0x6000 := by omega
    have hfirst : first = ((0, []), s) := fileRead_refused hlow'
    have hsecond : second = ((0, []), s) := by
      show fileRead first.2 (ptr + first.1.1) n₂ fd = _
      rw [hfirst]
      exact fileRead_refused hlow'
    have hwhole : whole = ((0, []), s) := fileRead_refused hlow'
    rw [hwhole, hsecond, hfirst]
    exact ⟨rfl, rfl, rfl, fun hhigh => by omega⟩
  · have hlen : (s.ahead fd n₁).1.length ≤ n₁ := length_bytesAhead_le
    obtain ⟨i, hwhole⟩ := h.read (M := M) ptr (n₁ + n₂) hmode (by omega) (by omega)
      hsum
    obtain ⟨j, hfirst⟩ := h.read (M := M) ptr n₁ hmode (by omega) h₁ (by omega)
    have hmode' : (((s.cached j).setFd fd (s.ahead fd n₁).2).fdtable fd).mode = fmodeRead := by
      rw [FileState.setFd_fdtable_self, FileState.ahead, h.readable.standsBehind.mode, hmode]
    obtain ⟨k, hsecond⟩ := h.behind.read (M := M) (ptr + (s.ahead fd n₁).1.length) n₂ hmode'
      (by omega) h₂ (by omega)
    have hsecond' : second = fileRead ((s.cached j).setFd fd (s.ahead fd n₁).2)
        (ptr + (s.ahead fd n₁).1.length) n₂ fd := by simp only [second, first, hfirst]
    have hahead : ((s.cached j).setFd fd (s.ahead fd n₁).2).ahead fd n₂ =
        bytesAhead s.diskInfo s.disk n₂ (s.ahead fd n₁).2 := by
      rw [FileState.ahead, FileState.setFd_fdtable_self]
      rfl
    have hadd : s.ahead fd (n₁ + n₂) = ((s.ahead fd n₁).1 ++
        (bytesAhead s.diskInfo s.disk n₂ (s.ahead fd n₁).2).1,
        (bytesAhead s.diskInfo s.disk n₂ (s.ahead fd n₁).2).2) := bytesAhead_add
    have htail := (readTail_gives (M := M) (t := ⟨n₁ + n₂, 0, [], s⟩) (k := n₁ + n₂) h
      (by simp only; omega)).stored
    rw [hsecond', hsecond, hahead]
    simp only [whole, first, hwhole, hfirst]
    refine ⟨by rw [hadd], by rw [hadd, List.length_append], ?_, fun _ => ?_⟩
    · rw [FileState.setFd_fdtable_self, FileState.setFd_fdtable_self, hadd]
    · rw [htail, List.nil_append]

end

/-! ## The buffer of a read -/

/-- The cluster with the `k`-th byte ahead of a descriptor, as the driver follows the FAT. -/
def clusterAhead (g : DiskInfo) (d : Disk) (file : FileDescriptor) (k : ℕ) : ℕ :=
  (linkOf g d)^[(512 * file.sector + file.fposWithinSector + k) / (512 * g.sectorsPerCluster)]
    file.currentCluster

/-- A read of `n` bytes stores bytes only in the `n` places of its buffer, returns how many it has
stored, which is `n` or as many as are left, and moves the descriptor on by that number. -/
structure StaysInside (s : FileState) (fd : Fin fileLimit) (n : ℕ)
    (r : (ℕ × List UInt8) × FileState) : Prop where
  inside : r.1.2.length ≤ n
  count : r.1.1 = r.1.2.length
  returned : r.1.1 = min n ((s.fdtable fd).size - (s.fdtable fd).fpos)
  fpos : (r.2.fdtable fd).fpos = (s.fdtable fd).fpos + r.1.1

section

variable {g : DiskInfo} {d : Disk} {file : FileDescriptor} {k n : ℕ}

/-- The cluster of the descriptor is the one no sectors ahead. -/
theorem clusterAhead_zero (h : Readable g file) :
    clusterAhead g d file 0 = file.currentCluster := by
  have hsector := h.sector
  have hwithin := h.within_lt
  rw [clusterAhead, Nat.div_eq_of_lt (by omega)]
  rfl

/-- What lies ahead of the descriptor behind the next byte lies one further ahead of this one.

**Proof sketch.** By cases on whether the byte ends its sector and the sector its cluster. Only
behind the last sector is the cluster another one: then one link has been followed, and one less
lies ahead. -/
theorem clusterAhead_advanced (h : Readable g file) :
    clusterAhead g d (file.advanced g d) k = clusterAhead g d file (k + 1) := by
  have hsector := h.sector
  have hwithin := h.within_lt
  have hskip := h.skipByte_fposWithinSector
  have hnext : file.skipByte.atSectorStart.nextSector.sector = file.sector + 1 :=
    h.nextSector_sector
  unfold FileDescriptor.advanced
  split_ifs with hfull
  · unfold FileDescriptor.crossed
    rw [hnext]
    split_ifs with hcluster
    · -- the next byte is the first one of the next cluster
      have hdiv : (512 * file.sector + file.fposWithinSector + (k + 1)) /
          (512 * g.sectorsPerCluster) = k / (512 * g.sectorsPerCluster) + 1 := by
        rw [show 512 * file.sector + file.fposWithinSector + (k + 1) =
          k + 512 * g.sectorsPerCluster by omega, Nat.add_div_right _ (by omega)]
      rw [clusterAhead, clusterAhead, hdiv, Function.iterate_succ_apply]
      show (linkOf g d)^[(512 * 0 + 0 + k) / (512 * g.sectorsPerCluster)] _ = _
      rw [Nat.mul_zero, Nat.zero_add]
      rfl
    · rw [clusterAhead, clusterAhead, hnext]
      show (linkOf g d)^[(512 * (file.sector + 1) + 0 + k) / (512 * g.sectorsPerCluster)] _ = _
      rw [show 512 * (file.sector + 1) + 0 + k =
        512 * file.sector + file.fposWithinSector + (k + 1) by omega]
      rfl
  · rw [clusterAhead, clusterAhead, hskip]
    show (linkOf g d)^[(512 * file.sector + (file.fposWithinSector + 1) + k) /
      (512 * g.sectorsPerCluster)] _ = _
    rw [show 512 * file.sector + (file.fposWithinSector + 1) + k =
      512 * file.sector + file.fposWithinSector + (k + 1) by omega]
    rfl

/-- **How many bytes come.** All bytes that are asked for and left come exactly when each of them
lies in a cluster.

**Proof sketch.** Induction on the number of bytes. The first byte comes when its cluster is not the
end mark, and the others are ahead of the descriptor behind it. -/
theorem length_bytesAhead_iff (h : Readable g file) :
    (bytesAhead g d n file).1.length = min n (file.size - file.fpos) ↔
      ∀ k < min n (file.size - file.fpos), clusterAhead g d file k ≠ clusterEof := by
  induction n generalizing file with
  | zero => simp [bytesAhead]
  | succ n ih =>
    have hle := h.le
    by_cases hend : AtEnd file
    · rw [bytesAhead_end hend]
      rcases hend with hfpos | hc
      · simp [hfpos]
      · constructor
        · intro hzero k hk
          rw [← hzero] at hk
          exact absurd hk (Nat.not_lt_zero _)
        · intro hall
          by_contra hne
          refine hall 0 (Nat.pos_of_ne_zero fun h0 => hne h0.symm) ?_
          rw [clusterAhead_zero h, hc]
    · have hlt := h.lt_of_not_end hend
      obtain ⟨-, hc⟩ := not_or.mp hend
      have hnext : StandsBehind g 1 file (file.advanced g d) := h.advanced hend
      have hrest := ih hnext.readable
      have hmin : min (n + 1) (file.size - file.fpos) =
          min n ((file.advanced g d).size - (file.advanced g d).fpos) + 1 := by
        rw [hnext.size, hnext.fpos]
        omega
      rw [bytesAhead, if_neg hend, hmin, List.length_cons, Nat.add_right_cancel_iff, hrest]
      constructor
      · intro hall k hk
        cases k with
        | zero => rwa [clusterAhead_zero h]
        | succ k =>
          rw [← clusterAhead_advanced h]
          exact hall k (Nat.lt_of_succ_lt_succ hk)
      · intro hall k hk
        rw [clusterAhead_advanced h]
        exact hall (k + 1) (Nat.succ_lt_succ hk)

end

/-! ### What has been stored stays stored -/

section

variable {M : Machine} {s : FileState} {fd : Fin fileLimit} {t : Transfer} {k n ptr : ℕ}

/-- The read up to the end of the sector takes no byte back. -/
theorem readToBoundary_stored (fd : Fin fileLimit) (k : ℕ) (t : Transfer) :
    t.stored.length ≤ (readToBoundary fd k t).2.stored.length := by
  induction k generalizing t with
  | zero => exact le_refl _
  | succ k ih =>
    rw [readToBoundary]
    split_ifs
    · exact le_refl _
    rcases fileReadbyte t.state fd with ⟨_ | c, s'⟩
    · exact le_refl _
    · simp only
      split_ifs
      · simp
      · exact le_trans (by simp) (ih _)

/-- The read of the full sectors takes no byte back. -/
theorem readFullSectors_stored (fd : Fin fileLimit) (k : ℕ) (t : Transfer) :
    t.stored.length ≤ (readFullSectors fd k t).2.stored.length := by
  induction k generalizing t with
  | zero => exact le_refl _
  | succ k ih =>
    rw [readFullSectors]
    rcases fileReadsector t.state fd with ⟨_ | c, s'⟩
    · exact le_refl _
    · exact le_trans (by simp) (ih _)

/-- The read behind the full sectors takes no byte back. -/
theorem readTail_stored : t.stored.length ≤ (readTail fd k t).stored.length := by
  induction k generalizing t with
  | zero => exact le_refl _
  | succ k ih =>
    rw [readTail]
    rcases fileReadbyte t.state fd with ⟨_ | c, s'⟩
    · exact le_refl _
    · exact le_trans (by simp) ih

/-- The phases behind the first one take no byte back. -/
theorem readPhases_stored {t' : Transfer} {stop : Bool}
    (hr : readToBoundary fd Machine.turns t = (stop, t')) :
    t'.stored.length ≤ (readPhases fd t).stored.length := by
  unfold readPhases
  simp only [hr]
  cases stop with
  | true => exact le_refl _
  | false =>
    have hfull := readFullSectors_stored (M := M) fd (t'.n / t.state.diskInfo.bytesPerSector) t'
    simp only
    rcases hr' : readFullSectors fd (t'.n / t.state.diskInfo.bytesPerSector) t' with ⟨_ | _, t₂⟩
    all_goals
      rw [hr'] at hfull
      simp only at hfull ⊢
    · exact le_trans hfull readTail_stored
    · exact hfull

/-- A request for no bytes in the middle of a sector stores one all the same. -/
theorem readPhases_stores (h : s.Reads fd) (hw : (s.fdtable fd).fposWithinSector ≠ 0)
    (hend : ¬ AtEnd (s.fdtable fd)) : 0 < (readPhases fd ⟨0, 0, [], s⟩).stored.length := by
  have hturns := M.turns_ge
  obtain ⟨k, hk⟩ : ∃ k, M.turns = k + 1 := ⟨M.turns - 1, by omega⟩
  obtain ⟨j, hj⟩ := h.readbyte (M := M) hend
  rcases hr : readToBoundary fd Machine.turns ⟨0, 0, [], s⟩ with ⟨stop, t'⟩
  refine lt_of_lt_of_le ?_ (readPhases_stored hr)
  rw [hk, readToBoundary, if_neg hw, hj] at hr
  simp only [show (0 + 65535) % 65536 = 65535 by decide, show ¬ 65535 = 0 by decide,
    if_false] at hr
  have hstored := readToBoundary_stored (M := M) fd k
    (⟨65535, (0 + 1) % 65536, [] ++ [(s.fdtable fd).byteAt s.diskInfo s.disk],
      (s.cached j).setFd fd ((s.fdtable fd).advanced s.diskInfo s.disk)⟩)
  rw [hr] at hstored
  exact lt_of_lt_of_le Nat.zero_lt_one hstored

/-- **The buffer of a read.** A read stays inside its buffer and gives what there is exactly when a
request for no bytes is made at the start of a sector or at the end, each byte that is asked for and
left lies in a cluster as the driver follows the FAT, and the buffer is not refused while there are
bytes to give.

**Proof sketch.** A refused request gives nothing, which is right only when there is nothing to
give. A request for no bytes stores a byte unless it is made at the start of a sector or at the end
(`readPhases_stores`, `fileRead_idle`). Any other request gives the bytes ahead of the descriptor,
and these are as many as there are to give when none of their clusters ends the chain
(`length_bytesAhead_iff`). -/
theorem staysInside_iff (h : s.Reads fd) (hmode : (s.fdtable fd).mode = fmodeRead)
    (hptr : ptr < 65536) (hn : n < 65536) :
    StaysInside s fd n (fileRead s ptr n fd) ↔
      (0x6000 ≤ ptr → (n = 0 → (s.fdtable fd).fposWithinSector = 0 ∨ AtEnd (s.fdtable fd)) ∧
        ∀ k < min n ((s.fdtable fd).size - (s.fdtable fd).fpos),
          clusterAhead s.diskInfo s.disk (s.fdtable fd) k ≠ clusterEof) ∧
      (ptr < 0x6000 → n = 0 ∨ (s.fdtable fd).fpos = (s.fdtable fd).size) := by
  have hle := h.readable.le
  rcases Nat.lt_or_ge ptr 0x6000 with hlow | hhigh
  · rw [fileRead_refused (by omega)]
    constructor
    · intro hr
      have hzero : 0 = min n ((s.fdtable fd).size - (s.fdtable fd).fpos) := hr.returned
      exact ⟨fun hhigh => by omega, fun _ => by omega⟩
    · rintro ⟨-, hnone⟩
      have hnone := hnone hlow
      refine ⟨Nat.zero_le _, rfl, ?_, rfl⟩
      show 0 = min n _
      omega
  have hlow : ¬ ptr < 0x6000 := by omega
  simp only [hhigh, hlow, true_implies, false_implies, and_true]
  rcases Nat.eq_zero_or_pos n with rfl | hpos
  · -- a request for no bytes
    simp only [Nat.zero_min, Nat.not_lt_zero, false_implies, implies_true, and_true, true_implies]
    constructor
    · intro hr
      by_contra hno
      obtain ⟨hw, hend⟩ := not_or.mp hno
      have hphases : (fileRead s ptr 0 fd).1.2 = (readPhases fd ⟨0, 0, [], s⟩).stored := by
        unfold fileRead
        simp only [if_neg (show ¬ ptr % 65536 < 0x6000 by omega), descriptor?_cast, hmode, ne_eq,
          not_true_eq_false, if_false, Nat.not_lt_zero]
      have hstored := readPhases_stores (M := M) h hw hend
      rw [← hphases] at hstored
      exact absurd (lt_of_lt_of_le hstored hr.inside) (Nat.lt_irrefl 0)
    · intro hw
      have hidle : fileRead s ptr 0 fd = ((0, []), s) := by
        refine fileRead_idle (descriptor?_cast ..) ?_
        rcases hw with hw | hfpos | hc
        · exact .inr (.inr (.inr (.inr ⟨rfl, hw⟩)))
        · exact .inr (.inr (.inl hfpos))
        · exact .inr (.inr (.inr (.inl hc)))
      rw [hidle]
      exact ⟨le_refl _, rfl, (Nat.zero_min _).symm, rfl⟩
  · have hne : ¬ n = 0 := by omega
    obtain ⟨j, hj⟩ := h.read (M := M) ptr n hmode (show 0x6000 ≤ ptr % 65536 by omega) hpos hn
    simp only [hne, false_implies, true_and]
    rw [← length_bytesAhead_iff h.readable, hj]
    constructor
    · intro hr
      exact hr.returned
    · intro hlen
      refine ⟨length_bytesAhead_le, rfl, hlen, ?_⟩
      rw [FileState.setFd_fdtable_self]
      exact h.readable.standsBehind.fpos

end

/-! ## A small file -/

section

attribute [local instance] Machine.linked

/-- The initialised driver with a file of 600 bytes, open for reading at the position 500. -/
def readState : FileState := (filesystemInit (.zeroed chainDisk)).setFd firstFd
  { name := nameAB, flags := 0, mode := fmodeRead, size := 600, fpos := 500, startCluster := 2
    currentCluster := 2, sector := 0, fposWithinSector := 500 }

/-- The first descriptor reads in the state of the example. -/
theorem readState_reads : readState.Reads firstFd :=
  ⟨rfl, by decide +kernel, by decide, by decide, rfl, by decide +kernel, by decide +kernel⟩

/-- Two reads across the end of the first sector and the end of the file. -/
theorem fileRead_split_readState :
    (fileRead readState 0x8000 80 0).1.2 = (fileRead readState 0x8000 5 0).1.2 ++
      (fileRead (fileRead readState 0x8000 5 0).2 (0x8000 + (fileRead readState 0x8000 5 0).1.1)
        75 0).1.2 := by
  have hsplit := fileRead_split (M := Machine.linked) readState_reads rfl (show 1 ≤ 5 by decide)
    (show 1 ≤ 75 by decide) (by decide) (show 0x8000 + (5 + 75) ≤ 65536 by decide)
  exact hsplit.1


/-- A request for no bytes fills a buffer with 524. -/
theorem not_staysInside_readState :
    ¬ ∀ (s : FileState) (fd : Fin fileLimit) (ptr n : ℕ), s.Reads fd →
      (s.fdtable fd).mode = fmodeRead → 0x6000 ≤ ptr → ptr + n < 65536 →
      (∃ l, LinkTable.Chain (fatEntry s.diskInfo s.disk) clusterEof (s.fdtable fd).startCluster l ∧
        ∀ c ∈ l, Usable s.diskInfo c) →
      StaysInside s fd n (fileRead s ptr n fd) := by
  intro h
  have hstays := h readState firstFd 0x8000 0 readState_reads rfl (by decide) (by decide)
    ⟨_, chain_chainDisk, usable_chainDisk⟩
  have hcount : (fileRead readState 0x8000 0 firstFd).1.1 = 524 := by
    decide +kernel
  have hreturned := hstays.returned
  rw [hcount] at hreturned
  exact absurd hreturned (by decide +kernel)

/-- A read of 80 bytes across the end of the first sector. -/
theorem staysInside_readState :
    StaysInside readState firstFd 80
      (fileRead readState 0x8000 80 firstFd) := by
  refine (staysInside_iff readState_reads rfl (by decide) (by decide)).mpr
    ⟨fun _ => ⟨fun h => absurd h (by decide), ?_⟩, fun h => absurd h (by decide)⟩
  decide +kernel

end

end Z80OS
