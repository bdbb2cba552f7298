import Z80OS.File.Advancing

set_option relaxedAutoImplicit false
set_option autoImplicit false

/-!
# What a write accounts for

A write returns the number of the bytes that it has written. A sector write that fills a cluster has
counted its bytes and put them on the disk before it finds that there is no free cluster to go on
in, and then the write returns `0`. This file shows when a write returns what the file has grown by.

## Main definitions

* `Z80OS.WriteAccounts` — the file has grown by the bytes that a write returns.
* `Z80OS.HasClusters` — the disk has the clusters that a write needs.
* `Z80OS.Doomed` — a cluster is lacking.

## Main results

* `Z80OS.InFile.run` — a write that has enough clusters.
* `Z80OS.InFile.run_doomed` — a write that lacks one.
* `Z80OS.writeAccounts_iff` — when a write accounts for its bytes.
-/

namespace Z80OS

/-- A write returns what the size and the position have grown by, and so many of its bytes have been
added to the contents of the file. -/
structure WriteAccounts [Machine] (g : DiskInfo) (fd : Fin fileLimit) (data bs : List UInt8)
    (s : FileState) : Prop where
  size : ((fileWrite s bs fd).2.fdtable fd).size = (s.fdtable fd).size + (fileWrite s bs fd).1
  fpos : ((fileWrite s bs fd).2.fdtable fd).fpos = (s.fdtable fd).fpos + (fileWrite s bs fd).1
  stored : ∃ l, OpenForWriting g fd l (data ++ bs.take (fileWrite s bs fd).1) (fileWrite s bs fd).2

/-- The number of clusters that a file lacks whose chain is `l` and which gets `n` bytes. The chain
reaches one cluster behind the full ones. -/
def lacking (g : DiskInfo) (l : List ℕ) (n : ℕ) : ℕ := n / 512 / g.sectorsPerCluster + 1 - l.length

/-- The disk has clusters for `n` bytes: enough of the clusters 2 to 255 are free, or all but one of
the clusters needed, and whatever lies behind the buffer the search behind the first sector of the
FAT finds another one. -/
def HasClusters (g : DiskInfo) (s : FileState) (l : List ℕ) (n : ℕ) : Prop :=
  lacking g l n ≤ (freeClusters g s.disk).length ∨
    lacking g l n = (freeClusters g s.disk).length + 1 ∧
      ∀ M : Machine, Continues g (l ++ freeClusters g s.disk) (@behindFirst M s)

section

variable {M : Machine} {g : DiskInfo} {fd : Fin fileLimit} {l : List ℕ} {data bs : List UInt8}
  {s s' s₁ : FileState} {e : ℤ} {b n : ℕ}

/-- The chain is one cluster longer, so one cluster less is lacking. -/
theorem lacking_append {m : ℕ} (hfull : l.length ≤ m / 512 / g.sectorsPerCluster) (hm : m ≤ n) :
    lacking g (l ++ [b]) n + 1 = lacking g l n := by
  have hle : m / 512 / g.sectorsPerCluster ≤ n / 512 / g.sectorsPerCluster :=
    Nat.div_le_div_right (Nat.div_le_div_right hm)
  simp only [lacking, List.length_append, List.length_cons, List.length_nil]
  omega

/-! ## A write that has enough clusters -/

/-- The clusters that a write needs are there for the rest of it. -/
theorem HasClusters.of_same {l₁ : List ℕ} (h : HasClusters g s l n) (hg : Geometry g)
    (hs : s.Coherent) (hi : s.diskInfo = g) (hs₁ : s₁.Coherent) (hi₁ : s₁.diskInfo = g)
    (hsame : SameUpper g s.disk s₁.disk)
    (hlen : lacking g l₁ n + (freeClusters g s.disk).length =
      lacking g l n + (freeClusters g s₁.disk).length)
    (hsub : ∀ x ∈ l₁ ++ freeClusters g s₁.disk, x ∈ l ++ freeClusters g s.disk) :
    HasClusters g s₁ l₁ n := by
  rcases h with hle | ⟨heq, hall⟩
  · exact .inl (by omega)
  · refine .inr ⟨by omega, fun M => ?_⟩
    have hgood := hall (M.frozen s₁)
    rw [behindFirst_frozen hg hs hs₁ hi hi₁ hsame.symm] at hgood
    exact ⟨hgood.usable, fun hin => hgood.notMem (hsub _ hin)⟩

/-- The cluster found behind the first sector is one that the write needs. -/
theorem HasClusters.overruns (h : HasClusters g s l n) (hg : Geometry g) (hs : s.Coherent)
    (hi : s.diskInfo = g) (hb : @Overruns M g s b) (hpos : 0 < lacking g l n) :
    lacking g l n = 1 ∧ Continues g l b := by
  obtain ⟨hnone, s₀, hs₀, hi₀, hsame, hb⟩ := hb
  rw [HasClusters, hnone, List.length_nil, List.append_nil] at h
  obtain ⟨heq, hall⟩ := h.resolve_left (by omega)
  have hgood := hall (M.frozen s₀)
  rw [behindFirst_frozen hg hs hs₀ hi hi₀ hsame.symm, ← hb] at hgood
  exact ⟨heq, hgood⟩

/-- **A write that has enough clusters** does not fail, and its bytes get into the file.

**Proof sketch.** Induction on the sector writes; each of them is `InFile.step`. -/
theorem InFile.run (hg : Geometry g) (h : InFile g fd l data s) (hchunks : WriteChunks fd s bs e s')
    (hhas : HasClusters g s l (data ++ bs).length) :
    e = 0 ∧ ∃ l', InFile g fd l' (data ++ bs) s' := by
  induction hchunks generalizing l data with
  | nil => exact ⟨rfl, l, by rwa [List.append_nil]⟩
  | @chunk s c s₁ bs e s' hle _ hw _ ih =>
    have hm : (data ++ c).length ≤ ((data ++ c) ++ bs).length := by
      simp only [List.length_append]
      omega
    rw [← List.append_assoc] at hhas ⊢
    cases h.step hg hle hw with
    | inside h₁ hfree hupper =>
      refine ih h₁ (hhas.of_same hg h.coherent h.diskInfo h₁.coherent h₁.diskInfo hupper ?_ ?_)
      · rw [hfree]
      · rw [hfree]
        exact fun x hx => hx
    | @low b hfull hb h₁ hlen hfree hupper =>
      have hless := lacking_append (b := b) hfull hm
      refine ih h₁ (hhas.of_same hg h.coherent h.diskInfo h₁.coherent h₁.diskInfo hupper ?_ ?_)
      · omega
      · intro x hx
        rw [List.append_assoc, List.mem_append, List.mem_append, List.mem_singleton, hfree] at hx
        rw [List.mem_append]
        rcases hx with hx | rfl | hx
        · exact .inl hx
        · exact .inr hb
        · exact .inr hx.1
    | @high b hfull hb hgood h₁ hnone =>
      have hless := lacking_append (b := b) hfull hm
      obtain ⟨hone, -⟩ := hhas.overruns hg h.coherent h.diskInfo hb (by omega)
      exact ih h₁ (.inl (by omega))
    | @lost b hfull hb hbad _ =>
      have hless := lacking_append (b := b) hfull hm
      exact absurd (hhas.overruns hg h.coherent h.diskInfo hb (by omega)).2 hbad
    | full _ _ he _ => exact absurd rfl he
  | @stop s c e s₁ bs hle hw he =>
    have hm : (data ++ c).length ≤ ((data ++ c) ++ bs).length := by
      simp only [List.length_append]
      omega
    rw [← List.append_assoc] at hhas
    cases h.step hg hle hw with
    | inside => exact absurd rfl he
    | low => exact absurd rfl he
    | high => exact absurd rfl he
    | lost => exact absurd rfl he
    | full hfull hb _ _ =>
      have hless := lacking_append (b := 0) hfull hm
      have hgood := (hhas.overruns hg h.coherent h.diskInfo hb (by omega)).2
      exact absurd hgood.usable.two_le (by decide)

/-! ## A write that lacks a cluster -/

/-- The search behind the first sector answers with the cluster `b` all the time. -/
def Stuck [Machine] (g : DiskInfo) (s : FileState) (b : ℕ) : Prop :=
  ∀ s₀ : FileState, s₀.Coherent → s₀.diskInfo = g → SameUpper g s.disk s₀.disk →
    behindFirst s₀ = b

/-- A write that lacks a cluster: the search behind the first sector answers with a cluster that
does not help, or two clusters are to be found there and it gives the same one twice. -/
inductive Doomed [Machine] (g : DiskInfo) (b n : ℕ) (s : FileState) (l : List ℕ) : Prop
  | useless (hlack : (freeClusters g s.disk).length < lacking g l n)
      (hb : ¬ Continues g (l ++ freeClusters g s.disk) b) (hstuck : Stuck g s b)
  | twice (hlack : (freeClusters g s.disk).length + 2 ≤ lacking g l n)
      (hstuck : ∀ s, Stuck g s b)

/-- What the search is stuck at is told by the upper sectors. -/
theorem Stuck.of_same (h : @Stuck M g s b) (hsame : SameUpper g s.disk s₁.disk) :
    @Stuck M g s₁ b := fun s₀ hs₀ hi₀ hsame₀ => h s₀ hs₀ hi₀ (hsame.trans hsame₀)

/-- A search that goes on behind the first sector answers with what it is stuck at. -/
theorem Stuck.overruns {b' : ℕ} (h : @Stuck M g s b) (hb : @Overruns M g s b') : b' = b := by
  obtain ⟨-, s₀, hs₀, hi₀, hsame, hb'⟩ := hb
  exact hb'.trans (h s₀ hs₀ hi₀ hsame)

namespace Doomed

/-- A write that is doomed lacks a cluster. -/
theorem pos (h : @Doomed M g b n s l) : 0 < lacking g l n := by
  cases h with
  | useless hlack => omega
  | twice hlack => omega

/-- A write stays doomed over a step that takes no cluster. -/
theorem inside (h : @Doomed M g b n s l) (hfree : freeClusters g s₁.disk = freeClusters g s.disk)
    (hsame : SameUpper g s.disk s₁.disk) : @Doomed M g b n s₁ l := by
  cases h with
  | useless hlack hb hstuck =>
    exact .useless (hfree ▸ hlack) (hfree ▸ hb) (hstuck.of_same hsame)
  | twice hlack hstuck => exact .twice (hfree ▸ hlack) hstuck

/-- A write stays doomed over a step that takes one of the clusters 2 to 255. -/
theorem low {x : ℕ} (h : @Doomed M g b n s l)
    (hless : lacking g (l ++ [x]) n + 1 = lacking g l n)
    (hlen : (freeClusters g s₁.disk).length + 1 = (freeClusters g s.disk).length)
    (hfree : ∀ y, y ∈ freeClusters g s₁.disk ↔ y ∈ freeClusters g s.disk ∧ y ≠ x)
    (hsame : SameUpper g s.disk s₁.disk) : @Doomed M g b n s₁ (l ++ [x]) := by
  cases h with
  | useless hlack hb hstuck =>
    refine .useless (by omega) (fun hgood => hb ⟨hgood.usable, fun hin => hgood.notMem ?_⟩)
      (hstuck.of_same hsame)
    rw [List.append_assoc, List.mem_append, List.mem_append, List.mem_singleton, hfree]
    rcases List.mem_append.mp hin with hin | hin
    · exact .inl hin
    · by_cases hx : b = x
      · exact .inr (.inl hx)
      · exact .inr (.inr ⟨hin, hx⟩)
  | twice hlack hstuck => exact .twice (by omega) hstuck

/-- A write stays doomed over a step that takes a cluster from behind the first sector. -/
theorem high {x : ℕ} (h : @Doomed M g b n s l)
    (hless : lacking g (l ++ [x]) n + 1 = lacking g l n) (hx : @Overruns M g s x)
    (hgood : Continues g l x) (hnone : freeClusters g s₁.disk = []) :
    @Doomed M g b n s₁ (l ++ [x]) := by
  cases h with
  | useless _ hb hstuck =>
    rw [hx.none, List.append_nil, ← hstuck.overruns hx] at hb
    exact absurd hgood hb
  | twice hlack hstuck =>
    obtain rfl := (hstuck s).overruns hx
    refine .useless ?_ (fun hagain => hagain.notMem (by simp)) (hstuck s₁)
    rw [hnone, List.length_nil]
    omega

end Doomed

/-- **A write that lacks a cluster** fails after it has counted bytes, or its file outgrows the
chain.

**Proof sketch.** Induction on the sector writes. The write does not end before the search behind
the first sector has answered, since a cluster is lacking until then. -/
theorem InFile.run_doomed (hg : Geometry g) (h : InFile g fd l data s)
    (hchunks : WriteChunks fd s bs e s') (hdoom : @Doomed M g b (data ++ bs).length s l)
    (hsize : data.length + bs.length < 4294967296) :
    e ≠ 0 ∧ data.length < (s'.fdtable fd).size ∨ Outgrown g fd s' := by
  induction hchunks generalizing l data with
  | nil =>
    have hpos := hdoom.pos
    have hin := h.inside
    rw [List.append_nil, lacking] at hpos
    omega
  | @chunk s c s₁ bs e s' hle _ hw hrest ih =>
    have hm : (data ++ c).length ≤ ((data ++ c) ++ bs).length := by
      simp only [List.length_append]
      omega
    rw [List.length_append] at hsize
    have hsize' : (data ++ c).length + bs.length < 4294967296 := by
      rw [List.length_append]
      omega
    have hmono : e ≠ 0 ∧ (data ++ c).length < (s'.fdtable fd).size ∨ Outgrown g fd s' →
        e ≠ 0 ∧ data.length < (s'.fdtable fd).size ∨ Outgrown g fd s' :=
      Or.imp_left fun hfail => ⟨hfail.1, by
        have := hfail.2
        rw [List.length_append] at this
        omega⟩
    rw [← List.append_assoc] at hdoom
    cases h.step hg hle hw with
    | inside h₁ hfree hupper => exact hmono (ih h₁ (hdoom.inside hfree hupper) hsize')
    | low hfull _ h₁ hlen hfree hupper =>
      exact hmono (ih h₁ (hdoom.low (lacking_append hfull hm) hlen hfree hupper) hsize')
    | high hfull hb hgood h₁ hnone =>
      exact hmono (ih h₁ (hdoom.high (lacking_append hfull hm) hb hgood hnone) hsize')
    | lost _ _ _ h₁ =>
      have hsum : (s.fdtable fd).size + c.length < 4294967296 := by
        rw [h.size]
        omega
      refine .inr (h₁.run hg hrest ?_)
      rw [fileWritesector_size h.coherent (by rw [h.diskInfo, hg.bytesPerSector]) hle hsum hw,
        h.size]
      omega
    | full _ _ he _ => exact absurd rfl he
  | @stop s c e s₁ bs hle hw he =>
    cases h.step hg hle hw with
    | inside => exact absurd rfl he
    | low => exact absurd rfl he
    | high => exact absurd rfl he
    | lost => exact absurd rfl he
    | full hfull _ _ hlen =>
      refine .inl ⟨he, ?_⟩
      have hin := h.inside
      rw [hlen, List.length_append]
      by_contra hge
      rw [List.length_append, show c.length = 0 by omega, Nat.add_zero] at hfull
      omega

/-- A write of no bytes. -/
theorem BehindFile.fileWrite_nil (h : BehindFile g fd l data s) : fileWrite s [] fd = (0, s) := by
  have hwithin := h.within_eq
  unfold fileWrite
  simp only [descriptor?_cast, h.mode, ne_eq, not_true_eq_false, if_false, hwithin, writeAligned,
    if_true]

/-- A write of a descriptor in its file that lacks a cluster does not account for its bytes. -/
theorem InFile.not_accounts (hg : Geometry g) (h : InFile g fd l data s) (hbs : bs.length < 65536)
    (hdoom : @Doomed M g b (data ++ bs).length s l) : ¬ @WriteAccounts M g fd data bs s := by
  intro hacc
  have hlen := h.contents.length_le hg
  have hbps : s.diskInfo.bytesPerSector = 512 := by rw [h.diskInfo, hg.bytesPerSector]
  have hwithin : (s.fdtable fd).fposWithinSector < 512 := by
    rw [h.within]
    exact Nat.mod_lt _ (by decide)
  obtain ⟨e, hchunks, -, hzero⟩ := fileWrite_phases (M := M) bs h.coherent hbps h.mode hwithin
  rcases h.run_doomed hg hchunks hdoom (by omega) with ⟨he, hgrown⟩ | hout
  · -- nothing is returned, though the size has grown
    have hsize := hacc.size
    rw [hzero he, h.size] at hsize
    omega
  · obtain ⟨l', hopen⟩ := hacc.stored
    exact hout.not_open hg hopen

/-- A write of a descriptor behind its file does not account for its bytes. -/
theorem BehindFile.not_accounts (hg : Geometry g) (h : BehindFile g fd l data s) (hne : bs ≠ [])
    (hbs : bs.length < 65536) : ¬ @WriteAccounts M g fd data bs s := by
  intro hacc
  have hlen := h.contents.length_le hg
  have hbps : s.diskInfo.bytesPerSector = 512 := by rw [h.diskInfo, hg.bytesPerSector]
  have hwithin : (s.fdtable fd).fposWithinSector < 512 := by
    rw [h.within]
    exact Nat.mod_lt _ (by decide)
  obtain ⟨e, hchunks, -⟩ := fileWrite_phases (M := M) bs h.coherent hbps h.mode hwithin
  obtain ⟨l', hopen⟩ := hacc.stored
  exact (h.run hg hne hchunks (by omega)).not_open hg hopen

/-- A write of a descriptor in its file that has enough clusters accounts for its bytes. -/
theorem InFile.accounts (hg : Geometry g) (h : InFile g fd l data s)
    (hhas : HasClusters g s l (data ++ bs).length) : @WriteAccounts M g fd data bs s := by
  have hbps : s.diskInfo.bytesPerSector = 512 := by rw [h.diskInfo, hg.bytesPerSector]
  have hwithin : (s.fdtable fd).fposWithinSector < 512 := by
    rw [h.within]
    exact Nat.mod_lt _ (by decide)
  obtain ⟨e, hchunks, hcount, -⟩ := fileWrite_phases (M := M) bs h.coherent hbps h.mode hwithin
  obtain ⟨rfl, l', h'⟩ := h.run hg hchunks hhas
  have hall := hcount rfl
  refine ⟨?_, ?_, l', .inl ?_⟩
  · rw [h'.size, h.size, hall, List.length_append]
  · rw [h'.fpos, h.fpos, hall, List.length_append]
  · rw [hall, List.take_length]
    exact h'

/-- **Write accounting.** A write returns what the file has grown by exactly when there is nothing
to write, or the descriptor is not behind its file and the disk has the clusters that the write
needs.

**Proof sketch.** With enough clusters no sector write fails. When a cluster is lacking, take for
the memory behind the buffer one with which the search there answers with a cluster that does not
help, or with the cluster 256 each time. -/
theorem writeAccounts_iff (hg : Geometry g) (h : OpenForWriting g fd l data s)
    (hbs : bs.length < 65536) :
    (∀ M : Machine, @WriteAccounts M g fd data bs s) ↔
      bs = [] ∨ ¬ BehindFile g fd l data s ∧ HasClusters g s l (data.length + bs.length) := by
  rw [← List.length_append]
  constructor
  · intro hacc
    by_cases hnil : bs = []
    · exact .inl hnil
    refine .inr ⟨fun hbehind => hbehind.not_accounts hg hnil hbs (hacc (Machine.filled 0)), ?_⟩
    have hin := h.resolve_right fun hbehind =>
      hbehind.not_accounts hg hnil hbs (hacc (Machine.filled 0))
    by_contra hhas
    obtain ⟨hlack, hall⟩ := not_or.mp hhas
    by_cases htwice : (freeClusters g s.disk).length + 2 ≤ lacking g l (data ++ bs).length
    · exact hin.not_accounts hg hbs (@Doomed.twice (Machine.filled 0) g 256 _ s l htwice
        fun _ s₀ hs₀ _ _ => behindFirst_filled_zero hs₀) (hacc (Machine.filled 0))
    · obtain ⟨M, hbad⟩ := not_forall.mp fun hgood => hall ⟨by omega, hgood⟩
      have hstuck : @Stuck (M.frozen s) g s (@behindFirst M s) := fun s₀ hs₀ hi₀ hsame =>
        behindFirst_frozen hg hs₀ hin.coherent hi₀ hin.diskInfo hsame
      exact hin.not_accounts hg hbs
        (@Doomed.useless (M.frozen s) g _ _ s l (by omega) hbad hstuck) (hacc (M.frozen s))
  · rintro (rfl | ⟨hnot, hhas⟩) M
    · rcases h with hin | hbehind
      · refine hin.accounts hg (.inl ?_)
        have := hin.inside
        rw [List.append_nil, lacking]
        omega
      · refine ⟨?_, ?_, l, ?_⟩
        all_goals rw [hbehind.fileWrite_nil]
        · rfl
        · rfl
        · rw [List.take_nil, List.append_nil]
          exact .inr hbehind
    · exact (h.resolve_right hnot).accounts hg hhas

end

/-! ## A full disk -/

section

attribute [local instance] Machine.linked

/-- A disk all of whose clusters are in use. -/
def fullDisk : Disk := fun k =>
  if k = 0 then bootSector 1 1 1 else if k = 1 then fun _ => 0xff else Sector.zero

/-- The driver with an empty file on the full disk, open for writing. -/
def fullDiskState : FileState := (filesystemInit (.zeroed fullDisk)).setFd firstFd
  { name := nameAB, flags := fdFlagsClaimed, mode := fmodeWrite, size := 0, fpos := 0
    startCluster := 2, currentCluster := 2, sector := 0, fposWithinSector := 0 }

/-- The full disk has a layout that the driver can use. -/
theorem geometry_fullDiskState : Geometry fullDiskState.diskInfo :=
  ⟨by decide +kernel, by decide +kernel, by decide +kernel, by decide +kernel, by decide +kernel,
    by decide +kernel⟩

/-- A file of one cluster is open for writing on the full disk. -/
theorem inFile_fullDiskState :
    InFile fullDiskState.diskInfo firstFd [2] [] fullDiskState := by
  have hchain : LinkTable.Chain (fatEntry fullDiskState.diskInfo fullDiskState.disk) clusterEof 2
      [2] := LinkTable.chain_singleton (by decide) (by decide +kernel)
  exact ⟨⟨rfl, rfl, ⟨hchain, fun c hc => List.mem_singleton.mp hc ▸
    .of_lt geometry_fullDiskState (le_refl _) (by decide), Nat.zero_le _,
    fun q hq => absurd hq (Nat.not_lt_zero _)⟩, rfl, rfl, rfl, rfl⟩, by decide +kernel, rfl,
    by decide +kernel⟩

/-- None of the clusters 2 to 255 is free on the full disk. -/
theorem freeClusters_fullDiskState :
    freeClusters fullDiskState.diskInfo fullDiskState.disk = [] := by
  decide +kernel

/-- A write that fills the only cluster of the file returns `0`, and the file has grown by 512
bytes. -/
theorem not_writeAccounts :
    ¬ ∀ (g : DiskInfo) (fd : Fin fileLimit) (l : List ℕ) (data bs : List UInt8) (s : FileState),
      Geometry g → OpenForWriting g fd l data s → bs.length < 65536 →
      WriteAccounts g fd data bs s := by
  intro h
  have hacc := h fullDiskState.diskInfo firstFd [2] [] (List.replicate 512 0x41) fullDiskState
    geometry_fullDiskState (.inl inFile_fullDiskState) (by decide +kernel)
  have hsize := hacc.size
  rw [show (fileWrite fullDiskState (List.replicate 512 0x41) firstFd).1 = 0 by decide +kernel]
    at hsize
  exact absurd hsize (by decide +kernel)

/-- On the full disk a write of 511 bytes accounts for them, and one of 512 bytes does not. -/
theorem writeAccounts_fullDiskState :
    (lacking fullDiskState.diskInfo [2] 511 = 0 ∧ ∀ M : Machine,
      @WriteAccounts M fullDiskState.diskInfo firstFd [] (List.replicate 511 0x41) fullDiskState) ∧
    ¬ ∀ M : Machine,
      @WriteAccounts M fullDiskState.diskInfo firstFd [] (List.replicate 512 0x41)
        fullDiskState := by
  have hin := inFile_fullDiskState
  have hnot : ¬ BehindFile fullDiskState.diskInfo firstFd [2] [] fullDiskState := fun h =>
    absurd h.full (by decide +kernel)
  refine ⟨⟨by decide +kernel, (writeAccounts_iff geometry_fullDiskState (.inl hin)
    (by decide +kernel)).mpr (.inr ⟨hnot, .inl (by decide +kernel)⟩)⟩, fun hall => ?_⟩
  rcases (writeAccounts_iff geometry_fullDiskState (.inl hin) (by decide +kernel)).mp hall with
    hnil | ⟨-, hle | ⟨-, hgood⟩⟩
  · exact absurd hnil (by decide +kernel)
  · rw [freeClusters_fullDiskState] at hle
    exact absurd hle (by decide +kernel)
  · -- the cluster 256 has no word in front of the root directory
    have hrange := (hgood (Machine.filled 0)).usable.fat_lt
    rw [behindFirst_filled_zero hin.coherent] at hrange
    exact absurd hrange (by decide +kernel)

end

end Z80OS
