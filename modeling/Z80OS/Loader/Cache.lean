import Mathlib.Data.List.Induction
import Z80OS.Lib.TagCache
import Z80OS.Loader.Driver

set_option relaxedAutoImplicit false
set_option autoImplicit false

/-!
# The sector cache of the loader

The number of the sector in the buffer is kept in 16 bits and compared with the number of the sector
that is asked for, which has 32. So a sector is taken for the one in the buffer when its number is
the low half of the other's. All parts of the driver use the buffer through this cache only, which
makes what they leave in the buffer the outcome of a history of requests.

## Main definitions

* `Z80OS.Loader.tagging` — the tags of the cache.
* `Z80OS.Loader.readSectors` — a history of requests.
* `Z80OS.Loader.HoldsLast` — the buffer holds the sector that has been asked for last.
* `Z80OS.Loader.EndsAliased` — the histories that end with requests for the low half of a number.
* `Z80OS.Loader.Requests` — what a part of the driver does to the cache is a history of requests.

## Main results

* `Z80OS.Loader.holdsLast_iff` — when the buffer holds the sector that has been asked for last.
* `Z80OS.Loader.inBuffer_of_lt` — it does as long as the numbers of the sectors have 16 bits.
* `Z80OS.Loader.fileRead_requests`, `Z80OS.Loader.fileOpen_requests` — the driver uses the cache.
-/

namespace Z80OS.Loader

open TagCache

/-! ## Histories of requests -/

/-- A tag is the low half of the number of a sector, and is taken for the number that is equal to
it. -/
def tagging : Tagging ℕ ℕ where
  tag k := k % 65536
  hit t k := t = k

/-- A history of requests. -/
def readSectors (s : State) (ks : List ℕ) : State := ks.foldl readSectorCached s

/-- What is in the cache. -/
def State.line (s : State) : Line ℕ Sector := ⟨s.currentCacheSector, s.tempSector⟩

/-- The state with another line in the cache. -/
def State.withLine (s : State) (l : Line ℕ Sector) : State :=
  { s with tempSector := l.val, currentCacheSector := l.tag }

variable {s s' s'' : State} {k sector : ℕ} {ks : List ℕ}

/-- A request is one of a cache with tags of 16 bits. -/
theorem readSectorCached_eq (s : State) (sector : ℕ) :
    readSectorCached s sector = s.withLine (tagging.read s.disk s.line sector) := by
  unfold readSectorCached Tagging.read State.withLine State.line tagging
  by_cases h : s.currentCacheSector = sector
  · subst h
    simp
  · simp [h]

/-- Requests are those of such a cache, one after the other. -/
theorem readSectors_eq (s : State) (ks : List ℕ) :
    readSectors s ks = s.withLine (tagging.readAll s.disk s.line ks) := by
  induction ks generalizing s with
  | nil => rfl
  | cons k ks ih =>
    rw [readSectors, List.foldl_cons]
    refine (ih _).trans ?_
    rw [readSectorCached_eq]
    rfl

/-- The sector whose contents are in the buffer behind a history. -/
def inBuffer (ks : List ℕ) : ℕ := tagging.served 0 ks

/-- One more request is answered from the buffer when it is for the low half of the number of the
sector in it. -/
theorem inBuffer_append (ks : List ℕ) (k : ℕ) :
    inBuffer (ks ++ [k]) = if inBuffer ks % 65536 = k then inBuffer ks else k := by
  rw [inBuffer, Tagging.served_append]
  simp only [tagging, decide_eq_true_eq]
  rfl

/-- Behind the initialisation the buffer holds a sector of the history. -/
theorem tempSector_readSectors (s : State) (ks : List ℕ) :
    (readSectors (filesystemInit s) ks).tempSector = s.disk (inBuffer ks) := by
  have hline : (filesystemInit s).line = tagging.line s.disk 0 := rfl
  rw [readSectors_eq, hline, show (filesystemInit s).disk = s.disk from rfl,
    Tagging.readAll_line]
  rfl

/-! ## Numbers with the same low half -/

/-- Behind the initialisation and a history of requests, the buffer holds the sector that has been
asked for last, or the boot sector when there has been no request. -/
def HoldsLast (s : State) (ks : List ℕ) : Prop :=
  (readSectors (filesystemInit s) ks).tempSector = s.disk (ks.getLastD 0)

/-- The history ends with a request for a sector and requests for the one whose number is the low
half of its number, and these two sectors have different contents. -/
def EndsAliased (disk : Disk) (ks : List ℕ) : Prop :=
  ∃ before k n, ks = before ++ k :: List.replicate (n + 1) (k % 65536) ∧ disk k ≠ disk (k % 65536)

/-- **Which sector is in the buffer.** It is the one that has been asked for last, or one with a
larger number behind which there have been requests for its low half only.

**Proof sketch.** Induction on the history, from its end. A request that is answered from the buffer
is one for the low half of the number of the sector that is there. -/
theorem inBuffer_cases (ks : List ℕ) :
    inBuffer ks = ks.getLastD 0 ∨ ∃ before k n, inBuffer ks = k ∧ 65536 ≤ k ∧
      ks = before ++ k :: List.replicate (n + 1) (k % 65536) := by
  induction ks using List.reverseRecOn with
  | nil => exact .inl rfl
  | append_singleton ks t ih =>
    rw [inBuffer_append, List.getLastD_concat]
    split_ifs with hhit
    · by_cases hlow : inBuffer ks < 65536
      · exact .inl (by rw [← hhit, Nat.mod_eq_of_lt hlow])
      · refine .inr ?_
        rcases ih with hlast | ⟨before, k, n, hk, hle, hks⟩
        · -- the sector in the buffer has been asked for last,
          -- and this is the first request behind it
          have hne : ks ≠ [] := by
            rintro rfl
            exact hlow (show 0 < 65536 by decide)
          have hlast' : inBuffer ks = ks.getLast hne := by
            rw [hlast, List.getLastD_eq_getLast?, List.getLast?_eq_some_getLast hne,
              Option.getD_some]
          refine ⟨ks.dropLast, inBuffer ks, 0, rfl, Nat.le_of_not_lt hlow, ?_⟩
          have hsplit : ks = ks.dropLast ++ [inBuffer ks] := by
            rw [hlast', List.dropLast_concat_getLast]
          calc ks ++ [t] = ks.dropLast ++ [inBuffer ks] ++ [t] := by rw [← hsplit]
            _ = ks.dropLast ++ inBuffer ks :: List.replicate (0 + 1) (inBuffer ks % 65536) := by
              rw [hhit, List.append_assoc]
              rfl
        · refine ⟨before, k, n + 1, hk, hle, ?_⟩
          rw [hk] at hhit
          rw [← hhit, List.replicate_succ' (n := n + 1), ← List.cons_append, ← List.append_assoc,
            ← hks]
    · exact .inl rfl

/-- The last of requests for one line is the one that the line has. -/
theorem getLastD_aliased (before : List ℕ) (k n : ℕ) :
    (before ++ k :: List.replicate (n + 1) (k % 65536)).getLastD 0 = k % 65536 := by
  rw [List.replicate_succ', ← List.cons_append, ← List.append_assoc, List.getLastD_concat]

/-- Requests for the low half of a large number are answered from the buffer. -/
theorem inBuffer_aliased (hk : 65536 ≤ k) (before : List ℕ) (n : ℕ) :
    inBuffer (before ++ k :: List.replicate n (k % 65536)) = k := by
  induction n with
  | zero =>
    have hne : ¬ inBuffer before % 65536 = k := by omega
    rw [List.replicate_zero, inBuffer_append, if_neg hne]
  | succ n ih =>
    rw [List.replicate_succ', ← List.cons_append, ← List.append_assoc, inBuffer_append, ih,
      if_pos rfl]

/-- **When the buffer holds the sector that has been asked for last.** For every disk and every
history of requests: it does, unless the history ends with a request for some sector and requests
for the sector with the low half of its number, which has other contents.

**Proof sketch.** By `inBuffer_cases` the sector in the buffer is the last one of the history or a
larger one with the same low half, and then the history is aliased. -/
theorem holdsLast_iff (s : State) (ks : List ℕ) : HoldsLast s ks ↔ ¬ EndsAliased s.disk ks := by
  rw [HoldsLast, tempSector_readSectors]
  constructor
  · rintro h ⟨before, k, n, rfl, hne⟩
    have hk : 65536 ≤ k := by
      by_contra hlt
      exact hne (by rw [Nat.mod_eq_of_lt (Nat.lt_of_not_le hlt)])
    rw [inBuffer_aliased hk, getLastD_aliased] at h
    exact hne h
  · intro h
    rcases inBuffer_cases ks with hlast | ⟨before, k, n, hk, -, hks⟩
    · rw [hlast]
    · rw [hk]
      by_contra hne
      refine h ⟨before, k, n, hks, fun he => hne ?_⟩
      rw [hks, getLastD_aliased, he]

/-- The buffer always holds the sector that has been asked for last. -/
def AlwaysHoldsLast : Prop :=
  ∀ s ks, (∀ k ∈ ks, k < sectorNumbers) → HoldsLast s ks

/-- A disk on which only the sector 65537 is not empty. -/
def farDisk : Disk := Function.update (fun _ => Sector.zero) 65537 fun _ => 1

/-- Behind a request for the sector 65537 one for the sector 1 is answered with its contents. -/
theorem not_alwaysHoldsLast : ¬ AlwaysHoldsLast := by
  intro hall
  have h : Sector.get
      (readSectors (filesystemInit ⟨farDisk, bootDiskInfo Sector.zero, Sector.zero, 0⟩)
      [65537, 1]).tempSector 0 = (farDisk 1).get 0 :=
    congrArg (Sector.get · 0) (hall _ [65537, 1] (by decide))
  exact absurd h (by decide)

/-- As long as the numbers of the sectors have 16 bits, the buffer holds the one that has been asked
for last. -/
theorem inBuffer_of_lt (h : ∀ k ∈ ks, k < 65536) : inBuffer ks = ks.getLastD 0 :=
  Tagging.served_eq_getLast (fun j k hj _ hit => by simpa [tagging, Nat.mod_eq_of_lt hj] using hit)
    (show 0 < 65536 by decide) h

/-! ## The driver -/

/-- What a part of the driver does to the global variables is a history of requests. -/
def Requests (s s' : State) : Prop := ∃ ks, s' = readSectors s ks

/-- No requests lead to the same state. -/
theorem Requests.refl (s : State) : Requests s s := ⟨[], rfl⟩

/-- A request. -/
theorem Requests.one (s : State) (k : ℕ) : Requests s (readSectorCached s k) := ⟨[k], rfl⟩

/-- The requests of two steps one after the other. -/
theorem Requests.trans (h : Requests s s') (h' : Requests s' s'') : Requests s s'' := by
  obtain ⟨ks, rfl⟩ := h
  obtain ⟨js, rfl⟩ := h'
  exact ⟨ks ++ js, by rw [readSectors, readSectors, readSectors, List.foldl_append]⟩

/-- Requests leave the disk. -/
theorem Requests.disk (h : Requests s s') : s'.disk = s.disk := by
  obtain ⟨ks, rfl⟩ := h
  rw [readSectors_eq]
  rfl

/-- Requests leave the layout. -/
theorem Requests.diskInfo (h : Requests s s') : s'.diskInfo = s.diskInfo := by
  obtain ⟨ks, rfl⟩ := h
  rw [readSectors_eq]
  rfl

/-- The search through the directory makes requests only. -/
theorem searchSectors_requests {filename : List UInt8} {n : ℕ} {r : Option (ℕ → UInt8)}
    (h : searchSectors filename n s sector = some (r, s')) : Requests s s' := by
  induction n generalizing s sector with
  | zero => exact absurd h nofun
  | succ n ih =>
    have hone := Requests.one s sector
    rw [searchSectors] at h
    cases hscan : scanSector (readSectorCached s sector).tempSector filename entryOffsets with
    | endOfDirectory =>
      simp only [hscan, Option.some.injEq, Prod.mk.injEq] at h
      exact h.2 ▸ hone
    | found f =>
      simp only [hscan, Option.some.injEq, Prod.mk.injEq] at h
      exact h.2 ▸ hone
    | more =>
      simp only [hscan] at h
      exact hone.trans (ih h)

/-- Opening a file uses the cache. -/
theorem fileOpen_requests {filename : List UInt8} {r : Except FileError File}
    (h : fileOpen s filename = some (r, s')) : Requests s s' := by
  unfold fileOpen at h
  cases hget : getDirectoryEntry s filename with
  | none => simp [hget] at h
  | some p =>
    obtain ⟨entry, s₁⟩ := p
    have hreq : Requests s s₁ := searchSectors_requests hget
    cases entry with
    | none =>
      simp only [hget, Option.some.injEq, Prod.mk.injEq] at h
      exact h.2 ▸ hreq
    | some entry =>
      simp only [hget, Option.some.injEq, Prod.mk.injEq] at h
      exact h.2 ▸ hreq

section

variable [Memory] {fd : File}

/-- The step to the next sector makes requests only. -/
theorem readNextSector_requests : Requests s (readNextSector s fd).2 := by
  unfold readNextSector getNextCluster
  simp only
  split_ifs
  · exact .one ..
  · exact .refl s

/-- The read of a byte makes requests only. -/
theorem fileReadbyte_requests : Requests s (fileReadbyte s fd).2.2 := by
  unfold fileReadbyte
  simp only
  split_ifs
  · exact .refl s
  · exact .refl s
  · exact (Requests.one ..).trans readNextSector_requests
  · exact .one ..

/-- The read of a sector makes requests only. -/
theorem fileReadsector_requests : Requests s (fileReadsector s fd).2.2 := by
  unfold fileReadsector
  simp only
  split_ifs
  · exact .refl s
  · exact .refl s
  · exact readNextSector_requests

variable {t : Transfer}

/-- The read up to the end of a sector makes requests only. -/
theorem readToBoundary_requests {n : ℕ} :
    Requests t.state (readToBoundary n t).2.state := by
  induction n generalizing t with
  | zero => exact .refl _
  | succ n ih =>
    have hbyte : Requests t.state (fileReadbyte t.state t.fd).2.2 := fileReadbyte_requests
    unfold readToBoundary
    split_ifs
    · exact .refl _
    · rcases hr : fileReadbyte t.state t.fd with ⟨_ | c, fd, s⟩
      all_goals
        rw [hr] at hbyte
        simp only
      · exact hbyte
      · exact hbyte.trans ih

/-- The read of whole sectors makes requests only. -/
theorem readFullSectors_requests {n : ℕ} :
    Requests t.state (readFullSectors n t).2.state := by
  induction n generalizing t with
  | zero => exact .refl _
  | succ n ih =>
    have hsector : Requests t.state (fileReadsector t.state t.fd).2.2 := fileReadsector_requests
    unfold readFullSectors
    rcases hr : fileReadsector t.state t.fd with ⟨_ | c, fd, s⟩
    all_goals
      rw [hr] at hsector
      simp only
    · exact hsector
    · exact hsector.trans ih

/-- The read of the rest makes requests only. -/
theorem readTail_requests {n : ℕ} : Requests t.state (readTail n t).state := by
  induction n generalizing t with
  | zero => exact .refl _
  | succ n ih =>
    have hbyte : Requests t.state (fileReadbyte t.state t.fd).2.2 := fileReadbyte_requests
    unfold readTail
    rcases hr : fileReadbyte t.state t.fd with ⟨_ | c, fd, s⟩
    all_goals
      rw [hr] at hbyte
      simp only
    · exact hbyte
    · exact hbyte.trans ih

/-- A read uses the cache. Whole sectors do not pass through it. -/
theorem fileRead_requests (s : State) (fd : File) (n : ℕ) : Requests s (fileRead s fd n).2.2 := by
  have h₁ : Requests s (readToBoundary boundaryTurns ⟨n, 0, [], fd, s⟩).2.state :=
    readToBoundary_requests
  unfold fileRead
  rcases hr : readToBoundary boundaryTurns ⟨n, 0, [], fd, s⟩ with ⟨_ | _, t₁⟩
  all_goals
    rw [hr] at h₁
    simp only
  · have h₂ : Requests t₁.state (readFullSectors (t₁.n / s.diskInfo.bytesPerSector) t₁).2.state :=
      readFullSectors_requests
    rcases hr' : readFullSectors (t₁.n / s.diskInfo.bytesPerSector) t₁ with ⟨_ | _, t₂⟩
    all_goals
      rw [hr'] at h₂
      simp only
    · exact (h₁.trans h₂).trans readTail_requests
    · exact h₁.trans h₂
  · exact h₁

end

end Z80OS.Loader
