import Z80OS.File.Volume

set_option relaxedAutoImplicit false
set_option autoImplicit false

/-!
# The events of a step

What a step adds to the trace, and the condition that the searches for a free cluster made on the
way succeed.

## Main definitions

* `Z80OS.newEvents` — the events of a step.
* `Z80OS.AllocationsFind` — every search of a step finds one of the first free clusters.
* `Z80OS.Enough` — the same, or there are enough free clusters in the first place.

## Main results

* `Z80OS.Enough.left`, `Z80OS.Enough.right` — the parts of a step.
-/

namespace Z80OS

/-- The events of the step from `s` to `s'`. -/
def newEvents (s s' : FileState) : List Event :=
  s'.trace.take (s'.trace.length - s.trace.length)

/-- One of the clusters 2 to 255 is free. -/
def SomeFree (g : DiskInfo) (d : Disk) : Prop :=
  ∃ c, 2 ≤ c ∧ c < 256 ∧ fatEntry g d c = clusterFree

/-- Whenever the step searches for a free cluster, one of the clusters 2 to 255 is free. -/
def AllocationsFind (g : DiskInfo) (s s' : FileState) : Prop :=
  ∀ d c, Event.search d c ∈ newEvents s s' → SomeFree g d

/-- The free clusters among the clusters 2 to 255. -/
def freeClusters (g : DiskInfo) (d : Disk) : List ℕ :=
  (List.range 256).filter fun c => 2 ≤ c ∧ fatEntry g d c = clusterFree

/-- The searches of the step find free clusters, or the disk `d` has enough of them for a file of
`n` bytes: the chain of such a file reaches one cluster behind the full ones. -/
def Enough (g : DiskInfo) (d : Disk) (n : ℕ) (s s' : FileState) : Prop :=
  AllocationsFind g s s' ∨ n / 512 / g.sectorsPerCluster < (freeClusters g d).length

variable {g : DiskInfo} {s s₁ s' : FileState} {evs : List Event} {n m : ℕ} {d₀ : Disk}

/-- The new events of a step are those that it puts in front. -/
theorem newEvents_eq (h : s'.trace = evs ++ s.trace) : newEvents s s' = evs := by
  simp [newEvents, h]

/-- The event of a step that has one. -/
theorem mem_newEvents_singleton {ev : Event} (h : s'.trace = ev :: s.trace) :
    ev ∈ newEvents s s' := by
  have hevs : newEvents s s' = [ev] := newEvents_eq h
  rw [hevs]
  exact List.mem_singleton_self ev

/-- The first part of a step has events of the step. -/
theorem mem_newEvents_left {ev : Event} (h₁ : s.trace <:+ s₁.trace) (h₂ : s₁.trace <:+ s'.trace)
    (hin : ev ∈ newEvents s s₁) : ev ∈ newEvents s s' := by
  obtain ⟨l₁, h₁⟩ := h₁
  obtain ⟨l₂, h₂⟩ := h₂
  rw [newEvents_eq h₁.symm] at hin
  rw [newEvents_eq (show s'.trace = (l₂ ++ l₁) ++ s.trace by rw [← h₂, ← h₁, List.append_assoc])]
  exact List.mem_append_right _ hin

/-- The second part of a step has events of the step. -/
theorem mem_newEvents_right {ev : Event} (h₁ : s.trace <:+ s₁.trace) (h₂ : s₁.trace <:+ s'.trace)
    (hin : ev ∈ newEvents s₁ s') : ev ∈ newEvents s s' := by
  obtain ⟨l₁, h₁⟩ := h₁
  obtain ⟨l₂, h₂⟩ := h₂
  rw [newEvents_eq h₂.symm] at hin
  rw [newEvents_eq (show s'.trace = (l₂ ++ l₁) ++ s.trace by rw [← h₂, ← h₁, List.append_assoc])]
  exact List.mem_append_left _ hin

/-- Where all searches of a step find a free cluster, those of its first part do. -/
theorem AllocationsFind.left (h : AllocationsFind g s s') (h₁ : s.trace <:+ s₁.trace)
    (h₂ : s₁.trace <:+ s'.trace) : AllocationsFind g s s₁ :=
  fun d c hin => h d c (mem_newEvents_left h₁ h₂ hin)

/-- Where all searches of a step find a free cluster, those of its second part do. -/
theorem AllocationsFind.right (h : AllocationsFind g s s') (h₁ : s.trace <:+ s₁.trace)
    (h₂ : s₁.trace <:+ s'.trace) : AllocationsFind g s₁ s' :=
  fun d c hin => h d c (mem_newEvents_right h₁ h₂ hin)

/-- A search that the step has recorded. -/
theorem AllocationsFind.of_mem {d : Disk} {c : ℕ} (h : AllocationsFind g s s')
    (hevs : s'.trace = evs ++ s.trace) (hin : Event.search d c ∈ evs) : SomeFree g d :=
  h d c (by rwa [newEvents_eq hevs])

/-- Enough clusters for a file are enough for a shorter one. -/
theorem Enough.mono (h : Enough g d₀ n s s') (hm : m ≤ n) : Enough g d₀ m s s' :=
  h.imp id (lt_of_le_of_lt (Nat.div_le_div_right (Nat.div_le_div_right hm)))

/-- Enough clusters for a step are enough for its first part. -/
theorem Enough.left (h : Enough g d₀ n s s') (h₁ : s.trace <:+ s₁.trace)
    (h₂ : s₁.trace <:+ s'.trace) (hm : m ≤ n) : Enough g d₀ m s s₁ :=
  (h.mono hm).imp (fun h => h.left h₁ h₂) id

/-- Enough clusters for a step are enough for its second part. -/
theorem Enough.right (h : Enough g d₀ n s s') (h₁ : s.trace <:+ s₁.trace)
    (h₂ : s₁.trace <:+ s'.trace) (hm : m ≤ n) : Enough g d₀ m s₁ s' :=
  (h.mono hm).imp (fun h => h.right h₁ h₂) id

/-- The free clusters are those of 2 to 255 whose word says so. -/
theorem mem_freeClusters {c : ℕ} :
    c ∈ freeClusters g d₀ ↔ c < 256 ∧ 2 ≤ c ∧ fatEntry g d₀ c = clusterFree := by
  simp [freeClusters]

/-- A positive number of free clusters means that there is one. -/
theorem someFree_of_pos (h : 0 < (freeClusters g d₀).length) : SomeFree g d₀ := by
  obtain ⟨c, hc⟩ := List.exists_mem_of_length_pos h
  obtain ⟨hlt, h2, hfree⟩ := mem_freeClusters.mp hc
  exact ⟨c, h2, hlt, hfree⟩

/-- The cluster `c` is free whenever the step searches for a free cluster. -/
def staysFree (g : DiskInfo) (c : ℕ) (s s' : FileState) : Bool :=
  (newEvents s s').all fun
    | .search d _ => fatEntry g d c == clusterFree
    | .write _ _ _ => true

/-- One cluster that stays free is enough for every search. -/
theorem AllocationsFind.of_staysFree {c : ℕ} (h2 : 2 ≤ c) (hlt : c < 256)
    (h : staysFree g c s s' = true) : AllocationsFind g s s' := by
  intro d c' hin
  have := List.all_eq_true.mp h _ hin
  exact ⟨c, h2, hlt, by simpa using this⟩

/-- The search finds a free cluster that the driver can use, when one of the first is free. -/
theorem SomeFree.freeCluster {M : Machine} (h : SomeFree s.diskInfo s.disk)
    (hg : Geometry s.diskInfo) (hs : s.Coherent) :
    Usable s.diskInfo (freeCluster s) ∧ freeCluster s < 256 ∧
      fatEntry s.diskInfo s.disk (freeCluster s) = clusterFree := by
  have hword : ∀ {c}, c < 256 →
      fatEntry s.diskInfo s.disk c = (s.disk s.diskInfo.fatRegion).word (2 * c) := by
    intro c hc
    rw [fatEntry, Nat.div_eq_of_lt (by omega), Nat.mod_eq_of_lt (by omega), Nat.add_zero]
  obtain ⟨c, h2, hlt, h0⟩ := h
  obtain ⟨h2', hlt', h0'⟩ :=
    freeCluster_spec (M := M) hs hg.bytesPerSector (by have := hg.fat_lt; omega)
    ⟨c, h2, hlt, by rw [← hword hlt]; exact h0⟩
  exact ⟨.of_lt hg h2' hlt', hlt', by rw [hword hlt']; exact h0'⟩

end Z80OS
