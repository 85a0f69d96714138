import FiniteAutomata.Minimize.Partition
import Mathlib.Data.List.Nodup

/-! The bookkeeping of a partition. Each block has members, and the look-up of a state finds the one block that
    holds it, so blocks do not overlap and there are no more of them than states. Adding a block of states that
    no block holds keeps this, and so does parting some members of a block from the others. -/

namespace FiniteAutomata
namespace Partition

variable {p : Partition} {size k : Nat} {block rest : StateSet} {i : StateId}

/-- Blocks with members, among a number of states, and the look-up that finds them. -/
structure Sound (p : Partition) (size : Nat) : Prop where
  owner : p.owner.size = size
  held : ∀ {i : StateId} {k : Nat}, p.blockOf? i = some k ↔ ∃ block, p.blocks[k]? = some block ∧ i ∈ block
  nonempty : ∀ {k : Nat} {block : StateSet}, p.blocks[k]? = some block → ∃ i, i ∈ block

theorem Sound.lt (h : p.Sound size) (hi : p.blockOf? i = some k) : i < size := by
  by_contra hlt
  rw [blockOf?, Array.getElem?_eq_none (h.owner.symm ▸ Nat.le_of_not_lt hlt)] at hi
  cases hi

theorem Sound.mem_iff (h : p.Sound size) (hblock : p.blocks[k]? = some block) : i ∈ block ↔ p.blockOf? i = some k := by
  rw [h.held]
  constructor
  · exact fun hi => ⟨block, hblock, hi⟩
  · rintro ⟨block', hblock', hi⟩
    obtain rfl := Option.some.inj (hblock.symm.trans hblock')
    exact hi

theorem Sound.lt_blocks (h : p.Sound size) (hi : p.blockOf? i = some k) : k < p.blocks.size := by
  obtain ⟨block, hblock, -⟩ := h.held.mp hi
  exact (Array.getElem?_eq_some_iff.mp hblock).1

theorem Sound.exists_member (h : p.Sound size) (hk : k < p.blocks.size) : ∃ i, p.blockOf? i = some k := by
  have hblock := Array.getElem?_eq_getElem hk
  obtain ⟨i, hi⟩ := h.nonempty hblock
  exact ⟨i, (h.mem_iff hblock).mp hi⟩

/-- Each block holds a state of its own. -/
theorem Sound.blocks_le_length {l : List StateId} (h : p.Sound size)
    (all : ∀ {i : StateId} {k : Nat}, p.blockOf? i = some k → i ∈ l) : p.blocks.size ≤ l.length := by
  have found : ∀ k ∈ List.range p.blocks.size, k ∈ l.filterMap p.blockOf? := by
    intro k hk
    obtain ⟨i, hi⟩ := h.exists_member (List.mem_range.mp hk)
    exact List.mem_filterMap.mpr ⟨i, all hi, hi⟩
  have few := List.nodup_range.length_le_of_subset found
  rw [List.length_range] at few
  exact Nat.le_trans few (List.length_filterMap_le p.blockOf? l)

theorem Sound.blocks_le (h : p.Sound size) : p.blocks.size ≤ size :=
  List.length_range (n := size) ▸ h.blocks_le_length fun hi => List.mem_range.mpr (h.lt hi)

/-! ### A further block -/

/-- States that share a block once there is a further one shared a block before, or both are in the further one. -/
theorem Sound.mates_of_further {q : Partition} {j : StateId} (h : p.Sound size)
    (lookup : ∀ i, q.blockOf? i = if i ∈ block then some p.blocks.size else p.blockOf? i)
    (hi : q.blockOf? i = some k) (hj : q.blockOf? j = some k) :
    i ∈ block ∧ j ∈ block ∨ p.blockOf? i = some k ∧ p.blockOf? j = some k := by
  -- The further block is the last one, and nobody was in it before.
  have fresh : ∀ {l}, p.blockOf? l ≠ some p.blocks.size := fun hl => Nat.lt_irrefl _ (h.lt_blocks hl)
  rw [lookup] at hi hj
  by_cases hi' : i ∈ block <;> by_cases hj' : j ∈ block
  · exact Or.inl ⟨hi', hj'⟩
  · rw [if_pos hi'] at hi
    rw [if_neg hj', ← hi] at hj
    exact absurd hj fresh
  · rw [if_pos hj'] at hj
    rw [if_neg hi', ← hj] at hi
    exact absurd hi fresh
  · rw [if_neg hi'] at hi
    rw [if_neg hj'] at hj
    exact Or.inr ⟨hi, hj⟩

theorem getElem?_foldl_setIfInBounds {α : Type} (x : α) (ids : List StateId) (owner : Array α) (i : StateId) :
    (ids.foldl (fun owner id => owner.setIfInBounds id x) owner)[i]? =
      if i ∈ ids ∧ i < owner.size then some x else owner[i]? := by
  induction ids generalizing owner with
  | nil => simp
  | cons j ids ih =>
    rw [List.foldl_cons, ih, Array.size_setIfInBounds, Array.getElem?_setIfInBounds]
    by_cases hj : j = i
    · subst hj
      by_cases hlt : j < owner.size
      · simp [hlt]
      · simp [hlt]
    · simp [hj, Ne.symm hj]

theorem blocks_push (h : ∃ i, i ∈ block) : (p.push block).blocks = p.blocks.push block := by
  obtain ⟨i, hi⟩ := h
  rw [push, if_neg fun none => StateSet.not_mem_empty i (StateSet.isEmpty_iff.mp none ▸ hi)]

theorem blockOf?_push (h : ∀ i ∈ block, i < p.owner.size) (i : StateId) :
    (p.push block).blockOf? i = if i ∈ block then some p.blocks.size else p.blockOf? i := by
  rw [push]
  split
  · next none => simp [StateSet.isEmpty_iff.mp none]
  · rw [blockOf?, getElem?_foldl_setIfInBounds]
    by_cases hi : i ∈ block
    · simp [hi, h i hi]
    · simp [hi, blockOf?]

theorem owner_size_push : (p.push block).owner.size = p.owner.size := by
  have kept : ∀ (ids : List StateId) (x : Option Nat) (owner : Array (Option Nat)),
      (ids.foldl (fun owner id => owner.setIfInBounds id x) owner).size = owner.size := by
    intro ids x
    induction ids with
    | nil => simp
    | cons j ids ih => intro owner; rw [List.foldl_cons, ih, Array.size_setIfInBounds]
  rw [push]
  split
  · rfl
  · exact kept _ _ _

theorem blockOf?_blank (size : Nat) (i : StateId) : (blank size).blockOf? i = none := by
  rw [blockOf?, blank, Array.getElem?_replicate]
  split <;> rfl

theorem sound_blank (size : Nat) : (blank size).Sound size where
  owner := Array.size_replicate
  held := by
    intro i k
    rw [blockOf?_blank]
    simp [blank]
  nonempty h := by simp [blank] at h

theorem Sound.push (h : p.Sound size) (lt : ∀ i ∈ block, i < size) (free : ∀ i ∈ block, p.blockOf? i = none) :
    (p.push block).Sound size := by
  by_cases members : ∃ i, i ∈ block
  · have lookup : ∀ i, (p.push block).blockOf? i = if i ∈ block then some p.blocks.size else p.blockOf? i :=
      blockOf?_push fun i hi => h.owner.symm ▸ lt i hi
    constructor
    · rw [owner_size_push, h.owner]
    · intro i k
      rw [lookup, blocks_push members, Array.getElem?_push]
      by_cases hi : i ∈ block
      · have old : ∀ {block'}, p.blocks[k]? = some block' → i ∉ block' := fun hblock hmem => by
          have := (h.mem_iff hblock).mp hmem
          rw [free i hi] at this
          cases this
        grind
      · rw [if_neg hi, h.held]
        grind
    · intro k block' hblock
      rw [blocks_push members, Array.getElem?_push] at hblock
      split at hblock
      · obtain rfl := Option.some.inj hblock
        exact members
      · exact h.nonempty hblock
  · have none : block = ∅ := StateSet.ext fun i => by simpa using fun hi => members ⟨i, hi⟩
    have same : p.push block = p := by rw [Partition.push, if_pos (StateSet.isEmpty_iff.mpr none)]
    rw [same]
    exact h

/-! ### Parting a block -/

theorem blockOf?_separate (h : ∀ i ∈ rest, i < p.owner.size) (i : StateId) :
    (p.separate k rest).blockOf? i = if i ∈ rest then some p.blocks.size else p.blockOf? i := by
  refine (blockOf?_push (p := { p with blocks := p.blocks.modify k (· \ rest) }) h i).trans ?_
  rw [Array.size_modify]
  rfl

theorem blocks_separate (h : ∃ i, i ∈ rest) :
    (p.separate k rest).blocks = (p.blocks.modify k (· \ rest)).push rest := blocks_push h

theorem Sound.separate (h : p.Sound size) (hblock : p.blocks[k]? = some block) (sub : ∀ i ∈ rest, i ∈ block)
    (part : ∃ i, i ∈ rest) (stay : ∃ i ∈ block, i ∉ rest) : (p.separate k rest).Sound size := by
  have lt : ∀ i ∈ rest, i < size := fun i hi => h.lt ((h.mem_iff hblock).mp (sub i hi))
  have lookup := blockOf?_separate (p := p) (k := k) fun i hi => h.owner.symm ▸ lt i hi
  have blocks : ∀ l : Nat, (p.separate k rest).blocks[l]? =
      if l = p.blocks.size then some rest
      else if k = l then p.blocks[l]?.map (· \ rest) else p.blocks[l]? := by
    intro l
    rw [blocks_separate part, Array.getElem?_push, Array.size_modify, Array.getElem?_modify]
  have none : p.blocks[p.blocks.size]? = none := Array.getElem?_eq_none (Nat.le_refl _)
  constructor
  · rw [Partition.separate, owner_size_push]
    exact h.owner
  · intro i l
    rw [lookup, blocks]
    by_cases hi : i ∈ rest
    · have inside := (h.mem_iff hblock).mp (sub i hi)
      have other : ∀ {l block'}, p.blocks[l]? = some block' → i ∈ block' → l = k := fun hblock' hmem => by
        have := (h.mem_iff hblock').mp hmem
        rw [inside] at this
        exact (Option.some.inj this).symm
      grind [StateSet.mem_diff]
    · rw [if_neg hi, h.held]
      grind [StateSet.mem_diff]
  · intro l block' hblock'
    rw [blocks] at hblock'
    split at hblock'
    · obtain rfl := Option.some.inj hblock'
      exact part
    · split at hblock'
      · next hl =>
        subst hl
        rw [hblock] at hblock'
        obtain rfl := Option.some.inj hblock'
        obtain ⟨i, hi, hrest⟩ := stay
        exact ⟨i, StateSet.mem_diff.mpr ⟨hi, hrest⟩⟩
      · exact h.nonempty hblock'

end Partition
end FiniteAutomata
