import FiniteAutomata.Proofs.CheckedRefinement

/-! The blocks during refinement, whatever the edges are. A split takes some members of one block to a block of their own
    and leaves all others alone, so the blocks partition the covered states from the first ones on. Each split adds a
    block, and each block holds a state of its own: there are fewer splits than covered states. -/

namespace FiniteAutomata

open FiniteAutomata.Automaton

namespace Partition

variable {fa : Automaton} {alphabet : List Char} {p q r : Partition} {s : StateSet} {n : Nat}

/-! ### Blocks that part -/

/-- One block becomes two that are not empty: some of its members stay, and the others are the last block from now on.
    All other blocks are as they were. -/
def Parts (p q : Partition) : Prop :=
  ∃ k block stay rest, p.blocks[k]? = some block ∧ block = stay ∪ rest ∧ (∀ i ∈ stay, i ∉ rest) ∧
    (∃ i, i ∈ stay) ∧ (∃ i, i ∈ rest) ∧ q.blocks = (p.blocks.setIfInBounds k stay).push rest

theorem Sound.parts {size : Nat} (h : p.Sound size) (hq : p.Splits fa alphabet q) : p.Parts q := by
  obtain ⟨k, block, c, hblock, ⟨first, hfirst, parted⟩, part, rfl, -⟩ := h.exists_splits hq
  refine ⟨k, block, block \ p.dissenters fa block c, p.dissenters fa block c, hblock, StateSet.ext fun i => ?_, ?_, ?_,
    part, ?_⟩
  · rw [StateSet.mem_union, StateSet.mem_diff, parted]
    tauto
  · exact fun i hi => (StateSet.mem_diff.mp hi).2
  · exact ⟨first, StateSet.mem_diff.mpr ⟨hfirst, fun parts => ((parted first).mp parts).2 rfl⟩⟩
  · rw [blocks_separate part]
    congr 1
    refine Array.ext_getElem? fun l => ?_
    rw [Array.getElem?_modify, Array.getElem?_setIfInBounds]
    by_cases same : k = l
    · subst same
      rw [if_pos rfl, if_pos rfl, if_pos (Array.getElem?_eq_some_iff.mp hblock).1, hblock]
      rfl
    · rw [if_neg same, if_neg same]

/-! ### The run -/

/-- So many splits, one after the other. -/
inductive Refines (fa : Automaton) (alphabet : List Char) (p : Partition) : Nat → Partition → Prop where
  | zero : Refines fa alphabet p 0 p
  | succ {n : Nat} {q r : Partition} (run : Refines fa alphabet p n q) (split : q.refine? fa alphabet = some r) :
      Refines fa alphabet p (n + 1) r

theorem Refines.head (split : p.refine? fa alphabet = some q) (run : Refines fa alphabet q n r) :
    Refines fa alphabet p (n + 1) r := by
  induction run with
  | zero => exact .succ .zero split
  | succ _ last ih => exact .succ ih last

theorem Tiles.refines (h : p.Tiles fa s) (run : Refines fa alphabet p n q) :
    q.Tiles fa s ∧ q.blocks.size = p.blocks.size + n := by
  induction run with
  | zero => exact ⟨h, rfl⟩
  | succ _ split ih =>
    have splits := splits_of_refine? split
    obtain ⟨-, -, more⟩ := ih.1.toSound.splits splits
    exact ⟨ih.1.splits splits, by omega⟩

theorem exists_refines_stabilize (fa : Automaton) (alphabet : List Char) (m : Nat) (p : Partition) :
    ∃ n, Refines fa alphabet p n (stabilize fa alphabet m p) := by
  induction m generalizing p with
  | zero => exact ⟨0, .zero⟩
  | succ m ih =>
    rw [stabilize]
    cases split : p.refine? fa alphabet with
    | none => exact ⟨0, .zero⟩
    | some q =>
      obtain ⟨n, run⟩ := ih q
      exact ⟨n + 1, run.head split⟩

/-- The blocks hold each state of the set once, and the look-up of a state finds the block that holds it. A block is not
    empty, and its members agree on acceptance. -/
structure Partitions (p : Partition) (fa : Automaton) (s : StateSet) : Prop where
  nonempty : ∀ block ∈ p.blocks, ∃ i, i ∈ block
  disjoint : ∀ (k l : Nat) (block block' : StateSet), p.blocks[k]? = some block → p.blocks[l]? = some block' → k ≠ l →
    ∀ i ∈ block, i ∉ block'
  union : ∀ i, i ∈ s ↔ ∃ block ∈ p.blocks, i ∈ block
  owner : ∀ (i : StateId) (k : Nat), p.blockOf? i = some k ↔ ∃ block, p.blocks[k]? = some block ∧ i ∈ block
  acceptance : ∀ block ∈ p.blocks, ∀ i ∈ block, ∀ j ∈ block, fa.accepting i = fa.accepting j

theorem Tiles.partitions (h : p.Tiles fa s) : p.Partitions fa s where
  nonempty block member := by
    obtain ⟨k, hblock⟩ := Array.mem_iff_getElem?.mp member
    exact h.nonempty hblock
  disjoint k l block block' hblock hblock' apart i hi hi' :=
    apart (Option.some.inj (((h.mem_iff hblock).mp hi).symm.trans ((h.mem_iff hblock').mp hi')))
  union i := by
    rw [← h.covers]
    constructor
    · rintro ⟨k, hk⟩
      obtain ⟨block, hblock, hi⟩ := h.held.mp hk
      exact ⟨block, Array.mem_of_getElem? hblock, hi⟩
    · rintro ⟨block, member, hi⟩
      obtain ⟨k, hblock⟩ := Array.mem_iff_getElem?.mp member
      exact ⟨k, h.held.mpr ⟨block, hblock, hi⟩⟩
  owner _ _ := h.held
  acceptance block member i hi j hj := by
    obtain ⟨k, hblock⟩ := Array.mem_iff_getElem?.mp member
    exact h.alike ((h.mem_iff hblock).mp hi) ((h.mem_iff hblock).mp hj)

/-- From the first blocks on, and as long as there is anything to split, the blocks partition the covered states. A split
    parts one block and leaves the others alone, no look-up it makes fails, and it stops after fewer splits than there
    are covered states. -/
theorem initial_refines_partitions (range : fa.InRange) (inside : fa.start < fa.size) :
    ∃ v, fa.view = .ok v ∧ ∃ s : StateSet, (∀ i, i ∈ s ↔ fa.Covered i) ∧ ∀ alphabet,
      (∀ n p, Refines fa alphabet (initial fa v) n p → p.Partitions fa s ∧ n < s.size ∧
        Checked.refine? fa p alphabet = .ok (p.refine? fa alphabet) ∧
        ∀ q, p.refine? fa alphabet = some q → p.Parts q) ∧
      ∃ n p, Refines fa alphabet (initial fa v) n p ∧ p.refine? fa alphabet = none ∧
        ∀ m, s.size ≤ m → stabilize fa alphabet m (initial fa v) = p := by
  have complete := range.completeFrom inside
  have first := tiles_initial complete
  have some_block := blocks_initial_pos complete
  refine ⟨fa.seen, view_eq complete, fa.covered, fun i => mem_covered complete, fun alphabet => ⟨fun n p run => ?_, ?_⟩⟩
  · obtain ⟨tiles, more⟩ := first.refines run
    have few := tiles.blocks_le_size
    refine ⟨tiles.partitions, by omega, Checked.refine?_eq tiles.toSound, fun q split => ?_⟩
    exact tiles.toSound.parts (splits_of_refine? split)
  · have stop := first.refine?_stabilize alphabet (Nat.lt_add_of_pos_left (n := fa.covered.size) some_block)
    obtain ⟨n, run⟩ := exists_refines_stabilize fa alphabet fa.covered.size (initial fa fa.seen)
    refine ⟨n, _, run, stop, fun m enough => ?_⟩
    rw [← Nat.add_sub_cancel' enough, stabilize_add stop]

/-- Two edges with one character, an empty step, a state that leads to no acceptance and an accepting one that nothing
    leads to. -/
def frayed : Automaton :=
  assembled [(.nfa, false), (.nfa, false), (.dfa, false), (.nfa, true), (.dfa, false), (.dfa, true)]
    [⟨0, 1, .char 'a'⟩, ⟨0, 2, .char 'a'⟩, ⟨0, 3, .epsilon⟩, ⟨1, 3, .char 'b'⟩, ⟨2, 2, .char 'b'⟩, ⟨2, 3, .char 'c'⟩,
      ⟨3, 4, .char 'a'⟩, ⟨4, 4, .char 'a'⟩, ⟨5, 0, .char 'a'⟩] 0

theorem initial_refines_partitions_frayed : frayed.InRange ∧ frayed.start < frayed.size ∧
    ∃ v, frayed.view = .ok v ∧ ∃ s : StateSet, (∀ i, i ∈ s ↔ frayed.Covered i) ∧ ∃ n p,
      Refines frayed ['a', 'b', 'c'] (initial frayed v) n p ∧ p.Partitions frayed s ∧ n < s.size ∧
      p.blocks = #[{3}, {0}, {1}, {2}] := by
  have range : frayed.InRange := inRange_assembled (by decide)
  have inside : frayed.start < frayed.size := by decide
  obtain ⟨v, viewed, s, covered, refines⟩ := initial_refines_partitions range inside
  obtain ⟨kept, n, p, run, -, last⟩ := refines ['a', 'b', 'c']
  obtain ⟨partitions, few, -⟩ := kept n p run
  refine ⟨range, inside, v, viewed, s, covered, n, p, run, partitions, few, ?_⟩
  have view : frayed.view = .ok (frayed.collect [0, 1, 2, 3, 4]) := by decide +kernel
  obtain rfl := Except.ok.inj (view.symm.trans viewed)
  have stop : (stabilize frayed ['a', 'b', 'c'] 2 (initial frayed (frayed.collect [0, 1, 2, 3, 4]))).refine? frayed
      ['a', 'b', 'c'] = none := by decide +kernel
  rw [← last (2 + s.size) (Nat.le_add_left _ _), stabilize_add stop]
  decide +kernel

end Partition
end FiniteAutomata
