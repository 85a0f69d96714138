import FiniteAutomata.Proofs.Refinement
import FiniteAutomata.Proofs.Tiling
import Mathlib.Logic.Relation

/-! Refinement ends with the same blocks in whatever order blocks and characters are tried. No split parts states that
    recognise the same words, and once nothing can be split the states of a block recognise the same words, so the
    blocks are the classes of the states that matter. If no word is recognised the start is the only block, and there is
    nothing to split. -/

namespace FiniteAutomata

open FiniteAutomata.Automaton

namespace Partition

variable {fa : Automaton} {alphabet : List Char} {p q : Partition} {block : StateSet} {i j : StateId} {k n : Nat}

/-! ### Splits one after the other -/

theorem Coarse.runs (h : p.Coarse fa) (det : fa.Deterministic)
    (run : Relation.ReflTransGen (Splits fa alphabet) p q) : q.Coarse fa := by
  induction run with
  | refl => exact h
  | tail _ splits ih => exact ih.splits det splits

/-- The loop makes one split after the other. -/
theorem runs_stabilize (fa : Automaton) (alphabet : List Char) (n : Nat) (p : Partition) :
    Relation.ReflTransGen (Splits fa alphabet) p (stabilize fa alphabet n p) := by
  induction n generalizing p with
  | zero => exact .refl
  | succ n ih =>
    rw [stabilize]
    cases hq : p.refine? fa alphabet with
    | none => exact .refl
    | some q => exact .head (splits_of_refine? hq) (ih q)

/-- Each split adds a block, so no order of splits goes on for ever. -/
theorem Sound.not_forall_splits {size : Nat} {run : Nat → Partition} (h : (run 0).Sound size) :
    ¬∀ n, (run n).Splits fa alphabet (run (n + 1)) := by
  intro forever
  have grows : ∀ n, (run n).Sound size ∧ n ≤ (run n).blocks.size := by
    intro n
    induction n with
    | zero => exact ⟨h, Nat.zero_le _⟩
    | succ n ih =>
      obtain ⟨sound, -, more⟩ := ih.1.splits (forever n)
      exact ⟨sound, more ▸ Nat.succ_le_succ ih.2⟩
  obtain ⟨sound, many⟩ := grows (size + 1)
  exact Nat.not_succ_le_self size (Nat.le_trans many sound.blocks_le)

/-! ### The classes -/

/-- States that matter share a block when they recognise the same words. -/
theorem Exact.exists_block_iff (h : p.Exact fa) (hi : fa.Useful i) (hj : fa.Useful j) :
    (∃ block ∈ p.blocks, i ∈ block ∧ j ∈ block) ↔ ∀ word, fa.RecognizesFrom i word ↔ fa.RecognizesFrom j word := by
  refine ⟨fun given => ?_, fun same => ?_⟩
  · obtain ⟨block, member, hi, hj⟩ := given
    obtain ⟨k, hblock⟩ := Array.mem_iff_getElem?.mp member
    exact h.alike ((h.sound.mem_iff hblock).mp hi) ((h.sound.mem_iff hblock).mp hj)
  · obtain ⟨k, hk⟩ := h.covers.mpr hi
    obtain ⟨block, hblock, member⟩ := h.sound.held.mp hk
    exact ⟨block, Array.mem_of_getElem? hblock, member, (h.sound.mem_iff hblock).mpr (h.together hi hj same ▸ hk)⟩

/-- A block holds a state that matters and all those that recognise the same words as it. -/
theorem Exact.mem_blocks_iff (h : p.Exact fa) : block ∈ p.blocks ↔ ∃ i, fa.Useful i ∧
    ∀ j, j ∈ block ↔ fa.Useful j ∧ ∀ word, fa.RecognizesFrom i word ↔ fa.RecognizesFrom j word := by
  have class_of : ∀ {k : Nat} {block : StateSet} {i : StateId}, p.blocks[k]? = some block → i ∈ block →
      ∀ j, j ∈ block ↔ fa.Useful j ∧ ∀ word, fa.RecognizesFrom i word ↔ fa.RecognizesFrom j word := by
    intro k block i hblock hi j
    have hi := (h.sound.mem_iff hblock).mp hi
    rw [h.sound.mem_iff hblock]
    refine ⟨fun hj => ⟨h.covers.mp ⟨k, hj⟩, h.alike hi hj⟩, fun given => ?_⟩
    exact h.together (h.covers.mp ⟨k, hi⟩) given.1 given.2 ▸ hi
  refine ⟨fun member => ?_, fun given => ?_⟩
  · obtain ⟨k, hblock⟩ := Array.mem_iff_getElem?.mp member
    obtain ⟨i, hi⟩ := h.sound.nonempty hblock
    exact ⟨i, h.covers.mp ⟨k, (h.sound.mem_iff hblock).mp hi⟩, class_of hblock hi⟩
  · obtain ⟨i, hi, members⟩ := given
    obtain ⟨k, hk⟩ := h.covers.mpr hi
    obtain ⟨block', hblock, inside⟩ := h.sound.held.mp hk
    obtain rfl : block' = block := StateSet.ext fun j => (class_of hblock inside j).trans (members j).symm
    exact Array.mem_of_getElem? hblock

/-! ### Any order -/

/-- The order of splits has no say in what refinement ends with: however the splits are chosen, they come to an end,
    and then two states that matter share a block just when they recognise the same words. The blocks are those of
    `final`. -/
structure OrderFree (fa : Automaton) (alphabet : List Char) (first final : Partition) : Prop where
  reached : Relation.ReflTransGen (Splits fa alphabet) first final
  settled : final.Settled fa alphabet
  stops : ∀ run : Nat → Partition, run 0 = first → ¬∀ n, (run n).Splits fa alphabet (run (n + 1))
  classes : ∀ p, Relation.ReflTransGen (Splits fa alphabet) first p → p.Settled fa alphabet →
    ∀ i j, fa.Useful i → fa.Useful j → ((∃ block ∈ p.blocks, i ∈ block ∧ j ∈ block) ↔
      ∀ word, fa.RecognizesFrom i word ↔ fa.RecognizesFrom j word)
  same : ∀ p, Relation.ReflTransGen (Splits fa alphabet) first p → p.Settled fa alphabet →
    ∀ block, block ∈ p.blocks ↔ block ∈ final.blocks

/-- When some word is recognised. -/
theorem orderFree_of_live (wf : fa.WellFormed) (complete : fa.CompleteFrom fa.start) (det : fa.Deterministic)
    (live : ∃ word, fa.Recognizes word) :
    OrderFree fa fa.seen.alphabet.chars (Partition.initial fa fa.seen) (fa.stablePartition fa.seen) := by
  have exact := exact_stablePartition wf complete det live
  have begun := coarse_halves wf complete det
  rw [← initial_eq ((mem_live_iff_exists_recognizesFrom wf).mpr live)] at begun
  refine ⟨runs_stabilize _ _ _ _, ?_, fun run first => ?_, fun p run settled i j hi hj => ?_,
    fun p run settled block => ?_⟩
  · exact settled_iff.mpr (sound_stablePartition complete).2.2.2
  · exact Sound.not_forall_splits (first ▸ begun.sound)
  · exact ((begun.runs det run).exact complete det settled).exists_block_iff hi hj
  · rw [((begun.runs det run).exact complete det settled).mem_blocks_iff, exact.mem_blocks_iff]

/-- When the only block is one state and no state matters. -/
theorem orderFree_of_single {view : Walk} {i : StateId} (h : (Partition.initial fa view).blocks = #[{i}])
    (useless : ∀ i, ¬fa.Useful i) :
    OrderFree fa view.alphabet.chars (Partition.initial fa view) (fa.stablePartition view) := by
  have settled : (Partition.initial fa view).Settled fa view.alphabet.chars := settled_of_single h
  have final : fa.stablePartition view = Partition.initial fa view :=
    stabilize_of_refine?_eq_none (settled_iff.mp settled)
  have still : ∀ p, Relation.ReflTransGen (Splits fa view.alphabet.chars) (Partition.initial fa view) p →
      p = Partition.initial fa view := fun p run => (Relation.reflTransGen_iff_eq settled).mp run
  rw [final]
  refine ⟨.refl, settled, fun run first forever => ?_, fun p _ _ i j hi _ => absurd hi (useless i),
    fun p run _ block => by rw [still p run]⟩
  exact settled _ (first ▸ forever 0)

/-- When no word is recognised, from the start or for want of states. -/
theorem orderFree_of_dead (wf : fa.WellFormed) (complete : fa.CompleteFrom fa.start)
    (dead : ∀ word, ¬fa.Recognizes word) :
    OrderFree fa fa.seen.alphabet.chars (Partition.initial fa fa.seen) (fa.stablePartition fa.seen) := by
  refine orderFree_of_single (i := fa.start) ?_ fun i useful => ?_
  · rw [initial_of_dead wf complete dead]
    exact blocks_push ⟨fa.start, StateSet.mem_singleton.mpr rfl⟩
  · obtain ⟨lead, word, j, path, accepting⟩ := useful
    obtain ⟨first, path'⟩ := lead.exists_path wf
    exact dead (first ++ word) ⟨j, path'.append path, accepting⟩

theorem orderFree_empty : OrderFree {} (∅ : Label).chars (Partition.initial {} {}) (stablePartition {} {}) :=
  @orderFree_of_single {} {} 0 rfl fun i useful => by
    obtain ⟨-, word, j, -, accepting⟩ := useful
    exact absurd (lt_of_accepting accepting) (Nat.not_lt_zero j)

/-- Refinement of any deterministic automaton stops with no block left to split, and then two states that are reachable
    and recognise some word are in the same block just when they recognise the same words. Trying blocks and characters
    in another order ends with the same blocks. -/
theorem stablePartition_orderFree (wf : fa.WellFormed) (det : fa.isDeterministic = .ok true) :
    ∃ view, fa.view = .ok view ∧ (fa.stablePartition view).refine? fa view.alphabet.chars = none ∧
      OrderFree fa view.alphabet.chars (Partition.initial fa view) (fa.stablePartition view) ∧
      ∀ i j, fa.Useful i → fa.Useful j → ((∃ block ∈ (fa.stablePartition view).blocks, i ∈ block ∧ j ∈ block) ↔
        ∀ word, fa.RecognizesFrom i word ↔ fa.RecognizesFrom j word) := by
  have stopped : ∃ view, fa.view = .ok view ∧
      OrderFree fa view.alphabet.chars (Partition.initial fa view) (fa.stablePartition view) := by
    rcases wf.start with start | ⟨empty, zero⟩
    · obtain ⟨complete, det⟩ := Deterministic.of_isDeterministic start det
      refine ⟨fa.seen, view_eq complete, ?_⟩
      by_cases live : ∃ word, fa.Recognizes word
      · exact orderFree_of_live wf complete det live
      · exact orderFree_of_dead wf complete fun word recognizes => live ⟨word, recognizes⟩
    · obtain rfl : fa = {} := ext_states (fun i => by simp [Array.isEmpty_iff.mp empty]) zero
      exact ⟨{}, rfl, orderFree_empty⟩
  obtain ⟨view, viewed, free⟩ := stopped
  exact ⟨view, viewed, settled_iff.mp free.settled, free, free.classes _ free.reached free.settled⟩

/-- The states behind the two branches share a block, and so do the ends of the branches. -/
theorem stablePartition_orderFree_doubled : doubled.WellFormed ∧ doubled.isDeterministic = .ok true ∧
    ∃ view, doubled.view = .ok view ∧
      OrderFree doubled view.alphabet.chars (Partition.initial doubled view) (doubled.stablePartition view) ∧
      (doubled.stablePartition view).blocks = #[.ofList [3, 4], {0}, .ofList [1, 2]] := by
  have wf : doubled.WellFormed := wellFormed_assembled (by decide) (Or.inl (by decide))
  have det : doubled.isDeterministic = .ok true := by decide +kernel
  obtain ⟨view, viewed, -, free, -⟩ := stablePartition_orderFree wf det
  have blocks : (doubled.view.map fun view => (doubled.stablePartition view).blocks) =
      .ok #[.ofList [3, 4], {0}, .ofList [1, 2]] := by decide +kernel
  rw [viewed] at blocks
  exact ⟨wf, det, view, viewed, free, Except.ok.inj blocks⟩

end Partition
end FiniteAutomata
