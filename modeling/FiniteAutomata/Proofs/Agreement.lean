import FiniteAutomata.Compile
import FiniteAutomata.Proofs.Ascending
import FiniteAutomata.Proofs.DoubleReversal
import FiniteAutomata.Proofs.Refinement

/-! The two ways to minimise give one and the same automaton, not just isomorphic ones. Both number a reduced system
    breadth-first, characters ascending: two reversals do by construction, and refinement since the subset
    construction before it leaves ascending edges. A block takes the order of its edges from its first member,
    but all its members lead to the same blocks in the same order. -/

namespace FiniteAutomata

open FiniteAutomata.Partition

namespace Automaton

variable {fa : Automaton} {p : Partition} {i j : StateId} {k l : Nat} {word : List Char}

/-! ### The edges of blocks -/

theorem filter_blockArcs (fa : Automaton) (p : Partition) {block : StateSet} (hblock : p.blocks[k]? = some block) :
    ((fa.blockArcs p).filter fun a => a.source = k) = (block.toList.flatMap fa.arcsOf).filterMap fun arc =>
      (p.blockOf? arc.target).map fun target => ⟨k, target, arc.symbol⟩ := by
  have places : ∀ n (x : StateSet × Nat), p.blocks.toList.zipIdx[n]? = some x →
      ∀ a ∈ (x.1.toList.flatMap fa.arcsOf).filterMap fun arc =>
        (p.blockOf? arc.target).map fun target => (⟨x.2, target, arc.symbol⟩ : Arc), a.source = n := by
    intro n x hx a ha
    obtain ⟨arc, -, hmap⟩ := List.mem_filterMap.mp ha
    obtain ⟨target, -, rfl⟩ := Option.map_eq_some_iff.mp hmap
    rw [List.getElem?_zipIdx] at hx
    obtain ⟨block, -, rfl⟩ := Option.map_eq_some_iff.mp hx
    exact Nat.zero_add n
  have here : p.blocks.toList.zipIdx[k]? = some (block, k) := by
    rw [List.getElem?_zipIdx, Array.getElem?_toList, hblock, Nat.zero_add]
    rfl
  show ((p.blocks.toList.zipIdx.flatMap fun x => (x.1.toList.flatMap fa.arcsOf).filterMap fun arc =>
    (p.blockOf? arc.target).map fun target => (⟨x.2, target, arc.symbol⟩ : Arc)).filter fun a => a.source = k) = _
  rw [filter_flatMap_of_place places, here]
  rfl

/-- The targets of a block are the blocks that its members lead to, in the order of the members. -/
theorem targets_classes (fa : Automaton) (p : Partition) {block : StateSet} (hblock : p.blocks[k]? = some block) :
    (fa.classes p).targets k =
      (block.toList.flatMap fun i => (fa.arcsOf i).filterMap fun arc => p.blockOf? arc.target).eraseDups := by
  have inside : k < (fa.blockStates p).length := by
    rw [length_blockStates]
    exact (Array.getElem?_eq_some_iff.mp hblock).1
  rw [classes, targets_assembled inside, filter_blockArcs fa p hblock, List.map_filterMap, List.filterMap_flatMap]
  refine congrArg List.eraseDups (List.flatMap_congr fun i _ => List.filterMap_congr fun arc _ => ?_)
  cases p.blockOf? arc.target <;> rfl

section Classes
variable (exact : p.Exact fa) (det : fa.Deterministic)
include exact det

/-- The moves of a block are those of any member, as far as they lead to blocks. -/
theorem moves_classes (hi : p.blockOf? i = some k) : (fa.classes p).stateSystem.moves k =
    (fa.stateSystem.moves i).filterMap fun m => (p.blockOf? m.2).map fun l => (m.1, l) := by
  have lead := (exact.covers.mp ⟨k, hi⟩).1
  refine System.eq_of_ascending (ordered_stateSystem _ k) ?_ fun c l => ?_
  · refine (ordered_stateSystem fa i).filterMap _ fun m m' hlt q hq q' hq' => ?_
    obtain ⟨-, -, rfl⟩ := Option.map_eq_some_iff.mp hq
    obtain ⟨-, -, rfl⟩ := Option.map_eq_some_iff.mp hq'
    exact hlt
  · rw [mem_moves (functional_classes exact det), List.mem_filterMap]
    refine ⟨fun step => ?_, fun h => ?_⟩
    · obtain ⟨j, step', hj⟩ := (matching_classes exact det).back hi step
      exact ⟨(c, j), (mem_moves (det.functional lead)).mpr step', by rw [hj]; rfl⟩
    · obtain ⟨⟨d, j⟩, move, hmap⟩ := h
      obtain ⟨l', hj, heq⟩ := Option.map_eq_some_iff.mp hmap
      obtain ⟨rfl, rfl⟩ := Prod.mk.inj heq
      exact (step_classes_of_exact exact det).mpr ⟨i, j, hi, (mem_moves (det.functional lead)).mp move, hj⟩

/-- Ascending edges of the members give ascending edges of the blocks. -/
theorem ascending_classes (wf : fa.WellFormed) (ascending : ∀ i < fa.size, fa.Ascending i)
    (hk : k < (fa.classes p).size) : (fa.classes p).Ascending k := by
  rw [size_classes] at hk
  have hblock := Array.getElem?_eq_getElem hk
  have member : ∀ i ∈ p.blocks[k].toList, ((fa.arcsOf i).filterMap fun arc => p.blockOf? arc.target).eraseDups =
      ((fa.classes p).stateSystem.successors k).eraseDups := by
    intro i hi
    have hi := (exact.sound.mem_iff hblock).mp (StateSet.mem_toList.mp hi)
    have same : ((fa.arcsOf i).map Arc.target).eraseDups = (fa.stateSystem.successors i).eraseDups := by
      rw [eraseDups_map_arcsOf wf, ascending i (exact.sound.lt hi), eraseDups_eq_self (nodup_eraseDups _)]
    have blocks := eraseDups_filterMap_congr p.blockOf? same
    rw [List.filterMap_map] at blocks
    refine blocks.trans (congrArg _ ?_)
    rw [System.successors, System.successors, moves_classes exact det hi, List.map_filterMap, List.filterMap_map]
    refine List.filterMap_congr fun m _ => ?_
    cases hm : p.blockOf? m.2 <;> simp [hm]
  have nonempty : p.blocks[k].toList ≠ [] := by
    obtain ⟨i, hi⟩ := exact.sound.nonempty hblock
    exact List.ne_nil_of_mem (StateSet.mem_toList.mpr hi)
  rw [Ascending, targets_classes fa p hblock, eraseDups_flatMap_congr member, eraseDups_flatMap_const nonempty]

/-! ### One canonical form -/

/-- The blocks that recognise the same words as a state form a reduced system. -/
theorem reduced_classes (complete : (fa.classes p).CompleteFrom k) (lists : (fa.classes p).stateSystem.Lists k
    ((fa.classes p).order [k])) : (fa.classes p).stateSystem.Reduced k := by
  have block : ∀ {u l}, (fa.classes p).stateSystem.Run k u l → l < p.blocks.size := by
    intro u l run
    have hl := (mem_order_root complete).mp (lists.mem_of_run (List.mem_of_getElem? lists.head) run)
    rw [← size_classes]
    exact complete l hl
  have silent : ∀ {i j}, ¬(fa.classes p).Step i .epsilon j :=
    not_silent_classes exact.sound (silent_of_exact exact det)
  constructor
  · exact ordered_stateSystem _
  · intro l u run
    obtain ⟨word, recognizes⟩ := live_classes exact det (block run)
    exact ⟨word, (accepts_stateSystem silent (functional_classes exact det)).mpr recognizes⟩
  · intro l l' u v run run' same
    refine separated_classes exact det (block run) (block run') fun word => ?_
    rw [← accepts_stateSystem silent (functional_classes exact det), same,
      accepts_stateSystem silent (functional_classes exact det)]

end Classes

/-- Refinement of a deterministic automaton with ascending edges numbers a reduced system of the same language. -/
theorem minimizeByRefinement_eq_tabulated (wf : fa.WellFormed) (complete : fa.CompleteFrom fa.start)
    (det : fa.Deterministic) (ascending : ∀ i < fa.size, fa.Ascending i) (live : ∃ word, fa.Recognizes word) :
    ∃ (sys : System StateId) (k n : Nat), sys.Reduced k ∧ Closed sys.successors (explore sys.successors n [] [k]) ∧
      (∀ word, sys.Accepts k word ↔ fa.Recognizes word) ∧
      fa.minimizeByRefinement = .ok (sys.tabulated (explore sys.successors n [] [k])) := by
  have exact := exact_stablePartition wf complete det live
  obtain ⟨k, hk⟩ := exact.covers.mpr ⟨.refl fa.start, live⟩
  have silent : ∀ {i j}, ¬(fa.classes (fa.stablePartition fa.seen)).Step i .epsilon j :=
    not_silent_classes exact.sound (silent_of_exact exact det)
  have functional : ∀ {i j k a}, (fa.classes (fa.stablePartition fa.seen)).Step i a j →
      (fa.classes (fa.stablePartition fa.seen)).Step i a k → j = k := functional_classes exact det
  have blocks := completeFrom_classes exact.sound hk
  have ascending' : ∀ i < (fa.classes (fa.stablePartition fa.seen)).size,
      (fa.classes (fa.stablePartition fa.seen)).Ascending i := fun i hi => ascending_classes exact det wf ascending hi
  refine ⟨_, k, _, reduced_classes exact det blocks (lists_order blocks ascending'),
    closed_successors blocks ascending', fun word => ?_, ?_⟩
  · rw [accepts_stateSystem silent functional, recognizesFrom_classes exact det hk]
    exact Iff.rfl
  · rw [minimizeByRefinement_eq complete exact.sound (silent_of_exact exact det) hk,
      renumbered_eq_tabulated blocks ascending' (wellFormed_classes exact.sound (silent_of_exact exact det) hk) silent
        functional]

/-- After the subset construction refinement gives the same automaton as two reversals. -/
theorem exists_minimize_eq (complete : fa.CompleteFrom fa.start) (live : ∃ word, fa.Recognizes word) :
    ∃ m, Strategy.partition.minimize fa = .ok m ∧ Strategy.reversal.minimize fa = .ok m := by
  have single := completeFromSet_singleton complete
  have lists := lists_subsets single
  have made : fa.determinize = .ok (fa.subsetSystem.tabulated (fa.subsets {fa.start})) := by
    rw [determinize, if_pos complete.lt, determinizeFrom_eq single]
  have language : ∀ word, (fa.subsetSystem.tabulated (fa.subsets {fa.start})).Recognizes word ↔ fa.Recognizes word := by
    intro word
    rw [recognizes_subsets single]
    simp [Recognizes]
  obtain ⟨word, hw⟩ := live
  obtain ⟨sys, k, n, reduced, closed, accepts, refined⟩ := minimizeByRefinement_eq_tabulated
    (System.wellFormed_tabulated lists) (System.completeFrom_tabulated lists)
    (System.deterministic_tabulated lists (ordered_subsetSystem fa))
    (fun i hi => ascending_tabulated lists (ordered_subsetSystem fa) hi) ⟨word, (language word).mpr hw⟩
  obtain ⟨back, s, completeBack, reduced', accepts', reversed⟩ := minimizeByReversal_eq (Or.inr complete) hw
  have canonical := System.tabulated_eq reduced reduced' closed (closed_subsets completeBack) fun word => by
    rw [accepts, accepts', language]
  -- Each side numbers a reduced system, and the systems accept the same words.
  refine ⟨_, ?_, reversed⟩
  rw [Strategy.minimize, made]
  exact refined.trans (congrArg _ canonical)

end Automaton
end FiniteAutomata
