import FiniteAutomata.Proofs.CheckedConstruction
import FiniteAutomata.Proofs.Refinement
import FiniteAutomata.Proofs.Tiling

/-! Refinement with checked look-ups. The members of sound blocks are states, one of the blocks holds the start, and
    without reachable empty steps no empty step is added between blocks; so nothing is refused, whether the automaton
    is deterministic or not. -/

namespace FiniteAutomata
namespace Checked

variable {fa : Automaton} {p : Partition} {alphabet : List Char} {block : StateSet} {i root : StateId} {c : Char}

/-! ### Splits -/

theorem landing_eq (hi : i < fa.size) : landing fa p c i = .ok (p.landing fa c i) := by
  rw [landing, state_eq hi, Partition.landing, stateAt, Array.getElem?_eq_getElem hi]
  rfl

theorem dissenters_eq (h : ∀ i ∈ block, i < fa.size) : dissenters fa p block c = .ok (p.dissenters fa block c) := by
  have lt : ∀ i ∈ block.toList, i < fa.size := fun i hi => h i (StateSet.mem_toList.mp hi)
  rw [dissenters, Partition.dissenters]
  cases members : block.toList with
  | nil => rfl
  | cons first rest =>
    rw [members, List.forall_mem_cons] at lt
    have others : rest.mapM (fun id => do return (id, ← landing fa p c id)) =
        .ok (rest.map fun id => (id, p.landing fa c id)) := mapM_eq fun i hi => by
      rw [bind_eq (landing_eq (lt.2 i hi))]
      rfl
    show (landing fa p c first >>= _) = _
    rw [bind_eq (landing_eq lt.1), bind_eq others, List.filter_map, List.map_map]
    refine congrArg (fun ids => Except.ok (StateSet.ofList ids)) ?_
    exact List.map_id _

theorem blockSplit?_eq (h : ∀ i ∈ block, i < fa.size) :
    blockSplit? fa p alphabet block = .ok (p.blockSplit? fa alphabet block) := by
  rw [blockSplit?, Partition.blockSplit?]
  split
  · rfl
  · refine findSomeM?_eq fun c _ => ?_
    rw [bind_eq (dissenters_eq h)]
    rfl

theorem refine?_eq (sound : p.Sound fa.size) : refine? fa p alphabet = .ok (p.refine? fa alphabet) := by
  have split : split? fa p alphabet = .ok (p.split? fa alphabet) := by
    refine findSomeM?_eq fun ⟨block, index⟩ hmem => ?_
    have hblock : p.blocks[index]? = some block := by simpa using List.mem_zipIdx_iff_getElem?.mp hmem
    exact bind_eq (blockSplit?_eq fun i hi => sound.lt ((sound.mem_iff hblock).mp hi))
  rw [refine?, bind_eq split]
  rfl

/-- A split leaves a sound partition, so the next one looks up states only that are there. -/
theorem stabilize_eq (sound : p.Sound fa.size) (n : Nat) :
    stabilize fa alphabet n p = .ok (p.stabilize fa alphabet n) := by
  induction n generalizing p with
  | zero => rfl
  | succ n ih =>
    rw [stabilize, bind_eq (refine?_eq sound), Partition.stabilize]
    cases split : p.refine? fa alphabet with
    | none => rfl
    | some q => exact ih (sound.splits (Partition.splits_of_refine? split)).1

/-! ### Blocks as states -/

/-- The steps between blocks of some edges are those between blocks of their steps. -/
theorem flatMap_arcs_lift (k : Nat) (edges : List Edge) :
    (edges.filterMap (lift p k)).flatMap Edge.arcs = (edges.flatMap Edge.arcs).filterMap fun arc =>
      (p.blockOf? arc.target).map fun target => ⟨k, target, arc.symbol⟩ := by
  rw [List.filterMap_flatMap]
  induction edges with
  | nil => rfl
  | cons e edges ih =>
    rw [List.flatMap_cons, ← ih, List.filterMap_cons, lift, Edge.arcs, List.filterMap_map]
    cases covered : p.blockOf? e.target with
    | none => simp [covered]
    | some target => simp [covered, Edge.arcs]

theorem blockEdges_eq {row : StateSet × Nat} (h : ∀ i ∈ row.1, i < fa.size) :
    blockEdges fa p row = .ok ((row.1.toList.flatMap fa.edgesOf).filterMap (lift p row.2)) := by
  have members : (row.1.toList.map (stateAt fa)).flatMap State.edges = row.1.toList.flatMap fa.edgesOf := by
    simp [List.flatMap_map]
  rw [blockEdges, bind_eq (mapM_state_eq fun i hi => h i (StateSet.mem_toList.mp hi)), members]
  rfl

theorem quotient_eq (wf : fa.WellFormed) (sound : p.Sound fa.size)
    (silent : ∀ {i j k}, p.blockOf? i = some k → ¬fa.Step i .epsilon j) : quotient fa p = .ok (fa.classes p) := by
  have lt : ∀ {block : StateSet} {k : Nat}, p.blocks[k]? = some block → ∀ i ∈ block, i < fa.size := fun hblock i hi =>
    sound.lt ((sound.mem_iff hblock).mp hi)
  have states : p.blocks.toList.mapM (fun block => do return (Kind.partition block, ← anyAccepting fa block)) =
      .ok (fa.blockStates p) := by
    refine mapM_eq fun block hblock => ?_
    obtain ⟨k, hk⟩ := List.getElem?_of_mem hblock
    rw [bind_eq (anyAccepting_eq (lt (by simpa using hk)))]
    rfl
  have edges : p.blocks.toList.zipIdx.mapM (blockEdges fa p) = .ok (p.blocks.toList.zipIdx.map fun row =>
      (row.1.toList.flatMap fa.edgesOf).filterMap (lift p row.2)) := by
    refine mapM_eq fun ⟨block, index⟩ hmem => ?_
    have hblock : p.blocks[index]? = some block := by simpa using List.mem_zipIdx_iff_getElem?.mp hmem
    exact blockEdges_eq (lt hblock)
  have arcs : (p.blocks.toList.zipIdx.map fun row =>
      (row.1.toList.flatMap fa.edgesOf).filterMap (lift p row.2)).flatten.flatMap Edge.arcs = fa.blockArcs p := by
    rw [← List.flatMap_def, List.flatMap_assoc, Automaton.blockArcs]
    refine List.flatMap_congr fun row _ => ?_
    rw [flatMap_arcs_lift, wf.flatMap_arcs]
  rw [quotient, bind_eq states, bind_eq edges, connect_blank (arcs ▸ Automaton.allowed_blockArcs sound silent), arcs]
  rfl

/-! ### Numbers by a walk -/

theorem renumber_eq (wf : fa.WellFormed) (complete : fa.CompleteFrom root)
    (silent : ∀ {i j}, fa.Leads root i → ¬fa.Step i .epsilon j) :
    renumber fa root = .ok (fa.renumbered (fa.order [root])) := by
  have head := Automaton.head_order fa root
  have root_mem := List.mem_of_getElem? head
  have nodup := Automaton.order_nodup fa [root]
  have states : (fa.order [root]).mapM (fun id => do return (Kind.dfa, ← accepting fa id)) =
      .ok ((fa.order [root]).map fun id => (Kind.dfa, fa.accepting id)) := by
    refine mapM_eq fun i hi => ?_
    rw [bind_eq (accepting_eq (complete i ((Automaton.mem_order_root complete).mp hi)))]
    rfl
  have arcs := flatMap_arcs_place wf (fa.order [root])
  have place : (fa.order [root]).idxOf root = 0 := idxOf_of_getElem? nodup head
  have lt : 0 < (fa.order [root]).length := (List.getElem?_eq_some_iff.mp head).1
  rw [renumber, bind_eq (traverse_eq complete), Automaton.collect, bind_eq states,
    bind_eq (mapM_numbered wf (Automaton.closed_order_root complete)),
    bind_eq (connect_blank (arcs ▸ Automaton.allowed_renumberedArcs complete silent)), bind_eq (number_eq root_mem),
    arcs, place, Automaton.setStart, Automaton.size_assembled, List.length_map, if_pos lt]
  rfl

/-! ### The minimal automaton -/

/-- Refinement looks up only what is there and adds no empty step if none is reachable. -/
theorem exists_minimizeByRefinement (wf : fa.WellFormed) (h : fa.Complete)
    (silent : ∀ {i j}, fa.Leads fa.start i → ¬fa.Step i .epsilon j) : ∃ m, minimizeByRefinement fa = .ok m ∧
      fa.minimizeByRefinement = .ok m ∧ m.WellFormed ∧ m.InRange := by
  rcases h with empty | complete
  · have none := Automaton.start_not_lt empty
    obtain ⟨m, checked, made, wf', range, -⟩ := exists_determinize (Or.inl empty : fa.Complete)
    exact ⟨m, (if_neg none).trans checked, (if_neg none).trans made, wf', range⟩
  · obtain ⟨sound, ⟨k, hk⟩, reachable, -⟩ := Automaton.sound_stablePartition complete
    have covered : ∀ {i j k}, (fa.stablePartition fa.seen).blockOf? i = some k → ¬fa.Step i .epsilon j := fun hi =>
      silent (reachable hi)
    have renumbers := Automaton.renumbers_classes sound covered hk
    refine ⟨_, ?_, Automaton.minimizeByRefinement_eq complete sound covered hk, renumbers.wellFormed, renumbers.inRange⟩
    have stable : stabilize fa fa.seen.alphabet.chars fa.size (Partition.initial fa fa.seen) =
        .ok (fa.stablePartition fa.seen) := stabilize_eq (Partition.tiles_initial complete).toSound fa.size
    rw [minimizeByRefinement, if_pos complete.lt, bind_eq (view_eq complete), bind_eq stable,
      bind_eq (quotient_eq wf sound covered), hk]
    exact renumber_eq (Automaton.wellFormed_classes sound covered hk) (Automaton.completeFrom_classes sound hk) fun _ =>
      Automaton.not_silent_classes sound covered

end Checked
end FiniteAutomata
