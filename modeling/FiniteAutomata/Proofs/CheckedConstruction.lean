import FiniteAutomata.Proofs.Ascending
import FiniteAutomata.Proofs.Checked
import FiniteAutomata.Proofs.DoubleReversal
import FiniteAutomata.Proofs.SingleStart

/-! Constructions by checked edits. The edges of what they read are turned round, numbered and added label by label,
    and this gives what assembling the single steps gives, since every state that an edge names has a number and every
    empty step starts at a state of kind `nfa`. -/

namespace FiniteAutomata

/-- The single steps of an edge. -/
def Edge.arcs (e : Edge) : List Arc := e.label.toList.map fun a => ⟨e.source, e.target, a⟩

namespace Automaton

theorem WellFormed.flatMap_arcs {fa : Automaton} (wf : fa.WellFormed) (ids : List StateId) :
    (ids.flatMap fa.edgesOf).flatMap Edge.arcs = ids.flatMap fa.arcsOf := by
  rw [List.flatMap_assoc]
  refine List.flatMap_congr fun i _ => ?_
  rw [arcsOf]
  refine List.flatMap_congr fun e he => ?_
  rw [Edge.arcs, wf.source_of_mem_edgesOf he]

end Automaton

namespace Checked

variable {fa : Automaton} {states : List (Kind × Bool)} {arcs : List Arc} {edges : List Edge} {start : StateId}
  {s t : StateSet}

/-! ### Connecting -/

theorem addLabeledEdge_assembled {e : Edge} (h : ∀ a ∈ e.arcs, Automaton.Allowed states a) :
    (Automaton.assembled states arcs start).addLabeledEdge e.source e.target e.label =
      .ok (Automaton.assembled states (arcs ++ e.arcs) start) := by
  refine Eq.trans ?_ (Automaton.foldlM_addEdge arcs e.arcs h)
  rw [Edge.arcs, List.foldlM_map]
  rfl

theorem connect_assembled (h : ∀ a ∈ edges.flatMap Edge.arcs, Automaton.Allowed states a) :
    connect (Automaton.assembled states arcs start) edges =
      .ok (Automaton.assembled states (arcs ++ edges.flatMap Edge.arcs) start) := by
  induction edges generalizing arcs with
  | nil => rw [List.flatMap_nil, List.append_nil]; rfl
  | cons e edges ih =>
    rw [List.flatMap_cons, List.forall_mem_append] at h
    rw [connect, List.foldlM_cons, addLabeledEdge_assembled h.1]
    refine (ih h.2).trans ?_
    rw [List.flatMap_cons, List.append_assoc]

theorem connect_blank (h : ∀ a ∈ edges.flatMap Edge.arcs, Automaton.Allowed states a) :
    connect (blank states) edges = .ok (Automaton.assembled states (edges.flatMap Edge.arcs) 0) := by
  rw [blank, Automaton.foldl_addState]
  exact connect_assembled h

/-! ### Numbers by a walk -/

/-- The edge between the places of its ends. -/
def place (visited : List StateId) (e : Edge) : Edge :=
  { e with source := visited.idxOf e.source, target := visited.idxOf e.target }

theorem mapM_numbered {visited : List StateId} (wf : fa.WellFormed) (closed : Closed fa.targets visited) :
    (visited.flatMap fa.edgesOf).mapM (numbered visited) = .ok ((visited.flatMap fa.edgesOf).map (place visited)) := by
  refine mapM_eq fun e he => ?_
  obtain ⟨i, hi, he⟩ := List.mem_flatMap.mp he
  have source : e.source ∈ visited := (wf.source_of_mem_edgesOf he).symm ▸ hi
  have target : e.target ∈ visited := closed i hi e.target (Automaton.mem_targets.mpr ⟨e, he, rfl⟩)
  rw [numbered, bind_eq (number_eq source), bind_eq (number_eq target)]
  rfl

theorem flatMap_arcs_place (wf : fa.WellFormed) (visited : List StateId) :
    ((visited.flatMap fa.edgesOf).map (place visited)).flatMap Edge.arcs = fa.renumberedArcs visited := by
  rw [Automaton.renumberedArcs, ← wf.flatMap_arcs, List.flatMap_map, List.map_flatMap]
  refine List.flatMap_congr fun e _ => ?_
  rw [Edge.arcs, Edge.arcs, List.map_map]
  rfl

/-! ### Turning round -/

theorem flatMap_arcs_flip (edges : List Edge) : (edges.map Edge.flip).flatMap Edge.arcs =
    (edges.flatMap Edge.arcs).map fun arc => ⟨arc.target, arc.source, arc.symbol⟩ := by
  rw [List.flatMap_map, List.map_flatMap]
  refine List.flatMap_congr fun e _ => ?_
  rw [Edge.arcs, Edge.arcs, List.map_map]
  rfl

theorem turned_eq (fa : Automaton) (visited : List StateId) :
    fa.turned visited = (fa.renumberedArcs visited).map fun arc => ⟨arc.target, arc.source, arc.symbol⟩ := by
  rw [Automaton.renumberedArcs, List.map_map]
  rfl

theorem reverseEdges_eq (wf : fa.WellFormed) (complete : fa.CompleteFrom fa.start) :
    reverseEdges fa = .ok fa.turnedRound := by
  have startMem : fa.start ∈ fa.seen.states := (Automaton.mem_seen complete).mpr (.refl _)
  have edges : fa.seen.edges.mapM (numbered fa.seen.states) = .ok (fa.seen.edges.map (place fa.seen.states)) :=
    mapM_numbered wf (Automaton.seen_closed complete)
  have arcs : ((fa.seen.edges.map (place fa.seen.states)).map Edge.flip).flatMap Edge.arcs =
      fa.turned fa.seen.states := by
    rw [flatMap_arcs_flip, turned_eq]
    exact congrArg _ (flatMap_arcs_place wf fa.seen.states)
  have connected : connect (blank fa.turnedStates) ((fa.seen.edges.map (place fa.seen.states)).map Edge.flip) =
      .ok (Automaton.assembled fa.turnedStates (fa.turned fa.seen.states) 0) := by
    rw [connect_blank (arcs ▸ fun a ha => Automaton.allowed_turned complete ha), arcs]
  have started : (Automaton.assembled fa.turnedStates (fa.turned fa.seen.states) 0).setStart
      (fa.seen.states.idxOf fa.start) = .ok fa.turnedRound.automaton := by
    have lt : fa.seen.states.idxOf fa.start < fa.turnedStates.length := by
      rw [Automaton.turnedStates, List.length_map]
      exact List.idxOf_lt_length_of_mem startMem
    rw [Automaton.setStart, Automaton.size_assembled, if_pos lt]
    rfl
  have initial : fa.seen.accepting.toList.mapM (number fa.seen.states) =
      .ok (fa.seen.accepting.toList.map fun id => fa.seen.states.idxOf id) := by
    refine mapM_eq fun i hi => number_eq ((Automaton.mem_seen complete).mpr ?_)
    exact ((Automaton.mem_seen_accepting complete).mp (StateSet.mem_toList.mp hi)).1
  rw [reverseEdges, bind_eq (view_eq complete), bind_eq edges]
  show (connect (blank fa.turnedStates) ((fa.seen.edges.map (place fa.seen.states)).map Edge.flip) >>= _) = _
  rw [bind_eq connected, if_pos startMem, bind_eq started]
  show (fa.seen.accepting.toList.mapM (number fa.seen.states) >>= _) = _
  rw [bind_eq initial]
  rfl

/-- The reachable steps can be turned round, and a backward run starts from states that are there. -/
theorem exists_reverseEdges (wf : fa.WellFormed) (h : fa.Complete) : ∃ r, reverseEdges fa = .ok r ∧
    fa.reverseEdges = .ok r ∧ r.automaton.WellFormed ∧ r.automaton.InRange ∧ ∀ i ∈ r.initial, i < r.automaton.size := by
  rcases h with empty | complete
  · have none := Automaton.start_not_lt empty
    obtain ⟨made, of⟩ := Automaton.reverseEdges_of_isEmpty empty
    refine ⟨_, ?_, made, .empty, of.inRange, fun i hi => absurd hi (StateSet.not_mem_empty i)⟩
    rw [reverseEdges, view, traverse, if_neg none]
    rfl
  · have of := Automaton.of_turnedRound complete
    exact ⟨_, reverseEdges_eq wf complete, Automaton.reverseEdges_eq complete, Automaton.wellFormed_turnedRound complete,
      of.inRange, of.within⟩

theorem exists_reverse (wf : fa.WellFormed) (h : fa.Complete) :
    ∃ m, reverse fa = .ok m ∧ fa.reverse = .ok m ∧ m.WellFormed ∧ m.InRange := by
  obtain ⟨r, made, made', -⟩ := exists_reverseEdges wf h
  obtain ⟨v, r', m, -, turned, reversed, spec, wf', -, started⟩ := Automaton.exists_reverse_started h
  obtain rfl := Except.ok.inj (made'.symm.trans turned)
  refine ⟨m, ?_, reversed, started.wellFormed wf' spec.within, started.inRange spec.inRange⟩
  rw [Automaton.reverse, made'] at reversed
  rw [reverse, bind_eq made]
  exact reversed

/-! ### Sets as states -/

/-- The characters that are read on the way from a set. -/
theorem exists_alphabet (h : fa.CompleteFromSet s) : ∃ walks, s.toList.mapM (traverse fa) = .ok walks ∧
    ∀ c, c ∈ (walks.foldl (fun l w => l ∪ w.alphabet) (∅ : Label)).chars ↔
      ∃ i ∈ s, ∃ j k, fa.Leads i j ∧ fa.Step j (.char c) k := by
  refine ⟨_, mapM_eq fun i hi => traverse_eq (h i (StateSet.mem_toList.mp hi)), fun c => ?_⟩
  rw [Label.mem_chars, Automaton.mem_foldl_union]
  refine ⟨fun given => ?_, fun given => ?_⟩
  · obtain none | ⟨walk, hwalk, hc⟩ := given
    · exact absurd none (Label.not_mem_empty _)
    · obtain ⟨i, hi, rfl⟩ := List.mem_map.mp hwalk
      have hi := StateSet.mem_toList.mp hi
      exact ⟨i, hi, (Automaton.mem_alphabet_collect (h i hi)).mp hc⟩
  · obtain ⟨i, hi, reads⟩ := given
    refine Or.inr ⟨_, List.mem_map.mpr ⟨i, StateSet.mem_toList.mpr hi, rfl⟩, ?_⟩
    exact (Automaton.mem_alphabet_collect (h i hi)).mpr reads

/-- A step is left out just when no member reads its character. -/
theorem isEmpty_step_iff (h : fa.CompleteFromSet s) (c : Char) :
    (fa.step s c).isEmpty = false ↔ ∃ i ∈ s, ∃ j, fa.Step i (.char c) j := by
  rw [Bool.eq_false_iff, ne_eq, StateSet.isEmpty_iff]
  refine ⟨fun some => Classical.not_not.mp fun none => some (Automaton.step_eq_empty none), fun given none => ?_⟩
  obtain ⟨i, hi, j, step⟩ := given
  have member := Automaton.mem_step_of_step h ⟨i, hi, step⟩
  exact StateSet.not_mem_empty j (none ▸ member)

/-- Among the steps on all the characters that a set may read are its own; the others lead nowhere. -/
theorem filter_steps_eq {alphabet : List Char} (h : fa.CompleteFromSet t)
    (ascending : alphabet.Pairwise fun c d => Symbol.char c < Symbol.char d)
    (reads : ∀ {i j c}, i ∈ t → fa.Step i (.char c) j → c ∈ alphabet) :
    ((alphabet.map fun c => (c, fa.step t c)).filter fun p => !p.2.isEmpty) = fa.stepsFrom t := by
  refine System.eq_of_ascending ?_ (Automaton.ordered_subsetSystem fa t) fun c x => ?_
  · exact List.Pairwise.filter _ (List.pairwise_map.mpr ascending)
  · rw [List.mem_filter, List.mem_map]
    refine ⟨fun given => ?_, fun given => ?_⟩
    · obtain ⟨⟨d, -, heq⟩, nonempty⟩ := given
      obtain ⟨rfl, rfl⟩ := Prod.mk.inj heq
      exact Automaton.mem_stepsFrom.mpr ⟨rfl, (isEmpty_step_iff h d).mp (by simpa using nonempty)⟩
    · obtain ⟨rfl, i, hi, j, step⟩ := Automaton.mem_stepsFrom.mp given
      refine ⟨⟨c, reads hi step, rfl⟩, ?_⟩
      simpa using (isEmpty_step_iff h c).mpr ⟨i, hi, j, step⟩

/-- On all the characters that a set may read its steps are found. -/
theorem stepsFrom_eq {alphabet : List Char} (h : fa.CompleteFromSet t)
    (ascending : alphabet.Pairwise fun c d => Symbol.char c < Symbol.char d)
    (reads : ∀ {i j c}, i ∈ t → fa.Step i (.char c) j → c ∈ alphabet) :
    stepsFrom fa alphabet t = .ok (fa.stepsFrom t) := by
  have steps : alphabet.mapM (fun c => do
      let moved ← delta fa t c
      return (c, ← epsilonClosure fa moved)) = .ok (alphabet.map fun c => (c, fa.step t c)) := by
    refine mapM_eq fun c _ => ?_
    rw [bind_eq (delta_eq (fun i hi => (h i hi).lt) c), bind_eq (epsilonClosure_eq (h.image c))]
    rfl
  rw [stepsFrom, bind_eq steps]
  exact congrArg Except.ok (filter_steps_eq h ascending reads)

/-- Sets that are reached hold states that the initial set leads to. -/
theorem leads_of_mem_subsets (h : fa.CompleteFromSet s) (ht : t ∈ fa.subsets s) : ∀ j ∈ t, ∃ i ∈ s, fa.Leads i j := by
  intro j hj
  obtain ⟨word, run⟩ := (Automaton.lists_subsets h).reached t ht
  rw [Automaton.run_subsetSystem run, Automaton.mem_foldl_step h] at hj
  obtain ⟨i, hi, path⟩ := hj
  exact ⟨i, hi, path.leads⟩

theorem subsetArcs_eq {family : List StateSet} (ht : t ∈ family)
    (closed : Closed fa.subsetSystem.successors family) :
    subsetArcs family (t, fa.stepsFrom t) = .ok (Automaton.subsetArcs family (t, fa.stepsFrom t)) := by
  refine mapM_eq fun p hp => ?_
  have target : p.2 ∈ family := closed t ht p.2 (List.mem_map.mpr ⟨p, hp, rfl⟩)
  rw [number_eq ht, number_eq target]
  rfl

theorem determinizeFrom_eq (h : fa.CompleteFromSet s) :
    determinizeFrom fa s = .ok (fa.subsetSystem.tabulated (fa.subsets s)) := by
  have lists := Automaton.lists_subsets h
  obtain ⟨walks, walked, reads⟩ := exists_alphabet h
  have rows : explore (stepsFrom fa (walks.foldl (fun l w => l ∪ w.alphabet) (∅ : Label)).chars) (List.map Prod.snd)
      (1 <<< fa.size) [] [fa.closure s] = .ok ((fa.subsets s).map fun t => (t, fa.stepsFrom t)) := by
    refine explore_rows fa.stepsFrom fun t ht => ?_
    have led := leads_of_mem_subsets h ht
    refine stepsFrom_eq (Automaton.completeFromSet_of_mem_subsets h t ht) (Label.chars_pairwise _) fun hi step => (reads _).mpr ?_
    obtain ⟨i, hi, lead⟩ := led _ hi
    exact ⟨i, hi, _, _, lead, step⟩
  have states : (fa.subsets s).mapM (fun t => do return (Kind.dfa, ← anyAccepting fa t)) =
      .ok ((fa.subsets s).map fun t => (Kind.dfa, fa.subsetSystem.accepting t)) := by
    refine mapM_eq fun t ht => ?_
    rw [bind_eq (anyAccepting_eq fun i hi => (Automaton.completeFromSet_of_mem_subsets h t ht i hi).lt)]
    rfl
  have arcs : ((fa.subsets s).map fun t => (t, fa.stepsFrom t)).mapM (subsetArcs (fa.subsets s)) =
      .ok (((fa.subsets s).map fun t => (t, fa.stepsFrom t)).map (Automaton.subsetArcs (fa.subsets s))) := by
    refine mapM_eq fun row hrow => ?_
    obtain ⟨t, ht, rfl⟩ := List.mem_map.mp hrow
    exact subsetArcs_eq ht lists.closed
  have flat : (((fa.subsets s).map fun t => (t, fa.stepsFrom t)).map (Automaton.subsetArcs (fa.subsets s))).flatten =
      fa.subsetSystem.arcs (fa.subsets s) := by
    rw [List.map_map, ← List.flatMap_def]
    rfl
  have started : (Automaton.assembled ((fa.subsets s).map fun t => (Kind.dfa, fa.subsetSystem.accepting t))
      (fa.subsetSystem.arcs (fa.subsets s)) 0).setStart 0 = .ok (fa.subsetSystem.tabulated (fa.subsets s)) :=
    if_pos (System.start_lt_tabulated lists)
  rw [determinizeFrom, bind_eq walked, bind_eq (epsilonClosure_eq h), bind_eq rows, map_fst_rows, bind_eq states,
    bind_eq arcs, flat, blank, Automaton.foldl_addState,
    bind_eq (Automaton.foldlM_addEdge [] _ (System.allowed_of_mem_arcs lists))]
  exact started

/-- The construction finds all that it looks up, and adds no empty step. -/
theorem exists_determinize (h : fa.Complete) : ∃ m, determinize fa = .ok m ∧ fa.determinize = .ok m ∧ m.WellFormed ∧
    m.InRange ∧ ∀ i j, ¬m.Step i .epsilon j := by
  have initial : fa.CompleteFromSet (if fa.start < fa.size then {fa.start} else ∅) := by
    split
    · next lt =>
      exact Automaton.completeFromSet_singleton (h.resolve_left fun empty => Automaton.start_not_lt empty lt)
    · exact fa.completeFromSet_empty
  have lists := Automaton.lists_subsets initial
  exact ⟨_, determinizeFrom_eq initial, Automaton.determinizeFrom_eq initial, System.wellFormed_tabulated lists,
    System.inRange_tabulated lists, fun _ _ => System.not_silent_tabulated lists⟩

/-! ### Rounds -/

theorem reversalRound_eq (wf : fa.WellFormed) (h : fa.Complete) : reversalRound fa = fa.reversalRound := by
  obtain ⟨r, made, made', -⟩ := exists_reverseEdges wf h
  obtain ⟨visited, r', spec, of⟩ := Automaton.reverseEdges_spec h
  obtain rfl := Except.ok.inj (made'.symm.trans spec)
  rw [reversalRound, Automaton.reversalRound, bind_eq made, bind_eq made', determinizeFrom_eq of.completeFromSet,
    Automaton.determinizeFrom_eq of.completeFromSet]

theorem minimizeByReversal_eq (wf : fa.WellFormed) (h : fa.Complete) :
    minimizeByReversal fa = fa.minimizeByReversal := by
  obtain ⟨m, made, wf', -, complete, -⟩ := Automaton.exists_reversalRound h
  rw [minimizeByReversal, Automaton.minimizeByReversal, reversalRound_eq wf h, bind_eq made, bind_eq made,
    reversalRound_eq wf' (Or.inr complete)]

end Checked
end FiniteAutomata
