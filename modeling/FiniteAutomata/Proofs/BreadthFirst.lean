import FiniteAutomata.Proofs.Ascending
import FiniteAutomata.Proofs.Extension
import FiniteAutomata.Proofs.Refinement
import FiniteAutomata.Proofs.Tiling

/-! The numbers that constructed states get. The subset construction numbers sets in the order in which it finds them,
    renumbering numbers states in the order in which a walk of another automaton visits them. Either way a later walk
    of the result visits its states in the order of their numbers: it goes along the exploration that numbered
    them, and the places of a list, met in the order of the list, are all places in order. -/

namespace FiniteAutomata

/-! ### Places of a family -/

section Places
variable {α : Type} {family : List α} {places : List Nat}

/-- The value stands in this place of the family. -/
def Stands (family : List α) (place : Nat) (x : α) : Prop := family[place]? = some x

theorem biUnique_stands (nodup : family.Nodup) : Relator.BiUnique (Stands family) := by
  constructor
  · intro p x q hp hq
    exact eq_of_getElem? nodup hp hq
  · intro p x y hx hy
    exact Option.some.inj (hx.symm.trans hy)

/-- The places of a whole family are all places in order. -/
theorem eq_range_of_stands (nodup : family.Nodup) (h : List.Forall₂ (Stands family) places family) :
    places = List.range family.length := by
  refine List.ext_getElem (h.length_eq.trans List.length_range.symm) fun i hi hi' => ?_
  rw [List.length_range] at hi'
  have here : Stands family places[i] family[i] := h.get hi hi'
  rw [List.getElem_range]
  exact (biUnique_stands nodup).1 here (List.getElem?_eq_getElem hi')

/-- Of a list that goes along all places in order, what stands in a place corresponds to the place. -/
theorem rel_of_stands {R : α → Nat → Prop} {n place : Nat} {x : α} (along : List.Forall₂ R family (List.range n))
    (h : Stands family place x) : R x place := by
  obtain ⟨inside, rfl⟩ := List.getElem?_eq_some_iff.mp h
  have here := along.get inside (along.length_eq ▸ inside)
  rwa [List.get_eq_getElem, List.get_eq_getElem, List.getElem_range] at here

theorem exists_stands {R : α → Nat → Prop} {n place : Nat} (along : List.Forall₂ R family (List.range n))
    (inside : place < n) : ∃ x, Stands family place x :=
  ⟨_, List.getElem?_eq_getElem (inside.trans_eq (along.length_eq.trans List.length_range).symm)⟩

variable [DecidableEq α]

theorem forall₂_stands_idxOf {l : List α} (h : ∀ x ∈ l, x ∈ family) :
    List.Forall₂ (Stands family) (l.map fun x => family.idxOf x) l := by
  rw [List.forall₂_map_left_iff, List.forall₂_same]
  exact fun x hx => List.getElem?_idxOf (h x hx)

/-- An exploration of places that goes along one of values meets the places in order. -/
theorem explore_places {next : α → List α} {next' : Nat → List Nat} {x : α} {n m : Nat}
    (closed : Closed next (explore next n [] [x])) (closed' : Closed next' (explore next' m [] [0]))
    (kept : ∀ p y, Stands (explore next n [] [x]) p y →
      List.Forall₂ (Stands (explore next n [] [x])) (next' p) (next y)) :
    explore next' m [] [0] = List.range (explore next n [] [x]).length := by
  have nodup : (explore next n [] [x]).Nodup := nodup_explore (List.nodup_singleton x)
  exact eq_range_of_stands nodup
    (forall₂_explore_of_closed (biUnique_stands nodup) kept head_explore closed' closed)

end Places

namespace Automaton

variable {fa : Automaton} {i : StateId}

/-- Deterministic states alone, in the order in which a walk from the first of them visits them all. -/
structure BreadthFirst (fa : Automaton) : Prop where
  start : fa.start = 0
  kinds : ∀ (i : StateId) (s : State), fa.states[i]? = some s → s.kind = .dfa
  visits : ∃ v, fa.view = .ok v ∧ v.states = List.range fa.size

theorem kind_assembled {α : Type} {family : List α} {accepting : α → Bool} {arcs : List Arc} {s : State}
    (h : (assembled (family.map fun x => (.dfa, accepting x)) arcs 0).states[i]? = some s) : s.kind = .dfa := by
  rw [state?_assembled, List.getElem?_map] at h
  obtain ⟨p, hp, rfl⟩ := Option.map_eq_some_iff.mp h
  obtain ⟨x, -, rfl⟩ := Option.map_eq_some_iff.mp hp
  rfl

theorem breadthFirst_of_order (complete : fa.CompleteFrom fa.start) (start : fa.start = 0)
    (kinds : ∀ (i : StateId) (s : State), fa.states[i]? = some s → s.kind = .dfa)
    (order : fa.order [0] = List.range fa.size) : fa.BreadthFirst :=
  ⟨start, kinds, fa.seen, view_eq complete, by rw [← order, ← start]; rfl⟩

/-! ### Numbered systems -/

section Tabulated
variable {α : Type} [DecidableEq α] {sys : System α} {x y : α} {family : List α} {n : Nat}

/-- A place moves as the value there does. -/
theorem forall₂_moves_tabulated (lists : sys.Lists x family) (ordered : sys.Ordered) (h : Stands family i y) :
    List.Forall₂ (fun p q => p.1 = q.1 ∧ Stands family p.2 q.2) ((sys.tabulated family).stateSystem.moves i)
      (sys.moves y) := by
  rw [moves_tabulated lists ordered h, List.forall₂_map_left_iff, List.forall₂_same]
  intro p hp
  have member := lists.closed y (List.mem_of_getElem? h) p.2 (List.mem_map.mpr ⟨p, hp, rfl⟩)
  exact ⟨rfl, List.getElem?_idxOf member⟩

/-- It accepts if the value does. -/
theorem accepting_of_stands (h : Stands family i y) :
    (sys.tabulated family).accepting i = sys.accepting y := by
  have place : family[i]? = some y := h
  rw [System.tabulated, accepting_assembled, List.getElem?_map, place]
  rfl

theorem breadthFirst_tabulated (ordered : sys.Ordered)
    (closed : Closed sys.successors (explore sys.successors n [] [x])) :
    (sys.tabulated (explore sys.successors n [] [x])).BreadthFirst := by
  have lists := System.lists_explore closed
  have complete := System.completeFrom_tabulated lists
  have det := System.deterministic_tabulated lists ordered
  refine breadthFirst_of_order complete rfl (fun i s hs => kind_assembled hs) ?_
  rw [System.size_tabulated]
  refine (order_eq_explore complete fun _ hi => ascending_tabulated lists ordered hi).trans ?_
  exact explore_places closed (det.closed_explored complete) fun p y h =>
    System.forall₂_successors (forall₂_moves_tabulated lists ordered h)

end Tabulated

/-! ### Renumbered states -/

section Renumbered
variable {root p : StateId} (complete : fa.CompleteFrom root) (wf : fa.WellFormed)
include complete wf

/-- The targets of a place are those of the state there, in the same order. -/
theorem targets_renumbered (hp : Stands (fa.order [root]) p i) :
    (fa.renumbered (fa.order [root])).targets p = (fa.targets i).map fun j => (fa.order [root]).idxOf j := by
  have inside : p < ((fa.order [root]).map fun id => (Kind.dfa, fa.accepting id)).length := by
    rw [List.length_map]
    exact (List.getElem?_eq_some_iff.mp hp).1
  have distinct : ((fa.targets i).map fun j => (fa.order [root]).idxOf j).Nodup := by
    refine (wf.nodup_targets i).map_on fun j hj k _ same => ?_
    exact (List.idxOf_inj (closed_order_root complete i (List.mem_of_getElem? hp) j hj)).mp same
  have numbered := eraseDups_map_congr (fun j => (fa.order [root]).idxOf j) (eraseDups_map_arcsOf wf i)
  rw [eraseDups_eq_self distinct] at numbered
  rw [renumbered, targets_assembled inside, filter_renumberedArcs (order_nodup fa [root]), hp, Option.map_some,
    Option.getD_some, ← numbered, List.map_map, List.map_map]
  rfl

theorem breadthFirst_renumbered (silent : ∀ {i j}, fa.Leads root i → ¬fa.Step i .epsilon j) :
    (fa.renumbered (fa.order [root])).BreadthFirst := by
  have renumbers := renumbers_renumbered complete silent
  have complete' := renumbers.inRange.completeFrom renumbers.start_lt
  have closed := closed_order_root complete
  have closed' := closed_order_root complete'
  refine breadthFirst_of_order complete' rfl (fun i s hs => kind_assembled hs) ?_
  have along : ∀ p i, Stands (fa.order [root]) p i →
      List.Forall₂ (Stands (fa.order [root])) ((fa.renumbered (fa.order [root])).targets p) (fa.targets i) := by
    intro p i hp
    rw [targets_renumbered complete wf hp]
    exact forall₂_stands_idxOf (closed i (List.mem_of_getElem? hp))
  rw [renumbers.start, order_singleton (fa.renumbered _)] at closed'
  rw [renumbers.size, order_singleton (fa.renumbered _)]
  rw [order_singleton fa] at closed along closed' ⊢
  exact explore_places closed closed' along

end Renumbered

/-! ### What the constructions give -/

theorem exists_breadthFirst_determinizeFrom {s : StateSet} (h : fa.CompleteFromSet s) :
    ∃ d, fa.determinizeFrom s = .ok d ∧ d.BreadthFirst :=
  ⟨_, determinizeFrom_eq h, breadthFirst_tabulated (ordered_subsetSystem fa) (closed_subsets h)⟩

theorem exists_breadthFirst_determinize (h : fa.Complete) : ∃ d, fa.determinize = .ok d ∧ d.BreadthFirst := by
  obtain ⟨s, complete, same⟩ := exists_determinize_eq fun lt => h.resolve_left fun empty => start_not_lt empty lt
  rw [same]
  exact exists_breadthFirst_determinizeFrom complete

theorem exists_breadthFirst_minimizeByReversal (h : fa.Complete) :
    ∃ m, fa.minimizeByReversal = .ok m ∧ m.BreadthFirst := by
  obtain ⟨m, first, -, -, complete, -⟩ := exists_reversalRound h
  obtain ⟨visited, r, spec, second⟩ := reversalRound_eq (Or.inr complete : m.Complete)
  refine ⟨_, ?_, breadthFirst_tabulated (ordered_subsetSystem _) (closed_subsets spec.completeFromSet)⟩
  rw [minimizeByReversal, first]
  exact second

theorem exists_breadthFirst_minimizeByRefinement (h : fa.Complete)
    (silent : ∀ i j, fa.Reachable i → ¬fa.Step i .epsilon j) :
    ∃ m, fa.minimizeByRefinement = .ok m ∧ m.BreadthFirst := by
  rcases h with empty | complete
  · rw [minimizeByRefinement, if_neg (start_not_lt empty)]
    exact exists_breadthFirst_determinize (Or.inl empty)
  · obtain ⟨sound, ⟨k, hk⟩, reachable, -⟩ := sound_stablePartition complete
    have quiet : ∀ {i j k}, (fa.stablePartition fa.seen).blockOf? i = some k → ¬fa.Step i .epsilon j :=
      fun hi => silent _ _ ⟨complete.lt, reachable hi⟩
    exact ⟨_, minimizeByRefinement_eq complete sound quiet hk,
      breadthFirst_renumbered (completeFrom_classes sound hk) (wellFormed_classes sound quiet hk)
        fun _ => not_silent_classes sound quiet⟩

/-- Whatever is constructed begins with state 0, has deterministic states only, and is numbered as a walk visits it, so
    that every state is reached. Refinement needs no more for this than that no empty step can be reached. -/
theorem constructions_breadthFirst (wf : fa.WellFormed) (range : fa.InRange) :
    (∃ d, fa.determinize = .ok d ∧ d.BreadthFirst) ∧
      (∀ s, fa.Within s → ∃ d, fa.determinizeFrom s = .ok d ∧ d.BreadthFirst) ∧
      (∃ m, fa.minimizeByReversal = .ok m ∧ m.BreadthFirst) ∧
      ((∀ i j, fa.Reachable i → ¬fa.Step i .epsilon j) → ∃ m, fa.minimizeByRefinement = .ok m ∧ m.BreadthFirst) := by
  have complete : fa.Complete := range.complete (wf.start.imp id And.left)
  exact ⟨exists_breadthFirst_determinize complete,
    fun s within => exists_breadthFirst_determinizeFrom (range.completeFromSet within),
    exists_breadthFirst_minimizeByReversal complete,
    exists_breadthFirst_minimizeByRefinement complete⟩

/-- Two ways on from the start for one character, edges out of order, and an empty step that cannot be reached. -/
def branching : Automaton :=
  assembled [(.nfa, false), (.dfa, false), (.nfa, true), (.nfa, false)]
    [⟨0, 2, .char 'b'⟩, ⟨0, 1, .char 'a'⟩, ⟨0, 2, .char 'a'⟩, ⟨1, 2, .char 'a'⟩, ⟨2, 1, .char 'b'⟩, ⟨3, 0, .epsilon⟩] 0

theorem constructions_breadthFirst_branching : branching.WellFormed ∧ branching.InRange ∧
    branching.Within (StateSet.ofList [1, 3]) ∧ (∀ i j, branching.Reachable i → ¬branching.Step i .epsilon j) ∧
    (∃ d, branching.determinize = .ok d ∧ d.size = 4 ∧ d.BreadthFirst) ∧
    (∃ d, branching.determinizeFrom (StateSet.ofList [1, 3]) = .ok d ∧ d.size = 4 ∧ d.BreadthFirst) ∧
    (∃ m, branching.minimizeByReversal = .ok m ∧ m.size = 4 ∧ m.BreadthFirst) ∧
    ∃ m, branching.minimizeByRefinement = .ok m ∧ m.size = 3 ∧ m.BreadthFirst := by
  have wf : branching.WellFormed := wellFormed_assembled (by decide) (Or.inl (by decide))
  have range : branching.InRange := inRange_assembled (by decide)
  have within : branching.Within (StateSet.ofList [1, 3]) := fun i hi => by
    have : i = 1 ∨ i = 3 := by simpa using hi
    rcases this with rfl | rfl <;> decide
  have quiet : ∀ i j, branching.Reachable i → ¬branching.Step i .epsilon j := by
    intro i j reachable step
    have seen : branching.seen.states = [0, 2, 1] := by decide +kernel
    rw [← mem_seen_iff_reachable (range.completeFrom (by decide)), seen] at reachable
    rw [branching, step_assembled (by decide)] at step
    obtain ⟨rfl, -⟩ : i = 3 ∧ j = 0 := by simpa using step
    exact absurd reachable (by decide)
  obtain ⟨⟨d, made, numbered⟩, fromSet, ⟨m, made', numbered'⟩, refined⟩ := constructions_breadthFirst wf range
  obtain ⟨e, made₂, numbered₂⟩ := fromSet _ within
  obtain ⟨m', made₃, numbered₃⟩ := refined quiet
  exact ⟨wf, range, within, quiet, ⟨d, made, size_eq_of_map made (by decide +kernel), numbered⟩,
    ⟨e, made₂, size_eq_of_map made₂ (by decide +kernel), numbered₂⟩,
    ⟨m, made', size_eq_of_map made' (by decide +kernel), numbered'⟩,
    m', made₃, size_eq_of_map made₃ (by decide +kernel), numbered₃⟩

end Automaton
end FiniteAutomata
