import FiniteAutomata.Automaton.Render
import FiniteAutomata.Proofs.Isomorphism
import FiniteAutomata.Proofs.SingleStart

/-! What a walk from the start does not see plays no part. Two automata with the same start and the same states behind it
    may have any other states beside them, and any number of these. Their walks are the same, their paths from reachable
    states are, and so are the closures and steps of sets of such states; running, printing, comparing, reversing and
    determinizing therefore give the same for both. -/

namespace FiniteAutomata
namespace Automaton

/-- The start is the same, and so is each state that it leads to. -/
structure SameView (fa fb : Automaton) : Prop where
  start : fa.start = fb.start
  state : ∀ {i}, fa.Leads fa.start i → fa.states[i]? = fb.states[i]?

/-- The members are reachable. -/
def Sees (fa : Automaton) (s : StateSet) : Prop := ∀ i ∈ s, fa.Leads fa.start i

variable {fa fb fc fd : Automaton} {i j : StateId} {a : Symbol} {word : List Char} {s t : StateSet}

theorem SameView.refl (fa : Automaton) : fa.SameView fa := ⟨rfl, fun _ => rfl⟩

/-- Further states beside those of an automaton are out of sight. -/
theorem Extends.sameView (h : fb.Extends fa) (range : fa.InRange) (inside : fa.start < fa.size)
    (start : fb.start = fa.start) : fa.SameView fb where
  start := start.symm
  state lead := (h _ (range.completeFrom inside _ lead)).symm

theorem Sees.completeFromSet (sees : fa.Sees s) (complete : fa.CompleteFrom fa.start) : fa.CompleteFromSet s :=
  fun i hi => complete.of_leads (sees i hi)

theorem sees_start (fa : Automaton) : fa.Sees {fa.start} := fun i hi => by
  obtain rfl := StateSet.mem_singleton.mp hi
  exact .refl fa.start

theorem Sees.image (sees : fa.Sees s) (c : Char) : fa.Sees (fa.image s c) := fun j hj => by
  obtain ⟨i, hi, step⟩ := mem_image.mp hj
  exact (sees i hi).trans step.leads

theorem Sees.closure (sees : fa.Sees s) (complete : fa.CompleteFrom fa.start) : fa.Sees (fa.closure s) := fun j hj => by
  obtain ⟨i, hi, path⟩ := (mem_closure (sees.completeFromSet complete)).mp hj
  exact (sees i hi).trans path.leads

namespace SameView

/-! ### Single states -/

section States
variable (same : fa.SameView fb)
include same

theorem edgesOf (hi : fa.Leads fa.start i) : fa.edgesOf i = fb.edgesOf i := by
  rw [Automaton.edgesOf, Automaton.edgesOf, same.state hi]

theorem accepting (hi : fa.Leads fa.start i) : fa.accepting i = fb.accepting i := by
  rw [Automaton.accepting, Automaton.accepting, same.state hi]

theorem targets (hi : fa.Leads fa.start i) : fa.targets i = fb.targets i := by
  rw [Automaton.targets, Automaton.targets, same.edgesOf hi]

theorem arcsOf (hi : fa.Leads fa.start i) : fa.arcsOf i = fb.arcsOf i := by
  rw [Automaton.arcsOf, Automaton.arcsOf, same.edgesOf hi]

theorem transitions (hi : fa.Leads fa.start i) : fa.transitions i = fb.transitions i := by
  simp only [Automaton.transitions, lastTarget?, same.edgesOf hi]

theorem step_iff (hi : fa.Leads fa.start i) : fa.Step i a j ↔ fb.Step i a j := by
  rw [Step, Step, same.edgesOf hi]

theorem leads_iff (hi : fa.Leads fa.start i) : fa.Leads i j ↔ fb.Leads i j := by
  refine ⟨fun lead => ?_, fun lead => ?_⟩
  · induction lead with
    | refl i => exact .refl i
    | step he target _ ih =>
      have further := hi.trans (.step he target (.refl _))
      exact .step (same.edgesOf hi ▸ he) target (ih further)
  · induction lead with
    | refl i => exact .refl i
    | step he target _ ih =>
      rw [← same.edgesOf hi] at he
      exact .step he target (ih (hi.trans (.step he target (.refl _))))

theorem symm : fb.SameView fa where
  start := same.start.symm
  state lead := (same.state ((same.leads_iff (.refl fa.start)).mpr (same.start ▸ lead))).symm

theorem completeFrom (complete : fa.CompleteFrom fa.start) : fb.CompleteFrom fb.start := fun i lead => by
  have lead := (same.leads_iff (.refl fa.start)).mpr (same.start ▸ lead)
  have state := same.state lead
  rw [Array.getElem?_eq_getElem (complete i lead)] at state
  exact (Array.getElem?_eq_some_iff.mp state.symm).1

theorem path_iff (hi : fa.Leads fa.start i) : fa.Path i word j ↔ fb.Path i word j := by
  have forth : ∀ {fa fb : Automaton} {i j : StateId} {word : List Char}, fa.SameView fb → fa.Leads fa.start i →
      fa.Path i word j → fb.Path i word j := by
    intro fa fb i j word same hi path
    induction path with
    | nil i => exact .nil i
    | silent step _ ih => exact .silent ((same.step_iff hi).mp step) (ih (hi.trans step.leads))
    | read step _ ih => exact .read ((same.step_iff hi).mp step) (ih (hi.trans step.leads))
  refine ⟨forth same hi, forth same.symm ?_⟩
  exact same.start ▸ (same.leads_iff (.refl fa.start)).mp hi

theorem recognizes_iff : fa.Recognizes word ↔ fb.Recognizes word := by
  rw [Recognizes, Recognizes, ← same.start]
  refine exists_congr fun j => ?_
  rw [← same.path_iff (.refl fa.start)]
  exact and_congr_right fun path => by rw [same.accepting path.leads]

end States

section Complete
variable (same : fa.SameView fb) (complete : fa.CompleteFrom fa.start)
include same complete

theorem isEmpty_eq : fa.isEmpty = fb.isEmpty := by
  rw [isEmpty_eq_false complete.lt, isEmpty_eq_false (same.completeFrom complete).lt]

/-! ### Walks -/

theorem order_eq : fa.order [fa.start] = fb.order [fb.start] := by
  have along : ∀ n, explore fa.targets n [] [fa.start] = explore fb.targets n [] [fb.start] := fun n => by
    rw [← same.start]
    refine explore_congr (P := fun i => fa.Leads fa.start i) (fun i hi j hj => hi.trans (.single hj)) (fun i hi => ?_) ?_
    · rw [same.targets hi]
    · simpa using .refl fa.start
  -- Each walk goes on until nothing is left, so it does not matter how many states there are in all.
  have closed := closed_order_root complete
  have closed' := closed_order_root (same.completeFrom complete)
  rw [order_singleton] at closed closed' ⊢
  rw [order_singleton, ← explore_add closed fb.size, ← explore_add closed' fa.size, Nat.add_comm fb.size, along]

theorem seen_eq : fa.seen = fb.seen := by
  have lead : ∀ i ∈ fa.order [fa.start], fa.Leads fa.start i := fun i hi => (mem_order_root complete).mp hi
  have edges : (fa.order [fa.start]).flatMap fa.edgesOf = (fa.order [fa.start]).flatMap fb.edgesOf :=
    List.flatMap_congr fun i hi => same.edgesOf (lead i hi)
  have accepting : (fa.order [fa.start]).filter fa.accepting = (fa.order [fa.start]).filter fb.accepting :=
    List.filter_congr fun i hi => same.accepting (lead i hi)
  rw [seen, seen, ← same.order_eq complete, collect, collect, edges, accepting]

theorem view_eq : fa.view = fb.view := by
  rw [Automaton.view_eq complete, Automaton.view_eq (same.completeFrom complete), same.seen_eq complete]

/-! ### Words, tests and texts -/

theorem accepts_eq (word : List Char) : fa.accepts word = fb.accepts word :=
  accepts_congr (Or.inr complete) (Or.inr (same.completeFrom complete)) same.recognizes_iff

theorem isDeterministic_eq : fa.isDeterministic = fb.isDeterministic := by
  have symbols : (fa.seen.states.all fun i => decide (fa.symbolsOf i).Nodup) =
      fa.seen.states.all fun i => decide (fb.symbolsOf i).Nodup := by
    rw [Bool.eq_iff_iff, List.all_eq_true, List.all_eq_true]
    refine forall₂_congr fun i hi => ?_
    rw [symbolsOf, symbolsOf, same.edgesOf ((mem_seen complete).mp hi)]
  rw [isDeterministic, isDeterministic, ← same.view_eq complete, Automaton.view_eq complete]
  show Except.ok (_ && fa.seen.states.all _) = _
  rw [symbols]
  rfl

theorem render_eq : fa.render = fb.render := by
  have lines : fa.seen.states.flatMap fa.lineOf = fa.seen.states.flatMap fb.lineOf := by
    refine List.flatMap_congr fun i hi => ?_
    rw [lineOf, lineOf, same.state ((mem_seen complete).mp hi)]
  have text : fa.text = fb.text := by
    rw [text, text, ← same.view_eq complete, Automaton.view_eq complete, ← same.start]
    show Except.ok (_ ++ fa.seen.states.flatMap _) = _
    rw [lines]
    rfl
  rw [render, render, text]

/-! ### Reversal -/

theorem reverseEdges_eq : fa.reverseEdges = fb.reverseEdges := by
  have arcs : fa.turned fa.seen.states = fb.turned fa.seen.states := by
    rw [turned, turned, List.flatMap_congr fun i hi => same.arcsOf ((mem_seen complete).mp hi)]
  rw [Automaton.reverseEdges_eq complete, Automaton.reverseEdges_eq (same.completeFrom complete), turnedRound,
    turnedRound, turnedStates, turnedStates, ← same.seen_eq complete, ← same.start, arcs]

theorem reverse_eq : fa.reverse = fb.reverse := by
  rw [reverse, reverse, same.reverseEdges_eq complete]

theorem minimizeByReversal_eq : fa.minimizeByReversal = fb.minimizeByReversal := by
  rw [minimizeByReversal, minimizeByReversal, reversalRound, reversalRound, same.reverseEdges_eq complete]

/-! ### Sets of states -/

theorem closure_eq (sees : fa.Sees s) : fa.closure s = fb.closure s := by
  have complete' := same.completeFrom complete
  have sees' : fb.Sees s := fun i hi => same.start ▸ (same.leads_iff (.refl fa.start)).mp (sees i hi)
  ext j
  rw [mem_closure (sees.completeFromSet complete), mem_closure (sees'.completeFromSet complete')]
  exact exists_congr fun i => and_congr_right fun hi => same.path_iff (sees i hi)

theorem stepsFrom_eq (sees : fa.Sees s) : fa.stepsFrom s = fb.stepsFrom s := by
  have edges : fa.edgesOfSet s = fb.edgesOfSet s :=
    List.flatMap_congr fun i hi => same.edgesOf (sees i (StateSet.mem_toList.mp hi))
  rw [Automaton.stepsFrom_eq, Automaton.stepsFrom_eq, ← edges]
  refine List.map_congr_left fun c _ => ?_
  have image : fa.image s c = fb.image s c := by rw [Automaton.image, Automaton.image, edges]
  rw [step, step, ← image, same.closure_eq complete (sees.image c)]

omit complete in
theorem acceptsAt_eq (sees : fa.Sees s) : fa.acceptsAt s = fb.acceptsAt s := by
  rw [Bool.eq_iff_iff, acceptsAt_iff, acceptsAt_iff]
  exact exists_congr fun i => and_congr_right fun hi => by rw [same.accepting (sees i hi)]

theorem determinize_eq : fa.determinize = fb.determinize := by
  have complete' := same.completeFrom complete
  have unique : Relator.BiUnique fun s t : StateSet => s = t ∧ fa.Sees s :=
    ⟨fun _ _ _ h g => h.1.trans g.1.symm, fun _ _ _ h g => h.1.symm.trans g.1⟩
  have moves : ∀ s t, (s = t ∧ fa.Sees s) → List.Forall₂ (fun p q => p.1 = q.1 ∧ p.2 = q.2 ∧ fa.Sees p.2)
      (fa.subsetSystem.moves s) (fb.subsetSystem.moves t) := by
    rintro s t ⟨rfl, sees⟩
    show List.Forall₂ _ (fa.stepsFrom s) (fb.stepsFrom s)
    rw [← same.stepsFrom_eq complete sees, List.forall₂_same]
    rintro ⟨c, t⟩ move
    obtain ⟨rfl, -⟩ := mem_stepsFrom.mp move
    exact ⟨rfl, rfl, (sees.image c).closure complete⟩
  have first := sees_start fa
  have states := completeFromSet_singleton complete
  have states' := completeFromSet_singleton complete'
  rw [determinize, determinize, if_pos complete.lt, if_pos complete'.lt, determinizeFrom_eq states,
    determinizeFrom_eq states']
  refine congrArg Except.ok (System.tabulated_eq_of_explore unique moves ?_ ?_ (closed_subsets states)
    (closed_subsets states'))
  · rintro s t ⟨rfl, sees⟩
    exact same.acceptsAt_eq sees
  · exact ⟨same.start ▸ same.closure_eq complete first, first.closure complete⟩

end Complete

/-! ### Comparison -/

section Comparison
variable (same : fa.SameView fb) (same' : fc.SameView fd)
include same same'

theorem compatible_eq {p : StateId × StateId} (hp : fa.Leads fa.start p.1 ∧ fc.Leads fc.start p.2) :
    fa.compatible fc p = fb.compatible fd p := by
  rw [compatible, compatible, same.transitions hp.1, same'.transitions hp.2, same.accepting hp.1, same'.accepting hp.2]

theorem forcedBy_eq {p : StateId × StateId} (hp : fa.Leads fa.start p.1 ∧ fc.Leads fc.start p.2) :
    fa.forcedBy fc p = fb.forcedBy fd p := by
  rw [forcedBy, forcedBy, same.compatible_eq same' hp, same.transitions hp.1, same'.transitions hp.2]

theorem forcedPairs_eq (n : Nat) : fa.forcedPairs fc n = fb.forcedPairs fd n := by
  rw [forcedPairs, forcedPairs, ← same.start, ← same'.start]
  refine explore_congr (P := fun p => fa.Leads fa.start p.1 ∧ fc.Leads fc.start p.2) (fun p hp q hq => ?_)
    (fun p hp => ?_) fun p hp => ?_
  · obtain ⟨a, step, step'⟩ := step_of_mem_forcedBy hq
    exact ⟨hp.1.trans step.leads, hp.2.trans step'.leads⟩
  · rw [same.forcedBy_eq same' hp]
  · obtain rfl := List.mem_singleton.mp hp
    exact ⟨.refl _, .refl _⟩

theorem isomorphic_eq (empty : fa.isEmpty = fb.isEmpty) (empty' : fc.isEmpty = fd.isEmpty) (view : fa.view = fb.view)
    (view' : fc.view = fd.view) : fa.isomorphic fc = fb.isomorphic fd := by
  have compatible : ∀ n, (fb.forcedPairs fd n).all (fa.compatible fc) = (fb.forcedPairs fd n).all (fb.compatible fd) := by
    intro n
    rw [Bool.eq_iff_iff, List.all_eq_true, List.all_eq_true]
    refine forall₂_congr fun p hp => ?_
    rw [← same.forcedPairs_eq same'] at hp
    rw [same.compatible_eq same' (leads_of_mem_forcedPairs p hp)]
  simp only [isomorphic, empty, empty', view, view', compatible, same.forcedPairs_eq same']

end Comparison

end SameView

end Automaton
end FiniteAutomata
