import FiniteAutomata.Proofs.Agreement
import FiniteAutomata.Proofs.BreadthFirst
import FiniteAutomata.Proofs.Renaming

/-! Automata that a construction gives back. On a deterministic automaton the subset construction goes along sets of
    one state and makes the same automaton under other numbers; on a numbered system, where the numbers are those it
    would give, it makes the very same. Refinement leaves every state of a minimal automaton alone in its block, so the
    blocks are a copy of the automaton, edge by edge, and renumbering them gives back what is numbered breadth-first. -/

namespace FiniteAutomata

open FiniteAutomata.Partition

variable {fa fb m : Automaton} {i j : StateId} {a : Symbol} {c : Char}

namespace Automaton

/-! ### Sets of one state -/

/-- The set holds this state, which the start leads to, and no other. -/
def HoldsOnly (fa : Automaton) (s : StateSet) (i : StateId) : Prop := s = {i} ∧ fa.Leads fa.start i

theorem biUnique_holdsOnly (fa : Automaton) : Relator.BiUnique fa.HoldsOnly := by
  constructor
  · rintro s i t ⟨rfl, -⟩ ⟨rfl, -⟩
    rfl
  · rintro s i j ⟨rfl, -⟩ ⟨same, -⟩
    exact StateSet.mem_singleton.mp (same ▸ StateSet.mem_singleton.mpr rfl)

theorem HoldsOnly.acceptsAt {s : StateSet} (h : fa.HoldsOnly s i) : fa.acceptsAt s = fa.accepting i := by
  rw [h.1, acceptsAt_singleton]

section Singletons
variable (complete : fa.CompleteFrom fa.start) (det : fa.Deterministic)
include complete det

/-- A set of one state moves as the state does. -/
theorem HoldsOnly.moves {s : StateSet} (h : fa.HoldsOnly s i) :
    List.Forall₂ (fun p q => p.1 = q.1 ∧ fa.HoldsOnly p.2 q.2) (fa.subsetSystem.moves s) (fa.stateSystem.moves i) := by
  obtain ⟨rfl, hi⟩ := h
  have moves : ∀ {c j}, (c, j) ∈ fa.stateSystem.moves i ↔ fa.Step i (.char c) j := mem_moves (det.functional hi)
  refine System.forall₂_of_ascending (ordered_subsetSystem fa {i}) (ordered_stateSystem fa i) ?_ ?_ ?_
  · rintro ⟨c, s⟩ hs
    obtain ⟨-, k, hk, j, step⟩ := mem_stepsFrom.mp hs
    obtain rfl := StateSet.mem_singleton.mp hk
    exact ⟨(c, j), moves.mpr step, rfl⟩
  · rintro ⟨c, j⟩ hj
    exact ⟨(c, _), mem_stepsFrom.mpr ⟨rfl, i, StateSet.mem_singleton.mpr rfl, j, moves.mp hj⟩, rfl⟩
  · rintro ⟨c, s⟩ hs ⟨d, j⟩ hj hcd
    obtain rfl : c = d := hcd
    obtain ⟨rfl, -⟩ := mem_stepsFrom.mp hs
    exact ⟨det.step_singleton complete hi (moves.mp hj), hi.trans (moves.mp hj).leads⟩

/-- The subset construction numbers the states of a deterministic automaton. -/
theorem Deterministic.determinize_eq : fa.determinize = .ok (fa.stateSystem.tabulated fa.explored) := by
  have single := completeFromSet_singleton complete
  rw [determinize, if_pos complete.lt, determinizeFrom_eq single]
  exact congrArg Except.ok (System.tabulated_eq_of_explore (biUnique_holdsOnly fa) (fun _ _ h => h.moves complete det)
    (fun _ _ h => h.acceptsAt) ⟨det.closure_singleton complete (.refl fa.start), .refl fa.start⟩ (closed_subsets single)
    (det.closed_explored complete))

end Singletons

/-! ### Back to the automaton -/

/-- The numbered states are paired with the states that they number. -/
theorem Comparable.paired_tabulated (h : fa.Comparable) :
    (fa.stateSystem.tabulated fa.explored).Paired fa (fa.explored.mapIdx Prod.mk) := by
  obtain ⟨complete, det⟩ := h.spec
  have lists : fa.stateSystem.Lists fa.start fa.explored := System.lists_explore (det.closed_explored complete)
  have mem : ∀ {p i}, (p, i) ∈ fa.explored.mapIdx Prod.mk ↔ Stands fa.explored p i := by
    simp [Stands, List.getElem?_eq_some_iff]
  have reached : ∀ {p i}, Stands fa.explored p i → fa.Leads fa.start i := fun hp =>
    det.leads_of_mem_explored _ (List.mem_of_getElem? hp)
  have moves : ∀ {p i c j}, Stands fa.explored p i → ((c, j) ∈ fa.stateSystem.moves i ↔ fa.Step i (.char c) j) :=
    fun hp => mem_moves (det.functional (reached hp))
  constructor
  · exact mem.mpr head_explore
  · intro p i hp
    have hp := mem.mp hp
    have inside : p < (fa.stateSystem.tabulated fa.explored).size := by
      rw [System.size_tabulated]
      exact (List.getElem?_eq_some_iff.mp hp).1
    obtain ⟨word, path⟩ := System.exists_path_tabulated lists inside
    exact ⟨⟨System.start_lt_tabulated lists, path.leads⟩, h.start_lt, reached hp⟩
  · rintro ⟨p, i⟩ hp ⟨q, j⟩ hq
    exact Relator.rel_eq (biUnique_stands lists.nodup) (mem.mp hp) (mem.mp hq)
  · exact fun hp => accepting_of_stands (mem.mp hp)
  · intro p i a q hp step
    obtain ⟨i', j, c, hp', hq, rfl, move⟩ := (System.step_tabulated lists).mp step
    obtain rfl := (biUnique_stands lists.nodup).2 (mem.mp hp) hp'
    exact ⟨j, (moves hp').mp move, mem.mpr hq⟩
  · intro p i a j hp step
    have hp := mem.mp hp
    cases a with
    | epsilon => exact absurd step (det.silent (reached hp))
    | char c =>
      have move := (moves hp).mpr step
      have member := lists.closed i (List.mem_of_getElem? hp) j (List.mem_map.mpr ⟨_, move, rfl⟩)
      obtain ⟨q, hq⟩ := List.getElem?_of_mem member
      exact ⟨q, (System.step_tabulated lists).mpr ⟨i, j, c, hp, hq, rfl, move⟩, mem.mpr hq⟩

theorem Comparable.comparable_tabulated (h : fa.Comparable) : (fa.stateSystem.tabulated fa.explored).Comparable := by
  obtain ⟨complete, det⟩ := h.spec
  have lists : fa.stateSystem.Lists fa.start fa.explored := System.lists_explore (det.closed_explored complete)
  exact {
    wellFormed := System.wellFormed_tabulated lists
    nonempty := isEmpty_eq_false (System.start_lt_tabulated lists)
    deterministic := System.isDeterministic_tabulated lists (ordered_stateSystem fa) }

/-- Subset construction on a deterministic automaton gives the same automaton under other numbers. -/
theorem Comparable.isomorphic_tabulated (h : fa.Comparable) :
    (fa.stateSystem.tabulated fa.explored).isomorphic fa = .ok true ∧
      (fa.stateSystem.tabulated fa.explored).size = fa.seen.states.length := by
  obtain ⟨complete, det⟩ := h.spec
  have closed := det.closed_explored complete
  have same := h.comparable_tabulated
  obtain ⟨f, iso, -⟩ := h.paired_tabulated.exists_isomorphism same.wellFormed h.wellFormed
  obtain ⟨answer, compared, iff⟩ := exists_isomorphic_iff same h
  obtain ⟨v, view, states⟩ := (breadthFirst_tabulated (ordered_stateSystem fa) closed).visits
  obtain rfl := (view_eq_ok_iff same.start_lt).mp view |>.2
  refine ⟨by rw [compared, iff.mpr ⟨f, iso⟩], ?_⟩
  rw [← iso.length_seen same h, states, List.length_range]
  rfl

/-! ### Numbered systems -/

/-- Numbering a numbered system again changes nothing. -/
theorem determinize_tabulated {α : Type} [DecidableEq α] {sys : System α} {x : α} {n : Nat} (ordered : sys.Ordered)
    (closed : Closed sys.successors (explore sys.successors n [] [x])) :
    (sys.tabulated (explore sys.successors n [] [x])).determinize =
      .ok (sys.tabulated (explore sys.successors n [] [x])) := by
  have lists := System.lists_explore closed
  have complete := System.completeFrom_tabulated lists
  have det := System.deterministic_tabulated lists ordered
  rw [det.determinize_eq complete]
  exact congrArg Except.ok (System.tabulated_eq_of_explore (biUnique_stands lists.nodup)
    (fun _ _ h => forall₂_moves_tabulated lists ordered h) (fun _ _ h => accepting_of_stands h) head_explore
    (det.closed_explored complete) closed)

/-- Determinizing twice is determinizing once, number for number and edge for edge. What is deterministic already keeps
    all of its states that are reached, the dead ones among them, and differs by their numbers at most. -/
theorem determinize_idempotent (range : fa.InRange) : ∃ d, fa.determinize = .ok d ∧ d.determinize = .ok d ∧
    (fa.Comparable → d.isomorphic fa = .ok true ∧ ∃ v, fa.view = .ok v ∧ d.size = v.states.length) := by
  obtain ⟨s, complete, same⟩ := exists_determinize_eq range.completeFrom
  refine ⟨fa.subsetSystem.tabulated (fa.subsets s), same.trans (determinizeFrom_eq complete),
    determinize_tabulated (ordered_subsetSystem fa) (closed_subsets complete), fun h => ?_⟩
  obtain ⟨complete', det⟩ := h.spec
  have numbered : fa.subsetSystem.tabulated (fa.subsets s) = fa.stateSystem.tabulated fa.explored :=
    Except.ok.inj ((same.trans (determinizeFrom_eq complete)).symm.trans (det.determinize_eq complete'))
  rw [numbered]
  exact ⟨h.isomorphic_tabulated.1, fa.seen, view_eq complete', h.isomorphic_tabulated.2⟩

/-- A start that is not the first state, with edges out of order, a dead state and one that nothing leads to. -/
def winding : Automaton :=
  assembled [(.dfa, true), (.dfa, false), (.nfa, false), (.dfa, false), (.nfa, false)]
    [⟨1, 2, .char 'b'⟩, ⟨1, 0, .char 'a'⟩, ⟨0, 0, .char 'a'⟩, ⟨0, 3, .char 'b'⟩, ⟨2, 0, .char 'c'⟩, ⟨2, 1, .char 'a'⟩,
      ⟨4, 0, .epsilon⟩] 1

theorem determinize_idempotent_winding : winding.InRange ∧ winding.Comparable ∧ ∃ d, winding.determinize = .ok d ∧
    d.determinize = .ok d ∧ d.isomorphic winding = .ok true ∧ d.size = 4 ∧ winding.size = 5 := by
  have range : winding.InRange := inRange_assembled (by decide)
  have comparable : winding.Comparable :=
    ⟨wellFormed_assembled (by decide) (Or.inl (by decide)), rfl, by decide +kernel⟩
  obtain ⟨d, made, again, deterministic⟩ := determinize_idempotent range
  obtain ⟨same, -⟩ := deterministic comparable
  exact ⟨range, comparable, d, made, again, same, size_eq_of_map made (by decide +kernel), rfl⟩

/-! ### Equality edge by edge -/

theorem WellFormed.mem_label_iff (wf : fa.WellFormed) {e : Edge} (he : e ∈ fa.edgesOf i) :
    a ∈ e.label ↔ fa.Step i a e.target := by
  refine ⟨fun ha => ⟨e, he, ha, rfl⟩, fun step => ?_⟩
  obtain ⟨e', he', ha, target⟩ := step
  rwa [List.inj_on_of_nodup_map (wf.nodup_targets i) he he' target.symm]

theorem WellFormed.edge_eq (wf : fa.WellFormed) (wf' : fb.WellFormed) (step : ∀ a j, fa.Step i a j ↔ fb.Step i a j)
    {e e' : Edge} (he : e ∈ fa.edgesOf i) (he' : e' ∈ fb.edgesOf i) (target : e.target = e'.target) : e = e' := by
  have source := (wf.source_of_mem_edgesOf he).trans (wf'.source_of_mem_edgesOf he').symm
  have label : e.label = e'.label := Label.ext fun a => by
    rw [wf.mem_label_iff he, wf'.mem_label_iff he', target, step]
  show Edge.mk e.source e.target e.label = Edge.mk e'.source e'.target e'.label
  rw [source, target, label]

/-- Well-formed automata with the same steps are equal when their states have the same kinds and their edges stand in
    the same order. -/
theorem WellFormed.ext (wf : fa.WellFormed) (wf' : fb.WellFormed) (start : fa.start = fb.start)
    (size : fa.size = fb.size)
    (kinds : ∀ (i : StateId) s s', fa.states[i]? = some s → fb.states[i]? = some s' → s.kind = s'.kind)
    (accepting : ∀ i < fa.size, fa.accepting i = fb.accepting i)
    (targets : ∀ i < fa.size, fa.targets i = fb.targets i) (step : ∀ i a j, fa.Step i a j ↔ fb.Step i a j) : fa = fb := by
  have edges : ∀ i < fa.size, fa.edgesOf i = fb.edgesOf i := by
    intro i hi
    have count := congrArg List.length (targets i hi)
    rw [Automaton.targets, Automaton.targets, List.length_map, List.length_map] at count
    refine List.ext_getElem count fun n h h' => ?_
    have target : (fa.edgesOf i)[n].target = (fb.edgesOf i)[n].target := by
      have place := congrArg (fun l => l[n]?) (targets i hi)
      simpa [Automaton.targets, h, h'] using place
    exact wf.edge_eq wf' (step i) (List.getElem_mem h) (List.getElem_mem h') target
  refine ext_states (fun i => ?_) start
  by_cases hi : i < fa.size
  · obtain ⟨s, hs⟩ : ∃ s, fa.states[i]? = some s := ⟨_, Array.getElem?_eq_getElem hi⟩
    obtain ⟨s', hs'⟩ : ∃ s', fb.states[i]? = some s' := ⟨_, Array.getElem?_eq_getElem (hi.trans_eq size)⟩
    have id : s.id = s'.id := (wf.ids i s hs).trans (wf'.ids i s' hs').symm
    have accepts : s.accepting = s'.accepting := by simpa [Automaton.accepting, hs, hs'] using accepting i hi
    have outgoing : s.edges = s'.edges := by simpa [edgesOf, hs, hs'] using edges i hi
    rw [hs, hs']
    show some (State.mk s.id s.kind s.accepting s.edges) = some (State.mk s'.id s'.kind s'.accepting s'.edges)
    rw [id, kinds i s s' hs hs', accepts, outgoing]
  · have none : fa.states.size ≤ i := Nat.le_of_not_lt hi
    have none' : fb.states.size ≤ i := size.symm.trans_le none
    rw [Array.getElem?_eq_none none, Array.getElem?_eq_none none']

/-! ### Renumbering a copy -/

/-- Corresponding states accept alike, and their edges lead to corresponding states, in the same order. -/
structure Copies (R : StateId → StateId → Prop) (fa fb : Automaton) : Prop where
  unique : Relator.BiUnique R
  accepting : ∀ {i j}, R i j → fa.accepting i = fb.accepting j
  targets : ∀ {i j}, R i j → List.Forall₂ R (fa.targets i) (fb.targets j)
  step : ∀ {i j k l a}, R i j → R k l → (fa.Step i a k ↔ fb.Step j a l)

theorem BreadthFirst.order_eq (h : fa.BreadthFirst) (complete : fa.CompleteFrom fa.start) :
    fa.order [fa.start] = List.range fa.size := by
  obtain ⟨v, view, states⟩ := h.visits
  obtain rfl := ((view_eq_ok_iff complete.lt).mp view).2
  exact states

/-- A walk of a copy goes along the walk of what it copies. -/
theorem Copies.forall₂_order {R : StateId → StateId → Prop} {root root' : StateId} (h : Copies R fa fb)
    (start : R root root') (complete : fa.CompleteFrom root) (complete' : fb.CompleteFrom root') :
    List.Forall₂ R (fa.order [root]) (fb.order [root']) := by
  have closed := closed_order_root complete
  have closed' := closed_order_root complete'
  rw [order_singleton] at closed closed' ⊢
  rw [order_singleton]
  exact forall₂_explore_of_closed h.unique (fun _ _ => h.targets) start closed closed'

/-- Renumbering a copy of what is numbered breadth-first gives it back. -/
theorem Copies.renumbered_eq {R : StateId → StateId → Prop} {root : StateId} (h : Copies R fa fb)
    (start : R root fb.start) (complete : fa.CompleteFrom root) (wf : fa.WellFormed) (silent : ∀ {i j}, ¬fa.Step i .epsilon j)
    (complete' : fb.CompleteFrom fb.start) (wf' : fb.WellFormed) (numbered : fb.BreadthFirst) :
    fa.renumbered (fa.order [root]) = fb := by
  have renumbers := renumbers_renumbered complete fun _ => silent
  have along := h.forall₂_order start complete complete'
  have closed := closed_order_root complete'
  rw [numbered.order_eq complete'] at along closed
  have size : (fa.renumbered (fa.order [root])).size = fb.size :=
    renumbers.size.trans (along.length_eq.trans List.length_range)
  -- The state at a place corresponds to the state with this number.
  have place : ∀ {p i}, Stands (fa.order [root]) p i → R i p := rel_of_stands along
  refine renumbers.wellFormed.ext wf' ?_ size ?_ (fun p hp => ?_) (fun p hp => ?_) fun p a q => ?_
  · rw [renumbers.start, numbered.start]
  · exact fun i s s' hs hs' => (kind_assembled hs).trans (numbered.kinds i s' hs').symm
  · obtain ⟨i, hi⟩ := exists_stands along (hp.trans_eq size)
    rw [renumbers.accepting hi, h.accepting (place hi)]
  · obtain ⟨i, hi⟩ := exists_stands along (hp.trans_eq size)
    have alike : ∀ j q, R j q → (fa.order [root]).idxOf j = (List.range fb.size).idxOf q := fun _ _ hjq =>
      System.idxOf_eq_of_forall₂ h.unique hjq along
    have itself : ∀ q ∈ fb.targets p, (List.range fb.size).idxOf q = q := fun q hq =>
      have member := closed p (List.mem_range.mpr (hp.trans_eq size)) q hq
      idxOf_of_getElem? List.nodup_range (List.getElem?_range (List.mem_range.mp member))
    rw [targets_renumbered complete wf hi, System.map_eq_of_forall₂ alike (h.targets (place hi)),
      List.map_congr_left itself, List.map_id']
  · rw [renumbers.step]
    constructor
    · rintro ⟨i, j, hi, hj, step⟩
      exact (h.step (place hi) (place hj)).mp step
    · intro step
      have member := closed p (List.mem_range.mpr step.lt) q (wf'.mem_targets_iff.mpr ⟨a, step⟩)
      obtain ⟨i, hi⟩ := exists_stands along step.lt
      obtain ⟨j, hj⟩ := exists_stands along (List.mem_range.mp member)
      exact ⟨i, j, hi, hj, (h.step (place hi) (place hj)).mpr step⟩

end Automaton

/-! ### States alone in their blocks -/

/-- Every state is in a block, and no block holds two. -/
structure Partition.Discrete (p : Partition) (size : Nat) : Prop extends Sound p size where
  covers : ∀ i < size, ∃ k, p.blockOf? i = some k
  alone : ∀ {i j k}, p.blockOf? i = some k → p.blockOf? j = some k → i = j

/-- What is found for every value of a list, in the order of the list. -/
theorem forall₂_filterMap {α β : Type} {f : α → Option β} : ∀ {l : List α}, (∀ x ∈ l, ∃ y, f x = some y) →
    List.Forall₂ (fun y x => f x = some y) (l.filterMap f) l
  | [], _ => .nil
  | x :: l, h => by
    obtain ⟨y, hy⟩ := h x List.mem_cons_self
    rw [List.filterMap_cons_some hy]
    exact .cons hy (forall₂_filterMap fun z hz => h z (List.mem_cons_of_mem _ hz))

namespace Automaton

section Discrete
variable {p : Partition} {k : Nat} (discrete : p.Discrete fa.size)
include discrete

theorem biUnique_blockOf? : Relator.BiUnique fun k i => p.blockOf? i = some k :=
  ⟨fun _ _ _ hk hl => Option.some.inj (hk.symm.trans hl), fun _ _ _ hi hj => discrete.alone hi hj⟩

/-- The block of a state leads to the blocks of its targets, in their order. -/
theorem forall₂_targets_classes (wf : fa.WellFormed) (range : fa.InRange) (hi : p.blockOf? i = some k) :
    List.Forall₂ (fun l j => p.blockOf? j = some l) ((fa.classes p).targets k) (fa.targets i) := by
  obtain ⟨block, hblock, -⟩ := discrete.held.mp hi
  have single : block = {i} := StateSet.ext fun j => by
    rw [discrete.mem_iff hblock, StateSet.mem_singleton]
    exact ⟨fun hj => discrete.alone hj hi, fun same => same ▸ hi⟩
  have found : ∀ j ∈ (fa.arcsOf i).map Arc.target, ∃ l, p.blockOf? j = some l := by
    intro j hj
    obtain ⟨arc, harc, rfl⟩ := List.mem_map.mp hj
    exact discrete.covers _ (range.step_lt (mem_arcsOf.mp harc).2)
  have along := forall₂_eraseDups (biUnique_blockOf? discrete) (forall₂_filterMap found)
  rw [List.filterMap_map, eraseDups_map_arcsOf wf, eraseDups_eq_self (wf.nodup_targets i)] at along
  rw [targets_classes fa p hblock, single, toList_singleton, List.flatMap_singleton]
  exact along

/-- The blocks are a copy of the states. -/
theorem copies_classes (wf : fa.WellFormed) (range : fa.InRange) (silent : ∀ {i j}, ¬fa.Step i .epsilon j) :
    Copies (fun k i => p.blockOf? i = some k) (fa.classes p) fa where
  unique := biUnique_blockOf? discrete
  accepting {k i} hi := by
    rw [Bool.eq_iff_iff, accepting_classes discrete.toSound]
    refine ⟨fun given => ?_, fun accepting => ⟨i, hi, accepting⟩⟩
    obtain ⟨j, hj, accepting⟩ := given
    rwa [discrete.alone hi hj]
  targets hi := forall₂_targets_classes discrete wf range hi
  step {k i l j a} hi hj := by
    rw [step_classes discrete.toSound fun _ => silent]
    refine ⟨fun given => ?_, fun step => ⟨i, j, hi, step, hj⟩⟩
    obtain ⟨i', j', hi', step, hj'⟩ := given
    rwa [discrete.alone hi hi', discrete.alone hj hj']

end Discrete

/-! ### Minimal automata -/

/-- Refinement leaves every state of a minimal automaton in a block of its own. -/
theorem Minimal.discrete (min : m.Minimal) (wf : m.WellFormed) (complete : m.CompleteFrom m.start) :
    (m.stablePartition m.seen).Discrete m.size := by
  by_cases live : ∃ word, m.Recognizes word
  · have exact := exact_stablePartition wf complete min.deterministic live
    obtain ⟨word, recognizes⟩ := live
    refine ⟨exact.sound, fun i hi => ?_, fun hi hj => ?_⟩
    · obtain ⟨u, path⟩ := min.reached i hi
      exact exact.covers.mpr ⟨path.leads, min.exists_recognizesFrom recognizes hi⟩
    · exact min.separated _ (exact.sound.lt hi) _ (exact.sound.lt hj) (exact.alike hi hj)
  · have dead : ∀ word, ¬m.Recognizes word := fun word recognizes => live ⟨word, recognizes⟩
    have block : ∀ {i k}, (m.stablePartition m.seen).blockOf? i = some k ↔ i = m.start ∧ k = 0 :=
      blockOf?_of_dead wf complete dead
    -- Nothing is recognised from the start, so it is the only state.
    have one : m.size = 1 := min.live.resolve_left fun live => by
      obtain ⟨word, recognizes⟩ := live m.start min.start
      exact dead word recognizes
    have only : ∀ {i}, i < m.size → i = 0 := fun hi => Nat.lt_one_iff.mp (one ▸ hi)
    refine ⟨sound_of_dead wf complete dead, fun i hi => ⟨0, block.mpr ⟨?_, rfl⟩⟩, fun hi hj => ?_⟩
    · rw [only hi, only min.start]
    · rw [(block.mp hi).1, (block.mp hj).1]

theorem BreadthFirst.not_silent (h : fa.BreadthFirst) (wf : fa.WellFormed) : ¬fa.Step i .epsilon j := by
  rintro ⟨e, he, silent, -⟩
  obtain ⟨s, hs, he⟩ := mem_edgesOf.mp he
  have kind := (wf.states i s hs).silent e he silent
  rw [h.kinds i s hs] at kind
  cases kind

/-- What is minimal and numbered breadth-first is what refinement makes of it. -/
theorem minimizeByRefinement_of_minimal (wf : m.WellFormed) (range : m.InRange) (min : m.Minimal)
    (numbered : m.BreadthFirst) : m.minimizeByRefinement = .ok m := by
  have complete := range.completeFrom min.start
  have discrete := min.discrete wf complete
  have silent : ∀ {i j}, ¬m.Step i .epsilon j := numbered.not_silent wf
  obtain ⟨k, hk⟩ := discrete.covers m.start min.start
  have copies := copies_classes discrete wf range silent
  rw [minimizeByRefinement_eq complete discrete.toSound (fun _ => silent) hk]
  exact congrArg Except.ok (copies.renumbered_eq hk (completeFrom_classes discrete.toSound hk)
    (wellFormed_classes discrete.toSound (fun _ => silent) hk) (not_silent_classes discrete.toSound fun _ => silent)
    complete wf numbered)

/-- Refining twice is refining once, number for number and edge for edge, also when there are no states or the start
    recognises nothing. -/
theorem minimizeByRefinement_idempotent (wf : fa.WellFormed) (det : fa.isDeterministic = .ok true) :
    ∃ m, fa.minimizeByRefinement = .ok m ∧ m.minimizeByRefinement = .ok m := by
  obtain ⟨complete, m, made, wf', range, min, -⟩ := exists_minimal_minimizeByRefinement wf det
  obtain ⟨-, det⟩ := wf.deterministic det
  obtain ⟨m', made', numbered⟩ := exists_breadthFirst_minimizeByRefinement complete fun i j reached =>
    det.silent reached.2
  obtain rfl := Except.ok.inj (made.symm.trans made')
  exact ⟨m, made, minimizeByRefinement_of_minimal wf' range min numbered⟩

theorem minimizeByRefinement_idempotent_winding : winding.WellFormed ∧ winding.isDeterministic = .ok true ∧
    ∃ m, winding.minimizeByRefinement = .ok m ∧ m.size = 3 ∧ m.minimizeByRefinement = .ok m := by
  have wf : winding.WellFormed := wellFormed_assembled (by decide) (Or.inl (by decide))
  have det : winding.isDeterministic = .ok true := by decide +kernel
  obtain ⟨m, made, again⟩ := minimizeByRefinement_idempotent wf det
  exact ⟨wf, det, m, made, size_eq_of_map made (by decide +kernel), again⟩

end Automaton
end FiniteAutomata
