import FiniteAutomata.Minimize.Refinement
import FiniteAutomata.Proofs.Assembly
import FiniteAutomata.Proofs.Simulation

/-! Renumbering states by their place in a walk. The renumbered automaton has the visited states, with the steps
    between them, and recognises from each of them what the original does. -/

namespace FiniteAutomata
namespace Automaton

variable {fa : Automaton}

theorem mem_arcsOf {i : StateId} {arc : Arc} :
    arc ∈ fa.arcsOf i ↔ arc.source = i ∧ fa.Step i arc.symbol arc.target := by
  obtain ⟨i', j, a⟩ := arc
  rw [arcsOf, List.mem_flatMap]
  refine ⟨fun h => ?_, fun h => ?_⟩
  · rcases h with ⟨e, he, harc⟩
    obtain ⟨b, hb, heq⟩ := List.mem_map.mp harc
    obtain ⟨rfl, rfl, rfl⟩ := Arc.mk.inj heq
    exact ⟨rfl, e, he, hb, rfl⟩
  · rcases h with ⟨rfl, e, he, ha, rfl⟩
    exact ⟨e, he, List.mem_map.mpr ⟨a, ha, rfl⟩⟩

/-- Membership in the arcs of some states, each state renumbered by its place among them. -/
theorem mem_renumbered {visited : List StateId} (nodup : visited.Nodup) (closed : Closed fa.targets visited)
    {p q : StateId} {a : Symbol} :
    (∃ arc ∈ visited.flatMap fa.arcsOf, visited.idxOf arc.source = p ∧ visited.idxOf arc.target = q ∧ arc.symbol = a) ↔
      ∃ i j, visited[p]? = some i ∧ visited[q]? = some j ∧ fa.Step i a j := by
  refine ⟨fun h => ?_, fun h => ?_⟩
  · rcases h with ⟨arc, harc, rfl, rfl, rfl⟩
    obtain ⟨i, hi, harc⟩ := List.mem_flatMap.mp harc
    obtain ⟨rfl, step⟩ := mem_arcsOf.mp harc
    have hj : arc.target ∈ visited := by
      obtain ⟨e, he, -, target⟩ := step
      exact closed _ hi _ (mem_targets.mpr ⟨e, he, target⟩)
    exact ⟨_, _, List.getElem?_idxOf hi, List.getElem?_idxOf hj, step⟩
  · rcases h with ⟨i, j, hi, hj, step⟩
    have hi' := List.mem_of_getElem? hi
    refine ⟨⟨i, j, a⟩, List.mem_flatMap.mpr ⟨i, hi', mem_arcsOf.mpr ⟨rfl, step⟩⟩, ?_, ?_, rfl⟩
    · exact idxOf_of_getElem? nodup hi
    · exact idxOf_of_getElem? nodup hj

/-! ### The renumbered automaton -/

/-- `m` has the states that `root` leads to, in the order `visited`, with the steps between them. -/
structure Renumbers (fa : Automaton) (root : StateId) (visited : List StateId) (m : Automaton) : Prop where
  nodup : visited.Nodup
  head : visited[0]? = some root
  mem : ∀ {i}, i ∈ visited ↔ fa.Leads root i
  size : m.size = visited.length
  start : m.start = 0
  wellFormed : m.WellFormed
  inRange : m.InRange
  step : ∀ {p q a}, m.Step p a q ↔ ∃ i j, visited[p]? = some i ∧ visited[q]? = some j ∧ fa.Step i a j
  accepting : ∀ {p i}, visited[p]? = some i → m.accepting p = fa.accepting i

/-- The arcs of the visited states, by place. -/
def renumberedArcs (fa : Automaton) (visited : List StateId) : List Arc :=
  (visited.flatMap fa.arcsOf).map fun arc => ⟨visited.idxOf arc.source, visited.idxOf arc.target, arc.symbol⟩

/-- The visited states, by place. -/
def renumbered (fa : Automaton) (visited : List StateId) : Automaton :=
  assembled (visited.map fun id => (Kind.dfa, fa.accepting id)) (fa.renumberedArcs visited) 0

theorem mem_renumberedArcs {visited : List StateId} (nodup : visited.Nodup) (closed : Closed fa.targets visited)
    {p q : StateId} {a : Symbol} : ⟨p, q, a⟩ ∈ fa.renumberedArcs visited ↔
      ∃ i j, visited[p]? = some i ∧ visited[q]? = some j ∧ fa.Step i a j := by
  rw [← mem_renumbered nodup closed, renumberedArcs, List.mem_map]
  refine ⟨fun ⟨arc, harc, heq⟩ => ?_, fun ⟨arc, harc, hp, hq, ha⟩ => ?_⟩
  · obtain ⟨hp, hq, ha⟩ := Arc.mk.inj heq
    exact ⟨arc, harc, hp, hq, ha⟩
  · exact ⟨arc, harc, by rw [hp, hq, ha]⟩

/-- The arcs that a place gets are those of the state there. -/
theorem filter_renumberedArcs {visited : List StateId} (nodup : visited.Nodup) (p : StateId) :
    ((fa.renumberedArcs visited).filter fun a => a.source = p) = (visited[p]?.map fun i => (fa.arcsOf i).map fun arc =>
      ⟨visited.idxOf arc.source, visited.idxOf arc.target, arc.symbol⟩).getD [] := by
  rw [renumberedArcs, List.map_flatMap]
  refine filter_flatMap_of_place (fun p i hp a ha => ?_) p
  obtain ⟨arc, harc, rfl⟩ := List.mem_map.mp ha
  rw [(mem_arcsOf.mp harc).1]
  exact idxOf_of_getElem? nodup hp

theorem head_order (fa : Automaton) (root : StateId) : (fa.order [root])[0]? = some root := by
  rw [order_singleton]
  exact head_explore

section Renumber
variable {root : StateId} (complete : fa.CompleteFrom root) (silent : ∀ {i j}, fa.Leads root i → ¬fa.Step i .epsilon j)
include complete

theorem closed_order_root : Closed fa.targets (fa.order [root]) :=
  order_closed fun i hi => complete i ((mem_order_root complete).mp hi)

include silent

theorem allowed_renumberedArcs : ∀ a ∈ fa.renumberedArcs (fa.order [root]),
    Allowed ((fa.order [root]).map fun id => (Kind.dfa, fa.accepting id)) a := by
  intro ⟨p, q, a⟩ ha
  obtain ⟨i, j, hi, -, step⟩ := (mem_renumberedArcs (order_nodup fa [root]) (closed_order_root complete)).mp ha
  refine ⟨(.dfa, fa.accepting i), by simp [hi], fun hsilent => ?_⟩
  obtain rfl : a = .epsilon := hsilent
  exact absurd step (silent ((mem_order_root complete).mp (List.mem_of_getElem? hi)))

theorem renumber_eq : fa.renumber root = .ok (fa.renumbered (fa.order [root])) := by
  have head := head_order fa root
  have place : (fa.order [root]).idxOf root = 0 :=
    idxOf_of_getElem? (order_nodup fa [root]) head
  have traverse : fa.traverse root = .ok (fa.collect (fa.order [root])) := by
    rw [traverse, if_pos complete.lt]
    exact walk_eq_ok_iff.mpr ⟨by simpa using complete, rfl⟩
  have exists_start : ∀ id, some 0 = some id →
      id < ((fa.order [root]).map fun id => (Kind.dfa, fa.accepting id)).length := by
    intro id hid
    obtain rfl := Option.some.inj hid
    rw [List.length_map]
    exact (List.getElem?_eq_some_iff.mp head).1
  have made := assemble_eq (allowed_renumberedArcs complete silent) exists_start
  rw [renumber, traverse]
  show assemble ((fa.order [root]).map fun id => (Kind.dfa, fa.accepting id)) (fa.renumberedArcs (fa.order [root]))
    (some ((fa.order [root]).idxOf root)) = _
  rw [place, made]
  rfl

theorem renumbers_renumbered : Renumbers fa root (fa.order [root]) (fa.renumbered (fa.order [root])) := by
  have nodup := order_nodup fa [root]
  have closed := closed_order_root complete
  have allowed := allowed_renumberedArcs complete silent
  have head := head_order fa root
  exact {
    nodup
    head
    mem := mem_order_root complete
    size := by rw [renumbered, size_assembled, List.length_map]
    start := rfl
    wellFormed := wellFormed_assembled allowed (Or.inl (by
      rw [List.length_map]
      exact (List.getElem?_eq_some_iff.mp head).1))
    inRange := inRange_assembled fun ⟨p, q, a⟩ ha => by
      obtain ⟨-, j, -, hj, -⟩ := (mem_renumberedArcs nodup closed).mp ha
      rw [List.length_map]
      exact (List.getElem?_eq_some_iff.mp hj).1
    step := by
      intro p q a
      rw [renumbered, step_assembled fun a ha => (allowed a ha).lt, mem_renumberedArcs nodup closed]
    accepting := by
      intro p i hi
      rw [renumbered, accepting_assembled, List.getElem?_map, hi]
      rfl }

end Renumber

/-! ### What it recognises -/

namespace Renumbers

variable {root i j p q : StateId} {visited : List StateId} {m : Automaton} {word : List Char}

theorem place_unique (h : Renumbers fa root visited m) (hp : visited[p]? = some i) (hq : visited[q]? = some i) :
    p = q := eq_of_getElem? h.nodup hp hq

theorem exists_place (h : Renumbers fa root visited m) (hi : fa.Leads root i) : ∃ p : StateId, visited[p]? = some i :=
  List.getElem?_of_mem (h.mem.mpr hi)

theorem matching (h : Renumbers fa root visited m) : Matching fa m fun i p => visited[p]? = some i where
  accepting hp := (h.accepting hp).symm
  forth hp step _ := by
    obtain ⟨q, hq⟩ := h.exists_place ((h.mem.mp (List.mem_of_getElem? hp)).trans step.leads)
    exact ⟨q, h.step.mpr ⟨_, _, hp, hq, step⟩, hq⟩
  back hp step := by
    obtain ⟨i, j, hi, hj, step⟩ := h.step.mp step
    obtain rfl := Option.some.inj (hi.symm.trans hp)
    exact ⟨j, step, hj⟩

theorem recognizesFrom (h : Renumbers fa root visited m) (hp : visited[p]? = some i) :
    m.RecognizesFrom p word ↔ fa.RecognizesFrom i word := h.matching.recognizesFrom hp

theorem recognizes (h : Renumbers fa root visited m) : m.Recognizes word ↔ fa.RecognizesFrom root word := by
  rw [Recognizes, h.start]
  exact h.recognizesFrom h.head

theorem start_lt (h : Renumbers fa root visited m) : m.start < m.size := by
  rw [h.start, h.size]
  exact (List.getElem?_eq_some_iff.mp h.head).1

theorem exists_path (h : Renumbers fa root visited m) (path : fa.Path i word j) (hp : visited[p]? = some i) :
    ∃ q, visited[q]? = some j ∧ m.Path p word q := by
  have next : ∀ {i j p a}, visited[p]? = some i → fa.Step i a j → ∃ q, visited[q]? = some j ∧ m.Step p a q := by
    intro i j p a hp step
    obtain ⟨q, hq⟩ := h.exists_place ((h.mem.mp (List.mem_of_getElem? hp)).trans step.leads)
    exact ⟨q, hq, h.step.mpr ⟨_, _, hp, hq, step⟩⟩
  induction path generalizing p with
  | nil => exact ⟨p, hp, .nil p⟩
  | silent step _ ih =>
    obtain ⟨q, hq, step'⟩ := next hp step
    obtain ⟨r, hr, path'⟩ := ih hq
    exact ⟨r, hr, .silent step' path'⟩
  | read step _ ih =>
    obtain ⟨q, hq, step'⟩ := next hp step
    obtain ⟨r, hr, path'⟩ := ih hq
    exact ⟨r, hr, .read step' path'⟩

end Renumbers

end Automaton
end FiniteAutomata
