import FiniteAutomata.Automaton.Reversal
import FiniteAutomata.Proofs.Renumbering
import FiniteAutomata.Proofs.Simulation

/-! Turning the reachable steps round turns the paths round: a path of the reversed automaton spells a word
    exactly when a path of the original, the other way, spells it backwards. -/

namespace FiniteAutomata

/-- `r` has the visited states of `fa` as its own, in that order, with the steps between them turned round. -/
structure Reversed.Of (fa : Automaton) (visited : List StateId) (r : Reversed) : Prop where
  nodup : visited.Nodup
  mem : ∀ {i}, i ∈ visited ↔ fa.Reachable i
  size : r.automaton.size = visited.length
  inRange : r.automaton.InRange
  step : ∀ {p q a}, r.automaton.Step p a q ↔
    ∃ i j, visited[q]? = some i ∧ visited[p]? = some j ∧ fa.Step i a j
  accepting : ∀ {p}, r.automaton.accepting p = true ↔ visited[p]? = some fa.start
  initial : ∀ {p}, p ∈ r.initial ↔ ∃ i, visited[p]? = some i ∧ fa.accepting i = true

namespace Automaton

variable {fa : Automaton}

/-! ### The reversed automaton -/

/-- The steps turned round, by place. -/
def turned (fa : Automaton) (visited : List StateId) : List Arc :=
  (visited.flatMap fa.arcsOf).map fun arc => ⟨visited.idxOf arc.target, visited.idxOf arc.source, arc.symbol⟩

theorem mem_turned {visited : List StateId} (nodup : visited.Nodup) (closed : Closed fa.targets visited)
    {p q : StateId} {a : Symbol} :
    ⟨p, q, a⟩ ∈ fa.turned visited ↔ ∃ i j, visited[q]? = some i ∧ visited[p]? = some j ∧ fa.Step i a j := by
  rw [← mem_renumbered nodup closed, turned, List.mem_map]
  refine ⟨fun h => ?_, fun h => ?_⟩
  · rcases h with ⟨arc, harc, heq⟩
    obtain ⟨hp, hq, ha⟩ := Arc.mk.inj heq
    exact ⟨arc, harc, hq, hp, ha⟩
  · rcases h with ⟨arc, harc, rfl, rfl, rfl⟩
    exact ⟨arc, harc, rfl⟩

/-- The visited states again, the start accepting. -/
def turnedStates (fa : Automaton) : List (Kind × Bool) := fa.seen.states.map fun id => (Kind.nfa, id == fa.start)

/-- What a walk from the start sees, turned round. -/
def turnedRound (fa : Automaton) : Reversed where
  automaton := assembled fa.turnedStates (fa.turned fa.seen.states) (fa.seen.states.idxOf fa.start)
  initial := StateSet.ofList (fa.seen.accepting.toList.map fun id => fa.seen.states.idxOf id)

section Complete
variable (complete : fa.CompleteFrom fa.start)
include complete

theorem mem_turned_seen {p q : StateId} {a : Symbol} : ⟨p, q, a⟩ ∈ fa.turned fa.seen.states ↔
    ∃ i j, fa.seen.states[q]? = some i ∧ fa.seen.states[p]? = some j ∧ fa.Step i a j :=
  mem_turned fa.seen_nodup (seen_closed complete)

theorem allowed_turned {a : Arc} (ha : a ∈ fa.turned fa.seen.states) : Allowed fa.turnedStates a := by
  obtain ⟨-, j, -, hj, -⟩ := (mem_turned_seen complete).mp ha
  exact ⟨(.nfa, j == fa.start), by simp [turnedStates, hj], fun _ => rfl⟩

theorem target_lt_of_mem_turned {a : Arc} (ha : a ∈ fa.turned fa.seen.states) : a.target < fa.turnedStates.length := by
  obtain ⟨i, -, hi, -, -⟩ := (mem_turned_seen complete).mp ha
  rw [turnedStates, List.length_map]
  exact (List.getElem?_eq_some_iff.mp hi).1

theorem reverseEdges_eq : fa.reverseEdges = .ok fa.turnedRound := by
  have startMem : fa.start ∈ fa.seen.states := (mem_seen complete).mpr (.refl _)
  have nonempty : fa.seen.states.isEmpty = false := by
    rw [List.isEmpty_eq_false_iff]
    exact List.ne_nil_of_mem startMem
  have exists_start : ∀ id, some (fa.seen.states.idxOf fa.start) = some id → id < fa.turnedStates.length := by
    intro id hid
    obtain rfl := Option.some.inj hid
    rw [turnedStates, List.length_map]
    exact List.idxOf_lt_length_of_mem startMem
  have made := assemble_eq (fun a ha => allowed_turned complete ha) exists_start
  rw [reverseEdges, view_eq complete]
  show (assemble fa.turnedStates (fa.turned fa.seen.states)
    (if fa.seen.states.isEmpty then none else some (fa.seen.states.idxOf fa.start)) >>= _) = _
  rw [nonempty, if_neg Bool.false_ne_true, made]
  rfl

theorem wellFormed_turnedRound : fa.turnedRound.automaton.WellFormed := by
  refine wellFormed_assembled (fun a ha => allowed_turned complete ha) (Or.inl ?_)
  rw [turnedStates, List.length_map]
  exact List.idxOf_lt_length_of_mem ((mem_seen complete).mpr (.refl fa.start))

theorem mem_initial_turnedRound {p : StateId} :
    p ∈ fa.turnedRound.initial ↔ ∃ i, fa.seen.states[p]? = some i ∧ fa.accepting i = true := by
  rw [turnedRound, StateSet.mem_ofList, List.mem_map]
  refine ⟨fun h => ?_, fun h => ?_⟩
  · rcases h with ⟨i, hi, rfl⟩
    obtain ⟨hi, accepting⟩ := (mem_seen_accepting complete).mp (StateSet.mem_toList.mp hi)
    exact ⟨i, List.getElem?_idxOf ((mem_seen complete).mpr hi), accepting⟩
  · rcases h with ⟨i, hp, accepting⟩
    have hi := List.mem_of_getElem? hp
    refine ⟨i, StateSet.mem_toList.mpr ((mem_seen_accepting complete).mpr ?_), ?_⟩
    · exact ⟨(mem_seen complete).mp hi, accepting⟩
    · exact idxOf_of_getElem? fa.seen_nodup hp

theorem of_turnedRound : Reversed.Of fa fa.seen.states fa.turnedRound where
  nodup := fa.seen_nodup
  mem := mem_seen_iff_reachable complete
  size := by rw [turnedRound, size_assembled, turnedStates, List.length_map]
  inRange := inRange_assembled fun _ ha => target_lt_of_mem_turned complete ha
  step := by
    intro p q a
    rw [turnedRound, step_assembled fun a ha => (allowed_turned complete ha).lt, mem_turned_seen complete]
  accepting := by
    intro p
    rw [turnedRound, accepting_assembled, turnedStates, List.getElem?_map]
    cases fa.seen.states[p]? <;> simp
  initial := mem_initial_turnedRound complete

end Complete

/-- Without states nothing is turned round. -/
theorem reverseEdges_of_isEmpty (empty : fa.isEmpty = true) :
    fa.reverseEdges = .ok { automaton := {}, initial := ∅ } ∧ Reversed.Of fa [] { automaton := {}, initial := ∅ } := by
  have none := start_not_lt empty
  refine ⟨?_, ?_⟩
  · rw [reverseEdges, view_of_size_le (Nat.le_of_not_lt none)]
    rfl
  · exact {
      nodup := .nil
      mem := by simp [Reachable, none]
      size := rfl
      inRange := fun i e he => by simp [edgesOf] at he
      step := by simp [Step, edgesOf]
      accepting := by simp [accepting]
      initial := by simp }

/-- Reversal succeeds, and gives the visited states with the steps between them turned round. -/
theorem reverseEdges_spec (h : fa.Complete) : ∃ visited r, fa.reverseEdges = .ok r ∧ Reversed.Of fa visited r := by
  rcases h with empty | complete
  · exact ⟨_, _, reverseEdges_of_isEmpty empty⟩
  · exact ⟨_, _, reverseEdges_eq complete, of_turnedRound complete⟩

end Automaton

/-! ### Paths -/

namespace Reversed.Of

open Automaton

variable {fa : Automaton} {visited : List StateId} {r : Reversed} {p q i j : StateId} {word : List Char}

theorem path_of_path (h : Reversed.Of fa visited r) (path : fa.Path i word j) (hq : visited[q]? = some i) :
    ∃ p, visited[p]? = some j ∧ r.automaton.Path p word.reverse q := by
  have next : ∀ {i k q a}, visited[q]? = some i → fa.Step i a k → ∃ p, visited[p]? = some k ∧ r.automaton.Step p a q := by
    intro i k q a hq step
    obtain ⟨hstart, lead⟩ := h.mem.mp (List.mem_of_getElem? hq)
    have hk : k ∈ visited := h.mem.mpr ⟨hstart, lead.trans step.leads⟩
    obtain ⟨p, hp⟩ := List.getElem?_of_mem hk
    exact ⟨p, hp, h.step.mpr ⟨i, k, hq, hp, step⟩⟩
  induction path generalizing q with
  | nil => exact ⟨q, hq, .nil q⟩
  | silent step _ ih =>
    obtain ⟨k, hk, last⟩ := next hq step
    obtain ⟨p, hp, path⟩ := ih hk
    refine ⟨p, hp, ?_⟩
    rw [← List.append_nil (List.reverse _)]
    exact path.append (.silent last (.nil q))
  | read step _ ih =>
    obtain ⟨k, hk, last⟩ := next hq step
    obtain ⟨p, hp, path⟩ := ih hk
    refine ⟨p, hp, ?_⟩
    rw [List.reverse_cons]
    exact path.append (.read last (.nil q))

theorem path_to_path (h : Reversed.Of fa visited r) (path : r.automaton.Path p word q) (hp : visited[p]? = some j) :
    ∃ i, visited[q]? = some i ∧ fa.Path i word.reverse j := by
  induction path generalizing j with
  | nil => exact ⟨j, hp, .nil j⟩
  | silent step _ ih =>
    obtain ⟨k, j', hk, hj', step⟩ := h.step.mp step
    obtain rfl := Option.some.inj (hp.symm.trans hj')
    obtain ⟨i, hi, path⟩ := ih hk
    refine ⟨i, hi, ?_⟩
    rw [← List.append_nil (List.reverse _)]
    exact path.append (.silent step (.nil j))
  | read step _ ih =>
    obtain ⟨k, j', hk, hj', step⟩ := h.step.mp step
    obtain rfl := Option.some.inj (hp.symm.trans hj')
    obtain ⟨i, hi, path⟩ := ih hk
    refine ⟨i, hi, ?_⟩
    rw [List.reverse_cons]
    exact path.append (.read step (.nil j))

theorem place_unique (h : Reversed.Of fa visited r) (hp : visited[p]? = some i) (hq : visited[q]? = some i) : p = q :=
  eq_of_getElem? h.nodup hp hq

/-- From the place of a state the reversed automaton recognises what leads to the state, backwards. -/
theorem recognizesFrom (h : Reversed.Of fa visited r) (hp : visited[p]? = some j) :
    r.automaton.RecognizesFrom p word ↔ fa.Path fa.start word.reverse j := by
  refine ⟨fun given => ?_, fun path => ?_⟩
  · rcases given with ⟨q, path, accepting⟩
    obtain ⟨i, hi, path⟩ := h.path_to_path path hp
    obtain rfl := Option.some.inj (hi.symm.trans (h.accepting.mp accepting))
    exact path
  · obtain ⟨hstart, -⟩ := h.mem.mp (List.mem_of_getElem? hp)
    obtain ⟨q, hq⟩ := List.getElem?_of_mem (h.mem.mpr ⟨hstart, .refl fa.start⟩)
    obtain ⟨p', hp', path⟩ := h.path_of_path path hq
    obtain rfl := h.place_unique hp hp'
    rw [List.reverse_reverse] at path
    exact ⟨q, path, h.accepting.mpr hq⟩

theorem completeFromSet (h : Reversed.Of fa visited r) : r.automaton.CompleteFromSet r.initial := by
  intro p hp
  obtain ⟨i, hi, -⟩ := h.initial.mp hp
  refine h.inRange.completeFrom ?_
  rw [h.size]
  exact (List.getElem?_eq_some_iff.mp hi).1

/-- From the initial states the reversed automaton recognises the reversed words. -/
theorem exists_recognizesFrom (h : Reversed.Of fa visited r) (complete : fa.Complete) :
    (∃ p ∈ r.initial, r.automaton.RecognizesFrom p word) ↔ fa.Recognizes word.reverse := by
  refine ⟨fun given => ?_, fun given => ?_⟩
  · rcases given with ⟨p, hp, recognizes⟩
    obtain ⟨j, hj, accepting⟩ := h.initial.mp hp
    exact ⟨j, (h.recognizesFrom hj).mp recognizes, accepting⟩
  · rcases given with ⟨j, path, accepting⟩
    have nonempty : fa.isEmpty ≠ true := fun empty => not_recognizes_of_isEmpty empty ⟨j, path, accepting⟩
    have hj : j ∈ visited := h.mem.mpr ⟨(complete.resolve_left nonempty).lt, path.leads⟩
    obtain ⟨p, hp⟩ := List.getElem?_of_mem hj
    exact ⟨p, h.initial.mpr ⟨j, hp, accepting⟩, (h.recognizesFrom hp).mpr path⟩

end Reversed.Of
end FiniteAutomata
