import FiniteAutomata.Automaton.Basic

/-! What every automaton built by edits satisfies (`WellFormed`), and what it satisfies once all the targets it
    points at have been added (`InRange`). -/

namespace FiniteAutomata

/-- The edges of a state start at it, carry symbols and lead to different targets; only a state of kind `nfa`
    has empty steps. -/
structure State.WellFormed (s : State) : Prop where
  sources : ∀ e ∈ s.edges, e.source = s.id
  labels : ∀ e ∈ s.edges, e.label ≠ ∅
  targets : (s.edges.map Edge.target).Nodup
  silent : ∀ e ∈ s.edges, .epsilon ∈ e.label → s.kind = .nfa

/-- Each state carries its place as its id, and the start is a state unless there are none. -/
structure Automaton.WellFormed (fa : Automaton) : Prop where
  ids : ∀ (i : StateId) (s : State), fa.states[i]? = some s → s.id = i
  states : ∀ (i : StateId) (s : State), fa.states[i]? = some s → s.WellFormed
  start : fa.start < fa.size ∨ fa.isEmpty = true ∧ fa.start = 0

/-- Every edge leads to a state. -/
def Automaton.InRange (fa : Automaton) : Prop := ∀ i, ∀ e ∈ fa.edgesOf i, e.target < fa.size

/-- What edits build, as soon as every edge leads to a state. -/
structure Automaton.Usable (fa : Automaton) : Prop where
  wellFormed : fa.WellFormed
  inRange : fa.InRange

namespace State

theorem WellFormed.blank {id : StateId} {kind : Kind} {accepting : Bool} :
    WellFormed { id, kind, accepting } where
  sources e he := by cases he
  labels e he := by cases he
  targets := by simp
  silent e he := by cases he

end State

namespace Automaton

theorem WellFormed.empty : WellFormed {} where
  ids i s h := by simp at h
  states i s h := by simp at h
  start := Or.inr ⟨rfl, rfl⟩

theorem mem_edgesOf {fa : Automaton} {i : StateId} {e : Edge} :
    e ∈ fa.edgesOf i ↔ ∃ s, fa.states[i]? = some s ∧ e ∈ s.edges := by
  rw [edgesOf]
  cases fa.states[i]? <;> simp

end Automaton
end FiniteAutomata
