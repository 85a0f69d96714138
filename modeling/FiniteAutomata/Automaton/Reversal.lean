import FiniteAutomata.Automaton.Walk

/-! The automaton that reads words backwards: every reachable step is turned round, and the old start becomes
    the only accepting state. A backward run starts from any of the old accepting states, so these are
    reported as a set; `reverse` makes a single start of them. -/

namespace FiniteAutomata

/-- An automaton with its steps turned round. -/
structure Reversed where
  automaton : Automaton
  /-- The states that were accepting. -/
  initial : StateSet
  deriving DecidableEq, Repr

namespace Automaton

/-- Turns every reachable step round. The states are numbered in the order of a walk, and the old start stays
    the start. -/
def reverseEdges (fa : Automaton) : Except Fault Reversed := do
  let view ← fa.view
  let number := fun id => view.states.idxOf id
  let states := view.states.map fun id => (Kind.nfa, id == fa.start)
  let arcs := (view.states.flatMap fa.arcsOf).map fun arc =>
    (⟨number arc.target, number arc.source, arc.symbol⟩ : Arc)
  let automaton ← assemble states arcs (if view.states.isEmpty then none else some (number fa.start))
  return { automaton, initial := StateSet.ofList (view.accepting.toList.map number) }

end Automaton

namespace Reversed

/-- A single start for a backward run: the only initial state, or a further one with an empty step to each. -/
def withStart (r : Reversed) : Except Fault Automaton :=
  match r.initial.toList with
  | [id] => r.automaton.setStart id
  | ids => do
    let entry := r.automaton.size
    let connected ← ids.foldlM (fun (fa : Automaton) id => fa.addEdge entry id .epsilon)
      (r.automaton.addState .nfa false)
    connected.setStart entry

end Reversed

/-- An automaton for the reversed words. -/
def Automaton.reverse (fa : Automaton) : Except Fault Automaton := do
  let reversed ← fa.reverseEdges
  reversed.withStart

end FiniteAutomata
