import FiniteAutomata.Automaton.Walk

/-! The test for determinism: what is reachable has no empty steps, and no state reads one symbol on two of its
    edges. What is not reachable plays no part. -/

namespace FiniteAutomata
namespace Automaton

/-- The symbols on a state's edges, edge by edge. -/
def symbolsOf (fa : Automaton) (id : StateId) : List Symbol := (fa.edgesOf id).flatMap fun e => e.label.toList

/-- Each reachable state reads characters only, and each of them on one edge. -/
def isDeterministic (fa : Automaton) : Except Fault Bool := do
  let view ← fa.view
  return decide (.epsilon ∉ view.alphabet) && view.states.all fun id => decide (fa.symbolsOf id).Nodup

end Automaton
end FiniteAutomata
