import FiniteAutomata.Automaton.Reversal
import FiniteAutomata.Determinize

/-! Minimisation by reversing and determinizing twice. The first round leaves an automaton for the reversed
    words in which every state is reachable; the second round then tells all its states apart. -/

namespace FiniteAutomata
namespace Automaton

/-- One round: a deterministic automaton for the reversed words. It starts from the set of the old accepting
    states itself, since a fresh start would be told apart from an equal set reached later. -/
def reversalRound (fa : Automaton) : Except Fault Automaton := do
  let reversed ← fa.reverseEdges
  reversed.automaton.determinizeFrom reversed.initial

/-- The minimal automaton by two rounds. -/
def minimizeByReversal (fa : Automaton) : Except Fault Automaton := do
  let backward ← fa.reversalRound
  backward.reversalRound

end Automaton
end FiniteAutomata
