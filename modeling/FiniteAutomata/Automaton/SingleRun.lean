import FiniteAutomata.Automaton.Basic

/-! A run over a word that is in one state at a time. It goes along the first edge that carries the character, and it
    ends early at a state that has none. -/

namespace FiniteAutomata
namespace Automaton

/-- Where the run over a word from a state ends, if not early. -/
def runFrom (fa : Automaton) (id : StateId) : List Char → Except Fault (Option StateId)
  | [] => .ok (some id)
  | c :: rest => do
    let s ← fa.state id
    match s.next? (.char c) with
    | none => return none
    | some next => fa.runFrom next rest

/-- Whether the run from the start ends in an accepting state. -/
def acceptsAlone (fa : Automaton) (word : List Char) : Except Fault Bool := do
  match ← fa.runFrom fa.start word with
  | none => return false
  | some id =>
    let s ← fa.state id
    return s.accepting

end Automaton
end FiniteAutomata
