import FiniteAutomata.Automaton.Basic
import FiniteAutomata.Explore

/-! Running an automaton over a word with all its active states at once. A step goes to the image of the active
    set under a character and closes it under empty steps; the word is accepted when the set at its end holds
    an accepting state. Active states that the automaton does not have are a fault. -/

namespace FiniteAutomata
namespace Automaton

/-! ### Sets of states -/

/-- The edges out of a set, member by member. -/
def edgesOfSet (fa : Automaton) (s : StateSet) : List Edge := s.toList.flatMap fa.edgesOf

/-- The targets of the edges that carry `a`. -/
def targetsOn (edges : List Edge) (a : Symbol) : List StateId :=
  (edges.filter fun e => a ∈ e.label).map Edge.target

/-- All that empty steps lead to from the set, the set included. -/
def closure (fa : Automaton) (s : StateSet) : StateSet :=
  s.reach (fun i => targetsOn (fa.edgesOf i) .epsilon) fa.size

/-- All that one step on `c` leads to from the set. -/
def image (fa : Automaton) (s : StateSet) (c : Char) : StateSet :=
  StateSet.ofList (targetsOn (fa.edgesOfSet s) (.char c))

def step (fa : Automaton) (s : StateSet) (c : Char) : StateSet := fa.closure (fa.image s c)

def holds (fa : Automaton) (s : StateSet) : Bool := s.toList.all (· < fa.size)

def acceptsAt (fa : Automaton) (s : StateSet) : Bool := s.toList.any fa.accepting

/-! ### Checked operations -/

/-- The closure of a set, if all of it exists. -/
def epsilonClosure (fa : Automaton) (s : StateSet) : Except Fault StateSet :=
  let closed := fa.closure s
  if fa.holds closed then .ok closed else .error .outOfRange

/-- The image of a set of existing states. -/
def delta (fa : Automaton) (s : StateSet) (c : Char) : Except Fault StateSet :=
  if fa.holds s then .ok (fa.image s c) else .error .outOfRange

/-- Looks for an accepting member; without one every member has to exist. -/
def anyAccepting (fa : Automaton) (s : StateSet) : Except Fault Bool :=
  if fa.acceptsAt s then .ok true
  else if fa.holds s then .ok false
  else .error .outOfRange

/-- Whether the rest of a word is accepted from a set of active states. -/
def acceptsFrom (fa : Automaton) (s : StateSet) : List Char → Except Fault Bool
  | [] => fa.anyAccepting s
  | c :: rest => do
    let moved ← fa.delta s c
    let next ← fa.epsilonClosure moved
    if next.isEmpty then return false else fa.acceptsFrom next rest

/-- Whether a word is accepted; without states none is. -/
def accepts (fa : Automaton) (word : List Char) : Except Fault Bool :=
  if fa.isEmpty then .ok false
  else do
    let active ← fa.epsilonClosure {fa.start}
    fa.acceptsFrom active word

end Automaton
end FiniteAutomata
