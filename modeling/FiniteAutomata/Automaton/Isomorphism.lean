import FiniteAutomata.Automaton.Walk

/-! Comparison of two automata up to the numbering of their states. Pairing the two starts forces a pairing of
    all that deterministic steps lead to; the automata are isomorphic when the forced pairs agree on
    acceptance and symbols and no state is paired with two others. -/

namespace FiniteAutomata
namespace Automaton

/-- The target of the last edge of a state that carries `a`. -/
def lastTarget? (fa : Automaton) (id : StateId) (a : Symbol) : Option StateId :=
  ((fa.edgesOf id).reverse.find? fun e => a ∈ e.label).map Edge.target

/-- A state's symbols in order, each with the one target that counts for it. -/
def transitions (fa : Automaton) (id : StateId) : List (Symbol × StateId) :=
  (alphabetOf (fa.edgesOf id)).toList.filterMap fun a => (fa.lastTarget? id a).map fun t => (a, t)

/-- Two states agree on acceptance and on their symbols. -/
def compatible (fa fb : Automaton) (p : StateId × StateId) : Bool :=
  fa.accepting p.1 == fb.accepting p.2 &&
    decide ((fa.transitions p.1).map Prod.fst = (fb.transitions p.2).map Prod.fst)

/-- The pairs that a pair of compatible states forces, symbol by symbol. -/
def forcedBy (fa fb : Automaton) (p : StateId × StateId) : List (StateId × StateId) :=
  if fa.compatible fb p then
    ((fa.transitions p.1).map Prod.snd).zip ((fb.transitions p.2).map Prod.snd)
  else []

/-- The pairs that the pair of starts forces, as far as the given number of them leads. -/
def forcedPairs (fa fb : Automaton) (n : Nat) : List (StateId × StateId) :=
  explore (fa.forcedBy fb) n [] [(fa.start, fb.start)]

/-- No id is paired with two others, on either side. -/
def oneToOne (pairs : List (StateId × StateId)) : Bool :=
  pairs.all fun p => pairs.all fun q => decide (p.1 = q.1) == decide (p.2 = q.2)

/-- Equality up to renaming of what is reachable. An automaton without states equals only another such. -/
def isomorphic (fa fb : Automaton) : Except Fault Bool :=
  if fa.isEmpty || fb.isEmpty then .ok (fa.isEmpty && fb.isEmpty)
  else do
    let a ← fa.view
    let b ← fb.view
    if a.states.length ≠ b.states.length then return false
    else
      let pairs := fa.forcedPairs fb a.states.length
      return pairs.all (fa.compatible fb) && oneToOne pairs

end Automaton
end FiniteAutomata
