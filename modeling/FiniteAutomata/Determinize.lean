import FiniteAutomata.Automaton.Simulation
import FiniteAutomata.Automaton.Walk

/-! The subset construction: a deterministic automaton whose states stand for sets of states of another one.
    Sets are numbered in the order in which steps from the closed initial set first reach them, characters
    ascending; a step to the empty set is left out. -/

namespace FiniteAutomata
namespace Automaton

/-- The steps from a set on the characters that its members read. No other step leads anywhere. -/
def stepsFrom (fa : Automaton) (s : StateSet) : List (Char × StateSet) :=
  let edges := fa.edgesOfSet s
  (alphabetOf edges).chars.map fun c => (c, fa.closure (StateSet.ofList (targetsOn edges (.char c))))

theorem stepsFrom_eq (fa : Automaton) (s : StateSet) :
    fa.stepsFrom s = (alphabetOf (fa.edgesOfSet s)).chars.map fun c => (c, fa.step s c) := rfl

/-- The sets that steps from a set lead to. -/
def successors (fa : Automaton) (s : StateSet) : List StateSet := (fa.stepsFrom s).map Prod.snd

/-- The sets that steps lead to from the closure of `initial`, breadth-first, each with its steps. -/
def subsetRows (fa : Automaton) (initial : StateSet) : List (StateSet × List (Char × StateSet)) :=
  exploreWith fa.stepsFrom (List.map Prod.snd) (1 <<< fa.size) [] [fa.closure initial]

/-- The sets alone. -/
def subsets (fa : Automaton) (initial : StateSet) : List StateSet :=
  explore fa.successors (1 <<< fa.size) [] [fa.closure initial]

theorem subsetRows_eq (fa : Automaton) (initial : StateSet) :
    fa.subsetRows initial = (fa.subsets initial).map fun s => (s, fa.stepsFrom s) :=
  exploreWith_eq _ _ _ [] _

/-- The arcs of the state that stands for a set with the given steps, in the numbering of `family`. -/
def subsetArcs (family : List StateSet) (row : StateSet × List (Char × StateSet)) : List Arc :=
  let source := family.idxOf row.1
  row.2.map fun p => ⟨source, family.idxOf p.2, .char p.1⟩

/-- The subset construction from the closure of `initial`. All that `initial` leads to has to exist. -/
def determinizeFrom (fa : Automaton) (initial : StateSet) : Except Fault Automaton := do
  let _ ← fa.walk initial.toList
  let rows := fa.subsetRows initial
  let family := rows.map Prod.fst
  assemble (family.map fun s => (Kind.dfa, fa.acceptsAt s)) (rows.flatMap (subsetArcs family)) (some 0)

/-- The subset construction from the start, or from no state if the start does not exist. -/
def determinize (fa : Automaton) : Except Fault Automaton :=
  fa.determinizeFrom (if fa.start < fa.size then {fa.start} else ∅)

end Automaton
end FiniteAutomata
