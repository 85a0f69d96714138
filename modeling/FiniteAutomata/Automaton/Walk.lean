import FiniteAutomata.Automaton.Basic
import FiniteAutomata.Explore

/-! The part of an automaton that its roots lead to, collected breadth-first. A walk visits every state once;
    a state that it should visit but that the automaton does not have is a fault. -/

namespace FiniteAutomata

/-- What a breadth-first walk collects. -/
structure Walk where
  states : List StateId := []
  alphabet : Label := ∅
  /-- The edges of the visited states, state by state. -/
  edges : List Edge := []
  accepting : StateSet := ∅
  deriving DecidableEq, Repr

namespace Automaton

/-- The targets of a state's edges, in order. -/
def targets (fa : Automaton) (id : StateId) : List StateId := (fa.edgesOf id).map Edge.target

/-- The ids that edges lead to from `roots`, breadth-first and without repetition. An id outside the automaton
    is listed too and has no edges. -/
def order (fa : Automaton) (roots : List StateId) : List StateId :=
  exploreIds fa.targets fa.size (StateSet.ofList roots) [] roots.eraseDups []

theorem order_eq (fa : Automaton) (roots : List StateId) :
    fa.order roots = explore fa.targets fa.size [] roots.eraseDups := by
  rw [order, exploreIds_eq _ _ _ _ _ _ fun i => by simp, List.reverse_nil, List.append_nil]

def alphabetOf (edges : List Edge) : Label := edges.foldl (fun l e => l ∪ e.label) ∅

/-- What the given states contribute to a walk. -/
def collect (fa : Automaton) (ids : List StateId) : Walk :=
  let edges := ids.flatMap fa.edgesOf
  { states := ids, alphabet := alphabetOf edges, edges, accepting := StateSet.ofList (ids.filter fa.accepting) }

def walk (fa : Automaton) (roots : List StateId) : Except Fault Walk :=
  let ids := fa.order roots
  if ids.all (· < fa.size) then .ok (fa.collect ids) else .error .outOfRange

/-- Breadth-first from one root; a root outside the automaton leads nowhere. -/
def traverse (fa : Automaton) (root : StateId) : Except Fault Walk :=
  if root < fa.size then fa.walk [root] else .ok {}

def view (fa : Automaton) : Except Fault Walk := fa.traverse fa.start

end Automaton
end FiniteAutomata
