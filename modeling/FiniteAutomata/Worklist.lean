import FiniteAutomata.Checked

/-! The subset construction as a loop that edits one automaton. A set that a step leads to is looked up among those that
    have a state; a new one gets the next state and joins the sets that wait to be expanded. The loop takes them in the
    order in which they joined, and ends when none is left. -/

namespace FiniteAutomata

/-- What the loop holds. Both lists give each set with its state, in the order in which the sets were found. -/
structure Worklist where
  automaton : Automaton
  /-- All sets that have a state. -/
  index : List (StateSet × StateId)
  /-- Those that have not been expanded yet. -/
  waiting : List (StateSet × StateId)
  deriving DecidableEq, Repr

namespace Worklist

/-- The characters that are read on the way from some states, ascending. -/
def alphabet (fa : Automaton) (initial : StateSet) : Except Fault (List Char) := do
  let walks ← initial.toList.mapM (Checked.traverse fa)
  return (walks.foldl (fun l w => l ∪ w.alphabet) (∅ : Label)).chars

/-- The closure of the initial set has the first state, which is the start, and waits. -/
def first (fa : Automaton) (initial : StateSet) : Except Fault Worklist := do
  let closed ← Checked.epsilonClosure fa initial
  let accepting ← Checked.anyAccepting fa closed
  let automaton ← (({} : Automaton).addState .dfa accepting).setStart 0
  return { automaton, index := [(closed, 0)], waiting := [(closed, 0)] }

/-- The state of a set. A set that has none gets the next one. -/
def place (fa : Automaton) (w : Worklist) (s : StateSet) : Except Fault (Worklist × StateId) :=
  match w.index.lookup s with
  | some id => .ok (w, id)
  | none => do
    let accepting ← Checked.anyAccepting fa s
    let id := w.automaton.size
    return ({
      automaton := w.automaton.addState .dfa accepting
      index := w.index ++ [(s, id)]
      waiting := w.waiting ++ [(s, id)] }, id)

/-- The step on one character from a set whose state is `source`. -/
def read (fa : Automaton) (s : StateSet) (source : StateId) (w : Worklist) (c : Char) : Except Fault Worklist := do
  let moved ← Checked.delta fa s c
  let next ← Checked.epsilonClosure fa moved
  if next.isEmpty then return w
  else
    let (w, target) ← w.place fa next
    let automaton ← w.automaton.addEdge source target (.char c)
    return { w with automaton }

/-- Expands the sets that wait, first come first, as long as there are any, but no more than the given number. -/
def loop (fa : Automaton) (letters : List Char) : Nat → Worklist → Except Fault Worklist
  | 0, w => .ok w
  | n + 1, w =>
    match w.waiting with
    | [] => .ok w
    | (s, source) :: waiting => do
      let expanded ← letters.foldlM (read fa s source) { w with waiting }
      loop fa letters n expanded

/-- The loop from the closure of a set. -/
def build (fa : Automaton) (initial : StateSet) (n : Nat) : Except Fault Worklist := do
  let letters ← alphabet fa initial
  let w ← first fa initial
  loop fa letters n w

end Worklist
end FiniteAutomata
