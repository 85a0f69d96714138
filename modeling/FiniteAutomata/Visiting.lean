import FiniteAutomata.Automaton.Walk

/-! The walk from a state as a loop over a queue. The state at the front is taken off and listed, and its edges are
    collected one by one; a target that has not been seen yet is seen then, and joins the queue. The loop ends when the
    queue is empty. -/

namespace FiniteAutomata

/-- What the loop holds. -/
structure Visiting where
  /-- All states that have been listed or are in the queue. -/
  seen : StateSet
  queue : List StateId
  walk : Walk
  deriving DecidableEq, Repr

namespace Visiting

/-- Only the root is seen, and it waits. -/
def first (root : StateId) : Visiting where
  seen := {root}
  queue := [root]
  walk := {}

/-- Lists a state. -/
def visit (v : Visiting) (i : StateId) (s : State) : Visiting :=
  { v with walk := { v.walk with
      states := v.walk.states ++ [i]
      accepting := if s.accepting then v.walk.accepting.insert i else v.walk.accepting } }

/-- Collects an edge. -/
def follow (v : Visiting) (e : Edge) : Visiting :=
  let walk := { v.walk with alphabet := v.walk.alphabet ∪ e.label, edges := v.walk.edges ++ [e] }
  if e.target ∈ v.seen then { v with walk }
  else { seen := v.seen.insert e.target, queue := v.queue ++ [e.target], walk }

/-- Visits what is at the front, as long as there is anything, but no more than the given number of times. -/
def loop (fa : Automaton) : Nat → Visiting → Except Fault Visiting
  | 0, v => .ok v
  | n + 1, v =>
    match v.queue with
    | [] => .ok v
    | i :: queue => do
      let s ← fa.state i
      loop fa n (s.edges.foldl follow ({ v with queue }.visit i s))

end Visiting
end FiniteAutomata
