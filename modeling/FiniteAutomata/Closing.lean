import FiniteAutomata.Automaton.Simulation

/-! The closure of a set under empty steps as a loop over a stack. The state on top is taken off, and each of its edges
    that carries the empty step is followed: a target that has not been found yet is found then, and put on top. The loop
    ends when the stack is empty. -/

namespace FiniteAutomata

/-- What the loop holds. -/
structure Closing where
  /-- All that has been found. -/
  found : StateSet
  /-- What has been found and not been expanded yet, the top first. -/
  stack : List StateId
  deriving DecidableEq, Repr

namespace Closing

/-- The members of the set are found, and the greatest of them is on top. -/
def first (s : StateSet) : Closing where
  found := s
  stack := s.toList.reverse

def follow (w : Closing) (e : Edge) : Closing :=
  if .epsilon ∈ e.label ∧ e.target ∉ w.found then
    { found := w.found.insert e.target, stack := e.target :: w.stack }
  else w

/-- Expands what is on top, as long as there is anything, but no more than the given number of times. -/
def loop (fa : Automaton) : Nat → Closing → Except Fault Closing
  | 0, w => .ok w
  | n + 1, w =>
    match w.stack with
    | [] => .ok w
    | i :: stack => do
      let s ← fa.state i
      loop fa n (s.edges.foldl follow { w with stack })

end Closing
end FiniteAutomata
