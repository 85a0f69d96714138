import FiniteAutomata.Checked

/-! The live states as marks set in passes over all states. The accepting states are marked first. A pass looks at the
    states in order and marks one that has an edge to a marked state, where a mark set earlier in the same pass counts. A
    pass that marks nothing is the last. -/

namespace FiniteAutomata

/-- What the passes hold. -/
structure Marking where
  marked : StateSet
  /-- The last pass has marked a state, or there was no pass yet. -/
  changed : Bool
  deriving DecidableEq, Repr

namespace Marking

/-- The accepting states are marked, and a pass is due. -/
def first (fa : Automaton) : Except Fault Marking := do
  let accepting ← (List.range fa.size).filterM (Checked.accepting fa)
  return { marked := StateSet.ofList accepting, changed := true }

/-- Marks a state if it is not marked and one of its edges leads to a marked state. -/
def look (fa : Automaton) (m : Marking) (i : StateId) : Except Fault Marking :=
  if i ∈ m.marked then .ok m
  else do
    let s ← fa.state i
    if s.edges.any fun e => e.target ∈ m.marked then return { marked := m.marked.insert i, changed := true }
    else return m

def pass (fa : Automaton) (m : Marking) : Except Fault Marking :=
  (List.range fa.size).foldlM (look fa) { m with changed := false }

/-- One pass after the other, as long as they mark anything, but no more than the given number. -/
def loop (fa : Automaton) : Nat → Marking → Except Fault Marking
  | 0, m => .ok m
  | n + 1, m =>
    if m.changed then do
      let passed ← pass fa m
      loop fa n passed
    else .ok m

/-- The passes from the accepting states on. -/
def run (fa : Automaton) (n : Nat) : Except Fault Marking := do
  let m ← first fa
  loop fa n m

end Marking
end FiniteAutomata
