import FiniteAutomata.Determinize
import FiniteAutomata.Minimize.Partition

/-! Minimisation by refining a partition of the states: blocks that no character splits any further become the
    states of the result, numbered breadth-first. A missing step and a step to a state that is not live count
    as the same. -/

namespace FiniteAutomata
namespace Automaton

/-- One state for each block, with the steps of its members that lead to covered states. -/
def quotient (fa : Automaton) (p : Partition) : Except Fault Automaton :=
  let states := p.blocks.toList.map fun block => (Kind.partition block, fa.acceptsAt block)
  let arcs := p.blocks.toList.zipIdx.flatMap fun (block, index) =>
    (block.toList.flatMap fa.arcsOf).filterMap fun arc =>
      (p.blockOf? arc.target).map fun target => ⟨index, target, arc.symbol⟩
  assemble states arcs none

/-- What `root` leads to, as deterministic states numbered in the order of a walk. -/
def renumber (fa : Automaton) (root : StateId) : Except Fault Automaton := do
  let view ← fa.traverse root
  let number := fun id => view.states.idxOf id
  let states := view.states.map fun id => (Kind.dfa, fa.accepting id)
  let arcs := (view.states.flatMap fa.arcsOf).map fun arc =>
    (⟨number arc.source, number arc.target, arc.symbol⟩ : Arc)
  assemble states arcs (some (number root))

/-- The partition of what is reachable that no character splits any further. -/
def stablePartition (fa : Automaton) (view : Walk) : Partition :=
  Partition.stabilize fa view.alphabet.chars fa.size (Partition.initial fa view)

/-- The minimal automaton by refinement. Without a start in range the language is empty, and the subset
    construction has the state for it. -/
def minimizeByRefinement (fa : Automaton) : Except Fault Automaton :=
  if fa.start < fa.size then do
    let view ← fa.view
    let p := fa.stablePartition view
    let classes ← fa.quotient p
    match p.blockOf? fa.start with
    | none => .error .startNotCovered
    | some block => classes.renumber block
  else fa.determinize

end Automaton
end FiniteAutomata
