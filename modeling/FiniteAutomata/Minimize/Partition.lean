import FiniteAutomata.Automaton.Walk

/-! Blocks of states that no word is known to tell apart, and their refinement. A partition covers the states
    that matter: those that are reachable and can still reach acceptance, and the start. A block is split when
    one character leads its members to different blocks; the members that part from the first one move to a
    block of their own at the end. -/

namespace FiniteAutomata

/-- Disjoint blocks of states, with the number of the block that holds each covered state. -/
structure Partition where
  blocks : Array StateSet := #[]
  owner : Array (Option Nat) := #[]
  deriving DecidableEq, Repr

namespace Automaton

/-- The states with an edge to `target`. -/
def sourcesOf (fa : Automaton) (target : StateId) : List StateId :=
  (List.range fa.size).filter fun id => (fa.targets id).contains target

/-- The accepting states, reachable or not. -/
def acceptingStates (fa : Automaton) : StateSet := StateSet.ofList ((List.range fa.size).filter fa.accepting)

/-- The states from which some edges lead to acceptance. -/
def live (fa : Automaton) : StateSet := fa.acceptingStates.reach fa.sourcesOf fa.size

end Automaton

namespace Partition

def blank (size : Nat) : Partition := { owner := Array.replicate size none }

/-- The number of the block that holds a state. -/
def blockOf? (p : Partition) (id : StateId) : Option Nat := (p.owner[id]?).join

/-- A further block, unless it is empty. -/
def push (p : Partition) (block : StateSet) : Partition :=
  if block.isEmpty then p
  else {
    blocks := p.blocks.push block
    owner := block.toList.foldl (fun owner id => owner.setIfInBounds id (some p.blocks.size)) p.owner }

/-- The accepting and the other live states that a view reaches; a start that is not live is a block of its
    own. -/
def initial (fa : Automaton) (view : Walk) : Partition :=
  let live := fa.live
  let rejecting := StateSet.ofList (view.states.filter fun id => id ∈ live) \ view.accepting
  let p := ((blank fa.size).push view.accepting).push rejecting
  if fa.start ∈ live then p else p.push {fa.start}

/-- The block that `c` leads to from a state, if it leads to a covered state. -/
def landing (p : Partition) (fa : Automaton) (c : Char) (id : StateId) : Option Nat :=
  match fa.states[id]? with
  | none => none
  | some s => (s.next? (.char c)).bind p.blockOf?

/-- The members of a block that `c` leads elsewhere than its first member. -/
def dissenters (p : Partition) (fa : Automaton) (block : StateSet) (c : Char) : StateSet :=
  match block.toList with
  | [] => ∅
  | first :: rest =>
    let lands := p.landing fa c first
    StateSet.ofList (rest.filter fun id => p.landing fa c id != lands)

/-- The dissenters of a block on the first character that has any. -/
def blockSplit? (p : Partition) (fa : Automaton) (alphabet : List Char) (block : StateSet) : Option StateSet :=
  if block.size < 2 then none
  else alphabet.findSome? fun c =>
    let rest := p.dissenters fa block c
    if rest.isEmpty then none else some rest

/-- The number of the first block that can be split, and the members that leave it. -/
def split? (p : Partition) (fa : Automaton) (alphabet : List Char) : Option (Nat × StateSet) :=
  p.blocks.toList.zipIdx.findSome? fun (block, index) =>
    (p.blockSplit? fa alphabet block).map fun rest => (index, rest)

/-- Moves `rest` from the block with the given number to a block of its own. -/
def separate (p : Partition) (index : Nat) (rest : StateSet) : Partition :=
  ({ p with blocks := p.blocks.modify index (· \ rest) } : Partition).push rest

/-- One split, if any block can be split. -/
def refine? (p : Partition) (fa : Automaton) (alphabet : List Char) : Option Partition :=
  (p.split? fa alphabet).map fun (index, rest) => p.separate index rest

/-- Splits until no block can be split, the given number of times at most. -/
def stabilize (fa : Automaton) (alphabet : List Char) : Nat → Partition → Partition
  | 0, p => p
  | n + 1, p =>
    match p.refine? fa alphabet with
    | none => p
    | some q => stabilize fa alphabet n q

end Partition
end FiniteAutomata
