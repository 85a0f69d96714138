import FiniteAutomata.Automaton.Determinism
import FiniteAutomata.Automaton.Isomorphism
import FiniteAutomata.Automaton.Render
import FiniteAutomata.Pattern.InPlace

/-! The operations with each of their look-ups checked where it is made. A state that an automaton does not have, a
    state or a set that got no number and a start that no block holds are faults here, beside the edits that are
    refused. Where the operations proper ask once whether all exists, or take a missing state for one without edges,
    these ask for every state they read, and every automaton they build is built by edits. -/

namespace FiniteAutomata

/-- The edge the other way round. -/
def Edge.flip (e : Edge) : Edge := { e with source := e.target, target := e.source }

namespace Checked

/-- Both give a result, and it is the same. -/
def Agree {α : Type} (a b : Except Fault α) : Prop := ∃ x, a = .ok x ∧ b = .ok x

/-! ### Look-ups -/

/-- Exploration whose expansions may be refused. -/
def explore {α β : Type} [DecidableEq α] (expand : α → Except Fault β) (next : β → List α) :
    Nat → List (α × β) → List α → Except Fault (List (α × β))
  | 0, done, queue => do
    let left ← queue.mapM fun x => do return (x, ← expand x)
    return done.reverse ++ left
  | _ + 1, done, [] => return done.reverse
  | n + 1, done, x :: queue => do
    let y ← expand x
    let known := x :: done.map Prod.fst
    let fresh := (next y).filter fun z => z ∉ known ∧ z ∉ queue
    explore expand next n ((x, y) :: done) (queue ++ fresh.eraseDups)

/-- The place of a value among those that have one. -/
def number {α : Type} [DecidableEq α] (l : List α) (x : α) : Except Fault Nat :=
  if x ∈ l then .ok (l.idxOf x) else .error .outOfRange

/-- The edge between the numbers of its ends. -/
def numbered (ids : List StateId) (e : Edge) : Except Fault Edge := do
  return { e with source := ← number ids e.source, target := ← number ids e.target }

/-- States without edges. -/
def blank (states : List (Kind × Bool)) : Automaton :=
  states.foldl (fun fa s => fa.addState s.1 s.2) {}

/-- Adds the labels of some edges between their ends. -/
def connect (fa : Automaton) (edges : List Edge) : Except Fault Automaton :=
  edges.foldlM (fun fa e => fa.addLabeledEdge e.source e.target e.label) fa

variable (fa fb : Automaton)

/-! ### Walks -/

def traverse (root : StateId) : Except Fault Walk := do
  if root < fa.size then
    let rows ← explore fa.state (fun s => s.edges.map Edge.target) fa.size [] [root]
    let edges := rows.flatMap fun r => r.2.edges
    return {
      states := rows.map Prod.fst
      alphabet := Automaton.alphabetOf edges
      edges
      accepting := StateSet.ofList ((rows.filter fun r => r.2.accepting).map Prod.fst) }
  else return {}

def view : Except Fault Walk := traverse fa fa.start

/-- No symbol is on two edges of the state. -/
def unambiguous (id : StateId) : Except Fault Bool := do
  let s ← fa.state id
  return decide (s.edges.flatMap fun e => e.label.toList).Nodup

def isDeterministic : Except Fault Bool := do
  let view ← view fa
  if .epsilon ∈ view.alphabet then return false else view.states.allM (unambiguous fa)

def lineOf (id : StateId) : Except Fault (List Char) := do
  let s ← fa.state id
  return "  ".toList ++ Text.decimal id ++ s.text ++ ['\n']

def text : Except Fault (List Char) := do
  let view ← view fa
  let lines ← view.states.mapM (lineOf fa)
  return "start: ".toList ++ Text.decimal fa.start ++ ['\n'] ++ lines.flatten

/-! ### Runs -/

def epsilonClosure (s : StateSet) : Except Fault StateSet := do
  let rows ← explore fa.state (fun s => Automaton.targetsOn s.edges .epsilon) fa.size [] s.toList
  return StateSet.ofList (rows.map Prod.fst)

def delta (s : StateSet) (c : Char) : Except Fault StateSet := do
  let states ← s.toList.mapM fa.state
  return StateSet.ofList (Automaton.targetsOn (states.flatMap State.edges) (.char c))

def accepting (id : StateId) : Except Fault Bool := do
  let s ← fa.state id
  return s.accepting

def anyAccepting (s : StateSet) : Except Fault Bool := s.toList.anyM (accepting fa)

def acceptsFrom (s : StateSet) : List Char → Except Fault Bool
  | [] => anyAccepting fa s
  | c :: rest => do
    let moved ← delta fa s c
    let next ← epsilonClosure fa moved
    if next.isEmpty then return false else acceptsFrom next rest

def accepts (word : List Char) : Except Fault Bool :=
  if fa.isEmpty then .ok false
  else do
    let active ← epsilonClosure fa {fa.start}
    acceptsFrom fa active word

/-! ### Comparison -/

/-- The symbols of a state in order, each with the last target it leads to. -/
def transitions (s : State) : List (Symbol × StateId) :=
  (Automaton.alphabetOf s.edges).toList.filterMap fun a =>
    ((s.edges.reverse.find? fun e => a ∈ e.label).map Edge.target).map fun t => (a, t)

def compatible (s t : State) : Bool :=
  s.accepting == t.accepting && decide ((transitions s).map Prod.fst = (transitions t).map Prod.fst)

def forcedBy (p : State × State) : List (StateId × StateId) :=
  if compatible p.1 p.2 then ((transitions p.1).map Prod.snd).zip ((transitions p.2).map Prod.snd) else []

def statesOf (p : StateId × StateId) : Except Fault (State × State) := do
  return (← fa.state p.1, ← fb.state p.2)

def isomorphic : Except Fault Bool :=
  if fa.isEmpty || fb.isEmpty then .ok (fa.isEmpty && fb.isEmpty)
  else do
    let a ← view fa
    let b ← view fb
    if a.states.length ≠ b.states.length then return false
    else
      let rows ← explore (statesOf fa fb) forcedBy a.states.length [] [(fa.start, fb.start)]
      return rows.all (fun r => compatible r.2.1 r.2.2) && Automaton.oneToOne (rows.map Prod.fst)

/-! ### Constructions -/

def reverseEdges : Except Fault Reversed := do
  let view ← view fa
  let edges ← view.edges.mapM (numbered view.states)
  let connected ← connect (blank (view.states.map fun id => (Kind.nfa, id == fa.start))) (edges.map Edge.flip)
  let automaton ← if fa.start ∈ view.states then connected.setStart (view.states.idxOf fa.start) else pure connected
  let initial ← view.accepting.toList.mapM (number view.states)
  return { automaton, initial := StateSet.ofList initial }

def reverse : Except Fault Automaton := do
  let reversed ← reverseEdges fa
  reversed.withStart

/-- The steps from a set of states on the given characters, but for those that lead nowhere. -/
def stepsFrom (alphabet : List Char) (s : StateSet) : Except Fault (List (Char × StateSet)) := do
  let steps ← alphabet.mapM fun c => do
    let moved ← delta fa s c
    return (c, ← epsilonClosure fa moved)
  return steps.filter fun p => !p.2.isEmpty

/-- The arcs of the state that stands for a set with the given steps. -/
def subsetArcs (family : List StateSet) (row : StateSet × List (Char × StateSet)) : Except Fault (List Arc) :=
  row.2.mapM fun p => do
    return { source := ← number family row.1, target := ← number family p.2, symbol := .char p.1 }

def determinizeFrom (initial : StateSet) : Except Fault Automaton := do
  let walks ← initial.toList.mapM (traverse fa)
  let alphabet := (walks.foldl (fun l w => l ∪ w.alphabet) (∅ : Label)).chars
  let closed ← epsilonClosure fa initial
  let rows ← explore (stepsFrom fa alphabet) (List.map Prod.snd) (1 <<< fa.size) [] [closed]
  let family := rows.map Prod.fst
  let states ← family.mapM fun s => do return (Kind.dfa, ← anyAccepting fa s)
  let arcs ← rows.mapM (subsetArcs family)
  let connected ← arcs.flatten.foldlM (fun fa a => fa.addEdge a.source a.target a.symbol) (blank states)
  connected.setStart 0

def determinize : Except Fault Automaton := determinizeFrom fa (if fa.start < fa.size then {fa.start} else ∅)

def reversalRound : Except Fault Automaton := do
  let reversed ← reverseEdges fa
  determinizeFrom reversed.automaton reversed.initial

def minimizeByReversal : Except Fault Automaton := do
  let backward ← reversalRound fa
  reversalRound backward

/-! ### Refinement -/

section Partition
variable (p : Partition)

def landing (c : Char) (id : StateId) : Except Fault (Option Nat) := do
  let s ← fa.state id
  return (s.next? (.char c)).bind p.blockOf?

def dissenters (block : StateSet) (c : Char) : Except Fault StateSet :=
  match block.toList with
  | [] => .ok ∅
  | first :: rest => do
    let lands ← landing fa p c first
    let others ← rest.mapM fun id => do return (id, ← landing fa p c id)
    return StateSet.ofList ((others.filter fun q => q.2 != lands).map Prod.fst)

def blockSplit? (alphabet : List Char) (block : StateSet) : Except Fault (Option StateSet) :=
  if block.size < 2 then .ok none
  else alphabet.findSomeM? fun c => do
    let rest ← dissenters fa p block c
    return if rest.isEmpty then none else some rest

def split? (alphabet : List Char) : Except Fault (Option (Nat × StateSet)) :=
  p.blocks.toList.zipIdx.findSomeM? fun (block, index) => do
    let rest? ← blockSplit? fa p alphabet block
    return rest?.map fun rest => (index, rest)

def refine? (alphabet : List Char) : Except Fault (Option Partition) := do
  let split ← split? fa p alphabet
  return split.map fun (index, rest) => p.separate index rest

end Partition

def stabilize (alphabet : List Char) : Nat → Partition → Except Fault Partition
  | 0, p => .ok p
  | n + 1, p => do
    match ← refine? fa p alphabet with
    | none => return p
    | some q => stabilize alphabet n q

/-- The edge from the block with the given number to the block of the target, if the target is covered. -/
def lift (p : Partition) (index : Nat) (e : Edge) : Option Edge :=
  (p.blockOf? e.target).map fun target => { e with source := index, target }

/-- The edges of the members of a block, between blocks. -/
def blockEdges (p : Partition) (row : StateSet × Nat) : Except Fault (List Edge) := do
  let members ← row.1.toList.mapM fa.state
  return (members.flatMap State.edges).filterMap (lift p row.2)

def quotient (p : Partition) : Except Fault Automaton := do
  let states ← p.blocks.toList.mapM fun block => do return (Kind.partition block, ← anyAccepting fa block)
  let edges ← p.blocks.toList.zipIdx.mapM (blockEdges fa p)
  connect (blank states) edges.flatten

def renumber (root : StateId) : Except Fault Automaton := do
  let view ← traverse fa root
  let states ← view.states.mapM fun id => do return (Kind.dfa, ← accepting fa id)
  let edges ← view.edges.mapM (numbered view.states)
  let connected ← connect (blank states) edges
  connected.setStart (← number view.states root)

def minimizeByRefinement : Except Fault Automaton :=
  if fa.start < fa.size then do
    let view ← view fa
    let p ← stabilize fa view.alphabet.chars fa.size (Partition.initial fa view)
    let classes ← quotient fa p
    match p.blockOf? fa.start with
    | none => .error .startNotCovered
    | some block => renumber classes block
  else determinize fa

/-! ### From a pattern -/

def minimize : Strategy → Except Fault Automaton
  | .partition => do
    let dfa ← determinize fa
    minimizeByRefinement dfa
  | .reversal => minimizeByReversal fa

/-- The minimal automaton of a pattern. -/
def convert (strategy : Strategy) (pattern : List Char) : Except Failure Automaton := do
  let fa ← Automaton.ofPatternInPlace pattern
  (minimize fa strategy).mapError .fault

end Checked
end FiniteAutomata
