import FiniteAutomata.Label
import FiniteAutomata.StateSet

/-! Finite automata as numbered states with labelled edges, and the checked edits that build them. State `i`
    of an automaton is the `i`-th one added. A state has one edge for each of its targets, in the order in
    which the targets were first connected, and the edge carries every symbol that leads there. An edit that
    is refused reports a `Fault`. A target is not checked when it is connected: an edge may point at a state
    that is added later, and only a look at a state that is still missing is a fault. -/

namespace FiniteAutomata

/-- The role of a state. -/
inductive Kind where
  /-- Empty steps are allowed. -/
  | nfa
  | dfa
  /-- Stands for a block of states of another automaton. -/
  | partition (members : StateSet)
  deriving DecidableEq, Repr, Inhabited

namespace Kind

def sameRole : Kind → Kind → Bool
  | nfa, nfa => true
  | dfa, dfa => true
  | partition _, partition _ => true
  | _, _ => false

end Kind

/-- All the symbols that lead from one state to another. -/
structure Edge where
  source : StateId
  target : StateId
  label : Label
  deriving DecidableEq, Repr

/-- One state with its outgoing edges. -/
structure State where
  id : StateId
  kind : Kind
  accepting : Bool
  edges : List Edge := []
  deriving DecidableEq, Repr

/-- States numbered from zero, and the one where a run starts. -/
structure Automaton where
  states : Array State := #[]
  start : StateId := 0
  deriving DecidableEq, Repr

instance : Inhabited Automaton := ⟨{}⟩

/-- Why an operation on an automaton is refused. -/
inductive Fault where
  | outOfRange
  /-- Only a state of kind `nfa` has empty steps. -/
  | epsilonOnDeterministic
  | startOutOfRange (start size : Nat)
  /-- No block of a partition holds the start. -/
  | startNotCovered
  deriving DecidableEq, Repr

def Fault.message : Fault → String
  | outOfRange => "state out of range"
  | epsilonOnDeterministic => "epsilon edge on a deterministic state"
  | startOutOfRange start size => s!"start {start} out of range ({size} states)"
  | startNotCovered => "no block holds the start"

/-- A single step: `symbol` leads from `source` to `target`. -/
structure Arc where
  source : StateId
  target : StateId
  symbol : Symbol
  deriving DecidableEq, Repr

/-- Adds `symbol` to the edge of the list with the given target, or a new edge at the end. -/
def Edge.connect (source target : StateId) (symbol : Symbol) : List Edge → List Edge
  | [] => [⟨source, target, {symbol}⟩]
  | e :: rest =>
    if e.target = target then { e with label := e.label.insert symbol } :: rest
    else e :: connect source target symbol rest

namespace State

/-- The target of the first edge that carries `a`. -/
def next? (s : State) (a : Symbol) : Option StateId := (s.edges.find? fun e => a ∈ e.label).map Edge.target

def same (s t : State) : Bool := s.id == t.id && s.kind.sameRole t.kind

end State

namespace Automaton

def size (fa : Automaton) : Nat := fa.states.size

def isEmpty (fa : Automaton) : Bool := fa.states.isEmpty

def state (fa : Automaton) (id : StateId) : Except Fault State :=
  match fa.states[id]? with
  | none => .error .outOfRange
  | some s => .ok s

/-- The outgoing edges of a state; none outside the automaton. -/
def edgesOf (fa : Automaton) (id : StateId) : List Edge :=
  match fa.states[id]? with
  | none => []
  | some s => s.edges

/-- The single steps from a state: edge by edge, and by symbol within an edge. -/
def arcsOf (fa : Automaton) (id : StateId) : List Arc :=
  (fa.edgesOf id).flatMap fun e => e.label.toList.map fun a => ⟨id, e.target, a⟩

/-- Acceptance of a state; false outside the automaton. -/
def accepting (fa : Automaton) (id : StateId) : Bool :=
  match fa.states[id]? with
  | none => false
  | some s => s.accepting

/-! ### Edits -/

/-- A further state without edges; its id is the number of states before. -/
def addState (fa : Automaton) (kind : Kind) (accepting : Bool) : Automaton :=
  { fa with states := fa.states.push { id := fa.size, kind, accepting } }

/-- A further symbol from `source` to `target`. -/
def addEdge (fa : Automaton) (source target : StateId) (symbol : Symbol) : Except Fault Automaton :=
  match fa.states[source]? with
  | none => .error .outOfRange
  | some s =>
    if symbol = .epsilon ∧ s.kind ≠ .nfa then .error .epsilonOnDeterministic
    else .ok { fa with
      states := fa.states.setIfInBounds source { s with edges := Edge.connect source target symbol s.edges } }

/-- Every symbol of `label` from `source` to `target`, in order. -/
def addLabeledEdge (fa : Automaton) (source target : StateId) (label : Label) : Except Fault Automaton :=
  label.toList.foldlM (fun fa a => fa.addEdge source target a) fa

def setAccepting (fa : Automaton) (id : StateId) (accepting : Bool) : Except Fault Automaton :=
  match fa.states[id]? with
  | none => .error .outOfRange
  | some s => .ok { fa with states := fa.states.setIfInBounds id { s with accepting } }

def setStart (fa : Automaton) (id : StateId) : Except Fault Automaton :=
  if id < fa.size then .ok { fa with start := id } else .error (.startOutOfRange id fa.size)

/-- The automaton with the given states, in order, and arcs, in order. Without a start it keeps the id zero. -/
def assemble (states : List (Kind × Bool)) (arcs : List Arc) (start? : Option StateId) :
    Except Fault Automaton := do
  let blank := states.foldl (fun (fa : Automaton) s => fa.addState s.1 s.2) {}
  let connected ← arcs.foldlM (fun fa arc => fa.addEdge arc.source arc.target arc.symbol) blank
  match start? with
  | none => return connected
  | some id => connected.setStart id

end Automaton
end FiniteAutomata
