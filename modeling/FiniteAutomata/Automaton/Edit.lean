import FiniteAutomata.Automaton.Basic

/-! Edits made in place, one after the other, from an automaton without states. An edit that is refused reports its
    fault, and whatever it has done by then stays done; the edits after it go on from there. -/

namespace FiniteAutomata

/-- A change to an automaton, with any arguments. -/
inductive Edit where
  /-- Begins again without states. -/
  | clear
  | addState (kind : Kind) (accepting : Bool)
  | addEdge (source target : StateId) (symbol : Symbol)
  | addLabeledEdge (source target : StateId) (label : Label)
  | setAccepting (id : StateId) (accepting : Bool)
  | setStart (id : StateId)
  deriving DecidableEq, Repr

/-- What an edit leaves behind, and why it ended early if it did. -/
structure Edited where
  automaton : Automaton
  fault? : Option Fault := none
  deriving DecidableEq, Repr

/-- A change that is made as a whole or not at all. -/
def Edited.ofResult (fa : Automaton) : Except Fault Automaton → Edited
  | .ok changed => { automaton := changed }
  | .error fault => { automaton := fa, fault? := some fault }

/-- The changed automaton, or the fault alone. -/
def Edited.result (edited : Edited) : Except Fault Automaton :=
  match edited.fault? with
  | none => .ok edited.automaton
  | some fault => .error fault

/-- Adds symbols one by one until one is refused; those before it are kept. -/
def Automaton.connectEach (fa : Automaton) (source target : StateId) : List Symbol → Edited
  | [] => { automaton := fa }
  | a :: rest =>
    match fa.addEdge source target a with
    | .ok connected => connected.connectEach source target rest
    | .error fault => { automaton := fa, fault? := some fault }

namespace Edit

def apply (fa : Automaton) : Edit → Edited
  | clear => { automaton := {} }
  | addState kind accepting => { automaton := fa.addState kind accepting }
  | addEdge source target symbol => .ofResult fa (fa.addEdge source target symbol)
  | addLabeledEdge source target label => fa.connectEach source target label.toList
  | setAccepting id accepting => .ofResult fa (fa.setAccepting id accepting)
  | setStart id => .ofResult fa (fa.setStart id)

/-- What a sequence of edits leaves behind, whichever of them are refused. -/
def run (edits : List Edit) : Automaton := edits.foldl (fun fa edit => (edit.apply fa).automaton) {}

end Edit
end FiniteAutomata
