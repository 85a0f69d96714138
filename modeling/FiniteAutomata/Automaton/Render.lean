import FiniteAutomata.Automaton.Walk
import FiniteAutomata.Text.Quoted

/-! The printed form of an automaton: its start, then a line for each reachable state in the order of a walk,
    with its acceptance, its members if it stands for a block, and its edges. -/

namespace FiniteAutomata

def Text.decimal (n : Nat) : List Char := Nat.toDigits 10 n

/-- The empty step is written `ε` and a character in quotes. -/
def Symbol.text : Symbol → List Char
  | epsilon => ['ε']
  | char c => Text.quoted c

/-- The symbols in order, separated by spaces. -/
def Label.text (l : Label) : List Char := [' '].intercalate (l.toList.map Symbol.text)

/-- The members in ascending order, between braces. -/
def StateSet.text (s : StateSet) : List Char :=
  ['{'] ++ [',', ' '].intercalate (s.toList.map Text.decimal) ++ ['}']

/-- The label in brackets, then the target. -/
def Edge.text (e : Edge) : List Char :=
  " [".toList ++ e.label.text ++ "] -> ".toList ++ Text.decimal e.target ++ [';']

/-- The members of a state that stands for a block. -/
def Kind.text : Kind → List Char
  | nfa => []
  | dfa => []
  | partition members => [' '] ++ members.text

/-- A state but for its id: acceptance, members, edges. -/
def State.text (s : State) : List Char :=
  (if s.accepting then " (accepting)".toList else []) ++ s.kind.text ++ s.edges.flatMap Edge.text

namespace Automaton

def lineOf (fa : Automaton) (id : StateId) : List Char :=
  match fa.states[id]? with
  | none => []
  | some s => "  ".toList ++ Text.decimal id ++ s.text ++ ['\n']

def text (fa : Automaton) : Except Fault (List Char) := do
  let view ← fa.view
  return "start: ".toList ++ Text.decimal fa.start ++ ['\n'] ++ view.states.flatMap fa.lineOf

def render (fa : Automaton) : Except Fault String := return String.ofList (← fa.text)

end Automaton
end FiniteAutomata
