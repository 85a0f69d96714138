import FiniteAutomata.Automaton.Isomorphism
import FiniteAutomata.Automaton.Render
import FiniteAutomata.CommandLine.Lines
import FiniteAutomata.CommandLine.Options

/-! A run of the command: each line of the input is a pattern and gets a reply of its own. A pattern that is
    refused gets the error as its reply; a line that is not UTF-8 ends the run. -/

namespace FiniteAutomata

/-- What a run leaves behind. -/
structure Outcome where
  code : UInt32 := 0
  stdout : String := ""
  stderr : String := ""
  deriving DecidableEq, Repr

namespace Session

def usage : String :=
  "usage: rex2dfa [--strategy=partition|reversal] [--stage=nfa|dfa|min] [--check]\n\n" ++
  "Reads one pattern per line from stdin and prints the resulting automaton."

def heading : Stage → String
  | .nfa => "NFA:\n"
  | .dfa => "DFA:\n"
  | .minimal => "Minimized DFA:\n"

def shown (options : Options) (fa : Automaton) : Except Fault String := do
  let result ← options.stage.apply options.strategy fa
  let text ← result.render
  return heading options.stage ++ text ++ "\n"

/-- The sizes that the two strategies reach, and whether their results agree. -/
def checked (fa : Automaton) : Except Fault String := do
  let byPartition ← Strategy.partition.minimize fa
  let byReversal ← Strategy.reversal.minimize fa
  let same ← byPartition.isomorphic byReversal
  let m := byPartition.size
  let n := byReversal.size
  return s!"partition: {m} states, reversal: {n} states, isomorphic: {same}\n\n"

def answer (options : Options) (pattern : List Char) : Except Failure String := do
  let fa ← Automaton.ofPattern pattern
  let text ← (shown options fa).mapError .fault
  if options.check then
    let line ← (checked fa).mapError .fault
    return text ++ line
  else return text

/-- The reply to a pattern, which is the error if it is refused. -/
def reply (options : Options) (pattern : List Char) : String :=
  match answer options pattern with
  | .ok text => text
  | .error failure =>
    let message := failure.message
    s!"error: {message}\n"

/-- How a run over some lines ends. -/
inductive Ending where
  | finished
  /-- A line is not UTF-8. -/
  | undecodable
  deriving DecidableEq, Repr

/-- The replies to some lines up to the end of the run. -/
def replies (options : Options) : List (List UInt8) → List String × Ending
  | [] => ([], .finished)
  | line :: rest =>
    match Lines.decode? line with
    | none => ([], .undecodable)
    | some text =>
      let (later, ending) := replies options rest
      (reply options (Lines.patternOf text) :: later, ending)

/-- A run over an input. -/
def run (options : Options) (input : List UInt8) : Outcome :=
  match replies options (Lines.split input) with
  | (texts, .finished) => { stdout := String.join texts }
  | (texts, .undecodable) =>
    { code := 1, stdout := String.join texts, stderr := "error: stream did not contain valid UTF-8\n" }

/-- The outcome for arguments that leave the input unread: they are refused or ask for help. -/
def ofArguments (arguments : List String) : Except Outcome Options :=
  match Options.ofArguments arguments with
  | .error e =>
    let message := e.message
    .error { code := 2, stderr := s!"error: {message}\n{usage}\n" }
  | .ok options => if options.help then .error { stdout := usage ++ "\n" } else .ok options

/-- The command on given arguments and input. -/
def command (arguments : List String) (input : List UInt8) : Outcome :=
  match ofArguments arguments with
  | .error outcome => outcome
  | .ok options => run options input

end Session
end FiniteAutomata
