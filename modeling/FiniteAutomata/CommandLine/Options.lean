import FiniteAutomata.Compile

/-! The options of the command. Arguments are read in order, a later one overrides an earlier one, and the
    first that is not understood is the error. -/

namespace FiniteAutomata

/-- What the arguments ask for. -/
structure Options where
  strategy : Strategy := .partition
  stage : Stage := .minimal
  /-- Run both strategies and compare their results. -/
  check : Bool := false
  /-- Explain the command and do nothing else. -/
  help : Bool := false
  deriving DecidableEq, Repr

/-- Why an argument is refused. -/
inductive OptionError where
  | unknownOption (argument : String)
  | badValue (option value : String)
  deriving DecidableEq, Repr

def OptionError.message : OptionError → String
  | unknownOption argument => s!"unknown option `{argument}`"
  | badValue option value => s!"bad value `{value}` for `{option}`"

def Strategy.ofName (name : String) : Except OptionError Strategy :=
  if name = "partition" then .ok .partition
  else if name = "reversal" ∨ name = "brzozowski" then .ok .reversal
  else .error (.badValue "--strategy" name)

def Stage.ofName (name : String) : Except OptionError Stage :=
  if name = "nfa" then .ok .nfa
  else if name = "dfa" then .ok .dfa
  else if name = "min" ∨ name = "minimal" then .ok .minimal
  else .error (.badValue "--stage" name)

namespace Options

/-- The two sides of the first `=` of an argument. -/
def assignment? (argument : String) : Option (String × String) :=
  let name := argument.toList.takeWhile (· ≠ '=')
  match argument.toList.drop name.length with
  | [] => none
  | _ :: value => some (String.ofList name, String.ofList value)

def read (options : Options) (argument : String) : Except OptionError Options :=
  match assignment? argument with
  | some (name, value) =>
    if name = "--strategy" then (Strategy.ofName value).map fun strategy => { options with strategy }
    else if name = "--stage" then (Stage.ofName value).map fun stage => { options with stage }
    else .error (.unknownOption argument)
  | none =>
    if argument = "--check" then .ok { options with check := true }
    else if argument = "-h" ∨ argument = "--help" then .ok { options with help := true }
    else .error (.unknownOption argument)

def ofArguments (arguments : List String) : Except OptionError Options := arguments.foldlM read {}

end Options
end FiniteAutomata
