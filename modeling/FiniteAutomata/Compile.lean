import FiniteAutomata.Minimize.DoubleReversal
import FiniteAutomata.Minimize.Refinement
import FiniteAutomata.Pattern.Fragment
import FiniteAutomata.Pattern.Parse

/-! From a pattern to an automaton, as far as a stage asks. -/

namespace FiniteAutomata

inductive Strategy where
  /-- Determinize, then refine a partition of the states. -/
  | partition
  /-- Reverse and determinize twice. -/
  | reversal
  deriving DecidableEq, Repr, Inhabited

/-- How far an automaton is worked on. -/
inductive Stage where
  | nfa
  | dfa
  | minimal
  deriving DecidableEq, Repr, Inhabited

/-- Why a pattern has no automaton. -/
inductive Failure where
  | pattern (error : PatternError)
  | fault (fault : Fault)
  deriving DecidableEq, Repr

def Failure.message : Failure → String
  | .pattern e => e.message
  | .fault f => f.message

/-- The minimal automaton of the language of `fa`. -/
def Strategy.minimize (strategy : Strategy) (fa : Automaton) : Except Fault Automaton :=
  match strategy with
  | partition => do
    let dfa ← fa.determinize
    dfa.minimizeByRefinement
  | reversal => fa.minimizeByReversal

/-- What a stage makes of the automaton of a pattern. -/
def Stage.apply (stage : Stage) (strategy : Strategy) (fa : Automaton) : Except Fault Automaton :=
  match stage with
  | nfa => .ok fa
  | dfa => fa.determinize
  | minimal => strategy.minimize fa

def Automaton.ofPattern (pattern : List Char) : Except Failure Automaton := do
  let r ← (Regex.parse pattern).mapError .pattern
  r.build.mapError .fault

/-- The automaton of a pattern at a stage. -/
def compile (stage : Stage) (strategy : Strategy) (pattern : List Char) : Except Failure Automaton := do
  let fa ← Automaton.ofPattern pattern
  (stage.apply strategy fa).mapError .fault

end FiniteAutomata
