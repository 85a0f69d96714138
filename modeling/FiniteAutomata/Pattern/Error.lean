import FiniteAutomata.Pattern.Regex

/-! Why a pattern is refused. Every error has the offset of the character it is about, counted in characters
    from zero. -/

namespace FiniteAutomata

/-- What is wrong with a pattern. -/
inductive PatternError where
  /-- Bracket expressions are not part of the language of patterns. -/
  | unsupportedBracket (offset : Nat) (bracket : Char)
  | unmatchedOpen (offset : Nat)
  | unmatchedClose (offset : Nat)
  | nothingToRepeat (offset : Nat) (op : Repetition)
  | danglingEscape (offset : Nat)
  deriving DecidableEq, Repr

namespace PatternError

/-- The offset of the character the error is about. -/
def offset : PatternError → Nat
  | unsupportedBracket offset _ => offset
  | unmatchedOpen offset => offset
  | unmatchedClose offset => offset
  | nothingToRepeat offset _ => offset
  | danglingEscape offset => offset

def message : PatternError → String
  | unsupportedBracket offset bracket => s!"bracket expressions are not supported: `{bracket}` at offset {offset}"
  | unmatchedOpen offset => s!"unmatched '(' at offset {offset}"
  | unmatchedClose offset => s!"unmatched ')' at offset {offset}"
  | nothingToRepeat offset op =>
    let operator := op.operator
    s!"nothing to repeat: `{operator}` at offset {offset}"
  | danglingEscape offset => s!"unfollowed '\\' at offset {offset}"

/-- The pattern uses what is left out on purpose, as opposed to being ill-formed. -/
def isUnsupported : PatternError → Bool
  | unsupportedBracket _ _ => true
  | _ => false

end PatternError
end FiniteAutomata
