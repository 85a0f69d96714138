/-! Regular expressions as trees: what a pattern means, without its spelling. -/

namespace FiniteAutomata

/-- How often the body of a repetition may occur. -/
inductive Repetition where
  | star
  | plus
  | optional
  deriving DecidableEq, Repr

def Repetition.operator : Repetition → Char
  | star => '*'
  | plus => '+'
  | optional => '?'

/-- A regular expression over characters. -/
inductive Regex where
  | empty
  | literal (c : Char)
  | seq (first second : Regex)
  | alt (left right : Regex)
  | repeated (op : Repetition) (body : Regex)
  deriving DecidableEq, Repr, Inhabited

end FiniteAutomata
