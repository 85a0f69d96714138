import FiniteAutomata.Compile

/-! What the offset of an error says about the pattern. An error is found where reading from left to right has to stop:
    what comes before its offset begins some pattern that has an automaton, and what ends there begins none. Only two
    errors are found at the end of the pattern: a lone escape, which is the last character, and a group that is still
    open, of which the outermost is reported. -/

namespace FiniteAutomata

/-- The pattern has an automaton. -/
def Builds (pattern : List Char) : Prop := ∃ fa, Automaton.ofPattern pattern = .ok fa

/-- A pattern that has an automaton begins with the text. -/
def Viable (text : List Char) : Prop := ∃ rest, Builds (text ++ rest)

/-- The character at the offset is `c`, and the first after which no pattern can be made of the text. -/
structure Breaks (pattern : List Char) (offset : Nat) (c : Char) : Prop where
  culprit : pattern[offset]? = some c
  before : Viable (pattern.take offset)
  after : ¬Viable (pattern.take (offset + 1))

/-- What the error claims of the pattern holds of it. -/
def PatternError.Locates (pattern : List Char) : PatternError → Prop
  | unsupportedBracket offset bracket =>
    pattern[offset]? = some bracket ∧ bracket ∈ ['[', ']'] ∧ ∀ c ∈ pattern.take offset, c ∉ ['[', ']']
  | unmatchedOpen offset =>
    pattern[offset]? = some '(' ∧ Builds (pattern.take offset) ∧
      ∃ n, 0 < n ∧ Builds (pattern ++ List.replicate n ')')
  | unmatchedClose offset => Breaks pattern offset ')'
  | nothingToRepeat offset op => Breaks pattern offset op.operator
  | danglingEscape offset =>
    offset + 1 = pattern.length ∧ pattern[offset]? = some '\\' ∧ Viable (pattern.take offset)

end FiniteAutomata
