import FiniteAutomata.Pattern.Regex

/-! The grammar of patterns, with the characters that mean something in it written out. An atom is a plain character,
    an escaped one or a group; a repetition is an atom with any number of operators after it; a sequence is nothing, or
    a repetition and then a sequence; alternatives are a sequence, or a sequence, a bar and then alternatives. -/

namespace FiniteAutomata

/-- The syntactic categories of patterns. -/
inductive Category where
  | atom
  | repetition
  | sequence
  | alternatives
  deriving DecidableEq, Repr

/-- A character that stands for itself. -/
def IsPlain (c : Char) : Prop := c ∉ ['(', ')', '|', '*', '+', '?', '\\', '[', ']']

instance : DecidablePred IsPlain := fun _ => inferInstanceAs (Decidable (¬_))

/-- What a character stands for when a backslash comes before it. Three controls have letters, and any other character is
    taken literally. -/
inductive StandsFor : Char → Char → Prop where
  | newline : StandsFor 'n' '\n'
  | tab : StandsFor 't' '\t'
  | carriageReturn : StandsFor 'r' '\r'
  | itself {c : Char} (h : c ∉ ['n', 't', 'r']) : StandsFor c c

/-- A character after an atom, and how often it lets the atom occur. -/
inductive IsOperator : Char → Repetition → Prop where
  | star : IsOperator '*' .star
  | plus : IsOperator '+' .plus
  | optional : IsOperator '?' .optional

/-- A text of the given category spells the given expression. -/
inductive Derives : Category → List Char → Regex → Prop where
  | plain {c : Char} (h : IsPlain c) : Derives .atom [c] (.literal c)
  | escaped {c d : Char} (h : StandsFor c d) : Derives .atom ['\\', c] (.literal d)
  | group {text : List Char} {r : Regex} (h : Derives .alternatives text r) :
      Derives .atom (['('] ++ text ++ [')']) r
  | ofAtom {text : List Char} {r : Regex} (h : Derives .atom text r) : Derives .repetition text r
  | repeated {text : List Char} {r : Regex} {c : Char} {op : Repetition} (h : Derives .repetition text r)
      (operator : IsOperator c op) : Derives .repetition (text ++ [c]) (.repeated op r)
  | nothing : Derives .sequence [] .empty
  | item {text rest : List Char} {r s : Regex} (h : Derives .repetition text r) (tail : Derives .sequence rest s) :
      Derives .sequence (text ++ rest) (.seq r s)
  | ofSequence {text : List Char} {r : Regex} (h : Derives .sequence text r) : Derives .alternatives text r
  | choice {text rest : List Char} {r s : Regex} (h : Derives .sequence text r)
      (tail : Derives .alternatives rest s) : Derives .alternatives (text ++ ['|'] ++ rest) (.alt r s)

end FiniteAutomata
