import FiniteAutomata.CommandLine.Lines

/-! What the lines of an input are, apart from how they are found. Every text falls into lines in one way: a line ends
    with a line feed or with a carriage return and a line feed, the longer end where both fit, and the last line may
    lack its end. The contents of a line are all its characters but those of its end. -/

namespace FiniteAutomata.Lines

/-- The UTF-8 bytes of a text. -/
def encode (text : List Char) : List UInt8 := text.flatMap String.utf8EncodeChar

/-- No line lacks its end. -/
def Whole (input : List UInt8) : Prop := input = [] ∨ input.getLast? = some 10

/-- Every line is UTF-8. -/
def Decodable (input : List UInt8) : Prop := ∀ line ∈ split input, (decode? line).isSome = true

/-- The contents of the lines of a text. -/
inductive Contents : List Char → List (List Char) → Prop where
  | nil : Contents [] []
  | unfinished {line : List Char} (h : '\n' ∉ line) (filled : line ≠ []) : Contents line [line]
  | feed {line text : List Char} {lines : List (List Char)} (h : '\n' ∉ line) (bare : line.getLast? ≠ some '\r')
      (rest : Contents text lines) : Contents (line ++ '\n' :: text) (line :: lines)
  | returnFeed {line text : List Char} {lines : List (List Char)} (h : '\n' ∉ line) (rest : Contents text lines) :
      Contents (line ++ '\r' :: '\n' :: text) (line :: lines)

end FiniteAutomata.Lines
