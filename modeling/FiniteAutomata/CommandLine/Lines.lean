/-! The lines of an input of bytes, and the pattern on a line. A line ends with a line feed or, if a carriage
    return stands before it, with both; a last line may lack its end, and then loses nothing. One more
    carriage return at the end of a line is no part of its pattern. -/

namespace FiniteAutomata.Lines

/-- A line that a line feed ends, from its bytes, latest first. -/
def ended : List UInt8 → List UInt8
  | 13 :: before => before.reverse
  | bytes => bytes.reverse

/-- The lines of an input, where `current` holds the bytes of the line so far, latest first. -/
def splitFrom (current : List UInt8) : List UInt8 → List (List UInt8)
  | [] => if current.isEmpty then [] else [current.reverse]
  | b :: rest => if b = 10 then ended current :: splitFrom [] rest else splitFrom (b :: current) rest

def split (input : List UInt8) : List (List UInt8) := splitFrom [] input

/-- The characters of a line, if its bytes are UTF-8. -/
def decode? (line : List UInt8) : Option (List Char) :=
  (String.fromUTF8? ⟨line.toArray⟩).map String.toList

def patternOf (line : List Char) : List Char :=
  if line.getLast? = some '\r' then line.dropLast else line

end FiniteAutomata.Lines
