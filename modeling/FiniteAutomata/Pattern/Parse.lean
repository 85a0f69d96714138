import FiniteAutomata.Pattern.Error

/-! Reading a pattern. Groups bind tighter than repetitions, repetitions tighter than sequence, sequence tighter
    than `|`; sequences and alternatives nest to the right. A pattern is read once from left to right with a
    stack of the levels around the innermost open group, and the first character that cannot be read decides
    the error. Brackets are looked for first, in all of the pattern. -/

namespace FiniteAutomata

/-- The part that a character plays in a pattern. -/
inductive Token where
  | opening
  | closing
  | bar
  | repetition (op : Repetition)
  /-- The character after it is literal. -/
  | escape
  /-- Stands for itself. -/
  | plain
  deriving DecidableEq, Repr

/-- The part of a character that no escape precedes. -/
def Token.ofChar (c : Char) : Token :=
  if c = '(' then opening
  else if c = ')' then closing
  else if c = '|' then bar
  else if c = '*' then repetition .star
  else if c = '+' then repetition .plus
  else if c = '?' then repetition .optional
  else if c = '\\' then escape
  else plain

/-- The character that an escape stands for: three controls have letters, all else stands for itself. -/
def unescape (c : Char) : Char :=
  if c = 'n' then '\n' else if c = 't' then '\t' else if c = 'r' then '\r' else c

/-- What has been read of one level of nesting. -/
structure Level where
  /-- The alternatives before the last `|`, latest first. -/
  branches : List Regex := []
  /-- The items after it, latest first. -/
  items : List Regex := []
  deriving DecidableEq, Repr

namespace Level

/-- The sequence of some items, latest first; the empty word if there are none. -/
def sequence : List Regex → Regex
  | [] => .empty
  | last :: earlier => earlier.foldl (fun rest r => .seq r rest) last

/-- The level as one expression. -/
def finish (l : Level) : Regex := l.branches.foldl (fun rest r => .alt r rest) (sequence l.items)

/-- A further item. -/
def append (l : Level) (r : Regex) : Level := { l with items := r :: l.items }

/-- Ends an alternative. -/
def branch (l : Level) : Level := { branches := sequence l.items :: l.branches }

/-- Repeats the last item, if there is one. -/
def repeatLast? (l : Level) (op : Repetition) : Option Level :=
  match l.items with
  | [] => none
  | r :: rest => some { l with items := .repeated op r :: rest }

end Level

namespace Regex

/-- Reads the rest of a pattern, which begins at `offset`. The innermost open level is `level`; `outer` holds
    the levels around it, innermost first, each with the offset of the parenthesis that ended its reading. -/
def scan (offset : Nat) (level : Level) (outer : List (Nat × Level)) : List Char → Except PatternError Regex
  | [] =>
    match outer.getLast? with
    | some (opened, _) => .error (.unmatchedOpen opened)
    | none => .ok level.finish
  | c :: rest =>
    match Token.ofChar c with
    | .opening => scan (offset + 1) {} ((offset, level) :: outer) rest
    | .closing =>
      match outer with
      | [] => .error (.unmatchedClose offset)
      | (_, enclosing) :: outer => scan (offset + 1) (enclosing.append level.finish) outer rest
    | .bar => scan (offset + 1) level.branch outer rest
    | .repetition op =>
      match level.repeatLast? op with
      | none => .error (.nothingToRepeat offset op)
      | some level => scan (offset + 1) level outer rest
    | .escape =>
      match rest with
      | [] => .error (.danglingEscape offset)
      | d :: rest => scan (offset + 2) (level.append (.literal (unescape d))) outer rest
    | .plain => scan (offset + 1) (level.append (.literal c)) outer rest

/-- A character of a bracket expression. -/
def isBracket (c : Char) : Bool := c == '[' || c == ']'

/-- Reads a whole pattern. -/
def parse (pattern : List Char) : Except PatternError Regex :=
  match pattern.zipIdx.find? fun p => isBracket p.1 with
  | some (bracket, offset) => .error (.unsupportedBracket offset bracket)
  | none => scan 0 {} [] pattern

end Regex
end FiniteAutomata
