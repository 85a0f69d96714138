import FiniteAutomata.Text.Extending
import FiniteAutomata.Text.Ignorable
import FiniteAutomata.Text.Unprintable

/-! A character between single quotes. The quote, the backslash and four controls have short escapes; whatever
    else has no visible form, is ignored in a display or joins the character before it is written by its code
    point; and all else stands for itself. -/

namespace FiniteAutomata.Text

/-- The lower-case hexadecimal digits of a code point, without leading zeros. -/
def hexDigits (c : Char) : List Char := Nat.toDigits 16 c.toNat

/-- The character as its code point. -/
def codePointEscape (c : Char) : List Char := ['\\', 'u', '{'] ++ hexDigits c ++ ['}']

/-- Has no visible form that stands alone. ASCII is decided without the tables. -/
def needsCodePoint (c : Char) : Bool :=
  if c.toNat < 0x7f then c.toNat < 0x20 else isExtending c || isIgnorable c || isUnprintable c

/-- The character as it is written between the quotes. -/
def escaped (c : Char) : List Char :=
  if c = '\x00' then ['\\', '0']
  else if c = '\t' then ['\\', 't']
  else if c = '\n' then ['\\', 'n']
  else if c = '\r' then ['\\', 'r']
  else if c = '\'' then ['\\', '\'']
  else if c = '\\' then ['\\', '\\']
  else if needsCodePoint c then codePointEscape c
  else [c]

/-- The character between single quotes. -/
def quoted (c : Char) : List Char := ['\''] ++ escaped c ++ ['\'']

end FiniteAutomata.Text
