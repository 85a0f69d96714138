import FiniteAutomata.Pattern.Grammar
import FiniteAutomata.Pattern.Parse
import Mathlib.Logic.Basic

/-! The reader's tables against the grammar. Each character that the grammar names is read as one token, any other one
    is plain, and an escaped character is read as what it stands for. -/

namespace FiniteAutomata

variable {token : Token} {op : Repetition} {c d : Char}

/-- The character that a token other than `plain` is read from. -/
def Token.char? : Token → Option Char
  | opening => some '('
  | closing => some ')'
  | bar => some '|'
  | repetition op => some op.operator
  | escape => some '\\'
  | plain => none

theorem ofChar_eq_iff (special : token.char? = some d) : Token.ofChar c = token ↔ c = d := by
  constructor
  · rintro rfl
    unfold Token.ofChar at special
    grind [Token.char?, Repetition.operator]
  · rintro rfl
    cases token with
    | repetition op => cases op <;> cases special <;> rfl
    | plain => cases special
    | opening | closing | bar | escape => cases special; rfl

theorem ofChar_eq_plain_iff : Token.ofChar c = .plain ↔ c ∉ ['(', ')', '|', '*', '+', '?', '\\'] := by
  simp [Token.ofChar, ite_eq_iff]

theorem isBracket_iff : Regex.isBracket c = true ↔ c ∈ ['[', ']'] := by simp [Regex.isBracket]

theorem isPlain_iff : IsPlain c ↔ Token.ofChar c = .plain ∧ Regex.isBracket c = false := by
  rw [IsPlain, ofChar_eq_plain_iff, ← Bool.not_eq_true, isBracket_iff, ← not_or, ← List.mem_append]
  rfl

theorem unescape_eq_self (h : c ∉ ['n', 't', 'r']) : unescape c = c := by
  simp only [List.mem_cons, List.not_mem_nil, or_false, not_or] at h
  simp [unescape, h]

theorem standsFor_iff : StandsFor c d ↔ d = unescape c := by
  constructor
  · intro h
    cases h with
    | newline | tab | carriageReturn => rfl
    | itself other => exact (unescape_eq_self other).symm
  · rintro rfl
    by_cases letter : c ∈ ['n', 't', 'r']
    · simp only [List.mem_cons, List.not_mem_nil, or_false] at letter
      rcases letter with rfl | rfl | rfl
      · exact .newline
      · exact .tab
      · exact .carriageReturn
    · rw [unescape_eq_self letter]
      exact .itself letter

theorem isOperator_iff : IsOperator c op ↔ c = op.operator := by
  constructor
  · intro h
    cases h <;> rfl
  · rintro rfl
    cases op with
    | star => exact .star
    | plus => exact .plus
    | optional => exact .optional

theorem ofChar_operator (op : Repetition) : Token.ofChar op.operator = .repetition op := (ofChar_eq_iff rfl).mpr rfl

theorem eq_of_ofChar (h : Token.ofChar c = token) (special : token.char? = some d) : c = d := (ofChar_eq_iff special).mp h

end FiniteAutomata
