import FiniteAutomata.Pattern.Regex

/-! The words that a regular expression describes. -/

namespace FiniteAutomata.Regex

/-- The word is one of those that the expression describes. -/
inductive Matches : Regex → List Char → Prop where
  | empty : Matches .empty []
  | literal (c : Char) : Matches (.literal c) [c]
  | seq {r s : Regex} {u v : List Char} (first : Matches r u) (second : Matches s v) : Matches (.seq r s) (u ++ v)
  | left {r s : Regex} {u : List Char} (h : Matches r u) : Matches (.alt r s) u
  | right {r s : Regex} {u : List Char} (h : Matches s u) : Matches (.alt r s) u
  | starNil {r : Regex} : Matches (.repeated .star r) []
  | starCons {r : Regex} {u v : List Char} (first : Matches r u) (rest : Matches (.repeated .star r) v) :
      Matches (.repeated .star r) (u ++ v)
  | plus {r : Regex} {u v : List Char} (first : Matches r u) (rest : Matches (.repeated .star r) v) :
      Matches (.repeated .plus r) (u ++ v)
  | optionalNil {r : Regex} : Matches (.repeated .optional r) []
  | optionalOnce {r : Regex} {u : List Char} (h : Matches r u) : Matches (.repeated .optional r) u

theorem matches_empty_iff {word : List Char} : Matches .empty word ↔ word = [] :=
  ⟨fun h => by cases h; rfl, fun h => h ▸ .empty⟩

theorem matches_literal_iff {c : Char} {word : List Char} : Matches (.literal c) word ↔ word = [c] :=
  ⟨fun h => by cases h; rfl, fun h => h ▸ .literal c⟩

theorem matches_seq_iff {r s : Regex} {word : List Char} :
    Matches (.seq r s) word ↔ ∃ u v, word = u ++ v ∧ Matches r u ∧ Matches s v :=
  ⟨fun h => by cases h with | seq first second => exact ⟨_, _, rfl, first, second⟩,
   fun ⟨_, _, hw, first, second⟩ => hw ▸ .seq first second⟩

theorem matches_alt_iff {r s : Regex} {word : List Char} :
    Matches (.alt r s) word ↔ Matches r word ∨ Matches s word := by
  constructor
  · intro h
    cases h with
    | left h => exact Or.inl h
    | right h => exact Or.inr h
  · rintro (h | h)
    · exact .left h
    · exact .right h

theorem matches_plus_iff {r : Regex} {word : List Char} :
    Matches (.repeated .plus r) word ↔ ∃ u v, word = u ++ v ∧ Matches r u ∧ Matches (.repeated .star r) v :=
  ⟨fun h => by cases h with | plus first rest => exact ⟨_, _, rfl, first, rest⟩,
   fun ⟨_, _, hw, first, rest⟩ => hw ▸ .plus first rest⟩

theorem matches_optional_iff {r : Regex} {word : List Char} :
    Matches (.repeated .optional r) word ↔ word = [] ∨ Matches r word := by
  constructor
  · intro h
    cases h with
    | optionalNil => exact Or.inl rfl
    | optionalOnce h => exact Or.inr h
  · rintro (rfl | h)
    · exact .optionalNil
    · exact .optionalOnce h

end FiniteAutomata.Regex
