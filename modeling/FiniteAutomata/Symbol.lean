/-! What one step of an automaton reads: nothing, or a single character. Symbols are ordered with the empty
    step first and the characters after it by code point. -/

namespace FiniteAutomata

/-- What a single step reads. -/
inductive Symbol where
  | epsilon
  | char (c : Char)
  deriving DecidableEq, Repr, Inhabited

namespace Symbol

def isEpsilon : Symbol → Bool
  | epsilon => true
  | char _ => false

/-- The character read, if any. -/
def char? : Symbol → Option Char
  | epsilon => none
  | char c => some c

/-- The place in the order of symbols. -/
def rank : Symbol → Nat
  | epsilon => 0
  | char c => c.toNat + 1

instance : LT Symbol := ⟨fun a b => a.rank < b.rank⟩

instance (a b : Symbol) : Decidable (a < b) := inferInstanceAs (Decidable (a.rank < b.rank))

theorem lt_def {a b : Symbol} : a < b ↔ a.rank < b.rank := Iff.rfl

theorem rank_injective {a b : Symbol} (h : a.rank = b.rank) : a = b := by
  cases a with
  | epsilon => cases b with
    | epsilon => rfl
    | char d => exact absurd h (by simp [rank])
  | char c => cases b with
    | epsilon => exact absurd h (by simp [rank])
    | char d =>
      have : c.toNat = d.toNat := by simpa [rank] using h
      rw [Char.toNat_inj.mp this]

theorem lt_trichotomy (a b : Symbol) : a < b ∨ a = b ∨ b < a := by
  simp only [lt_def]
  rcases Nat.lt_trichotomy a.rank b.rank with h | h | h
  · exact Or.inl h
  · exact Or.inr (Or.inl (rank_injective h))
  · exact Or.inr (Or.inr h)

end Symbol
end FiniteAutomata
