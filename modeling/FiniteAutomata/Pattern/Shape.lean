import Mathlib.Data.List.Infix

/-! What the characters of a readable pattern look like, without its levels: the parentheses pair up and every operator
    comes after something that it can repeat. Both are checked from left to right, and neither knows of nesting
    beyond a count. -/

namespace FiniteAutomata

/-- A character of a text with the escape before it, if it has one. -/
inductive Glyph where
  | bare (c : Char)
  | escaped (c : Char)
  deriving DecidableEq, Repr

namespace Glyph

/-- The glyphs of a text. A text that ends in a lone escape has none. -/
def ofText? : List Char → Option (List Glyph)
  | [] => some []
  | c :: rest =>
    if c = '\\' then
      match rest with
      | [] => none
      | d :: rest => (ofText? rest).map (escaped d :: ·)
    else (ofText? rest).map (bare c :: ·)

/-- With `depth` parentheses open before the glyphs, none of them closes one that is not open, and all are closed in
    the end. -/
def Balanced (depth : Nat) (glyphs : List Glyph) : Prop :=
  (∀ u ∈ glyphs.inits, u.count (bare ')') ≤ depth + u.count (bare '(')) ∧
    glyphs.count (bare ')') = depth + glyphs.count (bare '(')

instance (depth : Nat) (glyphs : List Glyph) : Decidable (Balanced depth glyphs) :=
  inferInstanceAs (Decidable (_ ∧ _))

/-- The glyph is an operator. -/
def NeedsOperand (g : Glyph) : Prop := g ∈ [bare '*', bare '+', bare '?']

instance : DecidablePred NeedsOperand := fun _ => inferInstanceAs (Decidable (_ ∈ _))

/-- An operator may come after the glyph. -/
def Repeatable (g : Glyph) : Prop := g ∉ [bare '(', bare '|']

instance : DecidablePred Repeatable := fun _ => inferInstanceAs (Decidable (¬_))

/-- No operator comes after an opening parenthesis or a bar. What comes before the glyphs is `before`, and the start of
    a pattern is like an opening parenthesis. -/
def Supported (before : Glyph) (glyphs : List Glyph) : Prop :=
  (before :: glyphs).IsChain fun a b => b.NeedsOperand → a.Repeatable

instance (before : Glyph) (glyphs : List Glyph) : Decidable (Supported before glyphs) :=
  inferInstanceAs (Decidable (List.IsChain _ _))

variable {depth : Nat} {before g : Glyph} {glyphs : List Glyph} {c d : Char} {rest : List Char}

/-! ### Glyphs of a text -/

theorem ofText?_bare (h : c ≠ '\\') : ofText? (c :: rest) = (ofText? rest).map (bare c :: ·) := by
  rw [ofText?.eq_def]
  exact if_neg h

theorem ofText?_escaped : ofText? ('\\' :: d :: rest) = (ofText? rest).map (escaped d :: ·) := rfl

theorem ofText?_lone_escape : ofText? ['\\'] = none := rfl

/-! ### Parentheses -/

theorem forall_inits_cons {P : List Glyph → Prop} :
    (∀ u ∈ (g :: glyphs).inits, P u) ↔ P [] ∧ ∀ u ∈ glyphs.inits, P (g :: u) := by
  rw [List.inits_cons, List.forall_mem_cons, List.forall_mem_map]

theorem balanced_nil : Balanced depth [] ↔ depth = 0 := by simp [Balanced, eq_comm]

theorem balanced_opening : Balanced depth (bare '(' :: glyphs) ↔ Balanced (depth + 1) glyphs := by
  simp only [Balanced, forall_inits_cons]
  simp [Nat.add_assoc, Nat.add_comm 1]

theorem balanced_closing : Balanced (depth + 1) (bare ')' :: glyphs) ↔ Balanced depth glyphs := by
  simp only [Balanced, forall_inits_cons]
  simp [Nat.add_right_comm depth 1]

theorem not_balanced_closing : ¬Balanced 0 (bare ')' :: glyphs) := by
  rintro ⟨prefixes, -⟩
  simpa using prefixes [bare ')'] (by simp)

theorem balanced_cons (opening : g ≠ bare '(') (closing : g ≠ bare ')') :
    Balanced depth (g :: glyphs) ↔ Balanced depth glyphs := by
  simp only [Balanced, forall_inits_cons]
  simp [opening, closing]

/-! ### Operands -/

theorem supported_cons :
    Supported before (g :: glyphs) ↔ (g.NeedsOperand → before.Repeatable) ∧ Supported g glyphs :=
  List.isChain_cons_cons

end Glyph
end FiniteAutomata
