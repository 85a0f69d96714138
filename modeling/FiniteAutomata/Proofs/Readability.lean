import FiniteAutomata.Proofs.Tokens

/-! The grammar of patterns is unambiguous. What may come after a text of a category is known from its first token, so
    of two texts of one category neither can go on where the other one stops. Repetitions are the exception,
    because an operator may follow them: two of them are compared by the atoms they begin with. -/

namespace FiniteAutomata

variable {k : Category} {text text' x x' : List Char} {r r' s : Regex} {c d : Char}
  {op : Repetition}

/-! ### What may follow -/

/-- The tokens that end a text of the category. -/
def Category.endedBy : Category → Token → Bool
  | atom, _ => true
  | repetition, .repetition _ => false
  | repetition, _ => true
  | sequence, .bar => true
  | sequence, .closing => true
  | sequence, _ => false
  | alternatives, .closing => true
  | alternatives, _ => false

/-- Whatever comes next ends a text of the category. -/
def Category.Ends (k : Category) (rest : List Char) : Prop := ∀ c ∈ rest.head?, k.endedBy (Token.ofChar c) = true

theorem ends_nil (k : Category) : k.Ends [] := fun _ h => nomatch h

theorem ends_cons : k.Ends (c :: x) ↔ k.endedBy (Token.ofChar c) = true := by
  simp [Category.Ends]

/-- A character that begins an atom goes on with a sequence, and ends a repetition. -/
theorem Derives.atom_head (h : Derives .atom text r) : ∃ c rest, text = c :: rest ∧
    Category.endedBy .sequence (Token.ofChar c) = false ∧ Category.endedBy .repetition (Token.ofChar c) = true := by
  cases h with
  | plain plain =>
    have token := (isPlain_iff.mp plain).1
    exact ⟨_, _, rfl, by rw [token]; rfl, by rw [token]; rfl⟩
  | escaped _ => exact ⟨_, _, rfl, rfl, rfl⟩
  | group _ => exact ⟨_, _, rfl, rfl, rfl⟩

/-! ### Repetitions -/

/-- The second text is the first one with operators after it. -/
def Repeats (text : List Char) (r : Regex) (text' : List Char) (r' : Regex) : Prop :=
  ∃ ops : List Repetition, text' = text ++ ops.map Repetition.operator ∧
    r' = ops.foldl (fun r op => .repeated op r) r

theorem Repeats.refl (text : List Char) (r : Regex) : Repeats text r text r := ⟨[], by simp, rfl⟩

theorem Repeats.snoc (h : Repeats text r text' r') (operator : IsOperator c op) :
    Repeats text r (text' ++ [c]) (.repeated op r') := by
  obtain ⟨ops, rfl, rfl⟩ := h
  obtain rfl := isOperator_iff.mp operator
  exact ⟨ops ++ [op], by simp, by simp⟩

theorem Derives.exists_atom (h : Derives .repetition text r) : ∃ u s, Derives .atom u s ∧ Repeats u s text r := by
  generalize hk : Category.repetition = k at h
  induction h with
  | ofAtom h _ => exact ⟨_, _, h, .refl _ _⟩
  | repeated _ operator ih =>
    obtain ⟨u, s, atom, repeats⟩ := ih rfl
    exact ⟨u, s, atom, repeats.snoc operator⟩
  | plain | escaped | group | nothing | item | ofSequence | choice => cases hk

theorem Derives.head (h : Derives .repetition text r) : ∃ c rest, text = c :: rest ∧
    Category.endedBy .sequence (Token.ofChar c) = false ∧ Category.endedBy .repetition (Token.ofChar c) = true := by
  obtain ⟨u, s, atom, ops, rfl, -⟩ := h.exists_atom
  obtain ⟨c, rest, rfl, goesOn, ends⟩ := atom.atom_head
  exact ⟨c, rest ++ _, rfl, goesOn, ends⟩

theorem Derives.ends_append (h : Derives .sequence text r) (ends : Category.Ends .sequence x) :
    Category.Ends .repetition (text ++ x) := by
  cases h with
  | nothing =>
    intro c hc
    have := ends c hc
    revert this
    cases Token.ofChar c <;> simp [Category.endedBy]
  | item first _ =>
    obtain ⟨c, rest, rfl, -, ends'⟩ := first.head
    exact ends_cons.mpr ends'

/-- Operators stop where something else begins. -/
theorem operators_eq {ops ops' : List Repetition} (ends : Category.Ends .repetition x)
    (ends' : Category.Ends .repetition x')
    (h : ops.map Repetition.operator ++ x = ops'.map Repetition.operator ++ x') : ops = ops' ∧ x = x' := by
  have noOperator : ∀ {op : Repetition} {y}, ¬Category.Ends .repetition (op.operator :: y) := by
    intro op y hends
    rw [ends_cons, ofChar_operator] at hends
    cases hends
  induction ops generalizing ops' with
  | nil =>
    cases ops' with
    | nil => exact ⟨rfl, h⟩
    | cons op ops' => exact absurd (show x = _ from h) fun heq => noOperator (heq ▸ ends)
  | cons op ops ih =>
    cases ops' with
    | nil => exact absurd (show _ = x' from h) fun heq => noOperator (heq ▸ ends')
    | cons op' ops' =>
      obtain ⟨hop, h⟩ := List.cons.inj h
      have same : op = op' := by
        have := congrArg Token.ofChar hop
        rw [ofChar_operator, ofChar_operator] at this
        exact Token.repetition.inj this
      obtain ⟨rfl, rfl⟩ := ih h
      exact ⟨same ▸ rfl, rfl⟩

/-! ### One reading -/

/-- No other text of the category begins where this one does, and it has no other reading. -/
def Sole (k : Category) (text : List Char) (r : Regex) : Prop :=
  ∀ text' r' x x', Derives k text' r' → k.Ends x → k.Ends x' → text ++ x = text' ++ x' → text = text' ∧ r = r'

theorem Repeats.sole (h : Repeats text r text' r') (sole : Sole .atom text r) : Sole .repetition text' r' := by
  intro text₂ r₂ x x' derives ends ends' heq
  obtain ⟨ops, rfl, rfl⟩ := h
  obtain ⟨u, s, atom, ops', rfl, rfl⟩ := derives.exists_atom
  rw [List.append_assoc, List.append_assoc] at heq
  obtain ⟨rfl, rfl⟩ := sole u s _ _ atom (fun _ _ => rfl) (fun _ _ => rfl) heq
  obtain ⟨rfl, -⟩ := operators_eq ends ends' (List.append_cancel_left heq)
  exact ⟨rfl, rfl⟩

theorem IsPlain.sole (plain : IsPlain c) : Sole .atom [c] (.literal c) := by
  intro text' r' x x' derives _ _ heq
  cases derives with
  | plain _ =>
    obtain ⟨rfl, -⟩ := List.cons.inj heq
    exact ⟨rfl, rfl⟩
  | escaped _ =>
    obtain ⟨rfl, -⟩ := List.cons.inj heq
    exact absurd plain (by decide)
  | group _ =>
    obtain ⟨rfl, -⟩ := List.cons.inj heq
    exact absurd plain (by decide)

theorem StandsFor.sole (stands : StandsFor c d) : Sole .atom ['\\', c] (.literal d) := by
  intro text' r' x x' derives _ _ heq
  cases derives with
  | plain plain =>
    obtain ⟨rfl, -⟩ := List.cons.inj heq
    exact absurd plain (by decide)
  | escaped stands' =>
    obtain ⟨rfl, -⟩ := List.cons.inj (List.cons.inj heq).2
    obtain rfl := (standsFor_iff.mp stands).trans (standsFor_iff.mp stands').symm
    exact ⟨rfl, rfl⟩
  | group _ => cases (List.cons.inj heq).1

theorem Sole.group (sole : Sole .alternatives text r) : Sole .atom (['('] ++ text ++ [')']) r := by
  intro text' r' x x' derives _ _ heq
  cases derives with
  | plain plain =>
    obtain ⟨rfl, -⟩ := List.cons.inj heq
    exact absurd plain (by decide)
  | escaped _ => cases (List.cons.inj heq).1
  | @group inside _ inner =>
    have heq' : text ++ ([')'] ++ x) = inside ++ ([')'] ++ x') := by simpa using heq
    obtain ⟨rfl, rfl⟩ := sole _ _ _ _ inner (ends_cons.mpr rfl) (ends_cons.mpr rfl) heq'
    exact ⟨rfl, rfl⟩

theorem Derives.not_ends (h : Derives .repetition text r) : ¬Category.Ends .sequence (text ++ x) := by
  obtain ⟨c, rest, rfl, goesOn, -⟩ := h.head
  intro ends
  rw [List.cons_append, ends_cons, goesOn] at ends
  cases ends

theorem sole_nothing : Sole .sequence [] .empty := by
  intro text' r' x x' derives ends _ heq
  cases derives with
  | nothing => exact ⟨rfl, rfl⟩
  | item first _ =>
    rw [List.nil_append, List.append_assoc] at heq
    exact absurd (heq ▸ ends) first.not_ends

theorem Sole.item {rest : List Char} (first : Derives .repetition text r) (tail : Derives .sequence rest s)
    (sole : Sole .repetition text r) (sole' : Sole .sequence rest s) : Sole .sequence (text ++ rest) (.seq r s) := by
  intro text' r' x x' derives ends ends' heq
  rw [List.append_assoc] at heq
  cases derives with
  | nothing => exact absurd (heq ▸ ends' : Category.Ends .sequence (text ++ (rest ++ x))) first.not_ends
  | item first' tail' =>
    rw [List.append_assoc] at heq
    -- A sequence or its end follows either item, and neither begins with an operator.
    obtain ⟨rfl, rfl⟩ := sole _ _ _ _ first' (tail.ends_append ends) (tail'.ends_append ends') heq
    obtain ⟨rfl, rfl⟩ := sole' _ _ _ _ tail' ends ends' (List.append_cancel_left heq)
    exact ⟨rfl, rfl⟩

theorem ends_sequence (h : Category.Ends .alternatives x) : Category.Ends .sequence x := by
  intro c hc
  have := h c hc
  revert this
  cases Token.ofChar c <;> simp [Category.endedBy]

theorem Sole.ofSequence (sole : Sole .sequence text r) : Sole .alternatives text r := by
  intro text' r' x x' derives ends ends' heq
  cases derives with
  | ofSequence only => exact sole _ _ _ _ only (ends_sequence ends) (ends_sequence ends') heq
  | choice first _ =>
    rw [List.append_assoc, List.append_assoc] at heq
    -- The sequences are one, so a bar would come where the alternatives end.
    obtain ⟨rfl, -⟩ := sole _ _ _ _ first (ends_sequence ends) (ends_cons.mpr rfl) heq
    rw [List.append_cancel_left heq] at ends
    cases ends_cons.mp ends

theorem Sole.choice {rest : List Char} (sole : Sole .sequence text r) (sole' : Sole .alternatives rest s) :
    Sole .alternatives (text ++ ['|'] ++ rest) (.alt r s) := by
  intro text' r' x x' derives ends ends' heq
  rw [List.append_assoc, List.append_assoc] at heq
  cases derives with
  | ofSequence only =>
    obtain ⟨rfl, -⟩ := sole _ _ _ _ only (ends_cons.mpr rfl) (ends_sequence ends') heq
    rw [← List.append_cancel_left heq] at ends'
    cases ends_cons.mp ends'
  | choice first tail =>
    rw [List.append_assoc, List.append_assoc] at heq
    obtain ⟨rfl, rfl⟩ := sole _ _ _ _ first (ends_cons.mpr rfl) (ends_cons.mpr rfl) heq
    have after := (List.cons.inj (List.append_cancel_left heq)).2
    obtain ⟨rfl, rfl⟩ := sole' _ _ _ _ tail ends ends' after
    exact ⟨rfl, rfl⟩

/-- What the induction on a derivation keeps: an operator after a repetition extends it, so of a repetition only
    the atom is settled. -/
def Settled : Category → List Char → Regex → Prop
  | .repetition, text, r => ∃ u s, Sole .atom u s ∧ Repeats u s text r
  | k, text, r => Sole k text r

theorem Derives.settled (h : Derives k text r) : Settled k text r := by
  induction h with
  | plain plain => exact plain.sole
  | escaped stands => exact stands.sole
  | group _ ih => exact Sole.group ih
  | ofAtom _ ih => exact ⟨_, _, ih, .refl _ _⟩
  | repeated _ operator ih =>
    obtain ⟨u, s, sole, repeats⟩ := ih
    exact ⟨u, s, sole, repeats.snoc operator⟩
  | nothing => exact sole_nothing
  | item first tail ih ih' =>
    obtain ⟨u, s, sole, repeats⟩ := ih
    exact Sole.item first tail (repeats.sole sole) ih'
  | ofSequence _ ih => exact Sole.ofSequence ih
  | choice _ _ ih ih' => exact Sole.choice ih ih'

/-- A pattern has one derivation at most. -/
theorem Derives.unique (h : Derives .alternatives text r) (h' : Derives .alternatives text s) : r = s :=
  (h.settled _ _ [] [] h' (ends_nil _) (ends_nil _) rfl).2

end FiniteAutomata
