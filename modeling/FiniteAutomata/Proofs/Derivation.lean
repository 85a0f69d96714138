import FiniteAutomata.Proofs.Reading

/-! Every text that the grammar derives is read. Whatever comes before it on the stack and after it in the pattern, a
    text of a category is read to its end without an error; an atom or a repetition leaves one further item on the
    level, so that an operator may follow. -/

namespace FiniteAutomata

variable {k : Category} {text rest pattern : List Char} {r : Regex} {op : Repetition} {c : Char}

/-- A text of the category is one item of its level. -/
def Category.isItem : Category → Bool
  | atom => true
  | repetition => true
  | sequence => false
  | alternatives => false

namespace Regex

variable {offset opened : Nat} {l l' : Level} {outer : List (Nat × Level)}

/-! ### Single steps -/

theorem scan_opening : scan offset l outer ('(' :: rest) = scan (offset + 1) {} ((offset, l) :: outer) rest := rfl

theorem scan_closing :
    scan offset l ((opened, l') :: outer) (')' :: rest) = scan (offset + 1) (l'.append l.finish) outer rest := rfl

theorem scan_bar : scan offset l outer ('|' :: rest) = scan (offset + 1) l.branch outer rest := rfl

theorem scan_repetition : scan offset (l.append r) outer (op.operator :: rest) =
    scan (offset + 1) (l.append (.repeated op r)) outer rest := by
  cases op <;> rfl

theorem scan_escape :
    scan offset l outer ('\\' :: c :: rest) = scan (offset + 2) (l.append (.literal (unescape c))) outer rest := rfl

theorem scan_plain (plain : Token.ofChar c = .plain) :
    scan offset l outer (c :: rest) = scan (offset + 1) (l.append (.literal c)) outer rest := by
  rw [scan.eq_def]
  simp only [plain]

/-! ### Derived texts

One lemma for each rule of the grammar, and from them the induction on a derivation. -/

/-- Reading goes on after the text with a level that has one more item if the text is one. -/
def Passes (k : Category) (text : List Char) : Prop :=
  ∀ offset l outer rest, ∃ l', (k.isItem = true → ∃ q, l' = Level.append l q) ∧
    scan offset l outer (text ++ rest) = scan (offset + text.length) l' outer rest

theorem passes_plain (plain : Token.ofChar c = .plain) : Passes .atom [c] :=
  fun _ l _ _ => ⟨l.append (.literal c), fun _ => ⟨_, rfl⟩, scan_plain plain⟩

theorem passes_escaped (c : Char) : Passes .atom ['\\', c] :=
  fun _ l _ _ => ⟨l.append (.literal (unescape c)), fun _ => ⟨_, rfl⟩, scan_escape⟩

theorem Passes.group (h : Passes .alternatives text) : Passes .atom (['('] ++ text ++ [')']) := by
  intro offset l outer rest
  obtain ⟨l', -, read⟩ := h (offset + 1) {} ((offset, l) :: outer) (')' :: rest)
  refine ⟨l.append l'.finish, fun _ => ⟨_, rfl⟩, ?_⟩
  have length : offset + (['('] ++ text ++ [')']).length = offset + 1 + text.length + 1 := by simp; omega
  have split : ['('] ++ text ++ [')'] ++ rest = '(' :: (text ++ ')' :: rest) := by simp
  rw [length, split, scan_opening, read, scan_closing]

theorem Passes.ofAtom (h : Passes .atom text) : Passes .repetition text := h

theorem Passes.repeated (h : Passes .repetition text) : Passes .repetition (text ++ [op.operator]) := by
  intro offset l outer rest
  obtain ⟨l', item, read⟩ := h offset l outer (op.operator :: rest)
  obtain ⟨q, rfl⟩ := item rfl
  refine ⟨l.append (.repeated op q), fun _ => ⟨_, rfl⟩, ?_⟩
  rw [List.append_assoc, List.singleton_append, read, scan_repetition, List.length_append, List.length_singleton,
    Nat.add_assoc]

/-- The text of a sequence or of alternatives that two texts make up. -/
theorem Passes.append {k' k'' : Category} {text' : List Char} (h : Passes k text) (h' : Passes k' text')
    (whole : k''.isItem = false) : Passes k'' (text ++ text') := by
  intro offset l outer rest
  obtain ⟨l', -, read⟩ := h offset l outer (text' ++ rest)
  obtain ⟨l'', -, read'⟩ := h' (offset + text.length) l' outer rest
  refine ⟨l'', fun item => absurd (whole.symm.trans item) Bool.false_ne_true, ?_⟩
  rw [List.append_assoc, read, read', List.length_append, Nat.add_assoc]

theorem Passes.ofSequence (h : Passes .sequence text) : Passes .alternatives text := by
  intro offset l outer rest
  obtain ⟨l', -, read⟩ := h offset l outer rest
  exact ⟨l', nofun, read⟩

theorem passes_nil : Passes .sequence [] := fun _ l _ _ => ⟨l, nofun, rfl⟩

theorem passes_bar : Passes .sequence ['|'] := fun _ l _ _ => ⟨l.branch, nofun, scan_bar⟩

end Regex

open Regex in
theorem Derives.passes (h : Derives k text r) : Passes k text := by
  induction h with
  | plain plain => exact passes_plain (isPlain_iff.mp plain).1
  | escaped _ => exact passes_escaped _
  | group _ ih => exact ih.group
  | ofAtom _ ih => exact ih.ofAtom
  | repeated _ operator ih =>
    obtain rfl := isOperator_iff.mp operator
    exact ih.repeated
  | nothing => exact passes_nil
  | item _ _ ih ih' => exact ih.append ih' rfl
  | ofSequence _ ih => exact ih.ofSequence
  | choice _ _ ih ih' => exact (ih.append passes_bar rfl : Passes .sequence _).append ih' rfl

/-- A derived pattern without brackets is read. -/
theorem Derives.exists_parse (h : Derives .alternatives pattern r)
    (unbracketed : ∀ c ∈ pattern, Regex.isBracket c = false) : ∃ q, Regex.parse pattern = .ok q := by
  obtain ⟨l, -, read⟩ := h.passes 0 {} [] []
  refine ⟨l.finish, Regex.parse_eq_ok_iff.mpr ⟨unbracketed, ?_⟩⟩
  rw [List.append_nil] at read
  rw [read]
  rfl

end FiniteAutomata
