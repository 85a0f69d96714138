import FiniteAutomata.Pattern.Shape
import FiniteAutomata.Proofs.Compilation
import FiniteAutomata.Proofs.Derivation

/-! Which patterns can be read. They are the patterns without brackets that the grammar derives, and also those whose
    parentheses pair up and whose operators all have an operand. Reading keeps as many levels as there are open
    parentheses, and the innermost one has an item to repeat unless an opening parenthesis or a bar came last. -/

namespace FiniteAutomata

variable {depth depth' offset : Nat} {before g : Glyph} {c d : Char} {text rest pattern : List Char} {l : Level}
  {outer : List (Nat × Level)} {op : Repetition}

namespace Glyph

/-- With `depth` parentheses open and `before` as the last glyph, the text is the rest of a pattern. -/
def Completes (depth : Nat) (before : Glyph) (text : List Char) : Prop :=
  ∃ glyphs, ofText? text = some glyphs ∧ Balanced depth glyphs ∧ Supported before glyphs

theorem completes_nil : Completes depth before [] ↔ depth = 0 := by
  simp [Completes, ofText?, balanced_nil, Supported]

theorem completes_map (h : ofText? text = (ofText? rest).map (g :: ·)) : Completes depth before text ↔
    ∃ glyphs, ofText? rest = some glyphs ∧ Balanced depth (g :: glyphs) ∧ (g.NeedsOperand → before.Repeatable) ∧
      Supported g glyphs := by
  simp only [Completes, h, Option.map_eq_some_iff]
  constructor
  · rintro ⟨_, ⟨glyphs, some, rfl⟩, balanced, supported⟩
    exact ⟨glyphs, some, balanced, supported_cons.mp supported⟩
  · rintro ⟨glyphs, some, balanced, supported⟩
    exact ⟨g :: glyphs, ⟨glyphs, some, rfl⟩, balanced, supported_cons.mpr supported⟩

/-- A glyph that may come next is taken off the rest of the pattern. -/
theorem completes_next (h : ofText? text = (ofText? rest).map (g :: ·))
    (balanced : ∀ glyphs, Balanced depth (g :: glyphs) ↔ Balanced depth' glyphs)
    (supported : g.NeedsOperand → before.Repeatable) : Completes depth before text ↔ Completes depth' g rest := by
  rw [completes_map h, Completes]
  refine exists_congr fun glyphs => and_congr_right fun _ => ?_
  rw [balanced, and_iff_right supported]

theorem completes_opening : Completes depth before ('(' :: rest) ↔ Completes (depth + 1) (.bare '(') rest :=
  completes_next (ofText?_bare (by decide)) (fun _ => balanced_opening) fun needs => absurd needs (by decide)

theorem completes_closing : Completes (depth + 1) before (')' :: rest) ↔ Completes depth (.bare ')') rest :=
  completes_next (ofText?_bare (by decide)) (fun _ => balanced_closing) fun needs => absurd needs (by decide)

theorem not_completes_closing : ¬Completes 0 before (')' :: rest) := by
  rw [completes_map (ofText?_bare (by decide))]
  rintro ⟨glyphs, -, balanced, -⟩
  exact not_balanced_closing balanced

/-- A character other than an escape or a parenthesis leaves the depth as it is. -/
theorem completes_bare (h : c ∉ ['(', ')', '\\']) (supported : (bare c).NeedsOperand → before.Repeatable) :
    Completes depth before (c :: rest) ↔ Completes depth (.bare c) rest := by
  simp only [List.mem_cons, List.not_mem_nil, or_false, not_or] at h
  exact completes_next (ofText?_bare h.2.2) (fun _ => balanced_cons (by simp [h]) (by simp [h])) supported

theorem needsOperand_operator (op : Repetition) : (bare op.operator).NeedsOperand := by cases op <;> decide

theorem completes_operator (repeatable : before.Repeatable) :
    Completes depth before (op.operator :: rest) ↔ Completes depth (.bare op.operator) rest :=
  completes_bare (by cases op <;> decide) fun _ => repeatable

theorem not_completes_operator (repeatable : ¬before.Repeatable) : ¬Completes depth before (op.operator :: rest) := by
  rw [completes_map (ofText?_bare (by cases op <;> decide))]
  rintro ⟨glyphs, -, -, supported, -⟩
  exact repeatable (supported (needsOperand_operator op))

theorem completes_escaped : Completes depth before ('\\' :: d :: rest) ↔ Completes depth (.escaped d) rest :=
  completes_next ofText?_escaped (fun _ => balanced_cons nofun nofun) fun needs => by simp [NeedsOperand] at needs

theorem not_completes_lone_escape : ¬Completes depth before ['\\'] := by
  rintro ⟨glyphs, some, -⟩
  rw [ofText?_lone_escape] at some
  cases some

end Glyph

/-! ### Reading -/

/-- The level has an item to repeat exactly if an operator may come after the glyph. -/
def Level.After (l : Level) (before : Glyph) : Prop := l.items = [] ↔ ¬before.Repeatable

theorem Level.after_append (q : Regex) (h : g.Repeatable) : (l.append q).After g :=
  iff_of_false (List.cons_ne_nil _ _) (not_not_intro h)

theorem Level.repeatLast?_eq_none_iff : l.repeatLast? op = none ↔ l.items = [] := by
  rw [repeatLast?]
  cases l.items <;> simp

theorem Level.after_repeatLast {l' : Level} (h : l.repeatLast? op = some l') (repeatable : g.Repeatable) :
    l'.After g := by
  rw [repeatLast?] at h
  cases items : l.items with
  | nil =>
    rw [items] at h
    cases h
  | cons q rest =>
    rw [items] at h
    obtain rfl := Option.some.inj h
    exact iff_of_false (List.cons_ne_nil _ _) (not_not_intro repeatable)

namespace Regex

theorem not_exists_error_eq_ok {e : PatternError} : ¬∃ q, (.error e : Except PatternError Regex) = .ok q := by
  rintro ⟨q, h⟩
  cases h

open Glyph in
/-- Reading succeeds exactly when the text completes what has been read. -/
theorem exists_scan_iff (after : l.After before) :
    (∃ q, scan offset l outer rest = .ok q) ↔ Completes outer.length before rest := by
  -- Along the reader's own cases: what is left of the text and the glyph before it change together with the level.
  fun_induction scan offset l outer rest generalizing before with
  | case1 offset l outer opened level last =>
    rw [completes_nil]
    refine iff_of_false not_exists_error_eq_ok fun none => ?_
    rw [List.length_eq_zero_iff.mp none] at last
    cases last
  | case2 offset l outer last =>
    rw [completes_nil, List.getLast?_eq_none_iff.mp last]
    exact iff_of_true ⟨_, rfl⟩ rfl
  | case3 offset l outer c rest opening ih =>
    obtain rfl := eq_of_ofChar opening rfl
    rw [completes_opening]
    exact ih (iff_of_true rfl (by decide))
  | case4 offset l c rest closing =>
    obtain rfl := eq_of_ofChar closing rfl
    exact iff_of_false not_exists_error_eq_ok not_completes_closing
  | case5 offset l c rest closing opened enclosing outer ih =>
    obtain rfl := eq_of_ofChar closing rfl
    rw [List.length_cons, completes_closing]
    exact ih (Level.after_append _ (by decide))
  | case6 offset l outer c rest bar ih =>
    obtain rfl := eq_of_ofChar bar rfl
    rw [completes_bare (by decide) fun needs => absurd needs (by decide)]
    exact ih (iff_of_true rfl (by decide))
  | case7 offset l outer c rest op operator none =>
    obtain rfl := eq_of_ofChar operator rfl
    have items := Level.repeatLast?_eq_none_iff.mp none
    exact iff_of_false not_exists_error_eq_ok (not_completes_operator (after.mp items))
  | case8 offset l outer c rest op operator l' repeats ih =>
    obtain rfl := eq_of_ofChar operator rfl
    have items : l.items ≠ [] := fun none => by
      rw [Level.repeatLast?_eq_none_iff.mpr none] at repeats
      cases repeats
    rw [completes_operator (not_not.mp (mt after.mpr items))]
    exact ih (Level.after_repeatLast repeats (by cases op <;> decide))
  | case9 offset l outer c escape =>
    obtain rfl := eq_of_ofChar escape rfl
    exact iff_of_false not_exists_error_eq_ok not_completes_lone_escape
  | case10 offset l outer c escape d rest ih =>
    obtain rfl := eq_of_ofChar escape rfl
    rw [completes_escaped]
    exact ih (Level.after_append _ (by simp [Repeatable]))
  | case11 offset l outer c rest plain ih =>
    have plain := ofChar_eq_plain_iff.mp plain
    simp only [List.mem_cons, List.not_mem_nil, or_false, not_or] at plain
    rw [completes_bare (by simp [plain]) fun needs => absurd needs (by simp [NeedsOperand, plain])]
    exact ih (Level.after_append _ (by simp [Repeatable, plain]))

end Regex

theorem forall_isBracket_iff : (∀ c ∈ pattern, Regex.isBracket c = false) ↔ '[' ∉ pattern ∧ ']' ∉ pattern := by
  simp only [Regex.isBracket, Bool.or_eq_false_iff, beq_eq_false_iff_ne]
  refine ⟨fun h => ⟨fun mem => (h _ mem).1 rfl, fun mem => (h _ mem).2 rfl⟩, fun h c hc => ⟨?_, ?_⟩⟩
  · rintro rfl
    exact h.1 hc
  · rintro rfl
    exact h.2 hc

theorem exists_ofPattern_iff_exists_parse :
    (∃ fa, Automaton.ofPattern pattern = .ok fa) ↔ ∃ q, Regex.parse pattern = .ok q := by
  constructor
  · rintro ⟨fa, made⟩
    exact Automaton.exists_parse made
  · rintro ⟨q, parsed⟩
    obtain ⟨fa, made, -⟩ := Automaton.exists_ofPattern parsed
    exact ⟨fa, made⟩

theorem exists_parse_iff_derives :
    (∃ q, Regex.parse pattern = .ok q) ↔ '[' ∉ pattern ∧ ']' ∉ pattern ∧ ∃ r, Derives .alternatives pattern r := by
  rw [← and_assoc, ← forall_isBracket_iff]
  constructor
  · rintro ⟨q, parsed⟩
    obtain ⟨r, derives, -⟩ := Regex.reads_of_parse parsed
    exact ⟨(Regex.parse_eq_ok_iff.mp parsed).1, r, derives⟩
  · rintro ⟨unbracketed, r, derives⟩
    exact derives.exists_parse unbracketed

theorem exists_parse_iff_completes :
    (∃ q, Regex.parse pattern = .ok q) ↔ '[' ∉ pattern ∧ ']' ∉ pattern ∧ Glyph.Completes 0 (.bare '(') pattern := by
  rw [← and_assoc, ← forall_isBracket_iff]
  simp only [Regex.parse_eq_ok_iff, exists_and_left]
  exact and_congr_right fun _ => Regex.exists_scan_iff (iff_of_true rfl (by decide))

/-- A pattern has an automaton exactly if it has no brackets and the grammar derives it. What keeps the grammar from
    deriving a pattern is a lone escape at its end, a parenthesis without a partner or an operator without an operand,
    and nothing else. -/
theorem exists_ofPattern_iff (pattern : List Char) :
    ((∃ fa, Automaton.ofPattern pattern = .ok fa) ↔
      '[' ∉ pattern ∧ ']' ∉ pattern ∧ ∃ r, Derives .alternatives pattern r) ∧
    ((∃ fa, Automaton.ofPattern pattern = .ok fa) ↔
      '[' ∉ pattern ∧ ']' ∉ pattern ∧
        ∃ glyphs, Glyph.ofText? pattern = some glyphs ∧ Glyph.Balanced 0 glyphs ∧
          Glyph.Supported (.bare '(') glyphs) := by
  rw [exists_ofPattern_iff_exists_parse]
  exact ⟨exists_parse_iff_derives, exists_parse_iff_completes⟩

end FiniteAutomata
