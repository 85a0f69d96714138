import FiniteAutomata.Pattern.Location
import FiniteAutomata.Proofs.Shape

/-! Errors are located exactly. As long as reading goes on, the groups that are open can all be closed, so what has been
    read is the beginning of a pattern; when it stops, it does so for every pattern with the same beginning. Every level
    around the innermost one was left at an opening parenthesis, and what stands before that parenthesis leads to the
    level itself: without the outermost group, what is left is a pattern. -/

namespace FiniteAutomata

variable {pattern text rest u : List Char} {l l' : Level} {outer outer' : List (Nat × Level)} {c : Char}
  {offset opened : Nat} {e : PatternError}

theorem Regex.parse_eq_scan (unbracketed : ∀ c ∈ pattern, isBracket c = false) :
    parse pattern = scan 0 {} [] pattern := by
  have none : (pattern.zipIdx.find? fun p => isBracket p.1) = none := List.find?_eq_none.mpr fun p hp => by
    rw [unbracketed p.1 (List.mem_of_getElem? (List.mem_zipIdx_iff_getElem?.mp hp))]
    exact Bool.false_ne_true
  rw [parse, none]

theorem builds_iff (unbracketed : ∀ c ∈ pattern, Regex.isBracket c = false) :
    Builds pattern ↔ ∃ q, Regex.scan 0 {} [] pattern = .ok q := by
  rw [Builds, exists_ofPattern_iff_exists_parse, Regex.parse_eq_scan unbracketed]

namespace Regex

/-! ### Beginnings of patterns -/

/-- From the start the text leads to the level and to those around it, whatever comes after it. -/
def LeadsTo (text : List Char) (l : Level) (outer : List (Nat × Level)) : Prop :=
  ∀ rest, scan 0 {} [] (text ++ rest) = scan text.length l outer rest

theorem LeadsTo.start : LeadsTo [] {} [] := fun _ => rfl

theorem LeadsTo.append (h : LeadsTo text l outer)
    (read : ∀ rest, scan text.length l outer (u ++ rest) = scan (text.length + u.length) l' outer' rest) :
    LeadsTo (text ++ u) l' outer' := by
  intro rest
  rw [List.append_assoc, h, read, List.length_append]

/-- As many closing parentheses as there are levels around end the reading. -/
theorem exists_scan_replicate (offset : Nat) (l : Level) (outer : List (Nat × Level)) :
    ∃ q, scan offset l outer (List.replicate outer.length ')') = .ok q := by
  induction outer generalizing offset l with
  | nil => exact ⟨l.finish, rfl⟩
  | cons entry outer ih =>
    rw [List.length_cons, List.replicate_succ, scan_closing]
    exact ih _ _

theorem LeadsTo.builds (h : LeadsTo text l outer) (unbracketed : ∀ c ∈ text, isBracket c = false) :
    Builds (text ++ List.replicate outer.length ')') := by
  refine (builds_iff fun c hc => ?_).mpr ?_
  · rcases List.mem_append.mp hc with hc | hc
    · exact unbracketed c hc
    · rw [List.eq_of_mem_replicate hc]
      rfl
  · rw [h]
    exact exists_scan_replicate _ _ _

theorem LeadsTo.viable (h : LeadsTo text l outer) (unbracketed : ∀ c ∈ text, isBracket c = false) : Viable text :=
  ⟨_, h.builds unbracketed⟩

/-- Where a character cannot be read, it cannot be read in any pattern with the same beginning. -/
theorem LeadsTo.not_viable (h : LeadsTo text l outer)
    (stops : ∀ rest, ∃ e, scan text.length l outer (c :: rest) = .error e) : ¬Viable (text ++ [c]) := by
  rintro ⟨rest, builds⟩
  obtain ⟨q, parsed⟩ := exists_ofPattern_iff_exists_parse.mp builds
  obtain ⟨-, read⟩ := parse_eq_ok_iff.mp parsed
  obtain ⟨e, stop⟩ := stops rest
  rw [List.append_assoc, h, List.singleton_append, stop] at read
  cases read

theorem LeadsTo.breaks (h : LeadsTo text l outer) (unbracketed : ∀ c ∈ text, isBracket c = false)
    (stops : ∀ rest, ∃ e, scan text.length l outer (c :: rest) = .error e) :
    Breaks (text ++ c :: rest) text.length c where
  culprit := by simp
  before := by
    rw [List.take_left]
    exact h.viable unbracketed
  after := by
    rw [List.append_cons, List.take_left' (by simp)]
    exact h.not_viable stops

/-! ### Open groups -/

/-- The levels around were left at opening parentheses, and what stands before each leads to the level. -/
inductive Nested (text : List Char) : List (Nat × Level) → Prop where
  | nil : Nested text []
  | cons {opened : Nat} {l : Level} {outer : List (Nat × Level)} (h : Nested text outer)
      (here : text[opened]? = some '(') (before : LeadsTo (text.take opened) l outer) : Nested text ((opened, l) :: outer)

theorem Nested.append (h : Nested text outer) (u : List Char) : Nested (text ++ u) outer := by
  induction h with
  | nil => exact .nil
  | cons _ here before ih =>
    have lt := (List.getElem?_eq_some_iff.mp here).1
    refine .cons ih (by rw [List.getElem?_append_left lt, here]) ?_
    rw [List.take_append_of_le_length (Nat.le_of_lt lt)]
    exact before

theorem Nested.opening (h : Nested text outer) (leads : LeadsTo text l outer) :
    Nested (text ++ ['(']) ((text.length, l) :: outer) :=
  .cons (h.append _) (by simp) (by rwa [List.take_left])

/-- Before the outermost group there is a level with none around it. -/
theorem Nested.last (h : Nested text outer) (hlast : outer.getLast? = some (opened, l)) :
    text[opened]? = some '(' ∧ LeadsTo (text.take opened) l [] := by
  induction h with
  | nil => cases hlast
  | @cons opened' l' outer' nested here before ih =>
    cases nested with
    | nil =>
      obtain ⟨rfl, rfl⟩ := Prod.mk.inj (Option.some.inj hlast)
      exact ⟨here, before⟩
    | cons => exact ih hlast

/-! ### Where reading stops -/

/-- Reading that stops has read the beginning of a pattern, and the error says where it ends. -/
theorem locates_of_scan (unbracketed : ∀ c ∈ text ++ rest, isBracket c = false) (leads : LeadsTo text l outer)
    (nested : Nested text outer) (length : offset = text.length) (h : scan offset l outer rest = .error e) :
    e.Locates (text ++ rest) := by
  have known : ∀ {text rest : List Char}, (∀ c ∈ text ++ rest, isBracket c = false) → ∀ c ∈ text, isBracket c = false :=
    fun h c hc => h c (List.mem_append_left _ hc)
  -- Along the reader's own cases: each character that is read moves from the rest to the text.
  fun_induction scan offset l outer rest generalizing text with
  | case1 offset l outer opened level last =>
    obtain rfl := Except.error.inj h
    obtain ⟨here, before⟩ := nested.last last
    rw [List.append_nil]
    refine ⟨here, ?_, outer.length, ?_, leads.builds (known unbracketed)⟩
    · have builds := before.builds fun c hc => known unbracketed c (List.mem_of_mem_take hc)
      rwa [List.length_nil, List.replicate_zero, List.append_nil] at builds
    · exact List.length_pos_iff.mpr fun none => by rw [none] at last; cases last
  | case2 => cases h
  | case3 offset l outer c rest opening ih =>
    obtain rfl := eq_of_ofChar opening rfl
    subst length
    rw [List.append_cons] at unbracketed ⊢
    exact ih unbracketed (leads.append fun _ => scan_opening) (nested.opening leads) (by simp) h
  | case4 offset l c rest closing =>
    obtain rfl := Except.error.inj h
    obtain rfl := eq_of_ofChar closing rfl
    subst length
    exact leads.breaks (known unbracketed) fun _ => ⟨_, rfl⟩
  | case5 offset l c rest closing opened enclosing outer ih =>
    obtain rfl := eq_of_ofChar closing rfl
    subst length
    rw [List.append_cons] at unbracketed ⊢
    cases nested with
    | cons nested _ _ =>
      exact ih unbracketed (leads.append fun _ => scan_closing) (nested.append _) (by simp) h
  | case6 offset l outer c rest bar ih =>
    obtain rfl := eq_of_ofChar bar rfl
    subst length
    rw [List.append_cons] at unbracketed ⊢
    exact ih unbracketed (leads.append fun _ => scan_bar) (nested.append _) (by simp) h
  | case7 offset l outer c rest op operator none =>
    obtain rfl := Except.error.inj h
    obtain rfl := eq_of_ofChar operator rfl
    subst length
    refine leads.breaks (known unbracketed) fun rest => ⟨.nothingToRepeat text.length op, ?_⟩
    rw [scan.eq_def]
    simp only [operator, none]
  | case8 offset l outer c rest op operator l' repeats ih =>
    obtain rfl := eq_of_ofChar operator rfl
    subst length
    rw [List.append_cons] at unbracketed ⊢
    refine ih unbracketed (leads.append fun rest => ?_) (nested.append _) (by simp) h
    rw [List.singleton_append, scan.eq_def]
    simp only [operator, repeats]
    rfl
  | case9 offset l outer c escape =>
    obtain rfl := Except.error.inj h
    obtain rfl := eq_of_ofChar escape rfl
    subst length
    refine ⟨by simp, by simp, ?_⟩
    rw [List.take_left]
    exact leads.viable (known unbracketed)
  | case10 offset l outer c escape d rest ih =>
    obtain rfl := eq_of_ofChar escape rfl
    subst length
    have split : text ++ '\\' :: d :: rest = text ++ ['\\', d] ++ rest := by simp
    rw [split] at unbracketed ⊢
    exact ih unbracketed (leads.append fun _ => scan_escape) (nested.append _) (by simp) h
  | case11 offset l outer c rest plain ih =>
    subst length
    rw [List.append_cons] at unbracketed ⊢
    exact ih unbracketed (leads.append fun _ => scan_plain plain) (nested.append _) (by simp) h

/-- The first bracket of a pattern is reported, wherever it stands. -/
theorem exists_parse_eq_unsupportedBracket (h : ∃ c ∈ pattern, isBracket c = true) : ∃ offset bracket,
    parse pattern = .error (.unsupportedBracket offset bracket) ∧
      (PatternError.unsupportedBracket offset bracket).Locates pattern := by
  cases found : pattern.zipIdx.find? fun p => isBracket p.1 with
  | none =>
    obtain ⟨c, hc, bracket⟩ := h
    obtain ⟨i, hi⟩ := List.mem_iff_getElem?.mp hc
    have := List.find?_eq_none.mp found (c, i) (List.mem_zipIdx_iff_getElem?.mpr hi)
    exact absurd bracket this
  | some p =>
    obtain ⟨bracket, offset⟩ := p
    refine ⟨offset, bracket, by rw [parse, found], ?_⟩
    obtain ⟨isBracket, i, hi, here, first⟩ := List.find?_eq_some_iff_getElem.mp found
    rw [List.getElem_zipIdx] at here
    obtain ⟨rfl, rfl⟩ := Prod.mk.inj here
    rw [Nat.zero_add]
    refine ⟨?_, isBracket_iff.mp isBracket, fun c hc => ?_⟩
    · rw [List.getElem?_eq_getElem]
    · obtain ⟨j, hj, rfl⟩ := List.mem_take_iff_getElem.mp hc
      have := first j (by omega)
      rw [List.getElem_zipIdx] at this
      rw [← isBracket_iff]
      simpa using this

theorem locates_of_parse (h : parse pattern = .error e) : e.Locates pattern := by
  by_cases bracketed : ∃ c ∈ pattern, isBracket c = true
  · obtain ⟨offset, bracket, parsed, locates⟩ := exists_parse_eq_unsupportedBracket bracketed
    obtain rfl := Except.error.inj (parsed.symm.trans h)
    exact locates
  · have unbracketed : ∀ c ∈ pattern, isBracket c = false := fun c hc =>
      Bool.eq_false_iff.mpr fun bracket => bracketed ⟨c, hc, bracket⟩
    rw [parse_eq_scan unbracketed] at h
    rw [← List.nil_append pattern] at unbracketed ⊢
    exact locates_of_scan unbracketed .start .nil rfl h

end Regex

/-- A pattern is refused for an error of its own, and what the error says of the character at its offset holds. A
    pattern with a bracket is refused for the first one, whatever else is wrong with it. -/
theorem ofPattern_error_locates (pattern : List Char) :
    (∀ failure, Automaton.ofPattern pattern = .error failure → ∃ e, failure = .pattern e ∧ e.Locates pattern) ∧
    (('[' ∈ pattern ∨ ']' ∈ pattern) →
      ∃ offset bracket, Automaton.ofPattern pattern = .error (.pattern (.unsupportedBracket offset bracket))) := by
  refine ⟨fun failure refused => ?_, fun bracketed => ?_⟩
  · cases parsed : Regex.parse pattern with
    | ok q =>
      obtain ⟨fa, made, -⟩ := Automaton.exists_ofPattern parsed
      rw [made] at refused
      cases refused
    | error e =>
      rw [Automaton.ofPattern, parsed] at refused
      exact ⟨e, (Except.error.inj refused).symm, Regex.locates_of_parse parsed⟩
  · have bracket : ∃ c ∈ pattern, Regex.isBracket c = true := by
      rcases bracketed with mem | mem
      · exact ⟨_, mem, rfl⟩
      · exact ⟨_, mem, rfl⟩
    obtain ⟨offset, c, parsed, -⟩ := Regex.exists_parse_eq_unsupportedBracket bracket
    refine ⟨offset, c, ?_⟩
    rw [Automaton.ofPattern, parsed]
    rfl

/-- An operator without an operand in a group that is never closed, and an escaped bracket behind such an operator. -/
theorem ofPattern_error_locates_unfinished :
    Automaton.ofPattern ['(', 'a', '|', '*', 'b'] = .error (.pattern (.nothingToRepeat 3 .star)) ∧
    Breaks ['(', 'a', '|', '*', 'b'] 3 '*' ∧
    '[' ∈ ['*', '\\', '['] ∧ ∃ offset bracket,
      Automaton.ofPattern ['*', '\\', '['] = .error (.pattern (.unsupportedBracket offset bracket)) := by
  have refused : Automaton.ofPattern ['(', 'a', '|', '*', 'b'] = .error (.pattern (.nothingToRepeat 3 .star)) := rfl
  obtain ⟨e, same, locates⟩ := (ofPattern_error_locates _).1 _ refused
  obtain rfl := Failure.pattern.inj same
  have bracketed : '[' ∈ ['*', '\\', '['] := by decide
  exact ⟨refused, locates, bracketed, (ofPattern_error_locates _).2 (Or.inl bracketed)⟩

end FiniteAutomata
