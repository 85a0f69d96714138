import FiniteAutomata.Pattern.Language
import FiniteAutomata.Proofs.Tokens

/-! What a successful reading means. The levels on the stack hold the expressions of a text that has been read; every
    character extends the text and the levels together, so at the end the pattern derives an expression. It is
    not the one that was read, since a sequence in the grammar ends in the empty word and a read one does not,
    but both describe the same words. -/

namespace FiniteAutomata

variable {k : Category} {text text' rest : List Char} {q q' r r' : Regex} {items branches : List Regex} {l l' : Level}
  {outer : List (Nat × Level)} {offset : Nat} {op : Repetition} {c : Char}

/-! ### Expressions for the same words -/

namespace Regex

/-- The expressions describe the same words. -/
def Alike (q r : Regex) : Prop := ∀ word, q.Matches word ↔ r.Matches word

theorem Alike.refl (r : Regex) : Alike r r := fun _ => Iff.rfl

theorem Alike.seq (h : Alike q r) (h' : Alike q' r') : Alike (.seq q q') (.seq r r') := by
  intro word
  simp only [matches_seq_iff, h _, h' _]

theorem Alike.alt (h : Alike q r) (h' : Alike q' r') : Alike (.alt q q') (.alt r r') := by
  intro word
  rw [matches_alt_iff, matches_alt_iff, h, h']

theorem Matches.star_mono {word : List Char} (h : ∀ word, q.Matches word → r.Matches word)
    (star : Matches (.repeated .star q) word) : Matches (.repeated .star r) word := by
  generalize hs : Regex.repeated .star q = s at star
  induction star with
  | starNil => exact .starNil
  | starCons first _ _ ih =>
    obtain ⟨-, rfl⟩ := Regex.repeated.inj hs
    exact .starCons (h _ first) (ih rfl)
  | empty | literal | seq | left | right | plus | optionalNil | optionalOnce => cases hs

theorem Alike.repeated (op : Repetition) (h : Alike q r) : Alike (.repeated op q) (.repeated op r) := by
  have star : Alike (.repeated .star q) (.repeated .star r) := fun word =>
    ⟨Matches.star_mono fun _ => (h _).mp, Matches.star_mono fun _ => (h _).mpr⟩
  intro word
  cases op with
  | star => exact star word
  | plus => simp only [matches_plus_iff, h _, star _]
  | optional => rw [matches_optional_iff, matches_optional_iff, h]

theorem alike_seq_empty (h : Alike q r) : Alike q (.seq r .empty) := by
  intro word
  rw [matches_seq_iff, h]
  refine ⟨fun hw => ⟨word, [], by simp, hw, .empty⟩, fun hw => ?_⟩
  obtain ⟨u, v, rfl, hu, hv⟩ := hw
  rw [matches_empty_iff.mp hv, List.append_nil]
  exact hu

end Regex

/-! ### Texts and what is read from them -/

/-- The text derives an expression for the words of the given one. -/
def Reads (k : Category) (text : List Char) (q : Regex) : Prop := ∃ r, Derives k text r ∧ q.Alike r

theorem Derives.reads (h : Derives k text r) : Reads k text r := ⟨r, h, .refl r⟩

theorem Reads.group (h : Reads .alternatives text q) : Reads .repetition (['('] ++ text ++ [')']) q := by
  obtain ⟨r, derives, alike⟩ := h
  exact ⟨r, .ofAtom (.group derives), alike⟩

theorem Reads.repeated (h : Reads .repetition text q) (op : Repetition) :
    Reads .repetition (text ++ [op.operator]) (.repeated op q) := by
  obtain ⟨r, derives, alike⟩ := h
  exact ⟨_, derives.repeated (isOperator_iff.mpr rfl), alike.repeated op⟩

theorem Reads.item (h : Reads .repetition text q) (tail : Reads .sequence text' q') :
    Reads .sequence (text ++ text') (.seq q q') := by
  obtain ⟨r, derives, alike⟩ := h
  obtain ⟨r', derives', alike'⟩ := tail
  exact ⟨_, derives.item derives', alike.seq alike'⟩

theorem Reads.last (h : Reads .repetition text q) : Reads .sequence text q := by
  obtain ⟨r, derives, alike⟩ := h
  exact ⟨_, List.append_nil text ▸ derives.item .nothing, Regex.alike_seq_empty alike⟩

theorem Reads.ofSequence (h : Reads .sequence text q) : Reads .alternatives text q := by
  obtain ⟨r, derives, alike⟩ := h
  exact ⟨r, .ofSequence derives, alike⟩

theorem Reads.choice (h : Reads .sequence text q) (tail : Reads .alternatives text' q') :
    Reads .alternatives (text ++ ['|'] ++ text') (.alt q q') := by
  obtain ⟨r, derives, alike⟩ := h
  obtain ⟨r', derives', alike'⟩ := tail
  exact ⟨_, derives.choice derives', alike.alt alike'⟩

/-! ### The levels -/

/-- The items of a level, latest first, and the text they were read from. -/
inductive ReadsItems : List Char → List Regex → Prop where
  | nil : ReadsItems [] []
  | snoc {text text' : List Char} {items : List Regex} {q : Regex} (h : ReadsItems text items)
      (item : Reads .repetition text' q) : ReadsItems (text ++ text') (q :: items)

/-- The alternatives of a level, latest first, and the text they were read from. -/
inductive ReadsBranches : List Char → List Regex → Prop where
  | nil : ReadsBranches [] []
  | snoc {text text' : List Char} {branches : List Regex} {q : Regex} (h : ReadsBranches text branches)
      (branch : Reads .sequence text' q) : ReadsBranches (text ++ text' ++ ['|']) (q :: branches)

/-- The level holds what was read from the text. -/
def Level.ReadsFrom (l : Level) (text : List Char) : Prop :=
  ∃ t u, text = t ++ u ∧ ReadsBranches t l.branches ∧ ReadsItems u l.items

/-- The levels around a group, innermost first, hold what was read before it. -/
inductive ReadsOuter : List Char → List (Nat × Level) → Prop where
  | nil : ReadsOuter [] []
  | cons {text text' : List Char} {outer : List (Nat × Level)} {offset : Nat} {l : Level} (h : ReadsOuter text outer)
      (level : l.ReadsFrom text') : ReadsOuter (text ++ text' ++ ['(']) ((offset, l) :: outer)

theorem ReadsItems.foldl (h : ReadsItems text items) (tail : Reads .sequence rest q) :
    Reads .sequence (text ++ rest) (items.foldl (fun rest r => .seq r rest) q) := by
  induction h generalizing rest q with
  | nil => exact tail
  | snoc _ item ih =>
    rw [List.append_assoc, List.foldl_cons]
    exact ih (item.item tail)

theorem ReadsItems.sequence (h : ReadsItems text items) : Reads .sequence text (Level.sequence items) := by
  cases h with
  | nil => exact Derives.nothing.reads
  | snoc h item => exact h.foldl item.last

theorem ReadsBranches.foldl (h : ReadsBranches text branches) (tail : Reads .alternatives rest q) :
    Reads .alternatives (text ++ rest) (branches.foldl (fun rest r => .alt r rest) q) := by
  induction h generalizing rest q with
  | nil => exact tail
  | snoc _ branch ih =>
    have whole := ih (branch.choice tail)
    simp only [← List.append_assoc] at whole
    exact whole

namespace Level

theorem ReadsFrom.start : ReadsFrom {} [] := ⟨[], [], rfl, .nil, .nil⟩

theorem ReadsFrom.finish (h : l.ReadsFrom text) : Reads .alternatives text l.finish := by
  obtain ⟨t, u, rfl, branches, items⟩ := h
  exact branches.foldl items.sequence.ofSequence

theorem ReadsFrom.append (h : l.ReadsFrom text) (item : Reads .repetition text' q) :
    (l.append q).ReadsFrom (text ++ text') := by
  obtain ⟨t, u, rfl, branches, items⟩ := h
  exact ⟨t, u ++ text', List.append_assoc t u text', branches, items.snoc item⟩

theorem ReadsFrom.branch (h : l.ReadsFrom text) : l.branch.ReadsFrom (text ++ ['|']) := by
  obtain ⟨t, u, rfl, branches, items⟩ := h
  exact ⟨t ++ u ++ ['|'], [], (List.append_nil _).symm, branches.snoc items.sequence, .nil⟩

theorem ReadsFrom.repeatLast (h : l.ReadsFrom text) (repeats : l.repeatLast? op = some l') :
    l'.ReadsFrom (text ++ [op.operator]) := by
  obtain ⟨t, u, rfl, branches, items⟩ := h
  obtain ⟨bs, is⟩ := l
  cases items with
  | nil => cases repeats
  | @snoc u v is q items item =>
    obtain rfl := Option.some.inj repeats
    refine ⟨t, u ++ (v ++ [op.operator]), by simp, branches, items.snoc (item.repeated op)⟩

end Level

/-! ### The stack -/

/-- The open level and those around it hold what was read from the text. -/
def ReadsStack (text : List Char) (l : Level) (outer : List (Nat × Level)) : Prop :=
  ∃ before inside, text = before ++ inside ∧ ReadsOuter before outer ∧ l.ReadsFrom inside

namespace ReadsStack

theorem start : ReadsStack [] {} [] := ⟨[], [], rfl, .nil, .start⟩

theorem finish (h : ReadsStack text l []) : Reads .alternatives text l.finish := by
  obtain ⟨before, inside, rfl, levels, level⟩ := h
  cases levels with
  | nil => exact level.finish

theorem opening (h : ReadsStack text l outer) : ReadsStack (text ++ ['(']) {} ((offset, l) :: outer) := by
  obtain ⟨before, inside, rfl, levels, level⟩ := h
  exact ⟨before ++ inside ++ ['('], [], (List.append_nil _).symm, levels.cons level, .start⟩

theorem closing (h : ReadsStack text l ((offset, l') :: outer)) :
    ReadsStack (text ++ [')']) (l'.append l.finish) outer := by
  obtain ⟨before, inside, rfl, levels, level⟩ := h
  cases levels with
  | @cons t u _ _ _ levels around =>
    -- The group as a whole is the next item of the level that it was opened in.
    exact ⟨t, u ++ (['('] ++ inside ++ [')']), by simp, levels, around.append level.finish.group⟩

theorem item (h : ReadsStack text l outer) (item : Reads .repetition text' q) :
    ReadsStack (text ++ text') (l.append q) outer := by
  obtain ⟨before, inside, rfl, levels, level⟩ := h
  exact ⟨before, inside ++ text', List.append_assoc _ _ _, levels, level.append item⟩

theorem bar (h : ReadsStack text l outer) : ReadsStack (text ++ ['|']) l.branch outer := by
  obtain ⟨before, inside, rfl, levels, level⟩ := h
  exact ⟨before, inside ++ ['|'], List.append_assoc _ _ _, levels, level.branch⟩

theorem repetition (h : ReadsStack text l outer) (repeats : l.repeatLast? op = some l') :
    ReadsStack (text ++ [op.operator]) l' outer := by
  obtain ⟨before, inside, rfl, levels, level⟩ := h
  exact ⟨before, inside ++ [op.operator], List.append_assoc _ _ _, levels, level.repeatLast repeats⟩

end ReadsStack

/-! ### The whole pattern -/

namespace Regex

/-- Each character that is read keeps the stack in step with the text before it. -/
theorem reads_of_scan (unbracketed : ∀ c ∈ rest, isBracket c = false) (stack : ReadsStack text l outer)
    (h : scan offset l outer rest = .ok q) : Reads .alternatives (text ++ rest) q := by
  fun_induction scan offset l outer rest generalizing text with
  | case1 => cases h
  | case2 offset l outer last =>
    obtain rfl := List.getLast?_eq_none_iff.mp last
    obtain rfl := Except.ok.inj h
    exact (List.append_nil text).symm ▸ stack.finish
  | case3 offset l outer c rest opening ih =>
    obtain rfl := eq_of_ofChar opening rfl
    rw [List.append_cons]
    exact ih (List.forall_mem_cons.mp unbracketed).2 stack.opening h
  | case4 => cases h
  | case5 offset l c rest closing _ enclosing outer ih =>
    obtain rfl := eq_of_ofChar closing rfl
    rw [List.append_cons]
    exact ih (List.forall_mem_cons.mp unbracketed).2 stack.closing h
  | case6 offset l outer c rest bar ih =>
    obtain rfl := eq_of_ofChar bar rfl
    rw [List.append_cons]
    exact ih (List.forall_mem_cons.mp unbracketed).2 stack.bar h
  | case7 => cases h
  | case8 offset l outer c rest op operator l' repeats ih =>
    obtain rfl := eq_of_ofChar operator rfl
    rw [List.append_cons]
    exact ih (List.forall_mem_cons.mp unbracketed).2 (stack.repetition repeats) h
  | case9 => cases h
  | case10 offset l outer c escape d rest ih =>
    obtain rfl := eq_of_ofChar escape rfl
    have unbracketed := (List.forall_mem_cons.mp (List.forall_mem_cons.mp unbracketed).2).2
    have item : Reads .repetition ['\\', d] (.literal (unescape d)) := (Derives.ofAtom (.escaped (standsFor_iff.mpr rfl))).reads
    have whole := ih unbracketed (stack.item item) h
    simpa using whole
  | case11 offset l outer c rest plain ih =>
    obtain ⟨unbracketed, tail⟩ := List.forall_mem_cons.mp unbracketed
    have plain := isPlain_iff.mpr ⟨plain, unbracketed⟩
    have item : Reads .repetition [c] (.literal c) := (Derives.ofAtom (.plain plain)).reads
    rw [List.append_cons]
    exact ih tail (stack.item item) h

/-- A pattern is read when it has no brackets and can be read from left to right. -/
theorem parse_eq_ok_iff {pattern : List Char} :
    parse pattern = .ok q ↔ (∀ c ∈ pattern, isBracket c = false) ∧ scan 0 {} [] pattern = .ok q := by
  rw [parse]
  cases found : pattern.zipIdx.find? fun p => isBracket p.1 with
  | some p =>
    obtain ⟨bracket, offset⟩ := p
    have mem : bracket ∈ pattern :=
      List.mem_of_getElem? (List.mem_zipIdx_iff_getElem?.mp (List.mem_of_find?_eq_some found))
    refine iff_of_false (fun h => nomatch h) fun h => ?_
    exact absurd (List.find?_some found) (Bool.eq_false_iff.mp (h.1 bracket mem))
  | none =>
    refine (and_iff_right fun c hc => ?_).symm
    obtain ⟨i, hi⟩ := List.mem_iff_getElem?.mp hc
    have := List.find?_eq_none.mp found (c, i) (List.mem_zipIdx_iff_getElem?.mpr hi)
    simpa using this

/-- What is read from a pattern describes the same words as an expression that the pattern derives. -/
theorem reads_of_parse {pattern : List Char} (h : parse pattern = .ok q) : Reads .alternatives pattern q := by
  obtain ⟨unbracketed, read⟩ := parse_eq_ok_iff.mp h
  exact reads_of_scan unbracketed .start read

end Regex
end FiniteAutomata
