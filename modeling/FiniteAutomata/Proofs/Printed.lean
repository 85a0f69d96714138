import FiniteAutomata.Proofs.Legible

/-! What the printed form of an automaton tells. Two automata are printed alike exactly when they have the same start,
    their walks visit the same ids in the same order, and each of these has the same acceptance, the same members if it
    stands for a block, and the same edges in order. Whatever characters the labels hold, none of it is lost. -/

namespace FiniteAutomata

open FiniteAutomata.Text

/-! ### Labels and members -/

theorem legible_symbol : Legible Symbol.text id Anything := by
  intro a b r s _ _ same
  cases a with
  | epsilon =>
    cases b with
    | epsilon => exact ⟨rfl, (List.cons.inj same).2⟩
    | char d => exact absurd (List.cons.inj same).1 (by decide)
  | char c =>
    cases b with
    | epsilon => exact absurd (List.cons.inj same).1 (by decide)
    | char d =>
      obtain ⟨char, rest⟩ := legible_quoted c d r s trivial trivial same
      exact ⟨congrArg Symbol.char char, rest⟩

theorem not_prefix_symbol {c : Char} (empty : c ≠ 'ε') (quote : c ≠ '\'') (a : Symbol) (r : List Char) :
    ¬[c] <+: a.text ++ r := by
  cases a with
  | epsilon => simp [Symbol.text, empty]
  | char d => simp [Symbol.text, quoted, quote]

theorem legible_label : Legible Label.text id fun r => [']'] <+: r := by
  have symbols : Legible (fun l => [' '].intercalate (l.map Symbol.text)) (List.map id) fun r => [']'] <+: r :=
    legible_symbol.intercalate (fun _ => trivial) (fun _ _ => trivial) (not_prefix_symbol (by decide) (by decide))
      (by simp)
  intro l m r s hr hs same
  obtain ⟨list, rest⟩ := symbols l.toList m.toList r s hr hs same
  rw [List.map_id, List.map_id] at list
  have label : l = m := Label.ext fun a => by rw [Label.mem_def, list, Label.mem_def]
  exact ⟨label, rest⟩

theorem not_prefix_decimal {c : Char} (other : ∀ d < 10, Nat.digitChar d ≠ c) (n : Nat) (r : List Char) :
    ¬[c] <+: decimal n ++ r := by
  intro begins
  cases digits : decimal n with
  | nil => exact Nat.toDigits_ne_nil digits
  | cons d rest =>
    have first : d ∈ Nat.toDigits 10 n := by
      show d ∈ decimal n
      exact digits ▸ List.mem_cons_self
    obtain ⟨k, hk, digit⟩ := exists_digit (by decide) first
    rw [digits, List.cons_append, List.cons_prefix_cons] at begins
    exact other k hk (digit.trans begins.1.symm)

theorem legible_members : Legible StateSet.text id Anything := by
  have members : Legible (fun l => [',', ' '].intercalate (l.map decimal)) (List.map id) fun r => ['}'] <+: r := by
    refine legible_decimal.intercalate (fun r => noDigit_cons (by decide)) ?_ (not_prefix_decimal (by decide)) (by simp)
    rintro r ⟨t, rfl⟩
    exact noDigit_cons (by decide)
  intro u v r s _ _ same
  simp only [StateSet.text, List.append_assoc, List.cons_append, List.nil_append, List.cons.injEq, true_and] at same
  obtain ⟨list, rest⟩ := members u.toList v.toList _ _ ⟨r, rfl⟩ ⟨s, rfl⟩ same
  rw [List.map_id, List.map_id] at list
  have set : u = v := StateSet.ext fun i => by rw [← StateSet.mem_toList, list, StateSet.mem_toList]
  exact ⟨set, (List.cons.inj rest).2⟩

/-! ### States -/

/-- The members of a state that stands for a block. -/
def Kind.members? : Kind → Option StateSet
  | nfa => none
  | dfa => none
  | partition members => some members

/-- What an edge is but for its source. -/
def Edge.arrow (e : Edge) : StateId × Label := (e.target, e.label)

/-- What is printed of a state beside its id. -/
def State.shown (s : State) : Bool × Option StateSet × List (StateId × Label) :=
  (s.accepting, s.kind.members?, s.edges.map Edge.arrow)

theorem legible_edge : Legible Edge.text Edge.arrow Anything := by
  intro e f r s _ _ same
  have opened : ∀ (e : Edge) (r : List Char), e.text ++ r =
      ' ' :: '[' :: (e.label.text ++ ']' :: ' ' :: '-' :: '>' :: ' ' :: (decimal e.target ++ ';' :: r)) := by
    intro e r
    simp [Edge.text]
  rw [opened, opened] at same
  obtain ⟨label, same⟩ := legible_label e.label f.label _ _ (by simp) (by simp) (List.cons.inj (List.cons.inj same).2).2
  simp only [List.cons.injEq, true_and] at same
  obtain ⟨target, same⟩ := legible_decimal e.target f.target _ _ (noDigit_cons (by decide)) (noDigit_cons (by decide)) same
  exact ⟨Prod.ext target label, (List.cons.inj same).2⟩

theorem legible_kind : Legible Kind.text Kind.members? fun r => ¬[' ', '{'] <+: r := by
  have braced : ∀ (members : StateSet) (r : List Char), [' ', '{'] <+: (Kind.partition members).text ++ r := by
    intro members r
    simp [Kind.text, StateSet.text]
  intro k l r s hr hs same
  cases k with
  | nfa | dfa =>
    cases l with
    | nfa | dfa => exact ⟨rfl, same⟩
    | «partition» members =>
      obtain rfl : r = (Kind.partition members).text ++ s := same
      exact absurd (braced members s) hr
  | «partition» members =>
    cases l with
    | nfa | dfa =>
      obtain rfl : (Kind.partition members).text ++ r = s := same
      exact absurd (braced members r) hs
    | «partition» members' =>
      obtain ⟨set, rest⟩ := legible_members members members' r s trivial trivial (List.cons.inj same).2
      exact ⟨congrArg some set, rest⟩

theorem legible_accepting :
    Legible (fun b : Bool => if b then " (accepting)".toList else []) id fun r => ¬[' ', '('] <+: r := by
  intro b b' r s hr hs same
  cases b <;> cases b'
  · exact ⟨rfl, same⟩
  · obtain rfl : r = " (accepting)".toList ++ s := same
    exact absurd (by simp) hr
  · obtain rfl : " (accepting)".toList ++ r = s := same
    exact absurd (by simp) hs
  · exact ⟨rfl, List.append_cancel_left same⟩

theorem legible_state : Legible State.text State.shown fun r => ['\n'] <+: r := by
  have edges : Legible (List.flatMap Edge.text) (List.map Edge.arrow) fun r => ['\n'] <+: r :=
    legible_edge.flatMap (fun _ _ => trivial) (fun _ _ => trivial) (by simp [Edge.text])
  -- What comes after the members, and what comes after the acceptance.
  have tail : ∀ (s : State) {r}, ['\n'] <+: r → ¬[' ', '{'] <+: s.edges.flatMap Edge.text ++ r ∧
      ¬[' ', '('] <+: s.kind.text ++ (s.edges.flatMap Edge.text ++ r) := by
    rintro s _ ⟨r, rfl⟩
    cases s.edges <;> cases s.kind <;> simp [Edge.text, Kind.text, StateSet.text]
  intro x y r s hr hs same
  simp only [State.text, List.append_assoc] at same
  obtain ⟨accepting, same⟩ := legible_accepting _ _ _ _ (tail x hr).2 (tail y hs).2 same
  obtain ⟨members, same⟩ := legible_kind _ _ _ _ (tail x hr).1 (tail y hs).1 same
  obtain ⟨arrows, rest⟩ := edges _ _ _ _ hr hs same
  exact ⟨Prod.ext accepting (Prod.ext members arrows), rest⟩

/-- The line of a state with an id. -/
def lineText (row : StateId × State) : List Char := "  ".toList ++ decimal row.1 ++ row.2.text ++ ['\n']

theorem legible_line : Legible lineText (fun row => (row.1, row.2.shown)) Anything := by
  have after : ∀ (s : State) (r : List Char), NoDigit 10 (s.text ++ '\n' :: r) := by
    intro s r
    have head : (s.text ++ '\n' :: r).head? = some ' ' ∨ (s.text ++ '\n' :: r).head? = some '\n' := by
      simp only [State.text]
      cases s.accepting <;> cases s.kind <;> cases s.edges <;> simp [Edge.text, Kind.text]
    intro c hc
    rcases head with head | head <;> rw [head] at hc <;> obtain rfl := Option.some.inj hc <;> decide
  intro x y r s _ _ same
  simp only [lineText, List.append_assoc, List.singleton_append] at same
  have same := List.append_cancel_left same
  obtain ⟨id, same⟩ := legible_decimal _ _ _ _ (after x.2 r) (after y.2 s) same
  obtain ⟨state, rest⟩ := legible_state _ _ _ _ (by simp) (by simp) same
  exact ⟨Prod.ext id state, (List.cons.inj rest).2⟩

theorem text_of_shown {s s' : State} (same : s.shown = s'.shown) : s.text = s'.text := by
  obtain ⟨accepting, rest⟩ := Prod.ext_iff.mp same
  obtain ⟨members, arrows⟩ := Prod.ext_iff.mp rest
  have kind : ∀ k : Kind, k.text = (k.members?.map fun u => ' ' :: u.text).getD [] := by rintro (_ | _ | _) <;> rfl
  have edges : ∀ l : List Edge, l.flatMap Edge.text =
      (l.map Edge.arrow).flatMap fun a => Edge.text { source := 0, target := a.1, label := a.2 } := by
    intro l
    rw [List.flatMap_map]
    rfl
  simp only [State.shown] at accepting members arrows
  rw [State.text, State.text, kind, kind, edges, edges, accepting, members, arrows]

/-- The lines are the same just when what they show is. -/
theorem lines_eq_iff {rows rows' : List (StateId × State)} : rows.flatMap lineText = rows'.flatMap lineText ↔
    (rows.map fun row => (row.1, row.2.shown)) = rows'.map fun row => (row.1, row.2.shown) := by
  have lines : Legible (List.flatMap lineText) (List.map fun row => (row.1, row.2.shown)) (· = []) :=
    legible_line.flatMap (fun _ _ => trivial) (fun _ _ => trivial) (by simp [lineText])
  refine ⟨fun same => (lines _ _ [] [] rfl rfl (by rw [same])).1, fun same => ?_⟩
  have through : Function.FactorsThrough lineText fun row : StateId × State => (row.1, row.2.shown) := by
    intro x y shown
    rw [lineText, lineText, (Prod.ext_iff.mp shown).1, text_of_shown (Prod.ext_iff.mp shown).2]
  obtain ⟨write, written⟩ := (Function.factorsThrough_iff lineText).mp through
  rw [List.flatMap_def, List.flatMap_def, written, ← List.map_map, ← List.map_map, same]

/-! ### Automata -/

namespace Automaton

variable {fa fb : Automaton}

/-- The ids that are visited, each with its state. -/
def rows (fa : Automaton) (ids : List StateId) : List (StateId × State) := ids.map fun i => (i, Checked.stateAt fa i)

theorem lineOf_eq {i : StateId} (hi : i < fa.size) : fa.lineOf i = lineText (i, Checked.stateAt fa i) := by
  rw [lineOf, Checked.stateAt, Array.getElem?_eq_getElem hi]
  rfl

/-- The printed form is the start and then the lines of the states that are visited. -/
theorem exists_text_eq (range : fa.InRange) : ∃ v, fa.view = .ok v ∧ (∀ i ∈ v.states, i < fa.size) ∧
    fa.text = .ok ("start: ".toList ++ (decimal fa.start ++ '\n' :: (fa.rows v.states).flatMap lineText)) := by
  obtain ⟨v, viewed, inside⟩ : ∃ v, fa.view = .ok v ∧ ∀ i ∈ v.states, i < fa.size := by
    by_cases start : fa.start < fa.size
    · have complete := range.completeFrom start
      exact ⟨fa.seen, view_eq complete, fun i hi => complete i ((mem_seen complete).mp hi)⟩
    · exact ⟨{}, view_of_size_le (Nat.le_of_not_lt start), nofun⟩
  refine ⟨v, viewed, inside, ?_⟩
  have lines : v.states.flatMap fa.lineOf = (fa.rows v.states).flatMap lineText := by
    rw [rows, List.flatMap_map]
    exact List.flatMap_congr fun i hi => lineOf_eq (inside i hi)
  rw [text, viewed, ← lines]
  simp [pure, Except.pure, bind, Except.bind]

/-- What is printed is the same just when the starts are the same, the same ids are visited in the same order, and each of
    these has the same acceptance, the same members if it stands for a block, and the same labels and targets in order. -/
theorem render_eq_iff (range : fa.InRange) (range' : fb.InRange) :
    ∃ t t' v v', fa.render = .ok t ∧ fb.render = .ok t' ∧ fa.view = .ok v ∧ fb.view = .ok v' ∧
      (t = t' ↔ fa.start = fb.start ∧ v.states = v'.states ∧ ∀ i ∈ v.states, ∃ s s', fa.state i = .ok s ∧
        fb.state i = .ok s' ∧ s.accepting = s'.accepting ∧ s.kind.members? = s'.kind.members? ∧
        s.edges.map Edge.arrow = s'.edges.map Edge.arrow) := by
  obtain ⟨v, viewed, inside, text⟩ := exists_text_eq range
  obtain ⟨v', viewed', inside', text'⟩ := exists_text_eq range'
  refine ⟨_, _, v, v', by rw [render, text]; rfl, by rw [render, text']; rfl, viewed, viewed', ?_⟩
  have ids : ∀ (fa : Automaton) (l : List StateId), ((fa.rows l).map fun row => (row.1, row.2.shown)) =
      l.map fun i => (i, (Checked.stateAt fa i).shown) := fun fa l => by rw [rows, List.map_map]; rfl
  rw [String.ofList_inj, List.append_cancel_left_eq]
  constructor
  · intro same
    obtain ⟨start, same⟩ := legible_decimal _ _ _ _ (noDigit_cons (by decide)) (noDigit_cons (by decide)) same
    have shown := lines_eq_iff.mp (List.cons.inj same).2
    rw [ids fa, ids fb] at shown
    have visited : v.states = v'.states := by simpa [Function.comp_def] using congrArg (List.map Prod.fst) shown
    refine ⟨start, visited, fun i hi => ⟨_, _, Checked.state_eq (inside i hi), Checked.state_eq (inside' i (visited ▸ hi)), ?_⟩⟩
    rw [← visited] at shown
    have state := (Prod.ext_iff.mp (List.map_inj_left.mp shown i hi)).2
    exact ⟨(Prod.ext_iff.mp state).1, Prod.ext_iff.mp (Prod.ext_iff.mp state).2⟩
  · rintro ⟨start, visited, states⟩
    have shown : ∀ i ∈ v.states, (Checked.stateAt fa i).shown = (Checked.stateAt fb i).shown := by
      intro i hi
      obtain ⟨s, s', hs, hs', accepting, members, arrows⟩ := states i hi
      obtain rfl := Except.ok.inj ((Checked.state_eq (inside i hi)).symm.trans hs)
      obtain rfl := Except.ok.inj ((Checked.state_eq (inside' i (visited ▸ hi))).symm.trans hs')
      exact Prod.ext accepting (Prod.ext members arrows)
    rw [start, lines_eq_iff.mpr]
    rw [ids fa, ids fb, ← visited]
    exact List.map_congr_left fun i hi => by rw [shown i hi]

/-- The empty step beside the character it is written as, and characters that the layout uses or that are escaped. -/
def lettered : Automaton :=
  assembled [(.nfa, false), (.partition (.ofList [0, 2]), true)]
    [⟨0, 1, .epsilon⟩, ⟨0, 1, .char 'ε'⟩, ⟨0, 0, .char '\''⟩, ⟨0, 0, .char ']'⟩, ⟨1, 0, .char '\n'⟩, ⟨1, 0, .char ' '⟩,
      ⟨1, 1, .char '\\'⟩, ⟨1, 1, .char '\u0301'⟩] 0

/-- The same with its arcs made in another order, and with a state of its own that nothing leads to. -/
def relettered : Automaton :=
  assembled [(.nfa, false), (.partition (.ofList [2, 0]), true), (.dfa, true)]
    [⟨2, 0, .char 'a'⟩, ⟨0, 1, .char 'ε'⟩, ⟨0, 1, .epsilon⟩, ⟨0, 0, .char ']'⟩, ⟨0, 0, .char '\''⟩, ⟨1, 0, .char ' '⟩,
      ⟨1, 0, .char '\n'⟩, ⟨1, 1, .char '\u0301'⟩, ⟨1, 1, .char '\\'⟩] 0

theorem render_lettered : lettered.InRange ∧ relettered.InRange ∧ lettered ≠ relettered ∧
    ∃ t, lettered.render = .ok t ∧ relettered.render = .ok t ∧ ∃ s s', lettered.state 1 = .ok s ∧
      relettered.state 1 = .ok s' ∧ s.kind.members? = s'.kind.members? ∧
      s.edges.map Edge.arrow = s'.edges.map Edge.arrow := by
  have range : lettered.InRange := inRange_assembled (by decide)
  have range' : relettered.InRange := inRange_assembled (by decide)
  have text : lettered.text = relettered.text := by decide +kernel
  have render : lettered.render = relettered.render := by rw [Automaton.render, text, Automaton.render]
  have seen : lettered.view.map Walk.states = .ok [0, 1] := by decide +kernel
  obtain ⟨t, t', v, v', printed, printed', viewed, -, same⟩ := render_eq_iff range range'
  obtain rfl := Except.ok.inj (printed.symm.trans (render.trans printed'))
  rw [viewed] at seen
  obtain ⟨-, -, states⟩ := same.mp rfl
  obtain ⟨s, s', hs, hs', -, shown⟩ := states 1 (by rw [Except.ok.inj seen]; decide)
  exact ⟨range, range', by decide, t, printed, printed', s, s', hs, hs', shown⟩

end Automaton
end FiniteAutomata
