import FiniteAutomata.Proofs.CheckedRefinement
import FiniteAutomata.Proofs.SingleExit

/-! No look-up and no edit of the operations is ever refused on an automaton that edits have built and whose edges all
    lead to states; what the operations give is such an automaton again. Refinement alone needs more: an empty step
    that is reachable is refused once it is copied to a block. A pattern has such an automaton or an error that names
    its fault, so no pattern meets a refusal at any stage. -/

namespace FiniteAutomata

namespace Checked

/-- Each operation with checked look-ups gives a result, the one that the operation proper gives. -/
structure Faultless (fa : Automaton) : Prop where
  view : Agree (view fa) fa.view
  text : Agree (text fa) fa.text
  isDeterministic : Agree (isDeterministic fa) fa.isDeterministic
  accepts : ∀ word, Agree (accepts fa word) (fa.accepts word)
  isomorphic : ∀ fb : Automaton, fb.Usable → Agree (isomorphic fa fb) (fa.isomorphic fb)
  determinize : ∃ m, determinize fa = .ok m ∧ fa.determinize = .ok m ∧ m.Usable ∧ ∀ i j, ¬m.Step i .epsilon j
  reverseEdges : ∃ r, reverseEdges fa = .ok r ∧ fa.reverseEdges = .ok r ∧ r.automaton.Usable ∧
    ∀ i ∈ r.initial, i < r.automaton.size
  reverse : ∃ m, reverse fa = .ok m ∧ fa.reverse = .ok m ∧ m.Usable
  minimizeByReversal : ∃ m, minimizeByReversal fa = .ok m ∧ fa.minimizeByReversal = .ok m ∧ m.Usable
  minimizeByRefinement : (∀ i j, fa.Leads fa.start i → ¬fa.Step i .epsilon j) →
    ∃ m, minimizeByRefinement fa = .ok m ∧ fa.minimizeByRefinement = .ok m ∧ m.Usable

end Checked

open Checked

variable {fa : Automaton} {pattern : List Char}

namespace Automaton

theorem Usable.faultless (h : fa.Usable) : Faultless fa where
  view := by
    obtain ⟨v, checked, made, -⟩ := exists_view h.complete
    exact ⟨v, checked, made⟩
  text := agree_text h.complete
  isDeterministic := agree_isDeterministic h.complete
  accepts := agree_accepts h.complete
  isomorphic _ h' := agree_isomorphic h.complete h'.complete
  determinize := by
    obtain ⟨m, checked, made, wf, range, silent⟩ := Checked.exists_determinize h.complete
    exact ⟨m, checked, made, ⟨wf, range⟩, silent⟩
  reverseEdges := by
    obtain ⟨r, checked, made, wf, range, initial⟩ := exists_reverseEdges h.wellFormed h.complete
    exact ⟨r, checked, made, ⟨wf, range⟩, initial⟩
  reverse := by
    obtain ⟨m, checked, made, wf, range⟩ := exists_reverse h.wellFormed h.complete
    exact ⟨m, checked, made, wf, range⟩
  minimizeByReversal := by
    obtain ⟨m, made, wf, range, -⟩ := exists_minimizeByReversal h.complete
    exact ⟨m, (Checked.minimizeByReversal_eq h.wellFormed h.complete).trans made, made, wf, range⟩
  minimizeByRefinement silent := by
    obtain ⟨m, checked, made, wf, range⟩ := Checked.exists_minimizeByRefinement h.wellFormed h.complete fun lead =>
      silent _ _ lead
    exact ⟨m, checked, made, wf, range⟩

/-! ### From a pattern -/

/-- The automaton of a pattern is usable, and without one the pattern itself is at fault. -/
theorem usable_ofPattern (pattern : List Char) :
    (∃ e, ofPattern pattern = .error (.pattern e)) ∨ ∃ fa, ofPattern pattern = .ok fa ∧ fa.Usable := by
  rw [ofPattern]
  cases Regex.parse pattern with
  | error e => exact Or.inl ⟨e, rfl⟩
  | ok r =>
    have placed := Fragment.placed_fragment r 0
    refine Or.inr ⟨(r.fragment 0).automaton, ?_, placed.wellFormed, placed.inRange⟩
    show r.build.mapError Failure.fault = _
    rw [r.build_eq]
    rfl

theorem Usable.minimize (h : fa.Usable) (strategy : Strategy) :
    ∃ m, Checked.minimize fa strategy = .ok m ∧ strategy.minimize fa = .ok m ∧ m.Usable := by
  cases strategy with
  | partition =>
    obtain ⟨dfa, found, made, usable, silent⟩ := h.faultless.determinize
    obtain ⟨m, found', made', usable'⟩ := usable.faultless.minimizeByRefinement fun i j _ => silent i j
    exact ⟨m, (bind_eq found).trans found', (bind_eq made).trans made', usable'⟩
  | reversal => exact h.faultless.minimizeByReversal

theorem Usable.apply (h : fa.Usable) (stage : Stage) (strategy : Strategy) :
    ∃ m, stage.apply strategy fa = .ok m ∧ m.Usable := by
  cases stage with
  | nfa => exact ⟨fa, rfl, h⟩
  | dfa =>
    obtain ⟨m, -, made, usable, -⟩ := h.faultless.determinize
    exact ⟨m, made, usable⟩
  | minimal =>
    obtain ⟨m, -, made, usable⟩ := h.minimize strategy
    exact ⟨m, made, usable⟩

end Automaton

theorem convert_eq (strategy : Strategy) (pattern : List Char) :
    convert strategy pattern = compile .minimal strategy pattern := by
  rw [convert, compile, Automaton.ofPatternInPlace_eq]
  rcases Automaton.usable_ofPattern pattern with ⟨e, failed⟩ | ⟨fa, made, usable⟩
  · rw [failed]
    rfl
  · obtain ⟨m, found, minimized, -⟩ := usable.minimize strategy
    rw [bind_eq made, bind_eq made, found]
    exact congrArg (Except.mapError Failure.fault) minimized.symm

/-- At every stage a pattern has a usable automaton, unless the pattern itself is at fault. -/
theorem usable_compile (stage : Stage) (strategy : Strategy) (pattern : List Char) :
    (∃ e, compile stage strategy pattern = .error (.pattern e)) ∨
      ∃ fa, compile stage strategy pattern = .ok fa ∧ fa.Usable := by
  rw [compile]
  rcases Automaton.usable_ofPattern pattern with ⟨e, failed⟩ | ⟨fa, made, usable⟩
  · rw [failed]
    exact Or.inl ⟨e, rfl⟩
  · obtain ⟨m, applied, usable'⟩ := usable.apply stage strategy
    rw [bind_eq made, applied]
    exact Or.inr ⟨m, rfl, usable'⟩

/-- Whatever edits build is usable once its edges lead to states. What is usable meets no fault in any operation, and
    the operations give what is usable again. A pattern meets no fault either: built in place, determinized and
    minimised in both ways it has usable automata, or an error of its own. -/
theorem never_faults :
    (∀ edits : List Edit, (Edit.run edits).InRange → (Edit.run edits).Usable) ∧
    (∀ fa : Automaton, fa.Usable → Faultless fa) ∧
    ∀ pattern, Automaton.ofPatternInPlace pattern = Automaton.ofPattern pattern ∧
      (∀ strategy, convert strategy pattern = compile .minimal strategy pattern) ∧
      ∀ stage strategy, (∃ e, compile stage strategy pattern = .error (.pattern e)) ∨
        ∃ fa, compile stage strategy pattern = .ok fa ∧ fa.Usable := by
  refine ⟨fun edits range => ⟨?_, range⟩, fun fa usable => usable.faultless, fun pattern => ?_⟩
  · exact Edit.wellFormed_foldl .empty
  · exact ⟨Automaton.ofPatternInPlace_eq pattern, fun strategy => convert_eq strategy pattern, fun stage strategy =>
      usable_compile stage strategy pattern⟩

/-- Two ways to read one character, and a refused empty step. -/
def entwined : List Edit :=
  [.addState .dfa false, .addState .dfa true, .addEdge 0 0 (.char 'a'), .addEdge 0 1 .epsilon, .addEdge 0 1 (.char 'a')]

theorem never_faults_entwined : (Edit.run entwined).InRange ∧ (Edit.run entwined).Usable ∧
    (∃ b, Checked.isDeterministic (Edit.run entwined) = .ok b) ∧
    (∃ m, Checked.minimizeByRefinement (Edit.run entwined) = .ok m ∧ m.Usable) ∧
    ∃ fa, compile .minimal .partition ['(', '|', 'a', ')', '*'] = .ok fa ∧ fa.Usable := by
  have same : Edit.run entwined = Automaton.assembled [(.dfa, false), (.dfa, true)]
      [⟨0, 0, .char 'a'⟩, ⟨0, 1, .char 'a'⟩] 0 := by decide
  have range : (Edit.run entwined).InRange := same ▸ Automaton.inRange_assembled (by decide)
  have silent : ∀ i j, ¬(Edit.run entwined).Step i .epsilon j := fun i j step => by
    rw [same, Automaton.step_assembled (by decide)] at step
    simp at step
  obtain ⟨built, faultless, fromPattern⟩ := never_faults
  have usable := built entwined range
  obtain ⟨b, decided, -⟩ := (faultless _ usable).isDeterministic
  obtain ⟨m, found, -, usable'⟩ := (faultless _ usable).minimizeByRefinement fun i j _ => silent i j
  obtain ⟨-, -, compiled⟩ := fromPattern ['(', '|', 'a', ')', '*']
  refine ⟨range, usable, ⟨b, decided⟩, ⟨m, found, usable'⟩, ?_⟩
  rcases compiled .minimal .partition with ⟨e, failed⟩ | minimized
  · have made : (compile .minimal .partition ['(', '|', 'a', ')', '*']).isOk = true := by decide +kernel
    rw [failed] at made
    cases made
  · exact minimized

end FiniteAutomata
