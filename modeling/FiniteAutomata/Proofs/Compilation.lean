import FiniteAutomata.Automaton.Render
import FiniteAutomata.Proofs.Agreement
import FiniteAutomata.Proofs.Fragment
import FiniteAutomata.Proofs.Readability
import FiniteAutomata.Proofs.Reading

/-! From a pattern to its automata. The expression that a pattern derives is the only one, the automaton of the
    pattern recognises the words it describes, and both ways to minimise keep them and end in the same
    automaton. -/

namespace FiniteAutomata

variable {pattern : List Char} {q : Regex} {fa m : Automaton} {strategy : Strategy}

theorem Automaton.exists_ofPattern (h : Regex.parse pattern = .ok q) : ∃ fa, ofPattern pattern = .ok fa ∧
    fa.InRange ∧ fa.start < fa.size ∧ ∀ word, fa.Recognizes word ↔ q.Matches word := by
  obtain ⟨fa, made, range, start, language⟩ := q.exists_build
  refine ⟨fa, ?_, range, start, language⟩
  rw [ofPattern, h]
  show q.build.mapError Failure.fault = _
  rw [made]
  rfl

theorem Automaton.exists_parse (h : ofPattern pattern = .ok fa) : ∃ q, Regex.parse pattern = .ok q := by
  rw [ofPattern] at h
  cases parsed : Regex.parse pattern with
  | ok q => exact ⟨q, rfl⟩
  | error e =>
    rw [parsed] at h
    cases h

theorem compile_minimal (h : Automaton.ofPattern pattern = .ok fa) (made : strategy.minimize fa = .ok m) :
    compile .minimal strategy pattern = .ok m := by
  rw [compile, h]
  show (strategy.minimize fa).mapError Failure.fault = _
  rw [made]
  rfl

namespace Automaton

/-- Both strategies give one automaton, and it keeps the language. -/
theorem exists_minimize (range : fa.InRange) (start : fa.start < fa.size) (live : ∃ word, fa.Recognizes word) :
    ∃ m, (∀ strategy : Strategy, strategy.minimize fa = .ok m) ∧ m.InRange ∧ m.start < m.size ∧
      ∀ word, m.Recognizes word ↔ fa.Recognizes word := by
  obtain ⟨m, byRefinement, byReversal⟩ := exists_minimize_eq (range.completeFrom start) live
  obtain ⟨m', made, -, range', min, language⟩ := exists_minimizeByReversal (range.complete (Or.inl start))
  obtain rfl := Except.ok.inj (made.symm.trans byReversal)
  refine ⟨m', fun strategy => ?_, range', min.start, language⟩
  cases strategy with
  | partition => exact byRefinement
  | reversal => exact byReversal

theorem completeFrom_of_accepts {word : List Char} (range : fa.InRange) (h : fa.accepts word = .ok true) :
    fa.CompleteFrom fa.start := by
  refine range.completeFrom (start_lt_of_accepts ?_ h)
  by_contra empty
  rw [accepts, if_pos (by simpa using empty)] at h
  cases h

theorem exists_determinize (h : Strategy.partition.minimize fa = .ok m) :
    ∃ dfa, fa.determinize = .ok dfa ∧ dfa.minimizeByRefinement = .ok m := by
  rw [Strategy.minimize] at h
  cases made : fa.determinize with
  | error fault =>
    rw [made] at h
    cases h
  | ok dfa =>
    rw [made] at h
    exact ⟨dfa, rfl, h⟩

theorem exists_render (range : fa.InRange) (start : fa.start < fa.size) : ∃ text, fa.render = .ok text := by
  rw [render, text, view_eq (range.completeFrom start)]
  exact ⟨_, rfl⟩

end Automaton

/-- The automaton of a pattern and both minimal ones accept the words that the only derivation of the pattern
    describes. -/
theorem accepts_iff_matches (h : Automaton.ofPattern pattern = .ok fa) :
    ∃ r, Derives .alternatives pattern r ∧ (∀ s, Derives .alternatives pattern s → s = r) ∧
      ∀ strategy, ∃ m, compile .minimal strategy pattern = .ok m ∧
        ∀ word, ∃ b, fa.accepts word = .ok b ∧ m.accepts word = .ok b ∧ (b = true ↔ r.Matches word) := by
  obtain ⟨q, parsed⟩ := Automaton.exists_parse h
  -- The expression that was read is not the derived one, but its automaton answers for both.
  obtain ⟨r, derives, alike⟩ := Regex.reads_of_parse parsed
  obtain ⟨fa', made, range, start, language⟩ := Automaton.exists_ofPattern parsed
  obtain rfl := Except.ok.inj (made.symm.trans h)
  obtain ⟨word, hword⟩ := q.exists_matches
  obtain ⟨m, minimized, range', start', language'⟩ :=
    Automaton.exists_minimize range start ⟨word, (language word).mpr hword⟩
  refine ⟨r, derives, fun s derives' => derives'.unique derives, fun strategy => ?_⟩
  refine ⟨m, compile_minimal h (minimized strategy), fun word => ?_⟩
  have complete := range.complete (Or.inl start)
  have complete' := range'.complete (Or.inl start')
  obtain ⟨b, hb⟩ := Automaton.exists_accepts_eq complete word
  refine ⟨b, hb, ?_, ?_⟩
  · exact (Automaton.accepts_congr complete' complete (language' word)).trans hb
  · rw [(Automaton.accepts_eq_ok_iff complete).mp hb, language, alike]

/-- A group with an empty alternative under two operators, each letter of a control after an escape, and an escaped
    operator. -/
def stacked : List Char := ['(', '\\', 'n', '|', ')', '+', '*', 'a', '\\', 't', '?', '\\', 'r', '\\', '*']

theorem accepts_stacked : ∃ fa, Automaton.ofPattern stacked = .ok fa ∧ ∀ strategy, ∃ m,
    compile .minimal strategy stacked = .ok m ∧ fa.accepts ['\n', '\n', 'a', '\t', '\r', '*'] = .ok true ∧
      m.accepts ['\n', '\n', 'a', '\t', '\r', '*'] = .ok true := by
  obtain ⟨fa, h⟩ : ∃ fa, Automaton.ofPattern stacked = .ok fa := ⟨_, rfl⟩
  obtain ⟨r, -, sole, compiled⟩ := accepts_iff_matches h
  have newline : Derives .repetition ['\\', 'n'] (.literal '\n') := .ofAtom (.escaped .newline)
  have inside : Derives .alternatives ['\\', 'n', '|'] (.alt (.seq (.literal '\n') .empty) .empty) :=
    .choice (.item newline .nothing) (.ofSequence .nothing)
  have group : Derives .repetition ['(', '\\', 'n', '|', ')', '+', '*'] _ :=
    .repeated (.repeated (.ofAtom (.group inside)) .plus) .star
  have a : Derives .repetition ['a'] _ := .ofAtom (.plain (by decide))
  have tab : Derives .repetition ['\\', 't', '?'] _ := .repeated (.ofAtom (.escaped .tab)) .optional
  have returning : Derives .repetition ['\\', 'r'] _ := .ofAtom (.escaped .carriageReturn)
  have asterisk : Derives .repetition ['\\', '*'] _ := .ofAtom (.escaped (.itself (by decide)))
  obtain rfl := sole _ (.ofSequence (.item group (.item a (.item tab (.item returning (.item asterisk .nothing))))))
  have once : (Regex.alt (.seq (.literal '\n') .empty) .empty).Matches ['\n'] := .left (.seq (.literal '\n') .empty)
  have twice := Regex.Matches.starCons (.plus once (.starCons once .starNil)) .starNil
  have spelled := Regex.Matches.seq twice (.seq (.literal 'a') (.seq (.optionalOnce (.literal '\t'))
    (.seq (.literal '\r') (.seq (.literal '*') .empty))))
  refine ⟨fa, h, fun strategy => ?_⟩
  obtain ⟨m, made, accepts⟩ := compiled strategy
  obtain ⟨b, hb, hb', iff⟩ := accepts ['\n', '\n', 'a', '\t', '\r', '*']
  obtain rfl := iff.mpr spelled
  exact ⟨m, made, hb, hb'⟩

/-- Whatever accepts some word has one minimal automaton, down to the numbers of its states and the order of its
    edges; so has every pattern, and its minimal automaton is printed in one way. -/
theorem minimal_automata_agree :
    (∀ fa : Automaton, fa.InRange → (∃ word, fa.accepts word = .ok true) →
      ∃ dfa m, fa.determinize = .ok dfa ∧ dfa.minimizeByRefinement = .ok m ∧ fa.minimizeByReversal = .ok m) ∧
    ∀ pattern r, Regex.parse pattern = .ok r → ∃ m text, compile .minimal .partition pattern = .ok m ∧
      compile .minimal .reversal pattern = .ok m ∧ m.render = .ok text := by
  refine ⟨fun fa range accepts => ?_, fun pattern r parsed => ?_⟩
  · obtain ⟨word, accepts⟩ := accepts
    have complete := Automaton.completeFrom_of_accepts range accepts
    have recognizes := (Automaton.accepts_eq_true_iff (Or.inr complete)).mp accepts
    obtain ⟨m, byRefinement, byReversal⟩ := Automaton.exists_minimize_eq complete ⟨word, recognizes⟩
    obtain ⟨dfa, made, refined⟩ := Automaton.exists_determinize byRefinement
    exact ⟨dfa, m, made, refined, byReversal⟩
  · obtain ⟨fa, made, range, start, language⟩ := Automaton.exists_ofPattern parsed
    obtain ⟨word, hword⟩ := r.exists_matches
    obtain ⟨m, minimized, range', start', -⟩ :=
      Automaton.exists_minimize range start ⟨word, (language word).mpr hword⟩
    obtain ⟨text, rendered⟩ := Automaton.exists_render range' start'
    exact ⟨m, text, compile_minimal made (minimized .partition), compile_minimal made (minimized .reversal), rendered⟩

/-- Two ways to read the same letter, one of them through an empty step, and a state without a way on. -/
def forked : Automaton :=
  Automaton.assembled [(.nfa, false), (.dfa, true), (.nfa, false), (.nfa, true)]
    [⟨0, 1, .char 'a'⟩, ⟨0, 2, .epsilon⟩, ⟨2, 3, .char 'a'⟩, ⟨3, 2, .char 'b'⟩, ⟨1, 1, .char 'c'⟩] 0

theorem minimal_automata_agree_forked : forked.InRange ∧ forked.accepts ['a'] = .ok true ∧
    (∃ dfa m, forked.determinize = .ok dfa ∧ dfa.minimizeByRefinement = .ok m ∧ forked.minimizeByReversal = .ok m) ∧
    ∃ m text, compile .minimal .partition ['a', '|', 'b', '*'] = .ok m ∧
      compile .minimal .reversal ['a', '|', 'b', '*'] = .ok m ∧ m.render = .ok text := by
  have range : forked.InRange := Automaton.inRange_assembled (by decide)
  have complete := range.complete (Or.inl (by decide))
  have step : forked.Step 0 (.char 'a') 1 := (Automaton.step_assembled (by decide)).mpr (by decide)
  have accepts := (Automaton.accepts_eq_true_iff complete).mpr ⟨1, .read step (.nil 1), rfl⟩
  obtain ⟨agree, compiled⟩ := minimal_automata_agree
  exact ⟨range, accepts, agree forked range ⟨_, accepts⟩, compiled ['a', '|', 'b', '*'] _ rfl⟩

end FiniteAutomata
