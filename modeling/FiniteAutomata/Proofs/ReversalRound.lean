import FiniteAutomata.Proofs.DoubleReversal
import FiniteAutomata.Proofs.SingleStart

/-! One reversal round. Run on a deterministic automaton it already gives the minimal automaton of the reversed words.
    Whether it begins with the set of initial states or with a start of its own in front of them makes a difference of
    one state at most: after the first character both go through the same sets, but the set with the start in it is never
    reached again, while the set of initial states may be. -/

namespace FiniteAutomata

/-! ### One round on a deterministic automaton -/

namespace Automaton

variable {fa : Automaton}

theorem exists_minimal_round (wf : fa.WellFormed) (complete : fa.Complete) (det : fa.Deterministic) :
    ∃ r m, fa.reverseEdges = .ok r ∧ r.automaton.determinizeFrom r.initial = .ok m ∧ m.WellFormed ∧ m.InRange ∧
      m.Minimal ∧ ∀ word : List Char, m.Recognizes word ↔ fa.Recognizes word.reverse := by
  obtain ⟨visited, r, made, spec⟩ := reverseEdges_spec complete
  have lists := lists_subsets spec.completeFromSet
  refine ⟨r, _, made, determinizeFrom_eq spec.completeFromSet, System.wellFormed_tabulated lists,
    System.inRange_tabulated lists, ?_, fun word => ?_⟩
  · by_cases nonempty : ∃ p, p ∈ r.initial
    · exact (spec.reduced wf det nonempty).minimal lists
    · have none : r.initial = ∅ := StateSet.ext fun p =>
        iff_of_false (fun hp => nonempty ⟨p, hp⟩) (StateSet.not_mem_empty p)
      rw [none, tabulated_subsets_empty]
      exact minimal_barren
  · rw [recognizes_subsets spec.completeFromSet, spec.exists_recognizesFrom complete]

/-- One round on a deterministic automaton gives the minimal automaton of the reversed words: no two states of it can be
    merged, and no deterministic automaton for these words reaches fewer. -/
theorem reversalRound_minimal (wf : fa.WellFormed) (det : fa.isDeterministic = .ok true) :
    ∃ r m, fa.reverseEdges = .ok r ∧ r.automaton.determinizeFrom r.initial = .ok m ∧
      (∀ word : List Char, ∃ b, fa.accepts word.reverse = .ok b ∧ m.accepts word = .ok b) ∧
      m.isDeterministic = .ok true ∧
      (∀ i < m.size, ∀ j < m.size, i ≠ j → ∃ word, ¬(m.RecognizesFrom i word ↔ m.RecognizesFrom j word)) ∧
      ∀ other : Automaton, other.isEmpty = false → other.isDeterministic = .ok true →
        (∀ word, other.accepts word = fa.accepts word.reverse) →
        ∃ view, other.view = .ok view ∧ m.size ≤ view.states.length := by
  obtain ⟨complete, det⟩ := wf.deterministic det
  obtain ⟨r, m, made, round, wf', inRange, min, language⟩ := exists_minimal_round wf complete det
  have complete' := inRange.complete (Or.inl min.start)
  have same : ∀ word : List Char, m.accepts word = fa.accepts word.reverse := fun word => by
    obtain ⟨b, answer⟩ := exists_accepts_eq complete word.reverse
    rw [answer, accepts_eq_ok_iff complete', language]
    exact (accepts_eq_ok_iff complete).mp answer
  refine ⟨r, m, made, round, fun word => ?_, ?_, fun i hi j hj hne => min.exists_separating hi hj hne, ?_⟩
  · obtain ⟨b, answer⟩ := exists_accepts_eq complete word.reverse
    exact ⟨b, answer, (same word).trans answer⟩
  · exact min.deterministic.isDeterministic wf' (inRange.completeFrom min.start)
  · intro other nonempty det' language'
    exact min.size_le_of_isDeterministic complete' nonempty det' fun word => (language' word).trans (same word).symm

/-- Two states that accept alike, a dead one behind them, and an unreachable one that leads to the start. -/
def redundant : Automaton :=
  assembled [(.dfa, false), (.dfa, true), (.dfa, true), (.dfa, false), (.dfa, true)]
    [⟨0, 1, .char 'a'⟩, ⟨0, 2, .char 'b'⟩, ⟨1, 1, .char 'c'⟩, ⟨2, 2, .char 'c'⟩, ⟨2, 3, .char 'a'⟩, ⟨4, 0, .char 'a'⟩] 0

theorem reversalRound_minimal_redundant : redundant.WellFormed ∧ redundant.isDeterministic = .ok true ∧
    ∃ r m, redundant.reverseEdges = .ok r ∧ r.automaton.determinizeFrom r.initial = .ok m ∧ m.size = 2 ∧
      redundant.accepts ['b', 'c'] = .ok true ∧ m.accepts ['c', 'b'] = .ok true ∧
      redundant.accepts ['c', 'b'] = .ok false ∧ m.accepts ['b', 'c'] = .ok false := by
  have wf : redundant.WellFormed := wellFormed_assembled (by decide) (Or.inl (by decide))
  have det : redundant.isDeterministic = .ok true := by decide +kernel
  have round : (redundant.reversalRound.map Automaton.size) = .ok 2 := by decide +kernel
  have accepted : redundant.accepts ['b', 'c'] = .ok true := by decide +kernel
  have rejected : redundant.accepts ['c', 'b'] = .ok false := by decide +kernel
  obtain ⟨r, m, made, determinized, words, -⟩ := reversalRound_minimal wf det
  obtain ⟨b, given, same⟩ := words ['c', 'b']
  obtain ⟨b', given', same'⟩ := words ['b', 'c']
  obtain rfl := Except.ok.inj (given.symm.trans accepted)
  obtain rfl := Except.ok.inj (given'.symm.trans rejected)
  refine ⟨wf, det, r, m, made, determinized, ?_, accepted, same, rejected, same'⟩
  have whole : redundant.reversalRound = .ok m := by
    rw [reversalRound, made]
    exact determinized
  rw [whole] at round
  exact Except.ok.inj round

end Automaton

/-! ### A round from a start of its own -/

namespace Reversed

variable {r : Reversed} {m : Automaton} {i j : StateId} {c : Char} {t u : StateSet}

theorem Of.initial_eq_singleton_iff {fa : Automaton} {visited : List StateId} (h : Of fa visited r) :
    (∃ p, r.initial = {p}) ↔ ∃! i, fa.Reachable i ∧ fa.accepting i = true := by
  refine ⟨fun given => ?_, fun given => ?_⟩
  · obtain ⟨p, single⟩ := given
    have only : ∀ q i, visited[q]? = some i → fa.accepting i = true → q = p := fun q i hq accepting =>
      StateSet.mem_singleton.mp (single ▸ h.initial.mpr ⟨i, hq, accepting⟩)
    obtain ⟨i, hp, accepting⟩ := h.initial.mp (single ▸ StateSet.mem_singleton.mpr rfl)
    refine ⟨i, ⟨h.mem.mp (List.mem_of_getElem? hp), accepting⟩, fun j hj => ?_⟩
    obtain ⟨q, hq⟩ := List.getElem?_of_mem (h.mem.mpr hj.1)
    obtain rfl := only q j hq hj.2
    exact Option.some.inj (hq.symm.trans hp)
  · obtain ⟨i, ⟨reachable, accepting⟩, only⟩ := given
    obtain ⟨p, hp⟩ := List.getElem?_of_mem (h.mem.mpr reachable)
    refine ⟨p, StateSet.ext fun q => ?_⟩
    rw [h.initial, StateSet.mem_singleton]
    refine ⟨fun given => ?_, fun same => ⟨i, same ▸ hp, accepting⟩⟩
    obtain ⟨j, hq, accepting⟩ := given
    obtain rfl := only j ⟨h.mem.mp (List.mem_of_getElem? hq), accepting⟩
    exact h.place_unique hq hp

namespace Entered

theorem completeFromSet (h : r.Entered m) : m.CompleteFromSet {m.start} :=
  Automaton.completeFromSet_singleton (h.inRange.completeFrom h.start_lt)

section Within
variable (h : r.Entered m) (range : r.automaton.InRange) (within : r.automaton.Within r.initial)
include h range within

theorem mem_closure : i ∈ m.closure {m.start} ↔ i = m.start ∨ i ∈ r.automaton.closure r.initial := by
  rw [Automaton.mem_closure h.completeFromSet, Automaton.mem_closure (range.completeFromSet within)]
  simp only [StateSet.mem_singleton, exists_eq_left, h.path_iff range within, true_and]

/-- The start reads nothing, so it reads what the initial states read. -/
theorem reads_closure : (∃ i ∈ m.closure {m.start}, m.Step i (.char c) j) ↔
    ∃ i ∈ r.automaton.closure r.initial, r.automaton.Step i (.char c) j := by
  have old : ∀ i ∈ r.automaton.closure r.initial, i < r.automaton.size :=
    (range.completeFromSet within).closure.within
  refine ⟨fun given => ?_, fun given => ?_⟩
  · obtain ⟨i, hi, step⟩ := given
    obtain rfl | hi := (h.mem_closure range within).mp hi
    · rw [h.start] at step
      exact nomatch (h.step.mp step).1
    · exact ⟨i, hi, (h.old.step_iff (old i hi)).mp step⟩
  · obtain ⟨i, hi, step⟩ := given
    exact ⟨i, (h.mem_closure range within).mpr (Or.inr hi), (h.old.step_iff (old i hi)).mpr step⟩

/-- From the first character on the same sets are reached. -/
theorem after_closure_iff : m.subsetSystem.After (m.closure {m.start}) u ↔
    r.automaton.subsetSystem.After (r.automaton.closure r.initial) u :=
  h.old.after_iff range (range.completeFromSet within).closure fun _ _ => h.reads_closure range within

/-- Nothing leads back to the start. -/
theorem not_after_closure : ¬m.subsetSystem.After (m.closure {m.start}) (m.closure {m.start}) := by
  intro after
  obtain ⟨c, t, word, move, rest⟩ := (h.after_closure_iff range within).mp after
  have complete := (range.completeFromSet within).closure.run (.cons move rest)
  have lt := (complete m.start ((h.mem_closure range within).mpr (Or.inl rfl))).lt
  rw [h.start] at lt
  exact Nat.lt_irrefl _ lt

/-- The round has a state more if a step of the round from the initial states leads back to where that one begins. -/
theorem size_round {d e : Automaton} (hd : r.automaton.determinizeFrom r.initial = .ok d) (he : m.determinize = .ok e) :
    ((∃ i a, d.Step i a d.start) → e.size = d.size + 1) ∧ (¬(∃ i a, d.Step i a d.start) → e.size = d.size) := by
  have complete := range.completeFromSet within
  rw [Automaton.determinizeFrom_eq complete] at hd
  rw [Automaton.determinize, if_pos h.start_lt, Automaton.determinizeFrom_eq h.completeFromSet] at he
  obtain rfl := Except.ok.inj hd
  obtain rfl := Except.ok.inj he
  have lists := Automaton.lists_subsets complete
  rw [System.exists_step_start_tabulated lists, System.size_tabulated, System.size_tabulated]
  exact lists.length_of_after (Automaton.lists_subsets h.completeFromSet)
    (fun _ => h.after_closure_iff range within) (h.not_after_closure range within)

end Within
end Entered
end Reversed

namespace Automaton

variable {fa : Automaton}

/-- The round from the set of initial states and the one from a single start accept the same words. They are equal if a
    single accepting state is reachable; otherwise the one from a single start has a state more exactly when a step of the
    other leads back to where it begins, and as many if not. -/
theorem determinize_reverse (range : fa.InRange) (start : fa.start < fa.size ∨ fa.isEmpty = true) :
    ∃ r b d e, fa.reverseEdges = .ok r ∧ fa.reverse = .ok b ∧ r.automaton.determinizeFrom r.initial = .ok d ∧
      b.determinize = .ok e ∧
      (∀ word, ∃ answer, d.accepts word = .ok answer ∧ e.accepts word = .ok answer) ∧
      (e.size = d.size ∨ e.size = d.size + 1) ∧
      ((∃! i, fa.Reachable i ∧ fa.accepting i = true) → e = d) ∧
      ((¬∃! i, fa.Reachable i ∧ fa.accepting i = true) → (e.size = d.size + 1 ↔ ∃ i a, d.Step i a d.start)) := by
  obtain ⟨v, r, b, -, turned, reversed, spec, -, -, started⟩ := exists_reverse_started (range.complete start)
  have complete : b.Complete := Or.inr ((started.inRange spec.inRange).completeFrom (started.start_lt spec.within))
  obtain ⟨d, hd, -, -, completeD, languageD⟩ := exists_determinizeFrom spec.completeFromSet
  obtain ⟨e, he, -, completeE, languageE⟩ := exists_determinize_recognizes complete
  refine ⟨r, b, d, e, turned, reversed, hd, he, fun word => ?_, ?_⟩
  · obtain ⟨answer, given⟩ := exists_accepts_eq completeD word
    refine ⟨answer, given, (accepts_congr completeE completeD ?_).trans given⟩
    rw [languageE, started.recognizes spec.inRange spec.within, languageD]
  rw [← spec.initial_eq_singleton_iff]
  cases started with
  | @single p initial =>
    -- The single initial state is the start, so this is the same round.
    have lt : p < r.automaton.size := spec.within p (initial ▸ StateSet.mem_singleton.mpr rfl)
    have same : Automaton.determinize { r.automaton with start := p } = r.automaton.determinizeFrom r.initial := by
      rw [initial]
      exact congrArg _ (if_pos lt)
    obtain rfl : e = d := Except.ok.inj (he.symm.trans (same.trans hd))
    exact ⟨Or.inl rfl, fun _ => rfl, fun several => absurd ⟨p, initial⟩ several⟩
  | several initial entered =>
    obtain ⟨more, equal⟩ := entered.size_round spec.inRange spec.within hd he
    refine ⟨?_, fun single => ?_, fun _ => ⟨fun size => ?_, more⟩⟩
    · by_cases back : ∃ i a, d.Step i a d.start
      · exact Or.inr (more back)
      · exact Or.inl (equal back)
    · obtain ⟨p, single⟩ := single
      exact absurd single (initial p)
    · by_contra away
      rw [equal away] at size
      exact absurd size.symm (Nat.succ_ne_self _)

/-- Two accepting states that read the same character to each other. -/
def alternating : Automaton :=
  assembled [(.dfa, true), (.dfa, true)] [⟨0, 1, .char 'a'⟩, ⟨1, 0, .char 'a'⟩] 0

theorem determinize_reverse_alternating : alternating.InRange ∧ alternating.start < alternating.size ∧
    (¬∃! i, alternating.Reachable i ∧ alternating.accepting i = true) ∧
    ∃ r b d e, alternating.reverseEdges = .ok r ∧ alternating.reverse = .ok b ∧
      r.automaton.determinizeFrom r.initial = .ok d ∧ b.determinize = .ok e ∧ d.size = 1 ∧ e.size = 2 ∧
      d.accepts ['a'] = e.accepts ['a'] ∧ ∃ i a, d.Step i a d.start := by
  have range : alternating.InRange := inRange_assembled (by decide)
  have start : alternating.start < alternating.size := by decide
  have step : alternating.Step 0 (.char 'a') 1 := (step_assembled (by decide)).mpr (by decide)
  have several : ¬∃! i, alternating.Reachable i ∧ alternating.accepting i = true := fun ⟨i, _, only⟩ => by
    have first : 0 = i := only 0 ⟨⟨start, .refl 0⟩, rfl⟩
    have second : 1 = i := only 1 ⟨⟨start, step.leads⟩, rfl⟩
    exact absurd (first.trans second.symm) Nat.zero_ne_one
  have one : (alternating.reversalRound.map Automaton.size) = .ok 1 := by decide +kernel
  have two : ((alternating.reverse >>= determinize).map Automaton.size) = .ok 2 := by decide +kernel
  obtain ⟨r, b, d, e, turned, reversed, hd, he, words, -, -, more⟩ := determinize_reverse range (Or.inl start)
  have round : alternating.reversalRound = .ok d := by
    rw [reversalRound, turned]
    exact hd
  have entered : (alternating.reverse >>= determinize) = .ok e := by
    rw [reversed]
    exact he
  rw [round] at one
  rw [entered] at two
  have one : d.size = 1 := Except.ok.inj one
  have two : e.size = 2 := Except.ok.inj two
  obtain ⟨answer, given, same⟩ := words ['a']
  refine ⟨range, start, several, r, b, d, e, turned, reversed, hd, he, one, two, given.trans same.symm, ?_⟩
  exact (more several).mp (by rw [one, two])

end Automaton
end FiniteAutomata
