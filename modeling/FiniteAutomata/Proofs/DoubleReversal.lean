import FiniteAutomata.Minimize.DoubleReversal
import FiniteAutomata.Proofs.Minimal
import FiniteAutomata.Proofs.Reversal
import FiniteAutomata.Proofs.SubsetConstruction

/-! Reversing and determinizing twice gives the minimal automaton of a language. One round recognises the
    reversed words. Run on a deterministic automaton it also tells all its sets apart: two sets differ at some
    state, and the word that leads to this state from the start, read backwards, is accepted from one of them
    only. The second round is run on the outcome of the first, which is deterministic. So it numbers a reduced
    system, and the result depends on the language alone. -/

namespace FiniteAutomata
namespace Automaton

/-- One state, which neither accepts nor leads anywhere. -/
def barren : Automaton := { states := #[{ id := 0, kind := .dfa, accepting := false }] }

variable {fa : Automaton}

/-! ### Sets that a run reaches -/

theorem accepts_of_run {s t : StateSet} {u word : List Char} (h : fa.CompleteFromSet s)
    (run : fa.subsetSystem.Run (fa.closure s) u t) :
    fa.subsetSystem.Accepts t word ↔ ∃ i ∈ t, fa.RecognizesFrom i word := by
  have complete := h.closure.run run
  have closed : fa.closure t = t := by
    have reached := run_subsetSystem run
    ext i
    rw [mem_closure complete]
    constructor
    · rintro ⟨j, hj, path⟩
      rw [reached, mem_foldl_step h] at hj ⊢
      obtain ⟨k, hk, path'⟩ := hj
      exact ⟨k, hk, List.append_nil u ▸ path'.append path⟩
    · exact fun hi => ⟨i, hi, .nil i⟩
  rw [← accepts_closure complete, closed]

/-! ### One round -/

theorem reversalRound_eq (h : fa.Complete) : ∃ visited r, Reversed.Of fa visited r ∧
    fa.reversalRound = .ok (r.automaton.subsetSystem.tabulated (r.automaton.subsets r.initial)) := by
  obtain ⟨visited, r, made, spec⟩ := reverseEdges_spec h
  refine ⟨visited, r, spec, ?_⟩
  rw [reversalRound, made]
  exact determinizeFrom_eq spec.completeFromSet

/-- A round on any automaton gives a deterministic one for the reversed words. -/
theorem exists_reversalRound (h : fa.Complete) : ∃ m, fa.reversalRound = .ok m ∧ m.WellFormed ∧ m.Deterministic ∧
    m.CompleteFrom m.start ∧ ∀ word, m.Recognizes word ↔ fa.Recognizes word.reverse := by
  obtain ⟨visited, r, spec, made⟩ := reversalRound_eq h
  have lists := lists_subsets spec.completeFromSet
  refine ⟨_, made, System.wellFormed_tabulated lists, System.deterministic_tabulated lists (ordered_subsetSystem _),
    System.completeFrom_tabulated lists, fun word => ?_⟩
  rw [recognizes_subsets spec.completeFromSet, spec.exists_recognizesFrom h]

end Automaton

namespace Reversed.Of

variable {fa : Automaton} {visited : List StateId} {r : Reversed} {s t : StateSet} {u v : List Char} {p : StateId}

/-- Some word leads to whatever stands for a member of a set that is reached. -/
theorem exists_path_of_run (spec : Reversed.Of fa visited r) (wf : fa.WellFormed)
    (run : r.automaton.subsetSystem.Run (r.automaton.closure r.initial) u s) (hp : p ∈ s) :
    ∃ i word, visited[p]? = some i ∧ fa.Path fa.start word i := by
  have hlt := (spec.completeFromSet.closure.run run p hp).lt
  rw [spec.size] at hlt
  have hi := List.getElem?_eq_getElem hlt
  obtain ⟨word, path⟩ := (spec.mem.mp (List.mem_of_getElem? hi)).2.exists_path wf
  exact ⟨_, word, hi, path⟩

/-- Whatever leads to a member of a set is accepted backwards from it, and from no set without this member. -/
theorem mem_of_accepts (spec : Reversed.Of fa visited r) (wf : fa.WellFormed) (det : fa.Deterministic)
    (hs : r.automaton.subsetSystem.Run (r.automaton.closure r.initial) u s)
    (ht : r.automaton.subsetSystem.Run (r.automaton.closure r.initial) v t)
    (language : ∀ word, r.automaton.subsetSystem.Accepts s word → r.automaton.subsetSystem.Accepts t word)
    (hp : p ∈ s) : p ∈ t := by
  have complete := spec.completeFromSet
  obtain ⟨i, word, hi, path⟩ := spec.exists_path_of_run wf hs hp
  have recognizes : r.automaton.RecognizesFrom p word.reverse :=
    (spec.recognizesFrom hi).mpr (by rwa [List.reverse_reverse])
  obtain ⟨q, hq, recognizes'⟩ := (Automaton.accepts_of_run complete ht).mp
    (language _ ((Automaton.accepts_of_run complete hs).mpr ⟨p, hp, recognizes⟩))
  obtain ⟨j, -, hj, -⟩ := spec.exists_path_of_run wf ht hq
  have path' := (spec.recognizesFrom hj).mp recognizes'
  rw [List.reverse_reverse] at path'
  -- Both states are reached by the same word, so they are one.
  obtain rfl := det.path_unique (.refl _) path path'
  obtain rfl := spec.place_unique hi hj
  exact hq

theorem reduced (spec : Reversed.Of fa visited r) (wf : fa.WellFormed) (det : fa.Deterministic)
    (nonempty : ∃ p, p ∈ r.initial) : r.automaton.subsetSystem.Reduced (r.automaton.closure r.initial) := by
  have complete := spec.completeFromSet
  constructor
  · exact Automaton.ordered_subsetSystem _
  · intro s u run
    obtain ⟨p₀, hp₀⟩ := nonempty
    have members : ∃ p, p ∈ r.automaton.closure r.initial := ⟨p₀, (Automaton.mem_closure complete).mpr ⟨p₀, hp₀, .nil p₀⟩⟩
    obtain ⟨p, hp⟩ := Automaton.nonempty_of_run complete.closure members run
    obtain ⟨i, word, hi, path⟩ := spec.exists_path_of_run wf run hp
    refine ⟨word.reverse, (Automaton.accepts_of_run complete run).mpr ⟨p, hp, (spec.recognizesFrom hi).mpr ?_⟩⟩
    rwa [List.reverse_reverse]
  · intro s t u v hs ht language
    ext p
    refine ⟨spec.mem_of_accepts wf det hs ht fun word => (language word).mp, ?_⟩
    exact spec.mem_of_accepts wf det ht hs fun word => (language word).mpr

end Reversed.Of

/-- Numbering a reduced system gives a minimal automaton. -/
theorem System.Reduced.minimal {α : Type} [DecidableEq α] {sys : System α} {x : α} {family : List α}
    (red : sys.Reduced x) (lists : sys.Lists x family) : (sys.tabulated family).Minimal where
  start := start_lt_tabulated lists
  deterministic := deterministic_tabulated lists red.ordered
  reached _ hi := exists_path_tabulated lists hi
  separated i hi j hj language := by
    rw [size_tabulated] at hi hj
    have hi' := List.getElem?_eq_getElem hi
    have hj' := List.getElem?_eq_getElem hj
    obtain ⟨u, hu⟩ := lists.reached _ (List.mem_of_getElem? hi')
    obtain ⟨v, hv⟩ := lists.reached _ (List.mem_of_getElem? hj')
    have same : family[i] = family[j] := red.separated hu hv fun word => by
      rw [← recognizesFrom_tabulated lists hi', ← recognizesFrom_tabulated lists hj', language]
    exact lists.place_unique (same ▸ hi') hj'
  live := Or.inl fun i hi => by
    rw [size_tabulated] at hi
    have hi' := List.getElem?_eq_getElem hi
    obtain ⟨u, hu⟩ := lists.reached _ (List.mem_of_getElem? hi')
    obtain ⟨word, accepts⟩ := red.live hu
    exact ⟨word, (recognizesFrom_tabulated lists hi').mpr accepts⟩

namespace Automaton

variable {fa fb : Automaton}

/-! ### Two rounds -/

theorem tabulated_subsets_empty (fa : Automaton) : fa.subsetSystem.tabulated (fa.subsets ∅) = barren := by
  have single : fa.subsets ∅ = [∅] := by
    rw [subsets, closure_empty]
    refine explore_of_closed fun s hs t ht => ?_
    obtain rfl : s = ∅ := by simpa using hs
    cases ht
  rw [single]
  rfl

theorem determinize_of_isEmpty (empty : fa.isEmpty = true) : fa.determinize = .ok barren := by
  rw [determinize, if_neg (start_not_lt empty), determinizeFrom_eq fa.completeFromSet_empty, tabulated_subsets_empty]

/-- Two rounds number a reduced system of the same language, unless the language is empty. -/
theorem minimizeByReversal_eq (h : fa.Complete) {word : List Char} (hw : fa.Recognizes word) :
    ∃ (back : Automaton) (s : StateSet), back.CompleteFromSet s ∧
      back.subsetSystem.Reduced (back.closure s) ∧
      (∀ word, back.subsetSystem.Accepts (back.closure s) word ↔ fa.Recognizes word) ∧
      fa.minimizeByReversal = .ok (back.subsetSystem.tabulated (back.subsets s)) := by
  obtain ⟨m, first, wf, det, complete, language⟩ := exists_reversalRound h
  obtain ⟨visited, r, spec, second⟩ := reversalRound_eq (Or.inr complete : m.Complete)
  have same : ∀ word, (∃ p ∈ r.initial, r.automaton.RecognizesFrom p word) ↔ fa.Recognizes word := by
    intro word
    rw [spec.exists_recognizesFrom (Or.inr complete), language, List.reverse_reverse]
  obtain ⟨p, hp, -⟩ := (same word).mpr hw
  refine ⟨r.automaton, r.initial, spec.completeFromSet, spec.reduced wf det ⟨p, hp⟩, fun word => ?_, ?_⟩
  · rw [accepts_closure spec.completeFromSet, same]
  · rw [minimizeByReversal, first]
    exact second

theorem minimizeByReversal_eq_barren (h : fa.Complete) (none : ∀ word, ¬fa.Recognizes word) :
    fa.minimizeByReversal = .ok barren := by
  obtain ⟨m, first, wf, det, complete, language⟩ := exists_reversalRound h
  obtain ⟨visited, r, spec, second⟩ := reversalRound_eq (Or.inr complete : m.Complete)
  have empty : r.initial = ∅ := by
    ext p
    refine ⟨fun hp => ?_, fun hp => absurd hp (StateSet.not_mem_empty p)⟩
    obtain ⟨i, hi, accepting⟩ := spec.initial.mp hp
    obtain ⟨word, path⟩ := (spec.mem.mp (List.mem_of_getElem? hi)).2.exists_path wf
    exact absurd ((language word).mp ⟨i, path, accepting⟩) (none _)
  rw [minimizeByReversal, first]
  show m.reversalRound = _
  rw [second, empty, tabulated_subsets_empty]

/-! ### The minimal automaton of a language -/

theorem edgesOf_barren (i : StateId) : barren.edgesOf i = [] := by
  rcases i with _ | i <;> rfl

theorem accepting_barren (i : StateId) : barren.accepting i = false := by
  rcases i with _ | i <;> rfl

theorem not_step_barren {i j : StateId} {a : Symbol} : ¬barren.Step i a j := by
  rintro ⟨e, he, -⟩
  rw [edgesOf_barren] at he
  cases he

theorem not_recognizesFrom_barren (i : StateId) (word : List Char) : ¬barren.RecognizesFrom i word := by
  rintro ⟨j, -, hj⟩
  rw [accepting_barren] at hj
  cases hj

theorem wellFormed_barren : barren.WellFormed := by
  have wf : (assembled [(.dfa, false)] [] 0).WellFormed :=
    wellFormed_assembled (fun _ h => nomatch h) (Or.inl Nat.zero_lt_one)
  exact wf

theorem inRange_barren : barren.InRange := fun i e he => by
  rw [edgesOf_barren] at he
  cases he

theorem minimal_barren : barren.Minimal := minimal_of_size_eq_one rfl rfl inRange_barren not_step_barren

theorem exists_minimizeByReversal (h : fa.Complete) : ∃ m, fa.minimizeByReversal = .ok m ∧ m.WellFormed ∧
    m.InRange ∧ m.Minimal ∧ ∀ word, m.Recognizes word ↔ fa.Recognizes word := by
  by_cases none : ∀ word, ¬fa.Recognizes word
  · exact ⟨barren, minimizeByReversal_eq_barren h none, wellFormed_barren, inRange_barren, minimal_barren,
      fun word => iff_of_false (not_recognizesFrom_barren _ word) (none word)⟩
  · obtain ⟨word, hw⟩ := Classical.not_forall_not.mp none
    obtain ⟨back, s, complete, reduced, language, made⟩ := minimizeByReversal_eq h hw
    have lists := lists_subsets complete
    exact ⟨_, made, System.wellFormed_tabulated lists, System.inRange_tabulated lists, reduced.minimal lists,
      fun word => (System.recognizes_tabulated lists).trans (language word)⟩

/-- Two rounds give the minimal deterministic automaton of the language of any automaton: no state of it can be
    merged with another, dropped as dead or saved by another deterministic automaton. -/
theorem minimizeByReversal_minimal (range : fa.InRange) (start : fa.start < fa.size ∨ fa.isEmpty = true) :
    ∃ m, fa.minimizeByReversal = .ok m ∧
      (∀ word, ∃ b, fa.accepts word = .ok b ∧ m.accepts word = .ok b) ∧
      m.isDeterministic = .ok true ∧
      (∀ i < m.size, ∀ j < m.size, i ≠ j → ∃ word, ¬(m.RecognizesFrom i word ↔ m.RecognizesFrom j word)) ∧
      ((∃ word, fa.accepts word = .ok true) → ∀ i < m.size, ∃ j, m.Leads i j ∧ m.accepting j = true) ∧
      ((∀ word, fa.accepts word = .ok false) → m = barren) ∧
      ∀ other : Automaton, other.isEmpty = false → other.isDeterministic = .ok true →
        (∀ word, other.accepts word = fa.accepts word) →
        ∃ view, other.view = .ok view ∧ m.size ≤ view.states.length := by
  have complete := range.complete start
  obtain ⟨m, made, wf, inRange, min, language⟩ := exists_minimizeByReversal complete
  have complete' := inRange.complete (Or.inl min.start)
  have same : ∀ word, m.accepts word = fa.accepts word := fun word => accepts_congr complete' complete (language word)
  refine ⟨m, made, fun word => ?_, ?_, fun i hi j hj hne => min.exists_separating hi hj hne, ?_, fun none => ?_, ?_⟩
  · obtain ⟨b, hb⟩ := exists_accepts_eq complete word
    exact ⟨b, hb, (same word).trans hb⟩
  · exact min.deterministic.isDeterministic wf (inRange.completeFrom min.start)
  · rintro ⟨word, hw⟩ i hi
    have hw := (language word).mpr ((accepts_eq_true_iff complete).mp hw)
    obtain ⟨word, j, path, accepting⟩ := min.exists_recognizesFrom hw hi
    exact ⟨j, path.leads, accepting⟩
  · have none : ∀ word, ¬fa.Recognizes word := fun word hw => by
      simpa [(accepts_eq_true_iff complete).mpr hw] using none word
    exact Except.ok.inj (made.symm.trans (minimizeByReversal_eq_barren complete none))
  · intro other nonempty det same'
    exact min.size_le_of_isDeterministic complete' nonempty det fun word => (same' word).trans (same word).symm

/-- Empty steps in a cycle, a dead state and one that nothing leads to. -/
def tangled : Automaton :=
  assembled [(.nfa, false), (.nfa, true), (.nfa, false), (.dfa, true)]
    [⟨0, 1, .epsilon⟩, ⟨1, 0, .epsilon⟩, ⟨1, 1, .char 'a'⟩, ⟨0, 2, .char 'b'⟩, ⟨3, 1, .char 'a'⟩] 0

theorem minimizeByReversal_tangled : tangled.InRange ∧ ∃ m, tangled.minimizeByReversal = .ok m ∧
    m.isDeterministic = .ok true ∧ ∀ word, ∃ b, tangled.accepts word = .ok b ∧ m.accepts word = .ok b := by
  have range : tangled.InRange := inRange_assembled (by decide)
  obtain ⟨m, made, same, det, -⟩ := minimizeByReversal_minimal range (Or.inl (by decide))
  exact ⟨range, m, made, det, same⟩

/-! ### One automaton for each language -/

theorem minimizeByReversal_congr (h : fa.Complete) (h' : fb.Complete)
    (language : ∀ word, fa.Recognizes word ↔ fb.Recognizes word) : fa.minimizeByReversal = fb.minimizeByReversal := by
  by_cases none : ∀ word, ¬fa.Recognizes word
  · rw [minimizeByReversal_eq_barren h none,
      minimizeByReversal_eq_barren h' fun word => mt (language word).mpr (none word)]
  · obtain ⟨word, hw⟩ := Classical.not_forall_not.mp none
    obtain ⟨back, s, complete, reduced, accepts, made⟩ := minimizeByReversal_eq h hw
    obtain ⟨back', s', complete', reduced', accepts', made'⟩ := minimizeByReversal_eq h' ((language word).mp hw)
    -- The two systems are over sets of different states, but they are reduced and accept the same words.
    have canonical := System.tabulated_eq reduced reduced' (closed_subsets complete) (closed_subsets complete')
      fun word => by rw [accepts, accepts', language]
    rw [made, made']
    exact congrArg Except.ok canonical

/-- Two rounds give one and the same automaton, numbers and order of edges included, for two automata exactly when
    these accept the same words. -/
theorem minimizeByReversal_eq_iff (range : fa.InRange) (start : fa.start < fa.size ∨ fa.isEmpty = true)
    (range' : fb.InRange) (start' : fb.start < fb.size ∨ fb.isEmpty = true) :
    ∃ m m', fa.minimizeByReversal = .ok m ∧ fb.minimizeByReversal = .ok m' ∧
      (m = m' ↔ ∀ word, fa.accepts word = fb.accepts word) := by
  have complete := range.complete start
  have complete' := range'.complete start'
  obtain ⟨m, made, -, inRange, min, language⟩ := exists_minimizeByReversal complete
  obtain ⟨m', made', -, -, -, language'⟩ := exists_minimizeByReversal complete'
  refine ⟨m, m', made, made', fun same word => ?_, fun same => ?_⟩
  · subst same
    exact accepts_congr complete complete' ((language word).symm.trans (language' word))
  · have recognizes : ∀ word, fa.Recognizes word ↔ fb.Recognizes word := fun word => by
      rw [← accepts_eq_true_iff complete, same, accepts_eq_true_iff complete']
    exact Except.ok.inj (made.symm.trans ((minimizeByReversal_congr complete complete' recognizes).trans made'))

/-- One accepting state that reads `a`, and a dead one with characters of its own. -/
def unwound : Automaton :=
  assembled [(.dfa, false), (.dfa, true)] [⟨1, 1, .char 'a'⟩, ⟨1, 0, .char 'z'⟩, ⟨0, 0, .char 'y'⟩] 1

theorem minimizeByReversal_eq_unwound : tangled.InRange ∧ unwound.InRange ∧
    tangled.minimizeByReversal = unwound.minimizeByReversal ∧ ∀ word, tangled.accepts word = unwound.accepts word := by
  have range : tangled.InRange := inRange_assembled (by decide)
  have range' : unwound.InRange := inRange_assembled (by decide)
  obtain ⟨m, m', made, made', iff⟩ := minimizeByReversal_eq_iff range (Or.inl (by decide)) range' (Or.inl (by decide))
  have same : tangled.minimizeByReversal = unwound.minimizeByReversal := by decide +kernel
  exact ⟨range, range', same, iff.mp (Except.ok.inj (made.symm.trans (same.trans made')))⟩

end Automaton
end FiniteAutomata
