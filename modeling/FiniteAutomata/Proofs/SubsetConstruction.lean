import FiniteAutomata.Determinize
import FiniteAutomata.Proofs.Canonical
import Mathlib.Algebra.Group.Nat.Defs

/-! The subset construction numbers a deterministic system on sets of states. From a closed set the system
    accepts what some member recognises, and all the sets it reaches are listed, since there are no more of them
    than the construction may expand. -/

namespace FiniteAutomata

theorem StateSet.bits_lt {s : StateSet} {n : Nat} (h : ∀ i ∈ s, i < n) : s.bits < 1 <<< n := by
  rw [Nat.one_shiftLeft]
  refine Nat.lt_pow_two_of_testBit _ fun i hi => ?_
  by_contra hbit
  exact absurd (h i (by simpa [StateSet.mem_def] using hbit)) (Nat.not_lt.mpr hi)

namespace Automaton

variable {fa : Automaton} {s t : StateSet} {c : Char} {word : List Char}

/-- Sets of states with their steps. -/
def subsetSystem (fa : Automaton) : System StateSet := ⟨fa.stepsFrom, fa.acceptsAt⟩

/-! ### Moves -/

theorem mem_stepsFrom : (c, t) ∈ fa.stepsFrom s ↔ t = fa.step s c ∧ ∃ i ∈ s, ∃ j, fa.Step i (.char c) j := by
  rw [stepsFrom_eq, List.mem_map]
  have reads : c ∈ (alphabetOf (fa.edgesOfSet s)).chars ↔ ∃ i ∈ s, ∃ j, fa.Step i (.char c) j := by
    rw [Label.mem_chars, mem_alphabetOf]
    refine ⟨fun h => ?_, fun h => ?_⟩
    · rcases h with ⟨e, he, hc⟩
      obtain ⟨i, hi, he⟩ := mem_edgesOfSet.mp he
      exact ⟨i, hi, e.target, e, he, hc, rfl⟩
    · rcases h with ⟨i, hi, j, e, he, hc, -⟩
      exact ⟨e, mem_edgesOfSet.mpr ⟨i, hi, he⟩, hc⟩
  refine ⟨fun h => ?_, fun given => ?_⟩
  · rcases h with ⟨d, hd, heq⟩
    obtain ⟨rfl, rfl⟩ := Prod.mk.inj heq
    exact ⟨rfl, reads.mp hd⟩
  · rcases given with ⟨rfl, h⟩
    exact ⟨c, reads.mpr h, rfl⟩

theorem ordered_subsetSystem (fa : Automaton) : fa.subsetSystem.Ordered := fun s => by
  show (fa.stepsFrom s).Pairwise _
  rw [stepsFrom_eq]
  exact List.pairwise_map.mpr (Label.chars_pairwise _)

theorem CompleteFromSet.run {u : List Char} (h : fa.CompleteFromSet s) (run : fa.subsetSystem.Run s u t) :
    fa.CompleteFromSet t := by
  induction run with
  | nil => exact h
  | cons move _ ih =>
    obtain ⟨rfl, -⟩ := mem_stepsFrom.mp move
    exact ih (h.step _)

/-- A run goes to the active set after its word. -/
theorem run_subsetSystem (run : fa.subsetSystem.Run s word t) : t = word.foldl fa.step s := by
  induction run with
  | nil => rfl
  | cons move _ ih =>
    obtain ⟨rfl, -⟩ := mem_stepsFrom.mp move
    exact ih

/-- A character that no member reads leads nowhere. -/
theorem mem_step_of_step {j : StateId} (h : fa.CompleteFromSet s) (hi : ∃ i ∈ s, fa.Step i (.char c) j) :
    j ∈ fa.step s c := (mem_closure (h.image c)).mpr ⟨j, mem_image.mpr hi, .nil j⟩

/-- Every run but the one over the empty word leads to a set with members. -/
theorem nonempty_of_run (h : fa.CompleteFromSet s) (hs : ∃ i, i ∈ s) (run : fa.subsetSystem.Run s word t) :
    ∃ i, i ∈ t := by
  induction run with
  | nil => exact hs
  | cons move _ ih =>
    obtain ⟨rfl, i, hi, j, step⟩ := mem_stepsFrom.mp move
    exact ih (h.step _) ⟨j, mem_step_of_step h ⟨i, hi, step⟩⟩

theorem accepts_subsetSystem (s : StateSet) (word : List Char) :
    fa.subsetSystem.Accepts s word ↔ fa.acceptsAt (word.foldl fa.step s) = true := by
  induction word generalizing s with
  | nil => exact System.accepts_nil
  | cons c word ih =>
    rw [System.accepts_cons, List.foldl_cons]
    by_cases reads : ∃ i ∈ s, ∃ j, fa.Step i (.char c) j
    · constructor
      · rintro ⟨t, move, accepts⟩
        obtain ⟨rfl, -⟩ := mem_stepsFrom.mp move
        exact (ih _).mp accepts
      · exact fun h => ⟨_, mem_stepsFrom.mpr ⟨rfl, reads⟩, (ih _).mpr h⟩
    · rw [step_eq_empty reads, foldl_step_empty]
      constructor
      · rintro ⟨t, move, -⟩
        exact absurd (mem_stepsFrom.mp move).2 reads
      · exact fun h => absurd h (by simp [acceptsAt])

/-- From the closure of a set the system accepts what some member recognises. -/
theorem accepts_closure (h : fa.CompleteFromSet s) :
    fa.subsetSystem.Accepts (fa.closure s) word ↔ ∃ i ∈ s, fa.RecognizesFrom i word := by
  rw [accepts_subsetSystem, acceptsAt_iff]
  refine ⟨fun given => ?_, fun given => ?_⟩
  · rcases given with ⟨j, hj, accepting⟩
    obtain ⟨i, hi, path⟩ := (mem_foldl_step h word).mp hj
    exact ⟨i, hi, j, path, accepting⟩
  · rcases given with ⟨i, hi, j, path, accepting⟩
    exact ⟨j, (mem_foldl_step h word).mpr ⟨i, hi, path⟩, accepting⟩

/-! ### The construction -/

theorem completeFromSet_of_mem_subsets (h : fa.CompleteFromSet s) : ∀ t ∈ fa.subsets s, fa.CompleteFromSet t := by
  refine explore_induction (fun t ht u hu => ?_) fun t ht => ?_
  · obtain ⟨⟨c, u'⟩, move, rfl⟩ := List.mem_map.mp hu
    obtain ⟨rfl, -⟩ := mem_stepsFrom.mp move
    exact CompleteFromSet.step ht c
  · obtain rfl : t = fa.closure s := by simpa using ht
    exact h.closure

/-- All sets that are reached are sets of states. -/
theorem mem_scope_of_mem_subsets (h : fa.CompleteFromSet s) :
    ∀ t ∈ fa.subsets s, t ∈ (List.range (1 <<< fa.size)).map StateSet.mk := fun t ht =>
  have below := StateSet.bits_lt fun i hi => (completeFromSet_of_mem_subsets h t ht i hi).lt
  List.mem_map.mpr ⟨t.bits, List.mem_range.mpr below, rfl⟩

theorem closed_subsets (h : fa.CompleteFromSet s) : Closed fa.subsetSystem.successors (fa.subsets s) :=
  closed_explore _ (mem_scope_of_mem_subsets h) (by simp) (by simp) (by simp)

theorem lists_subsets (h : fa.CompleteFromSet s) : fa.subsetSystem.Lists (fa.closure s) (fa.subsets s) :=
  System.lists_explore (closed_subsets h)

/-- There are no more of them than sets of states. -/
theorem length_subsets_le (h : fa.CompleteFromSet s) : (fa.subsets s).length ≤ 2 ^ fa.size := by
  have few := (lists_subsets h).nodup.length_le_of_subset (mem_scope_of_mem_subsets h)
  rwa [List.length_map, List.length_range, Nat.one_shiftLeft] at few

/-- The construction numbers the sets it reaches. -/
theorem determinizeFrom_eq (h : fa.CompleteFromSet s) :
    fa.determinizeFrom s = .ok (fa.subsetSystem.tabulated (fa.subsets s)) := by
  have walk : fa.walk s.toList = .ok (fa.collect (fa.order s.toList)) :=
    walk_eq_ok_iff.mpr ⟨fun i hi => h i (StateSet.mem_toList.mp hi), rfl⟩
  have family : (fa.subsetRows s).map Prod.fst = fa.subsets s := by
    rw [subsetRows_eq, map_fst_rows]
  have arcs : (fa.subsetRows s).flatMap (subsetArcs (fa.subsets s)) = fa.subsetSystem.arcs (fa.subsets s) := by
    rw [subsetRows_eq, List.flatMap_map]
    rfl
  rw [determinizeFrom, walk]
  show assemble (((fa.subsetRows s).map Prod.fst).map fun s => (Kind.dfa, fa.acceptsAt s))
    ((fa.subsetRows s).flatMap (subsetArcs ((fa.subsetRows s).map Prod.fst))) (some 0) = _
  rw [family, arcs]
  exact System.assemble_eq_tabulated (lists_subsets h)

/-- The construction begins with the set of the start, or with no state when the start is none. -/
theorem exists_determinize_eq (h : fa.start < fa.size → fa.CompleteFrom fa.start) :
    ∃ s, fa.CompleteFromSet s ∧ fa.determinize = fa.determinizeFrom s := by
  by_cases start : fa.start < fa.size
  · exact ⟨{fa.start}, completeFromSet_singleton (h start), by rw [determinize, if_pos start]⟩
  · exact ⟨∅, fa.completeFromSet_empty, by rw [determinize, if_neg start]⟩

/-- The constructed automaton recognises what some member of the initial set does. -/
theorem recognizes_subsets (h : fa.CompleteFromSet s) :
    (fa.subsetSystem.tabulated (fa.subsets s)).Recognizes word ↔ ∃ i ∈ s, fa.RecognizesFrom i word := by
  rw [System.recognizes_tabulated (lists_subsets h), accepts_closure h]

/-- The construction gives a deterministic automaton without empty steps. -/
theorem exists_determinizeFrom (h : fa.CompleteFromSet s) : ∃ d, fa.determinizeFrom s = .ok d ∧
    d.isDeterministic = .ok true ∧ (∀ i j, ¬d.Step i .epsilon j) ∧ d.Complete ∧
    ∀ word, d.Recognizes word ↔ ∃ i ∈ s, fa.RecognizesFrom i word := by
  have lists := lists_subsets h
  exact ⟨_, determinizeFrom_eq h, System.isDeterministic_tabulated lists (ordered_subsetSystem fa),
    fun _ _ => System.not_silent_tabulated lists, Or.inr (System.completeFrom_tabulated lists),
    fun _ => recognizes_subsets h⟩

/-- The construction from the start, or from no state if there is none, keeps the language. -/
theorem exists_determinize_recognizes (h : fa.Complete) : ∃ d, fa.determinize = .ok d ∧
    d.isDeterministic = .ok true ∧ d.Complete ∧ ∀ word, d.Recognizes word ↔ fa.Recognizes word := by
  rcases h with empty | complete
  · obtain ⟨d, made, det, -, complete, language⟩ := exists_determinizeFrom fa.completeFromSet_empty
    refine ⟨d, by rw [determinize, if_neg (start_not_lt empty), made], det, complete, fun word => ?_⟩
    rw [language]
    exact iff_of_false (by simp) (not_recognizes_of_isEmpty empty)
  · obtain ⟨d, made, det, -, complete', language⟩ := exists_determinizeFrom (completeFromSet_singleton complete)
    refine ⟨d, by rw [determinize, if_pos complete.lt, made], det, complete', fun word => ?_⟩
    rw [language]
    simp [Recognizes]

/-- From any set of states the construction gives a deterministic automaton for the words that are spelled by a path
    from a member to an accepting state; from the start it keeps the language. -/
theorem accepts_determinized_iff (range : fa.InRange) :
    (∀ s : StateSet, (∀ i ∈ s, i < fa.size) → ∃ d, fa.determinizeFrom s = .ok d ∧ d.isDeterministic = .ok true ∧
      (∀ i j, ¬d.Step i .epsilon j) ∧
      ∀ word, ∃ b, d.accepts word = .ok b ∧ (b = true ↔ ∃ i ∈ s, fa.RecognizesFrom i word)) ∧
    (fa.start < fa.size ∨ fa.isEmpty = true → ∃ d, fa.determinize = .ok d ∧ d.isDeterministic = .ok true ∧
      ∀ word, ∃ b, fa.accepts word = .ok b ∧ d.accepts word = .ok b) := by
  refine ⟨fun s states => ?_, fun start => ?_⟩
  · obtain ⟨d, made, det, silent, complete, language⟩ :=
      exists_determinizeFrom fun i hi => range.completeFrom (states i hi)
    refine ⟨d, made, det, silent, fun word => ?_⟩
    obtain ⟨b, answer⟩ := exists_accepts_eq complete word
    refine ⟨b, answer, ?_⟩
    rw [(accepts_eq_ok_iff complete).mp answer, language]
  · have complete := range.complete start
    obtain ⟨d, made, det, complete', language⟩ := exists_determinize_recognizes complete
    refine ⟨d, made, det, fun word => ?_⟩
    obtain ⟨b, answer⟩ := exists_accepts_eq complete word
    exact ⟨b, answer, (accepts_congr complete' complete (language word)).trans answer⟩

/-- Empty steps in a cycle, an edge with two characters, and a second way in that reads only one of them. -/
def twoWay : Automaton :=
  assembled [(.nfa, false), (.nfa, false), (.dfa, true), (.nfa, false)]
    [⟨0, 1, .epsilon⟩, ⟨1, 0, .epsilon⟩, ⟨1, 2, .char 'a'⟩, ⟨1, 2, .char 'b'⟩, ⟨3, 2, .char 'b'⟩] 0

theorem accepts_determinized_twoWay : twoWay.InRange ∧ (∀ i ∈ StateSet.ofList [0, 3], i < twoWay.size) ∧
    (∃ d, twoWay.determinizeFrom (StateSet.ofList [0, 3]) = .ok d ∧ d.isDeterministic = .ok true ∧
      d.accepts ['b'] = .ok true) ∧
    ∃ d, twoWay.determinize = .ok d ∧ d.accepts ['a'] = twoWay.accepts ['a'] := by
  have range : twoWay.InRange := inRange_assembled (by decide)
  have states : ∀ i ∈ StateSet.ofList [0, 3], i < twoWay.size := fun i hi => by
    have : i = 0 ∨ i = 3 := by simpa using hi
    rcases this with rfl | rfl <;> decide
  obtain ⟨fromSet, fromStart⟩ := accepts_determinized_iff range
  obtain ⟨d, made, det, -, accepts⟩ := fromSet _ states
  obtain ⟨d', made', -, accepts'⟩ := fromStart (Or.inl (by decide))
  have step : twoWay.Step 3 (.char 'b') 2 := (step_assembled (by decide)).mpr (by decide)
  obtain ⟨b, answer, iff⟩ := accepts ['b']
  obtain rfl := iff.mpr ⟨3, by simp, 2, .read step (.nil 2), rfl⟩
  obtain ⟨b', kept, answer'⟩ := accepts' ['a']
  exact ⟨range, states, ⟨d, made, det, answer⟩, d', made', answer'.trans kept.symm⟩

end Automaton
end FiniteAutomata
