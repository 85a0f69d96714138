import FiniteAutomata.Automaton.Isomorphism
import FiniteAutomata.Proofs.DoubleReversal
import FiniteAutomata.Proofs.Refinement

/-! The comparison up to renaming finds minimal automata of the same language isomorphic, as the pairs it forces
    are states that recognise the same words. The two ways to minimise a deterministic automaton therefore
    agree as long as some word is recognised. Without one they agree only if no step of the start leads back
    to it: refinement keeps such a step, two reversals do not. -/

namespace FiniteAutomata
namespace Automaton

variable {fa fb m m' : Automaton} {i j : StateId} {a : Symbol}

/-! ### Last targets -/

theorem mem_alphabetOf_edgesOf : a ∈ alphabetOf (fa.edgesOf i) ↔ ∃ j, fa.Step i a j := by
  rw [mem_alphabetOf]
  refine ⟨fun h => ?_, fun h => ?_⟩
  · obtain ⟨e, he, ha⟩ := h
    exact ⟨e.target, e, he, ha, rfl⟩
  · obtain ⟨j, e, he, ha, -⟩ := h
    exact ⟨e, he, ha⟩

theorem step_of_lastTarget? (h : fa.lastTarget? i a = some j) : fa.Step i a j := by
  obtain ⟨e, found, rfl⟩ := Option.map_eq_some_iff.mp h
  exact ⟨e, List.mem_reverse.mp (List.mem_of_find?_eq_some found), by simpa using List.find?_some found, rfl⟩

theorem exists_lastTarget?_iff : (∃ j, fa.lastTarget? i a = some j) ↔ ∃ j, fa.Step i a j := by
  refine ⟨fun h => ?_, fun h => ?_⟩
  · obtain ⟨j, last⟩ := h
    exact ⟨j, step_of_lastTarget? last⟩
  · obtain ⟨j, e, he, ha, -⟩ := h
    have found : ((fa.edgesOf i).reverse.find? fun e => decide (a ∈ e.label)).isSome = true := by
      rw [List.find?_isSome]
      exact ⟨e, List.mem_reverse.mpr he, by simpa using ha⟩
    obtain ⟨e', find⟩ := Option.isSome_iff_exists.mp found
    exact ⟨e'.target, by rw [lastTarget?, find]; rfl⟩

theorem mem_transitions : (a, j) ∈ fa.transitions i ↔ fa.lastTarget? i a = some j := by
  rw [transitions, List.mem_filterMap]
  refine ⟨fun h => ?_, fun last => ⟨a, ?_, by rw [last]; rfl⟩⟩
  · obtain ⟨b, -, listed⟩ := h
    obtain ⟨k, last, same⟩ := Option.map_eq_some_iff.mp listed
    obtain ⟨rfl, rfl⟩ := Prod.mk.inj same
    exact last
  · exact Label.mem_toList.mpr (mem_alphabetOf_edgesOf.mpr ⟨j, step_of_lastTarget? last⟩)

theorem map_fst_transitions (fa : Automaton) (i : StateId) :
    (fa.transitions i).map Prod.fst = (alphabetOf (fa.edgesOf i)).toList := by
  have symbols : ∀ l : List Symbol, (∀ a ∈ l, a ∈ alphabetOf (fa.edgesOf i)) →
      (l.filterMap fun a => (fa.lastTarget? i a).map fun t => (a, t)).map Prod.fst = l := by
    intro l
    induction l with
    | nil => exact fun _ => rfl
    | cons a l ih =>
      intro h
      obtain ⟨j, hj⟩ := exists_lastTarget?_iff.mpr (mem_alphabetOf_edgesOf.mp (h a List.mem_cons_self))
      rw [List.filterMap_cons, hj]
      show a :: (l.filterMap _).map Prod.fst = _
      rw [ih fun b hb => h b (List.mem_cons_of_mem _ hb)]
  exact symbols _ fun a ha => Label.mem_toList.mp ha

/-! ### Forced pairs -/

theorem compatible_iff : fa.compatible fb (i, j) = true ↔
    fa.accepting i = fb.accepting j ∧ ∀ a, (∃ k, fa.Step i a k) ↔ ∃ k, fb.Step j a k := by
  have labels : alphabetOf (fa.edgesOf i) = alphabetOf (fb.edgesOf j) ↔
      ∀ a, (∃ k, fa.Step i a k) ↔ ∃ k, fb.Step j a k := by
    simp only [← mem_alphabetOf_edgesOf]
    exact ⟨fun h a => by rw [h], Label.ext⟩
  have lists : (alphabetOf (fa.edgesOf i)).toList = (alphabetOf (fb.edgesOf j)).toList ↔
      alphabetOf (fa.edgesOf i) = alphabetOf (fb.edgesOf j) := by
    refine ⟨fun h => Label.ext fun a => ?_, fun h => by rw [h]⟩
    rw [← Label.mem_toList, h, Label.mem_toList]
  rw [compatible, Bool.and_eq_true, beq_iff_eq, decide_eq_true_eq, map_fst_transitions, map_fst_transitions, lists,
    labels]

/-- Steps on the same symbols, place by place. -/
theorem mem_zip_of_map_fst_eq {α β γ : Type} {x : β} {y : γ} : ∀ {l : List (α × β)} {l' : List (α × γ)},
    l.map Prod.fst = l'.map Prod.fst → (x, y) ∈ (l.map Prod.snd).zip (l'.map Prod.snd) →
      ∃ a, (a, x) ∈ l ∧ (a, y) ∈ l'
  | [], _, _, h => by cases h
  | _ :: _, [], same, _ => by cases same
  | (a, x') :: l, (b, y') :: l', same, h => by
    obtain ⟨rfl, tails⟩ := List.cons.inj same
    rw [List.map_cons, List.map_cons, List.zip_cons_cons] at h
    rcases List.mem_cons.mp h with heq | h
    · obtain ⟨rfl, rfl⟩ := Prod.mk.inj heq
      exact ⟨_, List.mem_cons_self, List.mem_cons_self⟩
    · obtain ⟨c, hx, hy⟩ := mem_zip_of_map_fst_eq tails h
      exact ⟨c, List.mem_cons_of_mem _ hx, List.mem_cons_of_mem _ hy⟩

/-- Every pair of one list has its place in the other. -/
theorem exists_mem_zip_of_map_fst_eq {α β γ : Type} {a : α} {x : β} : ∀ {l : List (α × β)} {l' : List (α × γ)},
    l.map Prod.fst = l'.map Prod.fst → (a, x) ∈ l → ∃ y, (a, y) ∈ l' ∧ (x, y) ∈ (l.map Prod.snd).zip (l'.map Prod.snd)
  | [], _, _, h => by cases h
  | _ :: _, [], same, _ => by cases same
  | (b, x') :: l, (b', y') :: l', same, h => by
    obtain ⟨rfl, tails⟩ := List.cons.inj same
    rw [List.map_cons, List.map_cons, List.zip_cons_cons]
    rcases List.mem_cons.mp h with heq | h
    · obtain ⟨rfl, rfl⟩ := Prod.mk.inj heq
      exact ⟨y', List.mem_cons_self, List.mem_cons_self⟩
    · obtain ⟨y, hy, hz⟩ := exists_mem_zip_of_map_fst_eq tails h
      exact ⟨y, List.mem_cons_of_mem _ hy, List.mem_cons_of_mem _ hz⟩

/-- Compatible states force the pairs of their last targets, symbol by symbol. -/
theorem mem_forcedBy {k l : StateId} : (k, l) ∈ fa.forcedBy fb (i, j) ↔ fa.compatible fb (i, j) = true ∧
    ∃ a, fa.lastTarget? i a = some k ∧ fb.lastTarget? j a = some l := by
  rw [forcedBy]
  split
  · next compatible =>
    rw [and_iff_right compatible]
    rw [Automaton.compatible, Bool.and_eq_true, decide_eq_true_eq] at compatible
    refine ⟨fun h => ?_, fun h => ?_⟩
    · obtain ⟨a, first, second⟩ := mem_zip_of_map_fst_eq compatible.2 h
      exact ⟨a, mem_transitions.mp first, mem_transitions.mp second⟩
    · obtain ⟨a, first, second⟩ := h
      obtain ⟨m, third, zip⟩ := exists_mem_zip_of_map_fst_eq compatible.2 (mem_transitions.mpr first)
      obtain rfl := Option.some.inj ((mem_transitions.mp third).symm.trans second)
      exact zip
  · next incompatible => exact iff_of_false List.not_mem_nil fun h => incompatible h.1

theorem step_of_mem_forcedBy {p q : StateId × StateId} (h : q ∈ fa.forcedBy fb p) :
    ∃ a, fa.Step p.1 a q.1 ∧ fb.Step p.2 a q.2 := by
  obtain ⟨-, a, first, second⟩ := mem_forcedBy.mp h
  exact ⟨a, step_of_lastTarget? first, step_of_lastTarget? second⟩

theorem leads_of_mem_forcedPairs {n : Nat} :
    ∀ p ∈ fa.forcedPairs fb n, fa.Leads fa.start p.1 ∧ fb.Leads fb.start p.2 := by
  refine explore_induction (fun p hp q hq => ?_) fun p hp => ?_
  · obtain ⟨a, step, step'⟩ := step_of_mem_forcedBy hq
    exact ⟨hp.1.trans step.leads, hp.2.trans step'.leads⟩
  · obtain rfl := List.mem_singleton.mp hp
    exact ⟨.refl _, .refl _⟩

/-! ### The comparison -/

/-- No id is paired with two others, on either side. -/
def OneToOne (pairs : List (StateId × StateId)) : Prop := ∀ p ∈ pairs, ∀ q ∈ pairs, p.1 = q.1 ↔ p.2 = q.2

theorem oneToOne_iff {pairs : List (StateId × StateId)} : oneToOne pairs = true ↔ OneToOne pairs := by
  simp only [oneToOne, List.all_eq_true, beq_iff_eq, decide_eq_decide]
  rfl

theorem isEmpty_eq_false (start : fa.start < fa.size) : fa.isEmpty = false :=
  Bool.eq_false_iff.mpr fun empty => start_not_lt empty start

/-- As many states are reached, and the pairs that the starts force are compatible and one to one. -/
theorem isomorphic_eq (complete : fa.CompleteFrom fa.start) (complete' : fb.CompleteFrom fb.start) :
    ∃ same, fa.isomorphic fb = .ok same ∧ (same = true ↔ fa.seen.states.length = fb.seen.states.length ∧
      (∀ p ∈ fa.forcedPairs fb fa.seen.states.length, fa.compatible fb p = true) ∧
      OneToOne (fa.forcedPairs fb fa.seen.states.length)) := by
  rw [isomorphic, isEmpty_eq_false complete.lt, isEmpty_eq_false complete'.lt, view_eq complete, view_eq complete']
  by_cases lengths : fa.seen.states.length = fb.seen.states.length
  · refine ⟨_, if_neg (not_not_intro lengths), ?_⟩
    rw [Bool.and_eq_true, List.all_eq_true, oneToOne_iff]
    exact (and_iff_right lengths).symm
  · exact ⟨false, if_pos lengths, iff_of_false Bool.false_ne_true fun given => lengths given.1⟩

/-! ### Minimal automata -/

theorem length_seen_le (complete : m.CompleteFrom m.start) : m.seen.states.length ≤ m.size :=
  StateSet.length_le_of_lt (seen_nodup m) fun i hi => complete i ((mem_seen complete).mp hi)

theorem Minimal.length_seen (min : m.Minimal) (range : m.InRange) : m.seen.states.length = m.size := by
  have complete := range.completeFrom min.start
  have all := List.nodup_range.length_le_of_subset fun i hi => by
    obtain ⟨word, path⟩ := min.reached i (List.mem_range.mp hi)
    exact (mem_seen complete).mpr path.leads
  rw [List.length_range] at all
  exact Nat.le_antisymm (length_seen_le complete) all

theorem Minimal.leads (min : m.Minimal) (hi : i < m.size) : m.Leads m.start i := by
  obtain ⟨word, path⟩ := min.reached i hi
  exact path.leads

/-- States of two automata that recognise the same words. -/
structure Twins (m m' : Automaton) (i j : StateId) : Prop where
  left : i < m.size
  right : j < m'.size
  language : ∀ word, m.RecognizesFrom i word ↔ m'.RecognizesFrom j word

section Minimal
variable (min : m.Minimal) (min' : m'.Minimal) (range : m.InRange) (range' : m'.InRange)
  (language : ∀ word, m.Recognizes word ↔ m'.Recognizes word) (live : ∃ word, m.Recognizes word)
include min min'

theorem Twins.step (h : m.Twins m' i j) (range : m.InRange) (range' : m'.InRange) {k l : StateId} (first : m.Step i a k)
    (second : m'.Step j a l) : m.Twins m' k l := by
  refine ⟨range.step_lt first, range'.step_lt second, fun word => ?_⟩
  cases a with
  | epsilon => exact absurd first (min.deterministic.silent (min.leads h.left))
  | char c =>
    rw [← min.deterministic.recognizesFrom_step (min.leads h.left) first,
      ← min'.deterministic.recognizesFrom_step (min'.leads h.right) second, h.language]

include range range' language

theorem size_eq_of_minimal : m.size = m'.size := by
  have le := min.size_le min'.deterministic (range'.completeFrom min'.start) language
  have ge := min'.size_le min.deterministic (range.completeFrom min.start) fun word => (language word).symm
  rw [min'.length_seen range'] at le
  rw [min.length_seen range] at ge
  exact Nat.le_antisymm le ge

include live

theorem Twins.compatible (h : m.Twins m' i j) : m.compatible m' (i, j) = true := by
  have symbols : ∀ {fa fb : Automaton} {i j k : StateId} {a : Symbol}, fa.Minimal → fa.InRange → fb.Minimal →
      (∃ word, fa.Recognizes word) → fa.Twins fb i j → fa.Step i a k → ∃ l, fb.Step j a l := by
    intro fa fb i j k a minA range minB live h step
    cases a with
    | epsilon => exact absurd step (minA.deterministic.silent (minA.leads h.left))
    | char c =>
      obtain ⟨word, recognizes⟩ := live
      obtain ⟨rest, recognizes⟩ := minA.exists_recognizesFrom recognizes (range.step_lt step)
      have recognizes := (minA.deterministic.recognizesFrom_step (minA.leads h.left) step).mpr recognizes
      obtain ⟨l, step', -⟩ := (minB.deterministic.recognizesFrom_cons (minB.leads h.right)).mp
        ((h.language _).mp recognizes)
      exact ⟨l, step'⟩
  have live' : ∃ word, m'.Recognizes word := by
    obtain ⟨word, recognizes⟩ := live
    exact ⟨word, (language word).mp recognizes⟩
  have flipped : m'.Twins m j i := ⟨h.right, h.left, fun word => (h.language word).symm⟩
  refine compatible_iff.mpr ⟨?_, fun a => ⟨fun step => ?_, fun step => ?_⟩⟩
  · rw [Bool.eq_iff_iff, ← min.deterministic.recognizesFrom_nil (min.leads h.left),
      ← min'.deterministic.recognizesFrom_nil (min'.leads h.right), h.language]
  · obtain ⟨k, step⟩ := step
    exact symbols min range min' live h step
  · obtain ⟨k, step⟩ := step
    exact symbols min' range' min live' flipped step

/-- Minimal automata of the same language are found isomorphic, if there is a word in it. -/
theorem Minimal.isomorphic_eq : m.isomorphic m' = .ok true := by
  have twins : ∀ p ∈ m.forcedPairs m' m.seen.states.length, m.Twins m' p.1 p.2 := by
    refine explore_induction (fun p hp q hq => ?_) fun p hp => ?_
    · obtain ⟨a, first, second⟩ := step_of_mem_forcedBy hq
      exact hp.step min min' range range' first second
    · obtain rfl : p = (m.start, m'.start) := by simpa using hp
      exact ⟨min.start, min'.start, language⟩
  have compatible : ∀ p ∈ m.forcedPairs m' m.seen.states.length, m.compatible m' p = true := fun p hp =>
    (twins p hp).compatible min min' range range' language live
  have unique : OneToOne (m.forcedPairs m' m.seen.states.length) := by
    intro p hp q hq
    have hp := twins p hp
    have hq := twins q hq
    refine ⟨fun same => ?_, fun same => ?_⟩
    · refine min'.separated _ hp.right _ hq.right fun word => ?_
      rw [← hp.language, ← hq.language, same]
    · refine min.separated _ hp.left _ hq.left fun word => ?_
      rw [hp.language, hq.language, same]
  have lengths : m.seen.states.length = m'.seen.states.length := by
    rw [min.length_seen range, min'.length_seen range', size_eq_of_minimal min min' range range' language]
  obtain ⟨same, answer, iff⟩ := Automaton.isomorphic_eq (range.completeFrom min.start) (range'.completeFrom min'.start)
  rw [answer, iff.mpr ⟨lengths, compatible, unique⟩]

end Minimal

/-! ### The two ways to minimise -/

/-- A single state is compared with the minimal automaton of the empty language by acceptance and symbols alone. -/
theorem isomorphic_barren (size : m.size = 1) (start : m.start < m.size) (range : m.InRange) :
    m.isomorphic barren = .ok (m.compatible barren (m.start, 0)) := by
  have complete := range.completeFrom start
  have length : m.seen.states.length = 1 := by
    have few := size ▸ length_seen_le complete
    exact Nat.le_antisymm few (List.length_pos_of_mem ((mem_seen complete).mpr (.refl m.start)))
  have length' : barren.seen.states.length = 1 := minimal_barren.length_seen inRange_barren
  have pairs : m.forcedPairs barren 1 = [(m.start, 0)] := by
    refine explore_of_closed fun p _ q hq => ?_
    obtain ⟨a, -, step⟩ := step_of_mem_forcedBy hq
    exact absurd step not_step_barren
  obtain ⟨same, answer, iff⟩ := isomorphic_eq complete (inRange_barren.completeFrom Nat.zero_lt_one)
  have single : OneToOne [(m.start, 0)] := by simp [OneToOne]
  rw [length, length', pairs, List.forall_mem_singleton, and_iff_right rfl, and_iff_left single] at iff
  rw [answer, Bool.eq_iff_iff.mpr iff]

theorem WellFormed.mem_targets_iff (wf : fa.WellFormed) : j ∈ fa.targets i ↔ ∃ a, fa.Step i a j := by
  rw [mem_targets]
  refine ⟨fun h => ?_, fun h => ?_⟩
  · obtain ⟨e, he, target⟩ := h
    obtain ⟨a, ha⟩ := wf.exists_symbol he
    exact ⟨a, e, he, ha, target⟩
  · obtain ⟨a, e, he, -, target⟩ := h
    exact ⟨e, he, target⟩

theorem isomorphic_minimized_of_live (wf : fa.WellFormed) (complete : fa.CompleteFrom fa.start)
    (det : fa.Deterministic) (live : ∃ word, fa.Recognizes word) :
    ∃ p r, fa.minimizeByRefinement = .ok p ∧ fa.minimizeByReversal = .ok r ∧ p.isomorphic r = .ok true := by
  obtain ⟨p, madeP, -, rangeP, minP, languageP⟩ := exists_minimizeByRefinement wf complete det live
  obtain ⟨r, madeR, -, rangeR, minR, languageR⟩ := exists_minimizeByReversal (Or.inr complete : fa.Complete)
  obtain ⟨word, recognizes⟩ := live
  refine ⟨p, r, madeP, madeR, minP.isomorphic_eq minR rangeP rangeR (fun word => ?_) ⟨word, ?_⟩⟩
  · exact (languageP word).trans (languageR word).symm
  · exact (languageP word).mpr recognizes

/-- When nothing is recognised refinement keeps what leads from the start back to it, and two reversals do not. -/
theorem isomorphic_minimized_of_dead (wf : fa.WellFormed) (complete : fa.CompleteFrom fa.start)
    (det : fa.Deterministic) (dead : ∀ word, ¬fa.Recognizes word) :
    ∃ p same, fa.minimizeByRefinement = .ok p ∧ p.isomorphic barren = .ok same ∧
      (same = true ↔ fa.start ∉ fa.targets fa.start) := by
  obtain ⟨p, made, size, start, -, range, rejects, loop⟩ := minimizeByRefinement_of_dead wf complete dead det
  have hstart : p.start < p.size := by
    rw [start, size]
    exact Nat.zero_lt_one
  refine ⟨p, _, made, isomorphic_barren size hstart range, ?_⟩
  have silent : (∀ a, (∃ k, p.Step 0 a k) ↔ ∃ k, barren.Step 0 a k) ↔ fa.start ∉ fa.targets fa.start := by
    rw [wf.mem_targets_iff]
    refine ⟨fun h loops => ?_, fun h a => ?_⟩
    · obtain ⟨a, step⟩ := loops
      obtain ⟨k, step'⟩ := (h a).mp ⟨0, (loop a).mpr step⟩
      exact not_step_barren step'
    · -- The only state is the target of whatever it steps to.
      have no_step : ¬∃ k, p.Step 0 a k := by
        intro step
        obtain ⟨k, step⟩ := step
        have hk := range.step_lt step
        rw [size] at hk
        exact h ⟨a, (loop a).mp (Nat.lt_one_iff.mp hk ▸ step)⟩
      refine iff_of_false no_step fun step => ?_
      obtain ⟨k, step⟩ := step
      exact not_step_barren step
  rw [start, compatible_iff, rejects, accepting_barren, silent]
  exact ⟨fun h => h.2, fun h => ⟨rfl, h⟩⟩

/-- The two ways to minimise a deterministic automaton agree up to renaming exactly when some word is recognised or no
    step of the start leads back to it. -/
theorem isomorphic_minimized_iff (wf : fa.WellFormed) (det : fa.isDeterministic = .ok true) :
    ∃ p r same, fa.minimizeByRefinement = .ok p ∧ fa.minimizeByReversal = .ok r ∧ p.isomorphic r = .ok same ∧
      (same = true ↔ (∃ word, fa.accepts word = .ok true) ∨ fa.start ∉ fa.targets fa.start) := by
  by_cases empty : fa.isEmpty = true
  · have dead : ∀ word, ¬fa.Recognizes word := fun _ => not_recognizes_of_isEmpty empty
    refine ⟨barren, barren, true, ?_, minimizeByReversal_eq_barren (Or.inl empty) dead, ?_, ?_⟩
    · rw [minimizeByRefinement, if_neg (start_not_lt empty), determinize_of_isEmpty empty]
    · rw [isomorphic_barren rfl Nat.zero_lt_one inRange_barren]
      exact congrArg _ (compatible_iff.mpr ⟨rfl, fun _ => Iff.rfl⟩)
    · refine iff_of_true rfl (Or.inr fun h => start_not_lt empty ?_)
      obtain ⟨e, he, -⟩ := mem_targets.mp h
      exact lt_of_mem_edgesOf he
  have start : fa.start < fa.size := wf.start.resolve_right fun h => empty h.1
  obtain ⟨complete, det⟩ := Deterministic.of_isDeterministic start det
  simp only [accepts_eq_true_iff (Or.inr complete : fa.Complete)]
  by_cases live : ∃ word, fa.Recognizes word
  · obtain ⟨p, r, madeP, madeR, isomorphic⟩ := isomorphic_minimized_of_live wf complete det live
    exact ⟨p, r, true, madeP, madeR, isomorphic, iff_of_true rfl (Or.inl live)⟩
  · have dead : ∀ word, ¬fa.Recognizes word := fun word recognizes => live ⟨word, recognizes⟩
    obtain ⟨p, same, made, isomorphic, iff⟩ := isomorphic_minimized_of_dead wf complete det dead
    refine ⟨p, barren, same, made, minimizeByReversal_eq_barren (Or.inr complete) dead, isomorphic, iff.trans ?_⟩
    exact (or_iff_right live).symm

/-- A rejecting start that reads one character and stays. -/
def looping : Automaton := assembled [(.dfa, false)] [⟨0, 0, .char 'a'⟩] 0

/-- Refinement keeps the loop, two reversals do not. -/
theorem not_isomorphic_looping : looping.WellFormed ∧ looping.InRange ∧ looping.isDeterministic = .ok true ∧
    looping.minimizeByRefinement = .ok looping ∧ looping.minimizeByReversal = .ok barren ∧
    looping.isomorphic barren = .ok false :=
  ⟨wellFormed_assembled (by decide) (Or.inl (by decide)), inRange_assembled (by decide), rfl, rfl, rfl, rfl⟩

/-- An accepting state with a dead one behind it, and an unreachable one that leads there. -/
def trailing : Automaton :=
  assembled [(.dfa, false), (.dfa, true), (.dfa, false), (.dfa, true)]
    [⟨0, 1, .char 'a'⟩, ⟨1, 2, .char 'b'⟩, ⟨2, 2, .char 'a'⟩, ⟨3, 1, .char 'b'⟩] 0

theorem isomorphic_trailing : trailing.WellFormed ∧ trailing.isDeterministic = .ok true ∧
    ∃ p r, trailing.minimizeByRefinement = .ok p ∧ trailing.minimizeByReversal = .ok r ∧ p.isomorphic r = .ok true := by
  have wf : trailing.WellFormed := wellFormed_assembled (by decide) (Or.inl (by decide))
  have accepts : trailing.accepts ['a'] = .ok true := rfl
  obtain ⟨p, r, same, madeP, madeR, isomorphic, iff⟩ := isomorphic_minimized_iff wf rfl
  obtain rfl := iff.mpr (Or.inl ⟨['a'], accepts⟩)
  exact ⟨wf, rfl, p, r, madeP, madeR, isomorphic⟩

end Automaton
end FiniteAutomata
