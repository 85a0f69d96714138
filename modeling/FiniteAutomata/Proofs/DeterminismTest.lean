import FiniteAutomata.Proofs.Assembly
import FiniteAutomata.Proofs.Determinism
import FiniteAutomata.Proofs.Edit

/-! What the test for determinism decides. It counts the edges of a state that carry a symbol, where determinism is about
    the targets of the symbol. However an automaton was edited, each target has one edge, so the two come to the same: any
    number of symbols may share an edge, and only what is reached counts. -/

namespace FiniteAutomata
namespace Automaton

variable {fa fb : Automaton} {q : StateId}

/-- The test answers, and the answer is whether the automaton is deterministic. -/
theorem WellFormed.exists_isDeterministic (wf : fa.WellFormed) (complete : fa.Complete) :
    ∃ answer, fa.isDeterministic = .ok answer ∧ (answer = true ↔ fa.Deterministic) := by
  obtain empty | complete := complete
  · have answered : fa.isDeterministic = .ok true := by
      rw [isDeterministic, view_of_size_le (Nat.le_of_not_lt (start_not_lt empty))]
      rfl
    exact ⟨true, answered, iff_of_true rfl (wf.deterministic answered).2⟩
  · obtain ⟨answer, answered⟩ : ∃ answer, fa.isDeterministic = .ok answer := by
      rw [isDeterministic, view_eq complete]
      exact ⟨_, rfl⟩
    refine ⟨answer, answered, fun h => (wf.deterministic (h ▸ answered)).2, fun det => ?_⟩
    exact Except.ok.inj (answered.symm.trans (det.isDeterministic wf complete))

/-- Determinism, state by state. -/
theorem deterministic_iff (complete : fa.Complete) : fa.Deterministic ↔ ∀ q, fa.Reachable q →
    (∀ j, ¬fa.Step q .epsilon j) ∧ ∀ (c : Char) j k, fa.Step q (.char c) j → fa.Step q (.char c) k → j = k := by
  refine ⟨fun det q hq => ⟨fun j => det.silent hq.2, fun c j k => det.functional hq.2⟩, fun h => ?_⟩
  -- A state with a step is there, so the start is.
  have reachable : ∀ {q a j}, fa.Leads fa.start q → fa.Step q a j → fa.Reachable q := by
    intro q a j lead step
    refine ⟨(complete.resolve_left fun empty => ?_).lt, lead⟩
    exact Nat.not_lt_zero q (size_eq_zero empty ▸ step.lt)
  refine ⟨fun lead step => (h _ (reachable lead step)).1 _ step, fun {q j k a} lead first second => ?_⟩
  cases a with
  | epsilon => exact absurd first ((h q (reachable lead first)).1 j)
  | char c => exact (h q (reachable lead first)).2 c j k first second

theorem forall_not_silent_iff : (∀ j, ¬fa.Step q .epsilon j) ↔ ∀ e ∈ fa.edgesOf q, .epsilon ∉ e.label :=
  ⟨fun h e he ha => h e.target ⟨e, he, ha, rfl⟩, fun h _ step => by
    obtain ⟨e, he, ha, -⟩ := step
    exact h e he ha⟩

/-- Where determinism fails there is an edge with the empty step, or there are two with different targets and a character
    in common. -/
theorem exists_clash (complete : fa.Complete) (clash : ¬fa.Deterministic) : ∃ q, fa.Reachable q ∧
    ((∃ e ∈ fa.edgesOf q, .epsilon ∈ e.label) ∨ ∃ c : Char, ∃ e ∈ fa.edgesOf q, ∃ e' ∈ fa.edgesOf q,
      e.target ≠ e'.target ∧ .char c ∈ e.label ∧ .char c ∈ e'.label) := by
  by_contra none
  refine clash ((deterministic_iff complete).mpr fun q hq => ⟨fun j step => none ⟨q, hq, Or.inl ?_⟩,
    fun c j k first second => ?_⟩)
  · obtain ⟨e, he, ha, -⟩ := step
    exact ⟨e, he, ha⟩
  · obtain ⟨e, he, ha, rfl⟩ := first
    obtain ⟨e', he', ha', rfl⟩ := second
    by_contra apart
    exact none ⟨q, hq, Or.inr ⟨c, e, he, e', he', apart, ha, ha'⟩⟩

/-- Only what is reached counts, and of that only the steps. -/
theorem deterministic_congr (ha : fa.Complete) (hb : fb.Complete) (reached : ∀ q, fa.Reachable q ↔ fb.Reachable q)
    (steps : ∀ q, fa.Reachable q → ∀ a j, fa.Step q a j ↔ fb.Step q a j) : fa.Deterministic ↔ fb.Deterministic := by
  rw [deterministic_iff ha, deterministic_iff hb]
  refine forall_congr' fun q => ?_
  rw [← reached q]
  refine forall_congr' fun hq => ?_
  simp only [steps q hq]

end Automaton

namespace Edit

open Automaton

variable {edits : List Edit}

theorem usable_run (range : (run edits).InRange) : (run edits).Usable := ⟨wellFormed_foldl .empty, range⟩

theorem exists_isDeterministic_run (range : (run edits).InRange) :
    ∃ answer, (run edits).isDeterministic = .ok answer ∧ (answer = true ↔ (run edits).Deterministic) :=
  (usable_run range).wellFormed.exists_isDeterministic (usable_run range).complete

/-- However an automaton was edited, if its edges lead to states the test for determinism finds out whether no edge of a
    reachable state carries the empty step and no character leads from one to two states. If it fails, an edge does, or a
    character is on two edges with different targets; and it gives the same answer to any other automaton in which the same
    is reached with the same steps. -/
theorem isDeterministic_run (edits : List Edit) (range : (run edits).InRange) :
    ∃ answer, (run edits).isDeterministic = .ok answer ∧
      (answer = true ↔ ∀ q, (run edits).Reachable q → (∀ e ∈ (run edits).edgesOf q, .epsilon ∉ e.label) ∧
        ∀ (c : Char) j k, (run edits).Step q (.char c) j → (run edits).Step q (.char c) k → j = k) ∧
      (answer = false → ∃ q, (run edits).Reachable q ∧ ((∃ e ∈ (run edits).edgesOf q, .epsilon ∈ e.label) ∨
        ∃ c : Char, ∃ e ∈ (run edits).edgesOf q, ∃ e' ∈ (run edits).edgesOf q,
          e.target ≠ e'.target ∧ .char c ∈ e.label ∧ .char c ∈ e'.label)) ∧
      ∀ others, (run others).InRange → (∀ q, (run edits).Reachable q ↔ (run others).Reachable q) →
        (∀ q, (run edits).Reachable q → ∀ a j, (run edits).Step q a j ↔ (run others).Step q a j) →
        (run others).isDeterministic = .ok answer := by
  have complete := (usable_run range).complete
  obtain ⟨answer, answered, iff⟩ := exists_isDeterministic_run range
  refine ⟨answer, answered, ?_, fun failed => ?_, fun others range' reached steps => ?_⟩
  · rw [iff, deterministic_iff complete]
    simp only [forall_not_silent_iff]
  · exact exists_clash complete fun det => Bool.false_ne_true (failed.symm.trans (iff.mpr det))
  · obtain ⟨answer', answered', iff'⟩ := exists_isDeterministic_run range'
    have same := deterministic_congr complete (usable_run range').complete reached steps
    rw [answered', Bool.eq_iff_iff.mpr (iff'.trans (same.symm.trans iff.symm))]

/-- Three characters on one edge, an empty step that is refused, and a state that nothing leads to. -/
def bundled : List Edit :=
  [.addState .dfa false, .addState .nfa true, .addState .nfa false,
    .addLabeledEdge 0 1 (.ofList [.char 'a', .char 'b']), .addEdge 0 1 (.char 'c'), .addEdge 0 1 .epsilon]

/-- From the state that nothing leads to, an empty step and two ways to read one character. -/
def sharing : List Edit := bundled ++ [.addEdge 2 0 .epsilon, .addEdge 2 0 (.char 'a'), .addEdge 2 1 (.char 'a')]

/-- From the start, another edge with a character that is on the first one already. -/
def forking : List Edit := bundled ++ [.addEdge 0 0 (.char 'b')]

theorem isDeterministic_run_sharing : (run sharing).InRange ∧ (run sharing).isDeterministic = .ok true ∧
    (∀ q, (run sharing).Reachable q → ∀ (c : Char) j k, (run sharing).Step q (.char c) j →
      (run sharing).Step q (.char c) k → j = k) ∧
    (run bundled).InRange ∧ (run bundled).isDeterministic = .ok true ∧
    (run forking).InRange ∧ ∃ q, (run forking).Reachable q ∧ ((∃ e ∈ (run forking).edgesOf q, .epsilon ∈ e.label) ∨
      ∃ c : Char, ∃ e ∈ (run forking).edgesOf q, ∃ e' ∈ (run forking).edgesOf q,
        e.target ≠ e'.target ∧ .char c ∈ e.label ∧ .char c ∈ e'.label) := by
  have bundle : run bundled = assembled [(.dfa, false), (.nfa, true), (.nfa, false)]
      [⟨0, 1, .char 'a'⟩, ⟨0, 1, .char 'b'⟩, ⟨0, 1, .char 'c'⟩] 0 := by decide +kernel
  have share : run sharing = assembled [(.dfa, false), (.nfa, true), (.nfa, false)]
      [⟨0, 1, .char 'a'⟩, ⟨0, 1, .char 'b'⟩, ⟨0, 1, .char 'c'⟩, ⟨2, 0, .epsilon⟩, ⟨2, 0, .char 'a'⟩, ⟨2, 1, .char 'a'⟩]
      0 := by decide +kernel
  have fork : run forking = assembled [(.dfa, false), (.nfa, true), (.nfa, false)]
      [⟨0, 1, .char 'a'⟩, ⟨0, 1, .char 'b'⟩, ⟨0, 1, .char 'c'⟩, ⟨0, 0, .char 'b'⟩] 0 := by decide +kernel
  have inside : (run bundled).InRange := bundle ▸ inRange_assembled (by decide)
  have range : (run sharing).InRange := share ▸ inRange_assembled (by decide)
  have range' : (run forking).InRange := fork ▸ inRange_assembled (by decide)
  have holds : (run sharing).isDeterministic = .ok true := by decide +kernel
  have fails : (run forking).isDeterministic = .ok false := by decide +kernel
  -- The two states that are reached are the same with the edges of the third as without.
  have seen : (run sharing).seen.states = (run bundled).seen.states := by decide +kernel
  have reached : ∀ q, (run sharing).Reachable q ↔ (run bundled).Reachable q := fun q => by
    rw [← mem_seen_iff_reachable (range.completeFrom (by decide +kernel)),
      ← mem_seen_iff_reachable (inside.completeFrom (by decide +kernel)), seen]
  have steps : ∀ q, (run sharing).Reachable q → ∀ a j, (run sharing).Step q a j ↔ (run bundled).Step q a j := by
    intro q hq a j
    have apart : q ≠ 2 := by
      rintro rfl
      exact absurd ((mem_seen_iff_reachable (range.completeFrom (by decide +kernel))).mpr hq) (by decide +kernel)
    rw [share, bundle, step_assembled (by decide), step_assembled (by decide)]
    simp [apart]
  obtain ⟨answer, answered, iff, -, same⟩ := isDeterministic_run sharing range
  obtain rfl := Except.ok.inj (answered.symm.trans holds)
  obtain ⟨answer', answered', -, clash, -⟩ := isDeterministic_run forking range'
  obtain rfl := Except.ok.inj (answered'.symm.trans fails)
  exact ⟨range, holds, fun q hq => (iff.mp rfl q hq).2, inside, same bundled inside reached steps, range', clash rfl⟩

end Edit
end FiniteAutomata
