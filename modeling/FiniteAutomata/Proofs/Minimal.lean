import FiniteAutomata.Proofs.Determinism
import Mathlib.Tactic.Choose

/-! Deterministic automata without a state to spare. No deterministic automaton of the same language reaches
    fewer states, since different states of the minimal one are followed to different states of the other. -/

namespace FiniteAutomata
namespace Automaton

/-- Every state is reached by some word, no two states recognise the same words, and each state recognises some
    word unless it is the only one. -/
structure Minimal (m : Automaton) : Prop where
  start : m.start < m.size
  deterministic : m.Deterministic
  reached : ∀ i < m.size, ∃ word, m.Path m.start word i
  separated : ∀ i < m.size, ∀ j < m.size, (∀ word, m.RecognizesFrom i word ↔ m.RecognizesFrom j word) → i = j
  live : (∀ i < m.size, ∃ word, m.RecognizesFrom i word) ∨ m.size = 1

variable {m fa : Automaton}

theorem Minimal.exists_separating (min : m.Minimal) {i j : StateId} (hi : i < m.size) (hj : j < m.size) (hne : i ≠ j) :
    ∃ word, ¬(m.RecognizesFrom i word ↔ m.RecognizesFrom j word) := by
  by_contra none
  exact hne (min.separated i hi j hj fun word => Classical.not_not.mp fun h => none ⟨word, h⟩)

/-- A single state is minimal. -/
theorem minimal_of_size_eq_one (size : m.size = 1) (start : m.start = 0) (range : m.InRange)
    (silent : ¬m.Step 0 .epsilon 0) : m.Minimal := by
  have only : ∀ {i}, i < m.size → i = 0 := fun hi => Nat.lt_one_iff.mp (size ▸ hi)
  have target : ∀ {i j a}, m.Step i a j → j = 0 := fun step => only (range.step_lt step)
  constructor
  · rw [start, size]
    exact Nat.zero_lt_one
  · constructor
    · intro i j _ step
      obtain rfl := only step.lt
      obtain rfl := target step
      exact silent step
    · exact fun _ first second => (target first).trans (target second).symm
  · intro i hi
    rw [only hi, start]
    exact ⟨[], .nil 0⟩
  · exact fun i hi j hj _ => (only hi).trans (only hj).symm
  · exact Or.inr size

/-- If any word is recognised, some word is recognised from each state. -/
theorem Minimal.exists_recognizesFrom (min : m.Minimal) {word : List Char} (hw : m.Recognizes word) {i : StateId}
    (hi : i < m.size) : ∃ word, m.RecognizesFrom i word := by
  rcases min.live with live | one
  · exact live i hi
  · have only : ∀ j < m.size, j = 0 := fun j hj => Nat.lt_one_iff.mp (one ▸ hj)
    rw [Recognizes, only _ min.start] at hw
    exact ⟨word, only i hi ▸ hw⟩

/-- No deterministic automaton of the same language reaches fewer states. -/
theorem Minimal.size_le (min : m.Minimal) (det : fa.Deterministic) (complete : fa.CompleteFrom fa.start)
    (language : ∀ word, m.Recognizes word ↔ fa.Recognizes word) : m.size ≤ fa.seen.states.length := by
  rcases min.live with live | one
  · have followed : ∀ i, i < m.size → ∃ u q, m.Path m.start u i ∧ fa.Path fa.start u q := by
      intro i hi
      obtain ⟨u, path⟩ := min.reached i hi
      obtain ⟨v, recognizes⟩ := live i hi
      obtain ⟨k, path', -⟩ := (language (u ++ v)).mp
        ((min.deterministic.recognizesFrom_append (.refl _) path).mpr recognizes)
      obtain ⟨q, first, -⟩ := path'.split
      exact ⟨u, q, path, first⟩
    -- The word that leads to a state of the minimal automaton leads to some state of the other, with the same rest.
    choose! u place hm hfa using followed
    have residual : ∀ i < m.size, ∀ word, m.RecognizesFrom i word ↔ fa.RecognizesFrom (place i) word := by
      intro i hi word
      rw [← min.deterministic.recognizesFrom_append (.refl _) (hm i hi),
        ← det.recognizesFrom_append (.refl _) (hfa i hi)]
      exact language (u i ++ word)
    have nodup : ((List.range m.size).map place).Nodup := by
      refine List.Nodup.map_on (fun i hi j hj heq => ?_) List.nodup_range
      rw [List.mem_range] at hi hj
      refine min.separated i hi j hj fun word => ?_
      rw [residual i hi, residual j hj, heq]
    have followed : ∀ q ∈ (List.range m.size).map place, q ∈ fa.seen.states := fun q hq => by
      obtain ⟨i, hi, rfl⟩ := List.mem_map.mp hq
      exact (mem_seen complete).mpr (hfa i (List.mem_range.mp hi)).leads
    simpa using nodup.length_le_of_subset followed
  · rw [one]
    exact List.length_pos_of_mem ((mem_seen complete).mpr (.refl fa.start))

theorem start_lt_of_accepts {b : Bool} {word : List Char} (nonempty : fa.isEmpty = false)
    (h : fa.accepts word = .ok b) : fa.start < fa.size := by
  have closure : fa.holds (fa.closure {fa.start}) = true := by
    by_contra hold
    rw [accepts, nonempty, epsilonClosure, if_neg hold] at h
    cases h
  simp only [holds, List.all_eq_true, StateSet.mem_toList, decide_eq_true_eq] at closure
  refine closure fa.start (StateSet.mem_reach.mpr (mem_explore_of_mem ?_))
  simp

/-- The same for the checks that an automaton is put to. -/
theorem Minimal.size_le_of_isDeterministic (min : m.Minimal) (hm : m.Complete) (nonempty : fa.isEmpty = false)
    (det : fa.isDeterministic = .ok true) (language : ∀ word, fa.accepts word = m.accepts word) :
    ∃ view, fa.view = .ok view ∧ m.size ≤ view.states.length := by
  obtain ⟨b, hb⟩ := exists_accepts_eq hm []
  obtain ⟨complete, det⟩ := Deterministic.of_isDeterministic
    (start_lt_of_accepts nonempty ((language []).trans hb)) det
  refine ⟨fa.seen, view_eq complete, min.size_le det complete fun word => ?_⟩
  rw [← accepts_eq_true_iff hm, ← language word, accepts_eq_true_iff (Or.inr complete)]

end Automaton
end FiniteAutomata
