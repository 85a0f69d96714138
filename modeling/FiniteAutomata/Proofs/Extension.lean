import FiniteAutomata.Proofs.SubsetConstruction

/-! Automata with further states. As long as every edge of an automaton leads to one of its own states, whatever is added
    beside them cannot be reached from them: in the larger automaton they have the same paths, sets of them have the same
    closures and steps, and the subset construction goes on from such sets in the same way. -/

namespace FiniteAutomata
namespace Automaton

/-- The states of `fa` are states of `fb`, with their edges and their acceptance. -/
def Extends (fb fa : Automaton) : Prop := ∀ i < fa.size, fb.states[i]? = fa.states[i]?

/-- The members are states. -/
def Within (fa : Automaton) (s : StateSet) : Prop := ∀ i ∈ s, i < fa.size

variable {fa fb : Automaton} {i j : StateId} {a : Symbol} {c : Char} {word : List Char} {s t u : StateSet}

theorem InRange.completeFromSet (range : fa.InRange) (within : fa.Within s) : fa.CompleteFromSet s := fun i hi =>
  range.completeFrom (within i hi)

theorem CompleteFromSet.within (h : fa.CompleteFromSet s) : fa.Within s := fun i hi => (h i hi).lt

namespace Extends

/-! ### Single states -/

theorem edgesOf (h : fb.Extends fa) (hi : i < fa.size) : fb.edgesOf i = fa.edgesOf i := by
  rw [Automaton.edgesOf, Automaton.edgesOf, h i hi]

theorem accepting (h : fb.Extends fa) (hi : i < fa.size) : fb.accepting i = fa.accepting i := by
  rw [Automaton.accepting, Automaton.accepting, h i hi]

theorem lt (h : fb.Extends fa) (hi : i < fa.size) : i < fb.size := by
  have state := h i hi
  rw [Array.getElem?_eq_getElem hi] at state
  exact (Array.getElem?_eq_some_iff.mp state).1

theorem step_iff (h : fb.Extends fa) (hi : i < fa.size) : fb.Step i a j ↔ fa.Step i a j := by
  rw [Step, Step, h.edgesOf hi]

theorem path_iff (h : fb.Extends fa) (range : fa.InRange) (hi : i < fa.size) : fb.Path i word j ↔ fa.Path i word j := by
  refine ⟨fun path => ?_, fun path => ?_⟩
  · induction path with
    | nil i => exact .nil i
    | silent step _ ih =>
      have step := (h.step_iff hi).mp step
      exact .silent step (ih (range.step_lt step))
    | read step _ ih =>
      have step := (h.step_iff hi).mp step
      exact .read step (ih (range.step_lt step))
  · induction path with
    | nil i => exact .nil i
    | silent step _ ih => exact .silent ((h.step_iff hi).mpr step) (ih (range.step_lt step))
    | read step _ ih => exact .read ((h.step_iff hi).mpr step) (ih (range.step_lt step))

theorem recognizesFrom_iff (h : fb.Extends fa) (range : fa.InRange) (hi : i < fa.size) :
    fb.RecognizesFrom i word ↔ fa.RecognizesFrom i word := by
  refine exists_congr fun j => ?_
  rw [h.path_iff range hi]
  exact and_congr_right fun path => by rw [h.accepting (range.completeFrom hi j path.leads)]

/-! ### Sets of states -/

theorem completeFrom (h : fb.Extends fa) (range : fa.InRange) (hi : i < fa.size) : fb.CompleteFrom i := by
  intro j lead
  have old : j < fa.size := by
    induction lead with
    | refl => exact hi
    | step he target _ ih => exact ih (target ▸ range _ _ (h.edgesOf hi ▸ he))
  exact h.lt old

theorem completeFromSet (h : fb.Extends fa) (range : fa.InRange) (within : fa.Within s) : fb.CompleteFromSet s :=
  fun i hi => h.completeFrom range (within i hi)

theorem closure_eq (h : fb.Extends fa) (range : fa.InRange) (within : fa.Within s) : fb.closure s = fa.closure s := by
  ext j
  rw [mem_closure (h.completeFromSet range within), mem_closure (range.completeFromSet within)]
  exact exists_congr fun i => and_congr_right fun hi => h.path_iff range (within i hi)

/-- Sets that read alike step to the same set. -/
theorem step_eq (h : fb.Extends fa) (range : fa.InRange)
    (reads : ∀ j, (∃ i ∈ t, fb.Step i (.char c) j) ↔ ∃ i ∈ s, fa.Step i (.char c) j) : fb.step t c = fa.step s c := by
  have image : fb.image t c = fa.image s c := by
    ext j
    rw [mem_image, mem_image, reads]
  have within : fa.Within (fa.image s c) := fun j hj => by
    obtain ⟨i, -, step⟩ := mem_image.mp hj
    exact range.step_lt step
  rw [step, step, image, h.closure_eq range within]

theorem mem_stepsFrom_iff (h : fb.Extends fa) (range : fa.InRange)
    (reads : ∀ c j, (∃ i ∈ t, fb.Step i (.char c) j) ↔ ∃ i ∈ s, fa.Step i (.char c) j) :
    (c, u) ∈ fb.stepsFrom t ↔ (c, u) ∈ fa.stepsFrom s := by
  have exchange : ∀ {fa : Automaton} {s : StateSet}, (∃ i ∈ s, ∃ j, fa.Step i (.char c) j) ↔
      ∃ j, ∃ i ∈ s, fa.Step i (.char c) j := by
    intro fa s
    exact ⟨fun ⟨i, hi, j, step⟩ => ⟨j, i, hi, step⟩, fun ⟨j, i, hi, step⟩ => ⟨i, hi, j, step⟩⟩
  rw [mem_stepsFrom, mem_stepsFrom, h.step_eq range (reads c), exchange, exchange]
  exact and_congr_right fun _ => exists_congr fun j => reads c j

/-- A set of the old states runs as before. -/
theorem run_iff (h : fb.Extends fa) (range : fa.InRange) (complete : fa.CompleteFromSet s) :
    fb.subsetSystem.Run s word u ↔ fa.subsetSystem.Run s word u := by
  have moves : ∀ {s t c}, fa.CompleteFromSet s → ((c, t) ∈ fb.stepsFrom s ↔ (c, t) ∈ fa.stepsFrom s) := fun complete =>
    h.mem_stepsFrom_iff range fun c j => exists_congr fun i => and_congr_right fun hi => h.step_iff (complete i hi).lt
  refine ⟨fun run => ?_, fun run => ?_⟩
  · induction run with
    | nil => exact .nil _
    | cons move _ ih =>
      have move := (moves complete).mp move
      exact .cons move (ih (complete.run (.cons move (.nil _))))
  · induction run with
    | nil => exact .nil _
    | cons move _ ih => exact .cons ((moves complete).mpr move) (ih (complete.run (.cons move (.nil _))))

/-- After their first step sets that read alike reach the same sets. -/
theorem after_iff (h : fb.Extends fa) (range : fa.InRange) (complete : fa.CompleteFromSet s)
    (reads : ∀ c j, (∃ i ∈ t, fb.Step i (.char c) j) ↔ ∃ i ∈ s, fa.Step i (.char c) j) :
    fb.subsetSystem.After t u ↔ fa.subsetSystem.After s u := by
  refine ⟨fun given => ?_, fun given => ?_⟩
  · obtain ⟨c, x, word, move, run⟩ := given
    have move := (h.mem_stepsFrom_iff range reads).mp move
    exact ⟨c, x, word, move, (h.run_iff range (complete.run (.cons move (.nil x)))).mp run⟩
  · obtain ⟨c, x, word, move, run⟩ := given
    refine ⟨c, x, word, (h.mem_stepsFrom_iff range reads).mpr move, ?_⟩
    exact (h.run_iff range (complete.run (.cons move (.nil x)))).mpr run

end Extends

end Automaton
end FiniteAutomata
