import FiniteAutomata.Proofs.Closing
import Mathlib.Logic.Relation

/-! The closure as an operator on sets of states. It holds exactly what empty steps lead to from the set. So it holds the
    set and grows with it, a closure is its own closure, and the closure of a union is the union of the closures. -/

namespace FiniteAutomata
namespace Automaton

variable {fa : Automaton} {s t : StateSet} {i j : StateId}

/-! ### Empty steps -/

/-- Any number of edges that carry the empty step lead from one state to the other. -/
def LeadsSilently (fa : Automaton) : StateId → StateId → Prop := Relation.ReflTransGen fun i j => fa.Step i .epsilon j

theorem path_nil_iff : fa.Path i [] j ↔ fa.LeadsSilently i j := by
  constructor
  · intro path
    exact path.silent_induction (fun _ _ lead step => lead.tail step) .refl
  · intro lead
    induction lead with
    | refl => exact .nil i
    | tail _ step path => exact path.append (.silent step (.nil _))

/-! ### Closures -/

/-- The set holds what empty steps lead to from the other one, and is its closure. The loop over a stack ends with it,
    after as many rounds as it has members and not before. -/
structure Closes (fa : Automaton) (s closed : StateSet) : Prop where
  answer : fa.epsilonClosure s = .ok closed
  mem : ∀ j, j ∈ closed ↔ ∃ i ∈ s, fa.LeadsSilently i j
  ends : ∀ n, ∃ w, Closing.loop fa n (.first s) = .ok w ∧ (w.stack = [] ↔ closed.size ≤ n) ∧
    (w.stack = [] → w.found = closed)

theorem closes_closure (complete : fa.CompleteFromSet s) : fa.Closes s (fa.closure s) where
  answer := complete.epsilonClosure_eq
  mem j := by simp only [mem_closure complete, path_nil_iff]
  ends n := Closing.exists_loop_iff complete n

theorem CompleteFromSet.union (hs : fa.CompleteFromSet s) (ht : fa.CompleteFromSet t) : fa.CompleteFromSet (s ∪ t) := by
  intro i hi
  rcases StateSet.mem_union.mp hi with hi | hi
  · exact hs i hi
  · exact ht i hi

theorem closure_mono (hs : fa.CompleteFromSet s) (ht : fa.CompleteFromSet t) (sub : ∀ i ∈ s, i ∈ t) :
    ∀ i ∈ fa.closure s, i ∈ fa.closure t :=
  closure_subset hs (fun i hi => subset_closure ht (sub i hi)) fun _ hi _ step => closure_silent ht hi step

theorem closure_closure (complete : fa.CompleteFromSet s) : fa.closure (fa.closure s) = fa.closure s := by
  refine StateSet.ext fun i => ⟨?_, subset_closure complete.closure⟩
  exact closure_subset complete.closure (fun _ hi => hi) (fun _ hi _ step => closure_silent complete hi step) i

theorem closure_union (hs : fa.CompleteFromSet s) (ht : fa.CompleteFromSet t) :
    fa.closure (s ∪ t) = fa.closure s ∪ fa.closure t := by
  ext j
  simp only [mem_closure (hs.union ht), StateSet.mem_union, mem_closure hs, mem_closure ht, or_and_right, exists_or]

/-- Each set of states has a closure, whatever cycles the empty steps make: what they lead to from it. It holds the set,
    that of a larger set is larger, it is its own closure, and the closures of two sets are together that of both. -/
theorem epsilonClosure_closes (range : fa.InRange) (hs : ∀ i ∈ s, i < fa.size) (ht : ∀ i ∈ t, i < fa.size) :
    ∃ closed closed', fa.Closes s closed ∧ fa.Closes t closed' ∧ (∀ i ∈ s, i ∈ closed) ∧
      ((∀ i ∈ s, i ∈ t) → ∀ i ∈ closed, i ∈ closed') ∧ fa.Closes closed closed ∧
      fa.Closes (s ∪ t) (closed ∪ closed') := by
  have first : fa.CompleteFromSet s := fun i hi => range.completeFrom (hs i hi)
  have second : fa.CompleteFromSet t := fun i hi => range.completeFrom (ht i hi)
  have again := closes_closure first.closure
  have both := closes_closure (first.union second)
  rw [closure_closure first] at again
  rw [closure_union first second] at both
  exact ⟨fa.closure s, fa.closure t, closes_closure first, closes_closure second, fun _ => subset_closure first,
    closure_mono first second, again, both⟩

/-- Empty steps in a cycle, on an edge with a character and from a state to itself, and a way out of the cycle. -/
def circling : Automaton :=
  assembled [(.nfa, false), (.nfa, true), (.nfa, false), (.dfa, false), (.nfa, false)]
    [⟨0, 1, .epsilon⟩, ⟨0, 1, .char 'a'⟩, ⟨1, 2, .epsilon⟩, ⟨2, 0, .epsilon⟩, ⟨1, 3, .epsilon⟩, ⟨3, 4, .char 'b'⟩,
      ⟨4, 4, .epsilon⟩, ⟨4, 3, .epsilon⟩] 0

theorem epsilonClosure_closes_circling : circling.InRange ∧ (∀ i ∈ ({2} : StateSet), i < circling.size) ∧
    (∀ i ∈ ({4} : StateSet), i < circling.size) ∧ ∃ closed closed', circling.Closes {2} closed ∧
      circling.Closes {4} closed' ∧ closed = .ofList [0, 1, 2, 3] ∧ closed' = .ofList [3, 4] ∧
      circling.Closes closed closed ∧ circling.Closes ({2} ∪ {4}) (closed ∪ closed') := by
  have range : circling.InRange := inRange_assembled (by decide)
  have two : ∀ i ∈ ({2} : StateSet), i < circling.size := fun i hi => StateSet.mem_singleton.mp hi ▸ by decide
  have four : ∀ i ∈ ({4} : StateSet), i < circling.size := fun i hi => StateSet.mem_singleton.mp hi ▸ by decide
  obtain ⟨closed, closed', first, second, -, -, again, both⟩ := epsilonClosure_closes range two four
  have around : circling.epsilonClosure {2} = .ok (.ofList [0, 1, 2, 3]) := by decide +kernel
  have out : circling.epsilonClosure {4} = .ok (.ofList [3, 4]) := by decide +kernel
  exact ⟨range, two, four, closed, closed', first, second, Except.ok.inj (first.answer.symm.trans around),
    Except.ok.inj (second.answer.symm.trans out), again, both⟩

end Automaton
end FiniteAutomata
