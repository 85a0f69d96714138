import FiniteAutomata.Automaton.Path

/-! How far one state is from another: the least number of edges of a path between them, whatever the edges carry. -/

namespace FiniteAutomata
namespace Automaton

variable {fa : Automaton} {i j k : StateId} {n : Nat}

/-- A path of so many edges from one state to another. -/
inductive LeadsIn (fa : Automaton) : StateId → Nat → StateId → Prop where
  | refl (i : StateId) : LeadsIn fa i 0 i
  | step {i j k : StateId} {n : Nat} {e : Edge} (h : e ∈ fa.edgesOf i) (target : e.target = j)
      (rest : LeadsIn fa j n k) : LeadsIn fa i (n + 1) k

/-- The shortest path from one state to another has so many edges. -/
def Distance (fa : Automaton) (i : StateId) (n : Nat) (j : StateId) : Prop :=
  fa.LeadsIn i n j ∧ ∀ m, fa.LeadsIn i m j → n ≤ m

theorem LeadsIn.concat {e : Edge} (h : fa.LeadsIn i n j) (he : e ∈ fa.edgesOf j) (target : e.target = k) :
    fa.LeadsIn i (n + 1) k := by
  induction h with
  | refl => exact .step he target (.refl k)
  | step h first _ ih => exact .step h first (ih he)

end Automaton
end FiniteAutomata
