import FiniteAutomata.Proofs.Checked
import FiniteAutomata.Proofs.Distance
import FiniteAutomata.Visiting

/-! The loop over a queue. Between two rounds it holds what a walk collects from the states listed so far, and has seen
    these and those in the queue (`holding`). Each round is one expansion of the exploration, so the queue is empty after
    as many rounds as there are states, and the walk is that of the root. -/

namespace FiniteAutomata
namespace Visiting

variable {fa : Automaton} {done queue : List StateId} {root i : StateId} {n : Nat}

/-! ### What the loop holds -/

theorem ofList_concat (l : List StateId) (i : StateId) : StateSet.ofList (l ++ [i]) = (StateSet.ofList l).insert i := by
  rw [StateSet.ofList, StateSet.ofList, List.foldl_concat]

theorem alphabetOf_append (l m : List Edge) :
    Automaton.alphabetOf (l ++ m) = m.foldl (fun l e => l ∪ e.label) (Automaton.alphabetOf l) := by
  rw [Automaton.alphabetOf, Automaton.alphabetOf, List.foldl_append]

/-- The loop with some states listed and others in the queue. -/
def holding (fa : Automaton) (done queue : List StateId) : Visiting where
  seen := StateSet.ofList (done ++ queue)
  queue
  walk := fa.collect done

theorem first_eq (fa : Automaton) (root : StateId) : first root = holding fa [] [root] := rfl

/-- Following edges: the new targets join the queue in order, once each. -/
theorem foldl_follow {v : Visiting} {known : List StateId} (h : v.seen = StateSet.ofList known) (edges : List Edge) :
    edges.foldl follow v =
      { seen := StateSet.ofList (known ++ newcomers known (edges.map Edge.target))
        queue := v.queue ++ newcomers known (edges.map Edge.target)
        walk := { v.walk with
          alphabet := edges.foldl (fun l e => l ∪ e.label) v.walk.alphabet
          edges := v.walk.edges ++ edges } } := by
  induction edges using List.reverseRecOn with
  | nil =>
    rw [List.map_nil, newcomers_nil, List.append_nil, List.append_nil, ← h]
    simp only [List.foldl_nil, List.append_nil]
  | append_singleton edges e ih =>
    have seen : e.target ∈ StateSet.ofList (known ++ newcomers known (edges.map Edge.target)) ↔
        e.target ∈ known ++ edges.map Edge.target := by
      rw [StateSet.mem_ofList, mem_append_newcomers]
    rw [List.foldl_concat, ih, follow, List.map_append, List.map_singleton, newcomers_concat, List.foldl_concat]
    simp only [seen, List.append_assoc]
    split
    · rfl
    · rw [← ofList_concat, List.append_assoc]

/-- A visit adds the state to what the walk has collected, but for its edges. -/
theorem collect_concat (i : StateId) :
    fa.collect (done ++ [i]) =
      { states := done ++ [i]
        alphabet := (fa.edgesOf i).foldl (fun l e => l ∪ e.label) (fa.collect done).alphabet
        edges := (fa.collect done).edges ++ fa.edgesOf i
        accepting := if fa.accepting i then (fa.collect done).accepting.insert i else (fa.collect done).accepting } := by
  simp only [Automaton.collect, List.flatMap_append, List.flatMap_singleton, alphabetOf_append, List.filter_append,
    Walk.mk.injEq, true_and]
  split
  · next accepting => rw [List.filter_cons_of_pos accepting, List.filter_nil, ofList_concat]
  · next rejecting => rw [List.filter_cons_of_neg rejecting, List.filter_nil, List.append_nil]

/-- A round visits what is at the front. -/
theorem round_holding (i : StateId) (queue : List StateId) :
    (fa.edgesOf i).foldl follow ({ holding fa done (i :: queue) with queue }.visit i (Checked.stateAt fa i)) =
      holding fa (done ++ [i]) (queue ++ newcomers (done ++ i :: queue) (fa.targets i)) := by
  have regroup : done ++ [i] ++ (queue ++ newcomers (done ++ i :: queue) (fa.targets i)) =
      done ++ i :: queue ++ newcomers (done ++ i :: queue) (fa.targets i) := by simp
  have seen : ({ holding fa done (i :: queue) with queue }.visit i (Checked.stateAt fa i)).seen =
      StateSet.ofList (done ++ i :: queue) := rfl
  rw [foldl_follow seen]
  simp only [holding, regroup, collect_concat, visit, Checked.accepting_stateAt]
  rfl

/-! ### The run -/

/-- With as many rounds as there are states the loop ends with an empty queue, and it has explored. -/
theorem loop_holding (exist : ∀ i ∈ explore fa.targets n done.reverse queue, i < fa.size)
    (nodup : (done ++ queue).Nodup) (enough : fa.size ≤ n + done.length) :
    loop fa n (holding fa done queue) = .ok (holding fa (explore fa.targets n done.reverse queue) []) := by
  -- On the number of rounds, each of which lists one more state.
  induction n generalizing done queue with
  | zero =>
    rw [explore, List.reverse_reverse] at exist ⊢
    have few := StateSet.length_le_of_lt nodup exist
    rw [List.length_append] at few
    obtain rfl : queue = [] := List.length_eq_zero_iff.mp (by omega)
    rw [List.append_nil]
    rfl
  | succ n ih =>
    cases queue with
    | nil =>
      rw [explore, List.reverse_reverse]
      rfl
    | cons i queue =>
      have inside : i < fa.size := exist i (mem_explore_of_mem (by simp))
      rw [explore_concat] at exist ⊢
      have regroup : done ++ [i] ++ (queue ++ newcomers (done ++ i :: queue) (fa.targets i)) =
          done ++ i :: queue ++ newcomers (done ++ i :: queue) (fa.targets i) := by simp
      have rest := ih exist (regroup ▸ nodup_append_newcomers nodup _) (by
        rw [List.length_append, List.length_singleton]
        omega)
      rw [loop]
      show (fa.state i >>= _) = _
      rw [Checked.bind_eq (Checked.state_eq inside), Checked.edges_stateAt, round_holding, rest]

end Visiting

namespace Automaton

variable {fa : Automaton} {root : StateId}

/-! ### Walks -/

/-- All that a root leads to, by the distance from it. -/
structure Surveys (fa : Automaton) (root : StateId) (w : Walk) : Prop where
  nodup : w.states.Nodup
  states : ∀ i, i ∈ w.states ↔ fa.Leads root i
  head : w.states.head? = some root
  ordered : ∃ distance : StateId → Nat, (∀ i ∈ w.states, fa.Distance root (distance i) i) ∧
    w.states.Pairwise fun i j => distance i ≤ distance j
  edges : w.edges = w.states.flatMap fa.edgesOf
  alphabet : ∀ a, a ∈ w.alphabet ↔ ∃ e ∈ w.edges, a ∈ e.label
  accepting : ∀ i, i ∈ w.accepting ↔ i ∈ w.states ∧ fa.accepting i = true

theorem surveys_collect (complete : fa.CompleteFrom root) : fa.Surveys root (fa.collect (fa.order [root])) where
  nodup := order_nodup fa [root]
  states _ := mem_order_root complete
  head := by
    show (fa.order [root]).head? = some root
    rw [List.head?_eq_getElem?, order_singleton, head_explore]
  ordered := exists_distance_order complete
  edges := rfl
  alphabet _ := mem_alphabetOf
  accepting _ := StateSet.mem_ofList.trans List.mem_filter

/-- The loop over a queue finds the walk. -/
theorem exists_loop_eq_collect (complete : fa.CompleteFrom root) {n : Nat} (enough : fa.size ≤ n) :
    ∃ v, Visiting.loop fa n (.first root) = .ok v ∧ v.queue = [] ∧ v.walk = fa.collect (fa.order [root]) := by
  have closed : Closed fa.targets (explore fa.targets fa.size [] [root]) :=
    order_singleton fa root ▸ order_closed fun i hi => complete i ((mem_order_root complete).mp hi)
  have order : explore fa.targets n [] [root] = fa.order [root] := by
    rw [order_singleton, ← Nat.add_sub_cancel' enough, explore_add closed]
  have exist : ∀ i ∈ explore fa.targets n ([] : List StateId).reverse [root], i < fa.size := fun i hi =>
    complete i ((mem_order_root complete).mp (order ▸ hi))
  have ran := Visiting.loop_holding exist (List.pairwise_singleton _ root) enough
  rw [List.reverse_nil, order, ← Visiting.first_eq] at ran
  exact ⟨_, ran, rfl, rfl⟩

/-- A walk from any state ends, and lists what the state leads to, by distance, with the edges, symbols and accepting
    states of just that. -/
theorem exists_traverse_surveys (range : fa.InRange) (inside : root < fa.size) :
    ∃ w, fa.traverse root = .ok w ∧ fa.Surveys root w ∧
      ∀ n, fa.size ≤ n → ∃ v, Visiting.loop fa n (.first root) = .ok v ∧ v.queue = [] ∧ v.walk = w := by
  have complete := range.completeFrom inside
  refine ⟨fa.collect (fa.order [root]), ?_, surveys_collect complete, fun n => exists_loop_eq_collect complete⟩
  rw [traverse, if_pos inside]
  exact walk_eq_ok_iff.mpr ⟨by simpa using complete, rfl⟩

/-- Cycles, an edge from a state to itself, paths of different lengths to one state, and a state that nothing leads to. -/
def knotted : Automaton :=
  assembled [(.nfa, false), (.dfa, true), (.nfa, true), (.nfa, false), (.dfa, true)]
    [⟨1, 3, .char 'b'⟩, ⟨1, 0, .char 'a'⟩, ⟨1, 3, .char 'a'⟩, ⟨0, 2, .epsilon⟩, ⟨2, 1, .char 'c'⟩, ⟨3, 3, .epsilon⟩,
      ⟨3, 0, .char 'a'⟩, ⟨4, 0, .char 'd'⟩] 4

theorem traverse_knotted : knotted.InRange ∧ 1 < knotted.size ∧
    ∃ w, knotted.traverse 1 = .ok w ∧ w.states = [1, 3, 0, 2] ∧ w.accepting = StateSet.ofList [1, 2] ∧
      knotted.Surveys 1 w ∧ ∃ v, Visiting.loop knotted 5 (.first 1) = .ok v ∧ v.queue = [] ∧ v.walk = w := by
  have range : knotted.InRange := inRange_assembled (by decide)
  have inside : 1 < knotted.size := by decide
  obtain ⟨w, walked, surveys, loops⟩ := exists_traverse_surveys range inside
  have walk : knotted.traverse 1 = .ok (knotted.collect [1, 3, 0, 2]) := by decide +kernel
  obtain rfl := Except.ok.inj (walk.symm.trans walked)
  exact ⟨range, inside, _, walked, rfl, by decide +kernel, surveys, loops 5 (by decide)⟩

end Automaton
end FiniteAutomata
