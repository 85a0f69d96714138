import FiniteAutomata.Automaton.Distance
import FiniteAutomata.Proofs.Reachability

/-! Explorations go by distance. What waits to be expanded is at most one level deeper than what is at the front, so
    whatever is found is one level below its predecessor and no deeper than anything that is found later. When nothing
    waits, the level of a value is the least number of steps that lead to it. -/

namespace FiniteAutomata

/-! ### Levels -/

section Levels
variable {α : Type} {next : α → List α} {root x : α} {done queue : List α} {level : α → Nat} {n : Nat}

/-- In the middle of an exploration, with some values expanded and others waiting, each value has a level: the root is
    at level zero, and all others are one below a value that has been expanded. Deeper values are found later. -/
structure Layered (next : α → List α) (root : α) (level : α → Nat) (done queue : List α) : Prop where
  top : level root = 0
  found : ∀ x ∈ done ++ queue, x = root ∨ ∃ y ∈ done, x ∈ next y ∧ level x = level y + 1
  ordered : (done ++ queue).Pairwise fun x y => level x ≤ level y
  /-- What waits is on two levels at most. -/
  near : queue.Pairwise fun x y => level y ≤ level x + 1
  expanded : ∀ x ∈ done, ∀ y ∈ next x, y ∈ done ++ queue ∧ level y ≤ level x + 1

theorem layered_root (next : α → List α) (root : α) : Layered next root (fun _ => 0) [] [root] where
  top := rfl
  found x hx := Or.inl (by simpa using hx)
  ordered := List.pairwise_singleton _ _
  near := List.pairwise_singleton _ _
  expanded := nofun

theorem Layered.le_front (h : Layered next root level done (x :: queue)) :
    ∀ y ∈ done ++ x :: queue, level y ≤ level x + 1 := by
  intro y hy
  obtain hy | hy := List.mem_append.mp hy
  · exact Nat.le_succ_of_le ((List.pairwise_append.mp h.ordered).2.2 y hy x List.mem_cons_self)
  · obtain rfl | hy := List.mem_cons.mp hy
    · exact Nat.le_succ _
    · exact (List.pairwise_cons.mp h.near).1 y hy

theorem Layered.front_le (h : Layered next root level done (x :: queue)) : ∀ y ∈ queue, level x ≤ level y :=
  (List.pairwise_cons.mp (List.pairwise_append.mp h.ordered).2.1).1

/-- The levels may change on what has not been found. -/
theorem Layered.congr {level' : α → Nat} (h : Layered next root level done queue) (at_root : root ∈ done ++ queue)
    (same : ∀ x ∈ done ++ queue, level' x = level x) : Layered next root level' done queue where
  top := (same root at_root).trans h.top
  found x hx := (h.found x hx).imp id fun ⟨y, hy, step, below⟩ =>
    ⟨y, hy, step, by rw [same x hx, same y (List.mem_append_left _ hy), below]⟩
  ordered := h.ordered.imp_of_mem fun hx hy le => by rwa [same _ hx, same _ hy]
  near := h.near.imp_of_mem fun hx hy le => by
    rwa [same _ (List.mem_append_right _ hx), same _ (List.mem_append_right _ hy)]
  expanded x hx y hy := by
    obtain ⟨known, le⟩ := h.expanded x hx y hy
    exact ⟨known, by rwa [same y known, same x (List.mem_append_left _ hx)]⟩

/-- Expanding what is at the front: its new successors are one level below it. -/
theorem Layered.expand {fresh : List α} (h : Layered next root level done (x :: queue))
    (covers : ∀ y ∈ next x, y ∈ done ++ x :: queue ∨ y ∈ fresh) (new : ∀ y ∈ fresh, y ∈ next x ∧ level y = level x + 1) :
    Layered next root level (done ++ [x]) (queue ++ fresh) := by
  have regroup : done ++ [x] ++ (queue ++ fresh) = (done ++ x :: queue) ++ fresh := by simp
  constructor
  · exact h.top
  · intro y hy
    rw [regroup] at hy
    obtain hy | hy := List.mem_append.mp hy
    · exact (h.found y hy).imp id fun ⟨z, hz, rest⟩ => ⟨z, List.mem_append_left _ hz, rest⟩
    · exact Or.inr ⟨x, by simp, new y hy⟩
  · rw [regroup]
    refine List.pairwise_append.mpr ⟨h.ordered, ?_, fun y hy z hz => (new z hz).2 ▸ h.le_front y hy⟩
    exact List.pairwise_of_forall_mem_list fun y hy z hz => Nat.le_of_eq ((new y hy).2.trans (new z hz).2.symm)
  · refine List.pairwise_append.mpr ⟨(List.pairwise_cons.mp h.near).2, ?_, fun y hy z hz => ?_⟩
    · exact List.pairwise_of_forall_mem_list fun y hy z hz =>
        Nat.le_succ_of_le (Nat.le_of_eq ((new z hz).2.trans (new y hy).2.symm))
    · exact (new z hz).2 ▸ Nat.succ_le_succ (h.front_le y hy)
  · intro y hy z hz
    rw [regroup]
    obtain hy | hy := List.mem_append.mp hy
    · obtain ⟨known, le⟩ := h.expanded y hy z hz
      exact ⟨List.mem_append_left _ known, le⟩
    · obtain rfl := List.mem_singleton.mp hy
      refine ⟨List.mem_append.mpr (covers z hz), (covers z hz).elim (h.le_front z) fun hz => Nat.le_of_eq (new z hz).2⟩

variable [DecidableEq α]

/-- An exploration that may expand as many values as there are ends with every value at its level. -/
theorem Layered.exists_explore (scope : List α) (h : Layered next root level done queue)
    (at_root : root ∈ done ++ queue) (nodup : (done ++ queue).Nodup)
    (bound : ∀ x ∈ explore next n done.reverse queue, x ∈ scope) (enough : scope.length ≤ n + done.length) :
    ∃ level', Layered next root level' (explore next n done.reverse queue) [] := by
  induction n generalizing done queue level with
  | zero =>
    -- All of the scope has been expanded, so nothing waits.
    rw [explore, List.reverse_reverse] at bound ⊢
    have few := nodup.length_le_of_subset bound
    rw [List.length_append] at few
    obtain rfl : queue = [] := List.length_eq_zero_iff.mp (by omega)
    exact ⟨level, by rwa [List.append_nil]⟩
  | succ n ih =>
    cases queue with
    | nil =>
      rw [explore, List.reverse_reverse]
      exact ⟨level, h⟩
    | cons x queue =>
      rw [explore_concat] at bound ⊢
      have regroup : done ++ [x] ++ (queue ++ newcomers (done ++ x :: queue) (next x)) =
          done ++ x :: queue ++ newcomers (done ++ x :: queue) (next x) := by simp
      -- The levels of the values found so far stay, all others are those of the values that are found now.
      have kept : Layered next root (fun y => if y ∈ done ++ x :: queue then level y else level x + 1) done
          (x :: queue) := h.congr at_root fun y hy => if_pos hy
      refine ih (kept.expand (fun y hy => ?_) fun y hy => ⟨(mem_newcomers.mp hy).1, ?_⟩) ?_ ?_ bound ?_
      · exact List.mem_append.mp (mem_append_newcomers.mpr (List.mem_append_right _ hy))
      · rw [if_neg (mem_newcomers.mp hy).2, if_pos (by simp)]
      · exact regroup ▸ List.mem_append_left _ at_root
      · exact regroup ▸ nodup_append_newcomers nodup _
      · rw [List.length_append, List.length_singleton]
        omega

end Levels

namespace Automaton

variable {fa : Automaton} {root i : StateId} {l : List StateId} {level : StateId → Nat}

/-! ### Distances -/

/-- When nothing waits, levels are distances. -/
theorem distance_of_layered (h : Layered fa.targets root level l []) (at_root : root ∈ l) (hi : i ∈ l) :
    fa.Distance root (level i) i := by
  have append : ∀ l : List StateId, l ++ [] = l := List.append_nil
  have shortest : ∀ {j k n}, fa.LeadsIn j n k → j ∈ l → level k ≤ level j + n := by
    intro j k n path
    induction path with
    | refl => exact fun _ => Nat.le_add_right _ _
    | step he target _ ih =>
      intro hj
      obtain ⟨hk, le⟩ := h.expanded _ hj _ (mem_targets.mpr ⟨_, he, target⟩)
      have := ih (append l ▸ hk)
      omega
  refine ⟨?_, fun n path => ?_⟩
  · -- Up from level to level to the root.
    generalize hn : level i = n
    induction n generalizing i with
    | zero =>
      obtain rfl | ⟨y, -, -, below⟩ := h.found i ((append l).symm ▸ hi)
      · exact .refl i
      · omega
    | succ n ih =>
      obtain rfl | ⟨y, hy, step, below⟩ := h.found i ((append l).symm ▸ hi)
      · have := h.top
        omega
      · obtain ⟨e, he, target⟩ := mem_targets.mp step
        exact (ih hy (by omega)).concat he target
  · have := shortest path at_root
    rw [h.top] at this
    omega

/-- A walk lists states by their distance from the root. -/
theorem exists_distance_order (complete : fa.CompleteFrom root) : ∃ distance : StateId → Nat,
    (∀ i ∈ fa.order [root], fa.Distance root (distance i) i) ∧
      (fa.order [root]).Pairwise fun i j => distance i ≤ distance j := by
  have inside : ∀ i ∈ explore fa.targets fa.size [] [root], i ∈ List.range fa.size := fun i hi =>
    List.mem_range.mpr (complete i ((mem_order_root complete).mp (fa.order_singleton root ▸ hi)))
  obtain ⟨level, layered⟩ := (layered_root fa.targets root).exists_explore (List.range fa.size)
    (n := fa.size) (List.mem_singleton_self root) (List.pairwise_singleton _ root) inside (by simp)
  rw [List.reverse_nil, ← order_singleton] at layered
  refine ⟨level, fun i hi => distance_of_layered layered (mem_order_of_mem (List.mem_singleton_self root)) hi, ?_⟩
  simpa only [List.append_nil] using layered.ordered

end Automaton
end FiniteAutomata
