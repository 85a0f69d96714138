import FiniteAutomata.Proofs.Coarsest

/-! Blocks of covered states, whatever the edges are. Each push of a further block and each split keep a partition of a
    set of states whose blocks agree on acceptance. Refinement begins with such blocks of the states that are reachable
    and lead to acceptance; a start that does not is a block of its own, so there is a first block in any case. -/

namespace FiniteAutomata

open FiniteAutomata.Automaton

namespace Automaton

variable {fa : Automaton} {i : StateId}

/-! ### Covered states -/

/-- The start, and the states that are reachable and lead to acceptance. -/
def Covered (fa : Automaton) (i : StateId) : Prop :=
  i = fa.start ∨ fa.Leads fa.start i ∧ ∃ j, fa.Leads i j ∧ fa.accepting j = true

theorem Covered.leads (h : fa.Covered i) : fa.Leads fa.start i := by
  obtain rfl | ⟨lead, -⟩ := h
  · exact .refl fa.start
  · exact lead

/-- The blocks that refinement begins with, in one set. -/
def covered (fa : Automaton) : StateSet :=
  fa.seen.accepting ∪ Partition.rejecting fa ∪ if fa.start ∈ fa.live then ∅ else {fa.start}

theorem mem_rejecting_iff (complete : fa.CompleteFrom fa.start) :
    i ∈ Partition.rejecting fa ↔ fa.Leads fa.start i ∧ i ∈ fa.live ∧ fa.accepting i = false := by
  rw [Partition.rejecting, StateSet.mem_diff, StateSet.mem_ofList, List.mem_filter, decide_eq_true_eq, mem_seen complete,
    mem_seen_accepting complete, and_assoc]
  refine and_congr_right fun lead => and_congr_right fun _ => ?_
  rw [and_iff_right lead, Bool.not_eq_true]

theorem mem_live_of_accepting (h : fa.accepting i = true) : i ∈ fa.live := mem_live.mpr ⟨i, .refl i, h⟩

theorem mem_covered (complete : fa.CompleteFrom fa.start) : i ∈ fa.covered ↔ fa.Covered i := by
  have alone : (i ∈ if fa.start ∈ fa.live then (∅ : StateSet) else {fa.start}) ↔ fa.start ∉ fa.live ∧ i = fa.start := by
    split
    · next live => simp [live]
    · next dead => simp [dead]
  rw [covered, StateSet.mem_union, StateSet.mem_union, mem_seen_accepting complete, mem_rejecting_iff complete, alone,
    Covered, ← mem_live]
  constructor
  · rintro ((⟨lead, accepting⟩ | ⟨lead, live, -⟩) | ⟨-, rfl⟩)
    · exact Or.inr ⟨lead, mem_live_of_accepting accepting⟩
    · exact Or.inr ⟨lead, live⟩
    · exact Or.inl rfl
  · intro given
    have live_cases : fa.Leads fa.start i → i ∈ fa.live → fa.Leads fa.start i ∧ fa.accepting i = true ∨
        fa.Leads fa.start i ∧ i ∈ fa.live ∧ fa.accepting i = false := fun lead live => by
      cases accepting : fa.accepting i with
      | true => exact Or.inl ⟨lead, rfl⟩
      | false => exact Or.inr ⟨lead, live, rfl⟩
    obtain rfl | ⟨lead, live⟩ := given
    · by_cases live : fa.start ∈ fa.live
      · exact Or.inl (live_cases (.refl fa.start) live)
      · exact Or.inr ⟨live, rfl⟩
    · exact Or.inl (live_cases lead live)

end Automaton

namespace Partition

variable {fa : Automaton} {alphabet : List Char} {p q : Partition} {s block : StateSet} {n : Nat}

/-! ### The invariant -/

/-- Sound blocks of the states of a set. Those of a block agree on acceptance. -/
structure Tiles (p : Partition) (fa : Automaton) (s : StateSet) : Prop extends Sound p fa.size where
  covers : ∀ i, (∃ k, p.blockOf? i = some k) ↔ i ∈ s
  alike : ∀ {i j k}, p.blockOf? i = some k → p.blockOf? j = some k → fa.accepting i = fa.accepting j

theorem tiles_blank (fa : Automaton) : (blank fa.size).Tiles fa ∅ where
  toSound := sound_blank fa.size
  covers i := by simp [blockOf?_blank]
  alike := by simp [blockOf?_blank]

/-- A further block of states that agree on acceptance. -/
theorem Tiles.push (h : p.Tiles fa s) (lt : ∀ i ∈ block, i < fa.size) (free : ∀ i ∈ block, i ∉ s)
    (same : ∀ i ∈ block, ∀ j ∈ block, fa.accepting i = fa.accepting j) : (p.push block).Tiles fa (s ∪ block) := by
  have lookup := blockOf?_push (p := p) fun i hi => h.owner.symm ▸ lt i hi
  constructor
  · refine h.toSound.push lt fun i hi => Option.eq_none_iff_forall_ne_some.mpr fun k hk => ?_
    exact free i hi ((h.covers i).mp ⟨k, hk⟩)
  · intro i
    rw [lookup, StateSet.mem_union, ← h.covers]
    by_cases hi : i ∈ block
    · simp [hi]
    · simp [hi]
  · intro i j k hi hj
    obtain ⟨hi, hj⟩ | ⟨hi, hj⟩ := h.mates_of_further lookup hi hj
    · exact same i hi j hj
    · exact h.alike hi hj

theorem tiles_initial (complete : fa.CompleteFrom fa.start) : (initial fa fa.seen).Tiles fa fa.covered := by
  have accepting : ((blank fa.size).push fa.seen.accepting).Tiles fa (∅ ∪ fa.seen.accepting) := by
    refine (tiles_blank fa).push (lt_of_mem_accepting complete) (fun i _ => StateSet.not_mem_empty i) fun i hi j hj => ?_
    rw [((mem_seen_accepting complete).mp hi).2, ((mem_seen_accepting complete).mp hj).2]
  rw [show ∅ ∪ fa.seen.accepting = fa.seen.accepting from StateSet.ext fun i => by simp] at accepting
  have rejecting : (((blank fa.size).push fa.seen.accepting).push (rejecting fa)).Tiles fa
      (fa.seen.accepting ∪ rejecting fa) := by
    refine accepting.push (fun i hi => ?_) (fun i hi accepting => ?_) fun i hi j hj => ?_
    · exact complete i ((mem_rejecting_iff complete).mp hi).1
    · have rejects := ((mem_rejecting_iff complete).mp hi).2.2
      rw [((mem_seen_accepting complete).mp accepting).2] at rejects
      cases rejects
    · rw [((mem_rejecting_iff complete).mp hi).2.2, ((mem_rejecting_iff complete).mp hj).2.2]
  show (if fa.start ∈ fa.live then _ else
    (((blank fa.size).push fa.seen.accepting).push (Partition.rejecting fa)).push {fa.start}).Tiles fa
      (_ ∪ if fa.start ∈ fa.live then ∅ else {fa.start})
  split
  · rwa [show fa.seen.accepting ∪ Partition.rejecting fa ∪ ∅ = fa.seen.accepting ∪ Partition.rejecting fa from
      StateSet.ext fun i => by simp]
  · next dead =>
    refine rejecting.push (fun i hi => ?_) (fun i hi inside => ?_) fun i hi j hj => ?_
    · exact StateSet.mem_singleton.mp hi ▸ complete.lt
    · obtain rfl := StateSet.mem_singleton.mp hi
      refine dead ((StateSet.mem_union.mp inside).elim (fun accepting => ?_) fun rejecting => ?_)
      · exact mem_live_of_accepting ((mem_seen_accepting complete).mp accepting).2
      · exact ((mem_rejecting_iff complete).mp rejecting).2.1
    · rw [StateSet.mem_singleton.mp hi, StateSet.mem_singleton.mp hj]

theorem Tiles.splits (h : p.Tiles fa s) (hq : p.Splits fa alphabet q) : q.Tiles fa s := by
  obtain ⟨sound, covered, -⟩ := h.toSound.splits hq
  refine ⟨sound, fun i => (covered i).trans (h.covers i), fun hi hj => ?_⟩
  obtain ⟨l, hi, hj⟩ := h.mates_of_splits hq hi hj
  exact h.alike hi hj

theorem Tiles.blocks_le_size (h : p.Tiles fa s) : p.blocks.size ≤ s.size :=
  h.blocks_le_length fun hi => StateSet.mem_toList.mpr ((h.covers _).mp ⟨_, hi⟩)

/-! ### The run -/

theorem Tiles.stabilize (h : p.Tiles fa s) (alphabet : List Char) (n : Nat) : (stabilize fa alphabet n p).Tiles fa s := by
  induction n generalizing p with
  | zero => exact h
  | succ n ih =>
    rw [Partition.stabilize]
    cases split : p.refine? fa alphabet with
    | none => exact h
    | some q => exact ih (h.splits (splits_of_refine? split))

theorem Tiles.refine?_stabilize (h : p.Tiles fa s) (alphabet : List Char) (enough : s.size < p.blocks.size + n) :
    (Partition.stabilize fa alphabet n p).refine? fa alphabet = none :=
  (h.toSound.stabilize fa alphabet (fun hi => StateSet.mem_toList.mpr ((h.covers _).mp ⟨_, hi⟩)) enough).2.2

end Partition

open FiniteAutomata.Partition

namespace Automaton

variable {fa : Automaton}

/-- There is a block from the first, since the start is covered in any case. -/
theorem blocks_initial_pos (complete : fa.CompleteFrom fa.start) : 0 < (initial fa fa.seen).blocks.size := by
  have tiles := tiles_initial complete
  obtain ⟨k, hk⟩ := (tiles.covers fa.start).mpr ((mem_covered complete).mpr (Or.inl rfl))
  exact Nat.zero_lt_of_lt (tiles.lt_blocks hk)

/-- Refinement ends with blocks of reachable states, one of them of the start, and no character splits them any further. -/
theorem sound_stablePartition (complete : fa.CompleteFrom fa.start) : (fa.stablePartition fa.seen).Sound fa.size ∧
    (∃ k, (fa.stablePartition fa.seen).blockOf? fa.start = some k) ∧
    (∀ {i k}, (fa.stablePartition fa.seen).blockOf? i = some k → fa.Leads fa.start i) ∧
    (fa.stablePartition fa.seen).refine? fa fa.seen.alphabet.chars = none := by
  have first := tiles_initial complete
  have last := first.stabilize fa.seen.alphabet.chars fa.size
  have few : fa.covered.size ≤ fa.size := StateSet.size_le fun i hi => complete i ((mem_covered complete).mp hi).leads
  refine ⟨last.toSound, (last.covers fa.start).mpr ((mem_covered complete).mpr (Or.inl rfl)), fun hi => ?_, ?_⟩
  · exact ((mem_covered complete).mp ((last.covers _).mp ⟨_, hi⟩)).leads
  · exact first.refine?_stabilize _ (Nat.lt_of_le_of_lt few (Nat.lt_add_of_pos_left (blocks_initial_pos complete)))

end Automaton
end FiniteAutomata
