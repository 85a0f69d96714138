import FiniteAutomata.Minimize.Marking
import FiniteAutomata.Proofs.Checked

/-! The passes end with the live states marked, whatever the edges are. Only live states are ever marked, and the accepting
    ones are from the first. A pass that changes nothing has looked at every state with nothing more to mark, so all that
    leads to a marked state is marked by then; any other pass has marked a live state that was not, so there is at most
    one pass more than there are live states that do not accept. -/

namespace FiniteAutomata

variable {fa : Automaton} {m m' : Marking} {i j : StateId}

namespace Automaton

theorem mem_live_of_mem_targets (target : j ∈ fa.targets i) (live : j ∈ fa.live) : i ∈ fa.live := by
  obtain ⟨k, lead, accepting⟩ := mem_live.mp live
  exact mem_live.mpr ⟨k, (Leads.single target).trans lead, accepting⟩

end Automaton

namespace Marking

open Automaton

/-! ### One pass -/

/-- Either nothing changes, and the state has its mark if it leads to a marked one, or it leads to a marked one and gets
    its mark now. -/
theorem look_cases (inside : i < fa.size) :
    (look fa m i = .ok m ∧ ((∃ j ∈ fa.targets i, j ∈ m.marked) → i ∈ m.marked)) ∨
      (look fa m i = .ok { marked := m.marked.insert i, changed := true } ∧ i ∉ m.marked ∧
        ∃ j ∈ fa.targets i, j ∈ m.marked) := by
  unfold look
  by_cases old : i ∈ m.marked
  · exact Or.inl ⟨if_pos old, fun _ => old⟩
  · rw [if_neg old, Checked.bind_eq (Checked.state_eq inside)]
    have any : ((Checked.stateAt fa i).edges.any fun e => e.target ∈ m.marked) = true ↔
        ∃ j ∈ fa.targets i, j ∈ m.marked := by simp [targets]
    by_cases leads : ∃ j ∈ fa.targets i, j ∈ m.marked
    · exact Or.inr ⟨if_pos (any.mpr leads), old, leads⟩
    · exact Or.inl ⟨if_neg (mt any.mp leads), fun given => absurd given leads⟩

/-- What looking at some states makes of the marks. If there was no change, none of the states wants a mark. -/
structure Looked (fa : Automaton) (ids : List StateId) (m m' : Marking) : Prop where
  kept : ∀ i ∈ m.marked, i ∈ m'.marked
  live : (∀ i ∈ m.marked, i ∈ fa.live) → ∀ i ∈ m'.marked, i ∈ fa.live
  same : m'.changed = false → m' = m ∧ ∀ i ∈ ids, (∃ j ∈ fa.targets i, j ∈ m.marked) → i ∈ m.marked
  more : m'.changed = true → m.changed = true ∨ ∃ i ∈ m'.marked, i ∉ m.marked

theorem exists_looked {ids : List StateId} (inside : ∀ i ∈ ids, i < fa.size) :
    ∃ m', ids.foldlM (look fa) m = .ok m' ∧ Looked fa ids m m' := by
  induction ids generalizing m with
  | nil => exact ⟨m, rfl, fun _ hi => hi, fun live => live, fun _ => ⟨rfl, nofun⟩, Or.inl⟩
  | cons i ids ih =>
    obtain ⟨first, others⟩ := List.forall_mem_cons.mp inside
    rw [List.foldlM_cons]
    rcases look_cases first with ⟨looked, done⟩ | ⟨looked, new, j, target, marked⟩
    · obtain ⟨m', ran, rest⟩ := ih others
      refine ⟨m', by rw [Checked.bind_eq looked, ran], rest.kept, rest.live, fun quiet => ?_, rest.more⟩
      obtain ⟨same, settled⟩ := rest.same quiet
      exact ⟨same, List.forall_mem_cons.mpr ⟨done, settled⟩⟩
    · obtain ⟨m', ran, rest⟩ := ih (m := { marked := m.marked.insert i, changed := true }) others
      have here : i ∈ m'.marked := rest.kept i (StateSet.mem_insert.mpr (Or.inr rfl))
      refine ⟨m', by rw [Checked.bind_eq looked, ran], fun k hk => ?_, fun live => ?_, fun quiet => ?_, fun _ => ?_⟩
      · exact rest.kept k (StateSet.mem_insert.mpr (Or.inl hk))
      · refine rest.live fun k hk => ?_
        rcases StateSet.mem_insert.mp hk with hk | rfl
        · exact live k hk
        · exact mem_live_of_mem_targets target (live j marked)
      · -- The mark that was set here is a change, and no later look takes that back.
        obtain rfl := (rest.same quiet).1
        cases quiet
      · exact Or.inr ⟨i, here, new⟩

/-- A mark that was not there leaves fewer live states without one. -/
theorem Looked.fewer {ids : List StateId} (h : Looked fa ids m m') (live : ∀ i ∈ m'.marked, i ∈ fa.live)
    (marked : i ∈ m'.marked) (new : i ∉ m.marked) : (fa.live \ m'.marked).size < (fa.live \ m.marked).size := by
  have before : i ∈ fa.live \ m.marked := StateSet.mem_diff.mpr ⟨live i marked, new⟩
  have after : i ∉ fa.live \ m'.marked := fun left => (StateSet.mem_diff.mp left).2 marked
  refine StateSet.size_lt_size (fun j hj => ?_) before after
  obtain ⟨alive, unmarked⟩ := StateSet.mem_diff.mp hj
  exact StateSet.mem_diff.mpr ⟨alive, fun old => unmarked (h.kept j old)⟩

/-! ### The run -/

/-- Between two passes: the accepting states are marked, and only live ones are. If the last pass changed nothing, what
    leads to a marked state is marked. -/
structure Marks (fa : Automaton) (m : Marking) : Prop where
  accepting : ∀ i, fa.accepting i = true → i ∈ m.marked
  live : ∀ i ∈ m.marked, i ∈ fa.live
  closed : m.changed = false → ∀ i, (∃ j ∈ fa.targets i, j ∈ m.marked) → i ∈ m.marked

theorem first_eq (fa : Automaton) : first fa = .ok { marked := fa.acceptingStates, changed := true } := by
  have accepting : (List.range fa.size).filterM (Checked.accepting fa) = .ok ((List.range fa.size).filter fa.accepting) :=
    Checked.filterM_eq fun i hi => Checked.accepting_eq (List.mem_range.mp hi)
  rw [first, accepting]
  rfl

theorem marks_first (fa : Automaton) : Marks fa { marked := fa.acceptingStates, changed := true } where
  accepting _ hi := mem_acceptingStates.mpr hi
  live i hi := mem_live.mpr ⟨i, .refl i, mem_acceptingStates.mp hi⟩
  closed := nofun

theorem Marks.marked_eq (h : Marks fa m) (quiet : m.changed = false) : m.marked = fa.live := by
  have backward : ∀ {i j}, fa.Leads i j → fa.accepting j = true → i ∈ m.marked := by
    intro i j lead accepting
    induction lead with
    | refl i => exact h.accepting i accepting
    | step he target _ marked => exact h.closed quiet _ ⟨_, mem_targets.mpr ⟨_, he, target⟩, marked accepting⟩
  refine StateSet.ext fun i => ⟨h.live i, fun live => ?_⟩
  obtain ⟨j, lead, accepting⟩ := mem_live.mp live
  exact backward lead accepting

/-- A pass that marks a state leaves fewer live states without a mark. -/
theorem Marks.pass (h : Marks fa m) : ∃ m', pass fa m = .ok m' ∧ Marks fa m' ∧
    (m'.changed = true → (fa.live \ m'.marked).size < (fa.live \ m.marked).size) := by
  obtain ⟨m', ran, looked⟩ := exists_looked (m := { m with changed := false }) fun i hi => List.mem_range.mp hi
  have live := looked.live h.live
  refine ⟨m', ran, ⟨fun i hi => looked.kept i (h.accepting i hi), live, fun quiet i leads => ?_⟩, fun changed => ?_⟩
  · obtain ⟨rfl, settled⟩ := looked.same quiet
    have ⟨_, target, _⟩ := leads
    exact settled i (List.mem_range.mpr (lt_of_mem_targets target)) leads
  · rcases looked.more changed with before | ⟨i, marked, new⟩
    · cases before
    · exact looked.fewer live marked new

/-- So many passes fail nowhere, and if the last of them has still marked a state, there were as many to mark. -/
theorem Marks.exists_loop (h : Marks fa m) (n : Nat) : ∃ m', loop fa n m = .ok m' ∧ Marks fa m' ∧
    (m'.changed = true → m.changed = true ∧ n + (fa.live \ m'.marked).size ≤ (fa.live \ m.marked).size) := by
  -- On the number of passes. The change that the first one made is passed on, since nothing follows a pass without one.
  induction n generalizing m with
  | zero => exact ⟨m, rfl, h, fun changed => ⟨changed, by omega⟩⟩
  | succ n ih =>
    rw [loop]
    by_cases due : m.changed = true
    · obtain ⟨passed, ran, marks, fewer⟩ := h.pass
      obtain ⟨m', looped, marks', few⟩ := ih marks
      refine ⟨m', by rw [if_pos due, Checked.bind_eq ran, looped], marks', fun changed => ⟨due, ?_⟩⟩
      obtain ⟨again, left⟩ := few changed
      have := fewer again
      omega
    · exact ⟨m, if_neg due, h, fun changed => absurd changed due⟩

end Marking

namespace Automaton

/-- The passes end, and what they have marked by then are the live states: those from which some edges, if any, lead to an
    accepting state. No look-up fails, no other state is ever marked, and there is at most one pass more than there are
    live states that do not accept. -/
theorem exists_run_marks_live (fa : Automaton) :
    (∀ i, i ∈ fa.live ↔ i < fa.size ∧ ∃ j, fa.Leads i j ∧ fa.accepting j = true) ∧
    ∀ n, ∃ m, Marking.run fa n = .ok m ∧ (∀ i ∈ m.marked, i ∈ fa.live) ∧ (m.changed = false → m.marked = fa.live) ∧
      ((fa.live \ fa.acceptingStates).size < n → m.changed = false) := by
  refine ⟨fun i => ?_, fun n => ?_⟩
  · rw [mem_live]
    refine ⟨fun given => ⟨?_, given⟩, And.right⟩
    obtain ⟨j, lead, accepting⟩ := given
    exact lead.lt accepting
  · obtain ⟨m, ran, marks, few⟩ := (Marking.marks_first fa).exists_loop n
    refine ⟨m, ?_, marks.live, marks.marked_eq, fun enough => ?_⟩
    · rw [Marking.run, Checked.bind_eq (Marking.first_eq fa), ran]
    · by_contra changed
      obtain ⟨-, left⟩ := few (by simpa using changed)
      dsimp only at left
      omega

/-- A cycle through an accepting state that takes a pass for each state, a state that nothing leads to, and one that leads
    only to itself and to a state that does not exist. -/
def scattered : Automaton :=
  assembled [(.dfa, false), (.dfa, false), (.nfa, false), (.dfa, true), (.dfa, false), (.dfa, false)]
    [⟨0, 1, .char 'a'⟩, ⟨0, 5, .char 'a'⟩, ⟨1, 2, .char 'b'⟩, ⟨2, 3, .epsilon⟩, ⟨3, 0, .char 'a'⟩, ⟨4, 2, .char 'c'⟩,
      ⟨5, 5, .char 'b'⟩, ⟨5, 9, .char 'c'⟩] 0

theorem exists_run_marks_live_scattered : ∃ m, Marking.run scattered 5 = .ok m ∧ m.changed = false ∧
    m.marked = .ofList [0, 1, 2, 3, 4] ∧ (4 ∈ m.marked ↔ 4 < scattered.size ∧
      ∃ j, scattered.Leads 4 j ∧ scattered.accepting j = true) := by
  obtain ⟨live, runs⟩ := exists_run_marks_live scattered
  obtain ⟨m, ran, -, last, ends⟩ := runs 5
  have quiet : m.changed = false := ends (by decide +kernel)
  have marked : scattered.live = .ofList [0, 1, 2, 3, 4] := by decide +kernel
  exact ⟨m, ran, quiet, (last quiet).trans marked, (last quiet).symm ▸ live 4⟩

end Automaton
end FiniteAutomata
