import FiniteAutomata.Proofs.Covering
import FiniteAutomata.Proofs.SameView

/-! States that cannot be reached have no influence on any operation. Refinement is the one that looks at all states, to
    find those that lead to acceptance; of these it keeps the reachable ones, and what a reachable state leads to does not
    depend on the others. So the blocks are the same from the first ones on, and with them the look-ups of reachable
    states, every split, and the automaton of the blocks. -/

namespace FiniteAutomata

open FiniteAutomata.Automaton

variable {fa fb : Automaton} {i : StateId}

theorem Automaton.SameView.mem_live_iff (same : fa.SameView fb) (hi : fa.Leads fa.start i) : i ∈ fa.live ↔ i ∈ fb.live := by
  rw [mem_live, mem_live]
  refine exists_congr fun j => ?_
  rw [← same.leads_iff hi]
  exact and_congr_right fun lead => by rw [same.accepting (hi.trans lead)]

namespace Partition

variable {p q : Partition} {alphabet : List Char} {block rest : StateSet} {c : Char} {k n : Nat}

/-- Adding a block looks at the blocks alone. -/
theorem blocks_push_congr (h : p.blocks = q.blocks) (block : StateSet) : (p.push block).blocks = (q.push block).blocks := by
  rw [push, push]
  split
  · exact h
  · exact congrArg (Array.push · block) h

/-! ### Equal blocks -/

/-- The blocks of reachable states are the same, with sound look-ups among the states of either automaton. -/
structure SameBlocks (fa fb : Automaton) (p q : Partition) : Prop where
  left : p.Sound fa.size
  right : q.Sound fb.size
  blocks : p.blocks = q.blocks
  reached : ∀ {i k}, p.blockOf? i = some k → fa.Leads fa.start i

namespace SameBlocks

section Splits
variable (same : fa.SameView fb) (h : SameBlocks fa fb p q)
include h

theorem blockOf?_eq (i : StateId) : p.blockOf? i = q.blockOf? i := by
  ext k
  rw [h.left.held, h.right.held, h.blocks]

theorem leads (hblock : p.blocks[k]? = some block) : ∀ i ∈ block, fa.Leads fa.start i := fun _ hi =>
  h.reached ((h.left.mem_iff hblock).mp hi)

include same

theorem landing_eq (hi : fa.Leads fa.start i) : p.landing fa c i = q.landing fb c i := by
  rw [landing, landing, same.state hi, show p.blockOf? = q.blockOf? from funext h.blockOf?_eq]

theorem dissenters_eq (hblock : p.blocks[k]? = some block) : p.dissenters fa block c = q.dissenters fb block c := by
  rw [dissenters, dissenters]
  cases members : block.toList with
  | nil => rfl
  | cons first rest =>
    have lead : ∀ i ∈ first :: rest, fa.Leads fa.start i := fun i hi =>
      h.leads hblock i (StateSet.mem_toList.mp (members ▸ hi))
    dsimp only
    rw [h.landing_eq same (lead first List.mem_cons_self)]
    refine congrArg StateSet.ofList (List.filter_congr fun i hi => ?_)
    rw [h.landing_eq same (lead i (List.mem_cons_of_mem _ hi))]

theorem split?_eq : p.split? fa alphabet = q.split? fb alphabet := by
  rw [split?, split?, ← h.blocks, ← List.head?_filterMap, ← List.head?_filterMap]
  refine congrArg List.head? (List.filterMap_congr fun row hmem => ?_)
  obtain ⟨block, k⟩ := row
  have hblock : p.blocks[k]? = some block := by simpa using List.mem_zipIdx_iff_getElem?.mp hmem
  have split : p.blockSplit? fa alphabet block = q.blockSplit? fb alphabet block := by
    simp only [blockSplit?, h.dissenters_eq same hblock]
  dsimp only
  rw [split]

/-- Both can be split or neither can, and a split leaves equal blocks. -/
theorem refine? (alphabet : List Char) : Option.Rel (SameBlocks fa fb) (p.refine? fa alphabet) (q.refine? fb alphabet) := by
  cases found : p.split? fa alphabet with
  | none =>
    rw [Partition.refine?, Partition.refine?, ← h.split?_eq same, found]
    exact .none
  | some chosen =>
    obtain ⟨k, rest⟩ := chosen
    have left : p.refine? fa alphabet = some (p.separate k rest) := by rw [Partition.refine?, found]; rfl
    have right : q.refine? fb alphabet = some (q.separate k rest) := by
      rw [Partition.refine?, ← h.split?_eq same, found]
      rfl
    obtain ⟨sound, covered, -⟩ := h.left.splits (splits_of_refine? left)
    obtain ⟨sound', -⟩ := h.right.splits (splits_of_refine? right)
    rw [left, right]
    refine .some ⟨sound, sound', ?_, fun hi => ?_⟩
    · exact blocks_push_congr (congrArg (Array.modify · k (· \ rest)) h.blocks) rest
    · obtain ⟨l, hl⟩ := (covered _).mp ⟨_, hi⟩
      exact h.reached hl

theorem stabilize (alphabet : List Char) (n : Nat) : SameBlocks fa fb (stabilize fa alphabet n p) (stabilize fb alphabet n q) := by
  induction n generalizing p q with
  | zero => exact h
  | succ n ih =>
    have split := h.refine? same alphabet
    rw [Partition.stabilize, Partition.stabilize]
    cases left : p.refine? fa alphabet with
    | none =>
      rw [left] at split
      cases right : q.refine? fb alphabet with
      | none => exact h
      | some q' =>
        rw [right] at split
        cases split
    | some p' =>
      rw [left] at split
      cases right : q.refine? fb alphabet with
      | none =>
        rw [right] at split
        cases split
      | some q' =>
        rw [right] at split
        obtain ⟨h'⟩ := split
        exact ih h'

/-! ### The automaton of the blocks -/

theorem quotient_eq : fa.quotient p = fb.quotient q := by
  have states : (p.blocks.toList.map fun block => (Kind.partition block, fa.acceptsAt block)) =
      p.blocks.toList.map fun block => (Kind.partition block, fb.acceptsAt block) := by
    refine List.map_congr_left fun block hblock => ?_
    obtain ⟨k, hk⟩ := List.getElem?_of_mem hblock
    rw [same.acceptsAt_eq (h.leads (by simpa using hk))]
  have arcs : fa.blockArcs p = fb.blockArcs q := by
    rw [blockArcs, blockArcs, ← h.blocks]
    refine List.flatMap_congr fun row hmem => ?_
    obtain ⟨block, k⟩ := row
    have hblock : p.blocks[k]? = some block := by simpa using List.mem_zipIdx_iff_getElem?.mp hmem
    dsimp only
    simp only [h.blockOf?_eq]
    rw [List.flatMap_congr fun i hi => same.arcsOf (h.leads hblock i (StateSet.mem_toList.mp hi))]
  show assemble (p.blocks.toList.map _) (fa.blockArcs p) none = assemble (q.blocks.toList.map _) (fb.blockArcs q) none
  rw [states, arcs, h.blocks]

end Splits
end SameBlocks

/-! ### Refinement -/

section Refinement
variable (same : fa.SameView fb) (complete : fa.CompleteFrom fa.start)
include same complete

theorem sameBlocks_initial : SameBlocks fa fb (initial fa fa.seen) (initial fb fb.seen) := by
  have tiles := tiles_initial complete
  have tiles' := tiles_initial (same.completeFrom complete)
  have rejecting : rejecting fa = rejecting fb := by
    rw [Partition.rejecting, Partition.rejecting, ← same.seen_eq complete]
    refine congrArg (StateSet.ofList · \ _) (List.filter_congr fun i hi => decide_eq_decide.mpr ?_)
    exact same.mem_live_iff ((mem_seen complete).mp hi)
  have start : fa.start ∈ fa.live ↔ fa.start ∈ fb.live := same.mem_live_iff (.refl fa.start)
  have halves : (halves fa).blocks = (halves fb).blocks := by
    rw [Partition.halves, Partition.halves, ← rejecting, ← same.seen_eq complete]
    have blank : (blank fa.size).blocks = (blank fb.size).blocks := rfl
    exact blocks_push_congr (blocks_push_congr blank _) _
  refine ⟨tiles.toSound, tiles'.toSound, ?_, fun hi => ?_⟩
  · show (if fa.start ∈ fa.live then Partition.halves fa else (Partition.halves fa).push {fa.start}).blocks =
      (if fb.start ∈ fb.live then Partition.halves fb else (Partition.halves fb).push {fb.start}).blocks
    rw [← same.start]
    by_cases live : fa.start ∈ fa.live
    · rw [if_pos live, if_pos (start.mp live), halves]
    · rw [if_neg live, if_neg (mt start.mpr live)]
      exact blocks_push_congr halves _
  · exact ((mem_covered complete).mp ((tiles.covers _).mp ⟨_, hi⟩)).leads

theorem sameBlocks_stablePartition : SameBlocks fa fb (fa.stablePartition fa.seen) (fb.stablePartition fb.seen) := by
  obtain ⟨-, -, -, stop⟩ := sound_stablePartition complete
  obtain ⟨-, -, -, stop'⟩ := sound_stablePartition (same.completeFrom complete)
  have stable := (sameBlocks_initial same complete).stabilize same fa.seen.alphabet.chars (fa.size + fb.size)
  rw [stabilize_add stop, Nat.add_comm, same.seen_eq complete, stabilize_add stop'] at stable
  rw [stablePartition, same.seen_eq complete]
  exact stable

end Refinement

end Partition

open FiniteAutomata.Partition Checked

namespace Automaton

section Minimization
variable (complete : fa.CompleteFrom fa.start)
include complete

theorem SameView.minimizeByRefinement_eq (same : fa.SameView fb) : fa.minimizeByRefinement = fb.minimizeByRefinement := by
  have complete' := same.completeFrom complete
  have blocks := sameBlocks_stablePartition same complete
  rw [minimizeByRefinement, minimizeByRefinement, if_pos complete.lt, if_pos complete'.lt, Automaton.view_eq complete,
    Automaton.view_eq complete']
  show (fa.quotient (fa.stablePartition fa.seen) >>= _) = (fb.quotient (fb.stablePartition fb.seen) >>= _)
  rw [blocks.quotient_eq same, blocks.blockOf?_eq, same.start]

/-- Without reachable empty steps refinement gives an automaton, deterministic or not. -/
theorem exists_minimizeByRefinement_of_silent (silent : ∀ i j, fa.Leads fa.start i → ¬fa.Step i .epsilon j) :
    ∃ m, fa.minimizeByRefinement = .ok m := by
  obtain ⟨sound, ⟨k, hk⟩, reached, -⟩ := sound_stablePartition complete
  exact ⟨_, Automaton.minimizeByRefinement_eq complete sound (fun hi => silent _ _ (reached hi)) hk⟩

end Minimization

/-! ### All operations -/

/-- Every operation gives a result on both, and it is the same. -/
structure Indistinguishable (fa fb : Automaton) : Prop where
  accepts : ∀ word, Agree (fa.accepts word) (fb.accepts word)
  isDeterministic : Agree fa.isDeterministic fb.isDeterministic
  render : Agree fa.render fb.render
  isomorphic : ∀ fc : Automaton, fc.Complete →
    Agree (fa.isomorphic fc) (fb.isomorphic fc) ∧ Agree (fc.isomorphic fa) (fc.isomorphic fb)
  /-- A fault of the third automaton is the same too. -/
  isomorphic_eq : ∀ fc, fa.isomorphic fc = fb.isomorphic fc ∧ fc.isomorphic fa = fc.isomorphic fb
  reverseEdges : Agree fa.reverseEdges fb.reverseEdges
  reverse : Agree fa.reverse fb.reverse
  determinize : Agree fa.determinize fb.determinize
  minimizeByReversal : Agree fa.minimizeByReversal fb.minimizeByReversal
  minimizeByRefinement : (∀ i j, fa.Leads fa.start i → ¬fa.Step i .epsilon j) →
    Agree fa.minimizeByRefinement fb.minimizeByRefinement

theorem agree_of_eq {α : Type} {a b : Except Fault α} (made : ∃ x, a = .ok x) (same : a = b) : Agree a b := by
  obtain ⟨x, made⟩ := made
  exact ⟨x, made, same ▸ made⟩

theorem SameView.indistinguishable (same : fa.SameView fb) (complete : fa.CompleteFrom fa.start) :
    Indistinguishable fa fb := by
  have empty := same.isEmpty_eq complete
  have view := same.view_eq complete
  have compare : ∀ fc, fa.isomorphic fc = fb.isomorphic fc ∧ fc.isomorphic fa = fc.isomorphic fb := fun fc =>
    ⟨same.isomorphic_eq (.refl fc) empty rfl view rfl, (SameView.refl fc).isomorphic_eq same rfl empty rfl view⟩
  obtain ⟨-, r, m, -, reversed, started, -⟩ := exists_reverse_started (Or.inr complete)
  constructor
  · exact fun word => agree_of_eq (exists_accepts_eq (Or.inr complete) word) (same.accepts_eq complete word)
  · refine agree_of_eq ?_ (same.isDeterministic_eq complete)
    rw [isDeterministic, Automaton.view_eq complete]
    exact ⟨_, rfl⟩
  · refine agree_of_eq ?_ (same.render_eq complete)
    rw [render, text, Automaton.view_eq complete]
    exact ⟨_, rfl⟩
  · intro fc complete'
    obtain ⟨b, -, answer⟩ := Checked.agree_isomorphic (Or.inr complete) complete'
    obtain ⟨b', -, answer'⟩ := Checked.agree_isomorphic complete' (Or.inr complete)
    exact ⟨agree_of_eq ⟨b, answer⟩ (compare fc).1, agree_of_eq ⟨b', answer'⟩ (compare fc).2⟩
  · exact compare
  · exact agree_of_eq ⟨r, reversed⟩ (same.reverseEdges_eq complete)
  · exact agree_of_eq ⟨m, started⟩ (same.reverse_eq complete)
  · obtain ⟨d, made, -⟩ := exists_determinize_recognizes (Or.inr complete)
    exact agree_of_eq ⟨d, made⟩ (same.determinize_eq complete)
  · obtain ⟨m, made, -⟩ := exists_minimizeByReversal (Or.inr complete)
    exact agree_of_eq ⟨m, made⟩ (same.minimizeByReversal_eq complete)
  · exact fun silent => agree_of_eq (exists_minimizeByRefinement_of_silent complete silent) (same.minimizeByRefinement_eq complete)

/-- Whatever states are added to an automaton, whatever they accept and wherever their edges lead: as long as its own
    states and its start stay as they are, no operation gives another result. -/
theorem indistinguishable_of_extends (range : fa.InRange) (inside : fa.start < fa.size) (extends' : fb.Extends fa)
    (start : fb.start = fa.start) : Indistinguishable fa fb :=
  (extends'.sameView range inside start).indistinguishable (range.completeFrom inside)

/-- A state that leads to no acceptance, and one that does. -/
def plain : Automaton :=
  assembled [(.dfa, false), (.dfa, false), (.dfa, true)]
    [⟨0, 1, .char 'a'⟩, ⟨0, 2, .char 'b'⟩, ⟨2, 0, .char 'a'⟩] 0

/-- The same with an accepting state, one that stands for a block and one with an empty step. They lead to each other and
    to old states. -/
def adorned : Automaton :=
  assembled [(.dfa, false), (.dfa, false), (.dfa, true), (.dfa, true), (.partition {1}, false), (.nfa, true)]
    [⟨0, 1, .char 'a'⟩, ⟨0, 2, .char 'b'⟩, ⟨2, 0, .char 'a'⟩, ⟨3, 0, .char 'a'⟩, ⟨3, 5, .char 'a'⟩, ⟨4, 1, .char 'c'⟩,
      ⟨5, 2, .epsilon⟩, ⟨5, 3, .char 'b'⟩] 0

theorem indistinguishable_adorned : plain.InRange ∧ plain.start < plain.size ∧ adorned.Extends plain ∧
    adorned.start = plain.start ∧ Indistinguishable plain adorned ∧
    ∃ m, plain.minimizeByRefinement = .ok m ∧ adorned.minimizeByRefinement = .ok m ∧ m.size = 2 := by
  have range : plain.InRange := inRange_assembled (by decide)
  have inside : plain.start < plain.size := by decide
  have more : adorned.Extends plain := by
    rw [Extends]
    decide
  have same := indistinguishable_of_extends range inside more rfl
  have silent : ∀ i j, plain.Leads plain.start i → ¬plain.Step i .epsilon j := fun i j _ step => by
    rw [plain, step_assembled (by decide)] at step
    simp at step
  obtain ⟨m, made, made'⟩ := same.minimizeByRefinement silent
  exact ⟨range, inside, more, rfl, same, m, made, made', size_eq_of_map made (by decide +kernel)⟩

end Automaton
end FiniteAutomata
