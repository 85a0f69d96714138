import FiniteAutomata.Proofs.DoubleReversal
import FiniteAutomata.Proofs.Quotient

/-! Minimisation by refinement. On a deterministic automaton that recognises some word it gives the minimal
    automaton of the language. On one that recognises none the start is the only block, and the result is one
    rejecting state that keeps the steps of the start to itself; that state is minimal too, though with such a step it
    is not `barren`. -/

namespace FiniteAutomata

open FiniteAutomata.Partition

namespace Automaton

variable {fa : Automaton} {p : Partition} {k : Nat}

/-- The blocks that the block of the start leads to are renumbered. -/
theorem minimizeByRefinement_eq (complete : fa.CompleteFrom fa.start) (sound : (fa.stablePartition fa.seen).Sound fa.size)
    (silent : ∀ {i j k}, (fa.stablePartition fa.seen).blockOf? i = some k → ¬fa.Step i .epsilon j)
    (hk : (fa.stablePartition fa.seen).blockOf? fa.start = some k) :
    fa.minimizeByRefinement = .ok ((fa.classes (fa.stablePartition fa.seen)).renumbered
      ((fa.classes (fa.stablePartition fa.seen)).order [k])) := by
  rw [minimizeByRefinement, if_pos complete.lt, view_eq complete]
  show (fa.quotient (fa.stablePartition fa.seen) >>= fun classes => _) = _
  rw [quotient_eq sound silent, hk]
  exact renumber_eq (completeFrom_classes sound hk) fun _ => not_silent_classes sound silent

theorem renumbers_classes {i : StateId} (sound : p.Sound fa.size)
    (silent : ∀ {i j k}, p.blockOf? i = some k → ¬fa.Step i .epsilon j) (hk : p.blockOf? i = some k) :
    Renumbers (fa.classes p) k ((fa.classes p).order [k]) ((fa.classes p).renumbered ((fa.classes p).order [k])) :=
  renumbers_renumbered (completeFrom_classes sound hk) fun _ => not_silent_classes sound silent

/-! ### Some word is recognised -/

section Live
variable (wf : fa.WellFormed) (complete : fa.CompleteFrom fa.start) (det : fa.Deterministic)
  (live : ∃ word, fa.Recognizes word)
include wf complete det live

/-- Refinement gives the minimal automaton of the language. -/
theorem exists_minimizeByRefinement : ∃ m, fa.minimizeByRefinement = .ok m ∧ m.WellFormed ∧ m.InRange ∧ m.Minimal ∧
    ∀ word, m.Recognizes word ↔ fa.Recognizes word := by
  have exact := exact_stablePartition wf complete det live
  obtain ⟨k, hk⟩ := exact.covers.mpr ⟨.refl fa.start, live⟩
  have renumbers := renumbers_classes exact.sound (silent_of_exact exact det) hk
  have block : ∀ {l}, (fa.classes (fa.stablePartition fa.seen)).Leads k l →
      l < (fa.stablePartition fa.seen).blocks.size := fun lead => size_classes ▸ completeFrom_classes exact.sound hk _ lead
  refine ⟨_, minimizeByRefinement_eq complete exact.sound (silent_of_exact exact det) hk, renumbers.wellFormed,
    renumbers.inRange, ?_, fun word => ?_⟩
  · exact renumbers.minimal (wellFormed_classes exact.sound (silent_of_exact exact det) hk)
      (not_silent_classes exact.sound (silent_of_exact exact det)) (functional_classes exact det)
      (fun lead => live_classes exact det (block lead))
      fun lead lead' => separated_classes exact det (block lead) (block lead')
  · rw [renumbers.recognizes, recognizesFrom_classes exact det hk]
    exact Iff.rfl

end Live

/-! ### No word is recognised -/

/-- A block of one state has nothing to split off. -/
theorem settled_of_single {alphabet : List Char} {i : StateId} (h : p.blocks = #[{i}]) : p.Settled fa alphabet := by
  rintro q ⟨k, block, c, hblock, -, part, -⟩
  obtain rfl : {i} = block := by
    have member := Array.mem_of_getElem? hblock
    rw [h] at member
    exact (Array.mem_singleton.mp member).symm
  refine part ?_
  rw [dissenters, toList_singleton]
  rfl

section Dead
variable (wf : fa.WellFormed) (complete : fa.CompleteFrom fa.start) (dead : ∀ word, ¬fa.Recognizes word)
include wf complete dead

theorem initial_of_dead : Partition.initial fa fa.seen = (blank fa.size).push {fa.start} := by
  have no_accepting : fa.seen.accepting = ∅ := StateSet.ext fun i => by
    refine ⟨fun hi => ?_, fun hi => absurd hi (StateSet.not_mem_empty i)⟩
    obtain ⟨lead, accepting⟩ := (mem_seen_accepting complete).mp hi
    obtain ⟨word, path⟩ := lead.exists_path wf
    exact absurd ⟨i, path, accepting⟩ (dead word)
  have no_rejecting : rejecting fa = ∅ := StateSet.ext fun i => by
    refine ⟨fun hi => ?_, fun hi => absurd hi (StateSet.not_mem_empty i)⟩
    obtain ⟨⟨lead, word, j, path, accepting⟩, -⟩ := (mem_rejecting wf complete).mp hi
    obtain ⟨first, path'⟩ := lead.exists_path wf
    exact absurd ⟨j, path'.append path, accepting⟩ (dead (first ++ word))
  have not_live : fa.start ∉ fa.live := fun hlive => by
    obtain ⟨word, recognizes⟩ := (mem_live_iff_exists_recognizesFrom wf).mp hlive
    exact dead word recognizes
  have push_empty : ∀ q : Partition, q.push ∅ = q := fun q => if_pos rfl
  show (if fa.start ∈ fa.live then _ else
    (((blank fa.size).push fa.seen.accepting).push (rejecting fa)).push {fa.start}) = _
  rw [if_neg not_live, no_accepting, no_rejecting, push_empty, push_empty]

theorem stablePartition_of_dead : fa.stablePartition fa.seen = (blank fa.size).push {fa.start} := by
  have blocks : ((blank fa.size).push {fa.start}).blocks = #[{fa.start}] :=
    blocks_push ⟨fa.start, StateSet.mem_singleton.mpr rfl⟩
  rw [stablePartition, initial_of_dead wf complete dead, stabilize_of_refine?_eq_none (settled_iff.mp (settled_of_single blocks))]

theorem sound_of_dead : (fa.stablePartition fa.seen).Sound fa.size := by
  rw [stablePartition_of_dead wf complete dead]
  refine (sound_blank fa.size).push (fun i hi => ?_) fun i _ => blockOf?_blank fa.size i
  rw [StateSet.mem_singleton.mp hi]
  exact complete.lt

theorem blockOf?_of_dead {i : StateId} : (fa.stablePartition fa.seen).blockOf? i = some k ↔ i = fa.start ∧ k = 0 := by
  have lt : ∀ i ∈ ({fa.start} : StateSet), i < (blank fa.size).owner.size := fun i hi => by
    rw [StateSet.mem_singleton.mp hi, blank, Array.size_replicate]
    exact complete.lt
  rw [stablePartition_of_dead wf complete dead, blockOf?_push lt, blockOf?_blank]
  by_cases hi : i = fa.start
  · simp [hi, blank, eq_comm]
  · simp [hi]

/-- The result is one rejecting state with the steps of the start to itself. -/
theorem minimizeByRefinement_of_dead (det : fa.Deterministic) : ∃ m, fa.minimizeByRefinement = .ok m ∧ m.size = 1 ∧
    m.start = 0 ∧ m.WellFormed ∧ m.InRange ∧ m.accepting 0 = false ∧
    ∀ a, m.Step 0 a 0 ↔ fa.Step fa.start a fa.start := by
  have sound := sound_of_dead wf complete dead
  have block : ∀ {i k}, (fa.stablePartition fa.seen).blockOf? i = some k ↔ i = fa.start ∧ k = 0 :=
    blockOf?_of_dead wf complete dead
  have silent : ∀ {i j k}, (fa.stablePartition fa.seen).blockOf? i = some k → ¬fa.Step i .epsilon j := by
    intro i j k hi
    rw [(block.mp hi).1]
    exact det.silent (.refl fa.start)
  have start : (fa.stablePartition fa.seen).blockOf? fa.start = some 0 := block.mpr ⟨rfl, rfl⟩
  have renumbers := renumbers_classes sound silent start
  have only : ∀ {l}, (fa.classes (fa.stablePartition fa.seen)).Leads 0 l → l = 0 := by
    intro l lead
    have hl := completeFrom_classes sound start l lead
    rw [size_classes] at hl
    obtain ⟨i, hi⟩ := sound.exists_member hl
    exact (block.mp hi).2
  have size : ((fa.classes (fa.stablePartition fa.seen)).order [0]).length = 1 := by
    have few := renumbers.nodup.length_le_of_subset fun l hl => List.mem_singleton.mpr (only (renumbers.mem.mp hl))
    have some_place := (List.getElem?_eq_some_iff.mp renumbers.head).1
    exact Nat.le_antisymm few some_place
  refine ⟨_, minimizeByRefinement_eq complete sound silent start, renumbers.size.trans size, renumbers.start,
    renumbers.wellFormed, renumbers.inRange, ?_, fun a => ?_⟩
  · rw [renumbers.accepting renumbers.head, Bool.eq_false_iff, ne_eq, accepting_classes sound]
    intro h
    obtain ⟨i, hi, accepting⟩ := h
    rw [(block.mp hi).1] at accepting
    exact dead [] ⟨fa.start, .nil fa.start, accepting⟩
  · rw [renumbers.step]
    refine ⟨fun h => ?_, fun step => ⟨0, 0, renumbers.head, renumbers.head, ?_⟩⟩
    · obtain ⟨k, l, hk, hl, step⟩ := h
      obtain ⟨i, j, hi, step, hj⟩ := (step_classes sound silent).mp step
      rw [(block.mp hi).1, (block.mp hj).1] at step
      exact step
    · exact (step_classes sound silent).mpr ⟨_, _, start, step, start⟩

end Dead

/-! ### Any deterministic automaton -/

/-- Refinement gives a minimal automaton of the language, also when there are no states or none is live. -/
theorem exists_minimal_minimizeByRefinement (wf : fa.WellFormed) (det : fa.isDeterministic = .ok true) :
    fa.Complete ∧ ∃ m, fa.minimizeByRefinement = .ok m ∧ m.WellFormed ∧ m.InRange ∧ m.Minimal ∧
      ∀ word, m.Recognizes word ↔ fa.Recognizes word := by
  by_cases empty : fa.isEmpty = true
  · refine ⟨Or.inl empty, barren, ?_, wellFormed_barren, inRange_barren, minimal_barren, fun word => ?_⟩
    · rw [minimizeByRefinement, if_neg (start_not_lt empty), determinize_of_isEmpty empty]
    · exact iff_of_false (not_recognizesFrom_barren _ word) (not_recognizes_of_isEmpty empty)
  have start : fa.start < fa.size := wf.start.resolve_right fun h => empty h.1
  obtain ⟨complete, det⟩ := Deterministic.of_isDeterministic start det
  refine ⟨Or.inr complete, ?_⟩
  by_cases live : ∃ word, fa.Recognizes word
  · exact exists_minimizeByRefinement wf complete det live
  have dead : ∀ word, ¬fa.Recognizes word := fun word recognizes => live ⟨word, recognizes⟩
  obtain ⟨m, made, size, start, wf', range, rejects, loop⟩ := minimizeByRefinement_of_dead wf complete dead det
  refine ⟨m, made, wf', range, minimal_of_size_eq_one size start range fun step => ?_, fun word => ?_⟩
  · exact det.silent (.refl fa.start) ((loop _).mp step)
  · refine iff_of_false (fun recognizes => ?_) (dead word)
    obtain ⟨j, -, accepting⟩ := recognizes
    obtain rfl : j = 0 := Nat.lt_one_iff.mp (size ▸ lt_of_accepting accepting)
    rw [rejects] at accepting
    cases accepting

/-- Refinement of any deterministic automaton keeps its language and gives a deterministic automaton with no two states
    alike, and no other deterministic automaton of the language reaches fewer states. -/
theorem minimizeByRefinement_minimal (wf : fa.WellFormed) (det : fa.isDeterministic = .ok true) :
    ∃ m, fa.minimizeByRefinement = .ok m ∧
      (∀ word, ∃ b, fa.accepts word = .ok b ∧ m.accepts word = .ok b) ∧
      m.isDeterministic = .ok true ∧
      (∀ i < m.size, ∀ j < m.size, i ≠ j → ∃ word, ¬(m.RecognizesFrom i word ↔ m.RecognizesFrom j word)) ∧
      ∀ other : Automaton, other.isEmpty = false → other.isDeterministic = .ok true →
        (∀ word, other.accepts word = fa.accepts word) →
        ∃ view, other.view = .ok view ∧ m.size ≤ view.states.length := by
  obtain ⟨complete, m, made, wf', range, min, language⟩ := exists_minimal_minimizeByRefinement wf det
  have complete' := range.complete (Or.inl min.start)
  have same : ∀ word, m.accepts word = fa.accepts word := fun word => accepts_congr complete' complete (language word)
  refine ⟨m, made, fun word => ?_, ?_, fun i hi j hj hne => min.exists_separating hi hj hne, ?_⟩
  · obtain ⟨b, answer⟩ := exists_accepts_eq complete word
    exact ⟨b, answer, (same word).trans answer⟩
  · exact min.deterministic.isDeterministic wf' (range.completeFrom min.start)
  · intro other nonempty det' same'
    exact min.size_le_of_isDeterministic complete' nonempty det' fun word => (same' word).trans (same word).symm

/-- Two branches that end alike, a dead state behind one of them, and an accepting state that nothing leads to. -/
def doubled : Automaton :=
  assembled [(.dfa, false), (.dfa, false), (.dfa, false), (.dfa, true), (.dfa, true), (.dfa, false), (.dfa, true)]
    [⟨0, 1, .char 'a'⟩, ⟨0, 2, .char 'b'⟩, ⟨1, 3, .char 'b'⟩, ⟨2, 4, .char 'b'⟩, ⟨1, 5, .char 'a'⟩, ⟨5, 5, .char 'a'⟩,
      ⟨6, 0, .char 'a'⟩] 0

theorem minimizeByRefinement_doubled : doubled.WellFormed ∧ doubled.isDeterministic = .ok true ∧
    ∃ m, doubled.minimizeByRefinement = .ok m ∧ m.size = 3 ∧ m.isDeterministic = .ok true ∧
      ∀ word, ∃ b, doubled.accepts word = .ok b ∧ m.accepts word = .ok b := by
  have wf : doubled.WellFormed := wellFormed_assembled (by decide) (Or.inl (by decide))
  have det : doubled.isDeterministic = .ok true := by decide +kernel
  obtain ⟨m, made, same, det', -⟩ := minimizeByRefinement_minimal wf det
  have size : doubled.minimizeByRefinement.map size = .ok 3 := by decide +kernel
  rw [made] at size
  exact ⟨wf, det, m, made, Except.ok.inj size, det', same⟩

end Automaton
end FiniteAutomata
