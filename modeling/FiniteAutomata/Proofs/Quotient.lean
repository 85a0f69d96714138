import FiniteAutomata.Proofs.Coarsest
import FiniteAutomata.Proofs.Minimal
import FiniteAutomata.Proofs.Renumbering

/-! The automaton of the blocks, and the minimal automaton that renumbers it. A step between blocks is a step
    between members. When the blocks are the classes of states by the words they recognise, a block recognises
    what its members do, so no two blocks recognise the same words. A start that recognises nothing is a block
    of its own; what is left then is this block, with the steps of the start to itself. -/

namespace FiniteAutomata

open FiniteAutomata.Partition

namespace Automaton

variable {fa : Automaton} {p : Partition} {i j : StateId} {k l : Nat} {word : List Char}

/-! ### Blocks as states -/

def blockStates (fa : Automaton) (p : Partition) : List (Kind × Bool) :=
  p.blocks.toList.map fun block => (Kind.partition block, fa.acceptsAt block)

/-- The steps of the members that lead to covered states, by block. -/
def blockArcs (fa : Automaton) (p : Partition) : List Arc :=
  p.blocks.toList.zipIdx.flatMap fun (block, index) =>
    (block.toList.flatMap fa.arcsOf).filterMap fun arc =>
      (p.blockOf? arc.target).map fun target => ⟨index, target, arc.symbol⟩

/-- The automaton of the blocks. -/
def classes (fa : Automaton) (p : Partition) : Automaton := assembled (fa.blockStates p) (fa.blockArcs p) 0

theorem length_blockStates : (fa.blockStates p).length = p.blocks.size := by
  rw [blockStates, List.length_map, Array.length_toList]

theorem getElem?_blockStates : (fa.blockStates p)[k]? =
    p.blocks[k]?.map fun block => (Kind.partition block, fa.acceptsAt block) := by
  rw [blockStates, List.getElem?_map, Array.getElem?_toList]

theorem mem_blockArcs (sound : p.Sound fa.size) {a : Symbol} : ⟨k, l, a⟩ ∈ fa.blockArcs p ↔
    ∃ i j, p.blockOf? i = some k ∧ fa.Step i a j ∧ p.blockOf? j = some l := by
  rw [blockArcs, List.mem_flatMap]
  refine ⟨fun h => ?_, fun h => ?_⟩
  · obtain ⟨⟨block, index⟩, hblock, hmem⟩ := h
    obtain ⟨arc, harc, hmap⟩ := List.mem_filterMap.mp hmem
    obtain ⟨target, hj, heq⟩ := Option.map_eq_some_iff.mp hmap
    obtain ⟨rfl, rfl, rfl⟩ := Arc.mk.inj heq
    obtain ⟨i, hi, hfrom⟩ := List.mem_flatMap.mp harc
    have hblock := List.mem_zipIdx_iff_getElem?.mp hblock
    refine ⟨i, arc.target, (sound.mem_iff (by simpa using hblock)).mp (StateSet.mem_toList.mp hi), ?_, hj⟩
    exact (mem_arcsOf.mp hfrom).2
  · obtain ⟨i, j, hi, step, hj⟩ := h
    obtain ⟨block, hblock, hmem⟩ := sound.held.mp hi
    refine ⟨(block, k), List.mem_zipIdx_iff_getElem?.mpr (by simpa using hblock), List.mem_filterMap.mpr ?_⟩
    refine ⟨⟨i, j, a⟩, List.mem_flatMap.mpr ⟨i, StateSet.mem_toList.mpr hmem, mem_arcsOf.mpr ⟨rfl, step⟩⟩, ?_⟩
    exact Option.map_eq_some_iff.mpr ⟨l, hj, rfl⟩

section Classes
variable (sound : p.Sound fa.size) (silent : ∀ {i j k}, p.blockOf? i = some k → ¬fa.Step i .epsilon j)
include sound

include silent

theorem allowed_blockArcs : ∀ a ∈ fa.blockArcs p, Allowed (fa.blockStates p) a := by
  intro ⟨k, l, a⟩ ha
  obtain ⟨i, j, hi, step, -⟩ := (mem_blockArcs sound).mp ha
  obtain ⟨block, hblock, -⟩ := sound.held.mp hi
  refine ⟨(.partition block, fa.acceptsAt block), by rw [getElem?_blockStates, hblock]; rfl, fun hsilent => ?_⟩
  obtain rfl : a = .epsilon := hsilent
  exact absurd step (silent hi)

theorem quotient_eq : fa.quotient p = .ok (fa.classes p) := by
  have no_start : ∀ id, none = some id → id < (fa.blockStates p).length := fun id hid => nomatch hid
  exact assemble_eq (allowed_blockArcs sound silent) no_start

theorem step_classes {a : Symbol} : (fa.classes p).Step k a l ↔
    ∃ i j, p.blockOf? i = some k ∧ fa.Step i a j ∧ p.blockOf? j = some l := by
  rw [classes, step_assembled fun a ha => (allowed_blockArcs sound silent a ha).lt, mem_blockArcs sound]

theorem not_silent_classes : ¬(fa.classes p).Step k .epsilon l := by
  intro step
  obtain ⟨i, j, hi, step, -⟩ := (step_classes sound silent).mp step
  exact silent hi step

omit sound silent in
theorem size_classes : (fa.classes p).size = p.blocks.size := by
  rw [classes, size_assembled, length_blockStates]

omit silent in
theorem inRange_classes : (fa.classes p).InRange := by
  refine inRange_assembled fun ⟨k, l, a⟩ ha => ?_
  obtain ⟨i, j, -, -, hj⟩ := (mem_blockArcs sound).mp ha
  rw [length_blockStates]
  exact sound.lt_blocks hj

omit silent in
theorem completeFrom_classes (hi : p.blockOf? i = some k) : (fa.classes p).CompleteFrom k := by
  refine (inRange_classes sound).completeFrom ?_
  rw [size_classes]
  exact sound.lt_blocks hi

theorem wellFormed_classes (hi : p.blockOf? i = some k) : (fa.classes p).WellFormed := by
  refine wellFormed_assembled (allowed_blockArcs sound silent) (Or.inl ?_)
  rw [length_blockStates]
  exact Nat.zero_lt_of_lt (sound.lt_blocks hi)

omit silent in
theorem accepting_classes : (fa.classes p).accepting k = true ↔ ∃ i, p.blockOf? i = some k ∧ fa.accepting i = true := by
  rw [classes, accepting_assembled, getElem?_blockStates]
  cases hblock : p.blocks[k]? with
  | none =>
    refine ⟨fun h => (nomatch h), fun h => ?_⟩
    obtain ⟨i, hi, -⟩ := h
    obtain ⟨block, hblock', -⟩ := sound.held.mp hi
    rw [hblock] at hblock'
    cases hblock'
  | some block =>
    show fa.acceptsAt block = true ↔ _
    rw [acceptsAt_iff]
    simp only [sound.mem_iff hblock]

end Classes

/-! ### Exact blocks -/

section Exact
variable (exact : p.Exact fa) (det : fa.Deterministic)
include exact det

theorem silent_of_exact (hi : p.blockOf? i = some k) : ¬fa.Step i .epsilon j :=
  fun step => det.silent (exact.covers.mp ⟨k, hi⟩).1 step

theorem step_classes_of_exact {a : Symbol} : (fa.classes p).Step k a l ↔
    ∃ i j, p.blockOf? i = some k ∧ fa.Step i a j ∧ p.blockOf? j = some l :=
  step_classes exact.sound (silent_of_exact exact det)

theorem matching_classes : Matching fa (fa.classes p) fun i k => p.blockOf? i = some k where
  accepting {i k} hi := by
    rw [Bool.eq_iff_iff, accepting_classes exact.sound]
    refine ⟨fun h => ⟨i, hi, h⟩, fun h => ?_⟩
    obtain ⟨j, hj, accepting⟩ := h
    rw [exact.accepting hi hj, accepting]
  forth {i k j a} hi step live := by
    obtain ⟨l, hl⟩ := exact.covers.mpr ⟨(exact.covers.mp ⟨k, hi⟩).1.trans step.leads, live⟩
    exact ⟨l, (step_classes_of_exact exact det).mpr ⟨i, j, hi, step, hl⟩, hl⟩
  back {i k l a} hi step := by
    obtain ⟨i', j', hi', step', hj'⟩ := (step_classes_of_exact exact det).mp step
    have lead := (exact.covers.mp ⟨k, hi⟩).1
    have lead' := (exact.covers.mp ⟨k, hi'⟩).1
    obtain ⟨-, word, recognizes⟩ := exact.covers.mp ⟨l, hj'⟩
    cases a with
    | epsilon => exact absurd step' (det.silent lead')
    | char c =>
      -- The other member recognises what begins with this step, so it has the step too.
      have recognizes' := (exact.alike hi' hi (c :: word)).mp ((det.recognizesFrom_step lead' step').mpr recognizes)
      obtain ⟨j, step, rest⟩ := (det.recognizesFrom_cons lead).mp recognizes'
      refine ⟨j, step, ?_⟩
      rw [← hj']
      refine exact.together ⟨lead.trans step.leads, word, rest⟩ ⟨lead'.trans step'.leads, word, recognizes⟩ fun word => ?_
      rw [← det.recognizesFrom_step lead step, ← det.recognizesFrom_step lead' step', exact.alike hi hi']

/-- A block recognises what its members do. -/
theorem recognizesFrom_classes (hi : p.blockOf? i = some k) :
    (fa.classes p).RecognizesFrom k word ↔ fa.RecognizesFrom i word :=
  (matching_classes exact det).recognizesFrom hi

theorem functional_classes {a : Symbol} {l' : Nat} (first : (fa.classes p).Step k a l)
    (second : (fa.classes p).Step k a l') : l = l' := by
  obtain ⟨i, j, hi, step, hj⟩ := (step_classes_of_exact exact det).mp first
  obtain ⟨j', step', hj'⟩ := (matching_classes exact det).back hi second
  obtain rfl := det.functional (exact.covers.mp ⟨k, hi⟩).1 step step'
  exact Option.some.inj (hj.symm.trans hj')

theorem live_classes (hk : k < p.blocks.size) : ∃ word, (fa.classes p).RecognizesFrom k word := by
  obtain ⟨i, hi⟩ := exact.sound.exists_member hk
  obtain ⟨-, word, recognizes⟩ := exact.covers.mp ⟨k, hi⟩
  exact ⟨word, (recognizesFrom_classes exact det hi).mpr recognizes⟩

theorem separated_classes (hk : k < p.blocks.size) (hl : l < p.blocks.size)
    (same : ∀ word, (fa.classes p).RecognizesFrom k word ↔ (fa.classes p).RecognizesFrom l word) : k = l := by
  obtain ⟨i, hi⟩ := exact.sound.exists_member hk
  obtain ⟨j, hj⟩ := exact.sound.exists_member hl
  have together := exact.together (exact.covers.mp ⟨k, hi⟩) (exact.covers.mp ⟨l, hj⟩) fun word => by
    rw [← recognizesFrom_classes exact det hi, ← recognizesFrom_classes exact det hj, same]
  exact Option.some.inj (hi.symm.trans (together.trans hj))

end Exact

/-! ### The renumbered blocks -/

/-- Renumbering what a start leads to gives a minimal automaton when no two states there recognise the same words
    and each recognises some. -/
theorem Renumbers.minimal {root : StateId} {visited : List StateId} {m : Automaton} (h : Renumbers fa root visited m)
    (wf : fa.WellFormed) (silent : ∀ {i j}, ¬fa.Step i .epsilon j)
    (functional : ∀ {i j k a}, fa.Step i a j → fa.Step i a k → j = k)
    (live : ∀ {i}, fa.Leads root i → ∃ word, fa.RecognizesFrom i word)
    (separated : ∀ {i j}, fa.Leads root i → fa.Leads root j →
      (∀ word, fa.RecognizesFrom i word ↔ fa.RecognizesFrom j word) → i = j) : m.Minimal := by
  have state : ∀ {p : StateId}, p < m.size → ∃ i, visited[p]? = some i ∧ fa.Leads root i := by
    intro p hp
    rw [h.size] at hp
    exact ⟨visited[p], List.getElem?_eq_getElem hp, h.mem.mp (List.getElem_mem hp)⟩
  constructor
  · exact h.start_lt
  · constructor
    · intro p q _ step
      obtain ⟨i, j, -, -, step⟩ := h.step.mp step
      exact silent step
    · intro p q r a _ first second
      obtain ⟨i, j, hi, hj, step⟩ := h.step.mp first
      obtain ⟨i', k, hi', hk, step'⟩ := h.step.mp second
      obtain rfl := Option.some.inj (hi.symm.trans hi')
      obtain rfl := functional step step'
      exact h.place_unique hj hk
  · intro p hp
    obtain ⟨i, hi, lead⟩ := state hp
    obtain ⟨word, path⟩ := lead.exists_path wf
    obtain ⟨q, hq, path'⟩ := h.exists_path path h.head
    obtain rfl := h.place_unique hi hq
    exact ⟨word, h.start.symm ▸ path'⟩
  · intro p hp q hq same
    obtain ⟨i, hi, lead⟩ := state hp
    obtain ⟨j, hj, lead'⟩ := state hq
    obtain rfl := separated lead lead' fun word => by
      rw [← h.recognizesFrom hi, ← h.recognizesFrom hj, same]
    exact h.place_unique hi hj
  · refine Or.inl fun p hp => ?_
    obtain ⟨i, hi, lead⟩ := state hp
    obtain ⟨word, recognizes⟩ := live lead
    exact ⟨word, (h.recognizesFrom hi).mpr recognizes⟩

end Automaton
end FiniteAutomata
