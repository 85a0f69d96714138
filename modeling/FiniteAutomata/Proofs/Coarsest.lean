import FiniteAutomata.Minimize.Refinement
import FiniteAutomata.Minimize.Splitting
import FiniteAutomata.Proofs.Blocks
import FiniteAutomata.Proofs.Determinism

/-! Refinement finds the classes of states that recognise the same words. Of two states that do, neither ever
    leaves the block of the other, since a character leads them to states that recognise the same words again;
    and once no character splits a block, its members recognise the same words. Each split adds a block, so
    there are no more splits than states. -/

namespace FiniteAutomata
namespace Automaton

variable {fa : Automaton} {i j : StateId} {c : Char}

/-! ### States that matter -/

/-- The state is reachable and recognises some word. -/
def Useful (fa : Automaton) (i : StateId) : Prop := fa.Leads fa.start i ∧ ∃ word, fa.RecognizesFrom i word

theorem mem_sourcesOf : i ∈ fa.sourcesOf j ↔ j ∈ fa.targets i := by
  rw [sourcesOf, List.mem_filter, List.contains_iff_mem, List.mem_range]
  exact ⟨And.right, fun h => ⟨lt_of_mem_targets h, h⟩⟩

theorem mem_acceptingStates : i ∈ fa.acceptingStates ↔ fa.accepting i = true := by
  rw [acceptingStates, StateSet.mem_ofList, List.mem_filter, List.mem_range]
  exact ⟨And.right, fun h => ⟨lt_of_accepting h, h⟩⟩

theorem mem_live : i ∈ fa.live ↔ ∃ j, fa.Leads i j ∧ fa.accepting j = true := by
  rw [live, StateSet.mem_reach]
  have sound : ∀ i ∈ explore fa.sourcesOf fa.size [] fa.acceptingStates.toList,
      ∃ j, fa.Leads i j ∧ fa.accepting j = true := by
    refine explore_induction ?_ ?_
    · rintro k ⟨j, lead, hj⟩ i hi
      exact ⟨j, (Leads.single (mem_sourcesOf.mp hi)).trans lead, hj⟩
    · intro j hj
      exact ⟨j, .refl j, mem_acceptingStates.mp (by simpa using hj)⟩
  constructor
  · exact sound i
  · rintro ⟨j, lead, hj⟩
    have closed : Closed fa.sourcesOf (explore fa.sourcesOf fa.size [] fa.acceptingStates.toList) := by
      refine closed_explore (List.range fa.size) (fun k hk => List.mem_range.mpr ?_) (by simp)
        (by simpa using StateSet.toList_nodup _) (by simp)
      obtain ⟨l, lead, hl⟩ := sound k hk
      exact lead.lt hl
    induction lead with
    | refl =>
      refine mem_explore_of_mem ?_
      simpa using mem_acceptingStates.mpr hj
    | step he target _ ih => exact closed _ (ih hj) _ (mem_sourcesOf.mpr (mem_targets.mpr ⟨_, he, target⟩))

theorem mem_live_iff_exists_recognizesFrom (wf : fa.WellFormed) : i ∈ fa.live ↔ ∃ word, fa.RecognizesFrom i word := by
  rw [mem_live]
  refine ⟨fun h => ?_, fun h => ?_⟩
  · rcases h with ⟨j, lead, hj⟩
    obtain ⟨word, path⟩ := lead.exists_path wf
    exact ⟨word, j, path, hj⟩
  · rcases h with ⟨word, j, path, hj⟩
    exact ⟨j, path.leads, hj⟩

theorem Deterministic.recognizesFrom_step (det : fa.Deterministic) {word : List Char} (hi : fa.Leads fa.start i)
    (step : fa.Step i (.char c) j) : fa.RecognizesFrom i (c :: word) ↔ fa.RecognizesFrom j word :=
  det.recognizesFrom_append (u := [c]) hi (.read step (.nil j))

end Automaton

namespace Partition

open Automaton

variable {p q : Partition} {fa : Automaton} {alphabet : List Char} {block rest : StateSet} {i j : StateId} {k : Nat}
  {c : Char}

/-! ### One split -/

theorem landing_eq_some_iff (det : fa.Deterministic) (hi : fa.Leads fa.start i) :
    p.landing fa c i = some k ↔ ∃ j, fa.Step i (.char c) j ∧ p.blockOf? j = some k := by
  have bind : p.landing fa c i = (fa.states[i]?.bind fun s => s.next? (.char c)).bind p.blockOf? := by
    rw [landing]
    cases fa.states[i]? <;> rfl
  rw [bind, Option.bind_eq_some_iff]
  simp only [next?_eq_some_iff (det.functional hi)]

/-- The dissenters part from one member that stays. -/
theorem mem_dissenters (p : Partition) (fa : Automaton) (c : Char) (h : ∃ i, i ∈ block) : ∃ first ∈ block,
    ∀ i, i ∈ p.dissenters fa block c ↔ i ∈ block ∧ p.landing fa c i ≠ p.landing fa c first := by
  rw [dissenters]
  cases members : block.toList with
  | nil =>
    obtain ⟨i, hi⟩ := h
    rw [← StateSet.mem_toList, members] at hi
    cases hi
  | cons first rest =>
    refine ⟨first, StateSet.mem_toList.mp (members ▸ List.mem_cons_self), fun i => ?_⟩
    rw [StateSet.mem_ofList, List.mem_filter, bne_iff_ne, ← StateSet.mem_toList, members, List.mem_cons]
    refine ⟨fun h => ⟨Or.inr h.1, h.2⟩, fun h => ?_⟩
    rcases h with ⟨rfl | hi, other⟩
    · exact absurd rfl other
    · exact ⟨hi, other⟩

/-- The loop splits the first block that can be split, on the first character that splits it. -/
theorem splits_of_refine? (h : p.refine? fa alphabet = some q) : p.Splits fa alphabet q := by
  obtain ⟨⟨k, rest⟩, hsplit, rfl⟩ := Option.map_eq_some_iff.mp h
  obtain ⟨⟨block, index⟩, hmem, hblock⟩ := List.exists_of_findSome?_eq_some hsplit
  obtain ⟨rest', hrest, heq⟩ := Option.map_eq_some_iff.mp hblock
  obtain ⟨rfl, rfl⟩ := Prod.mk.inj heq
  rw [blockSplit?] at hrest
  split at hrest
  · cases hrest
  · obtain ⟨c, hc, hrest⟩ := List.exists_of_findSome?_eq_some hrest
    dsimp only at hrest
    split at hrest
    · cases hrest
    · next members =>
      obtain rfl := Option.some.inj hrest
      refine ⟨index, block, c, ?_, hc, mt StateSet.isEmpty_iff.mpr members, rfl⟩
      have := List.mem_zipIdx_iff_getElem?.mp hmem
      simpa using this

theorem dissenters_of_refine?_eq_none (h : p.refine? fa alphabet = none) (hblock : p.blocks[k]? = some block)
    (hc : c ∈ alphabet) : p.dissenters fa block c = ∅ := by
  have hsplit := List.findSome?_eq_none_iff.mp (Option.map_eq_none_iff.mp h) (block, k)
    (List.mem_zipIdx_iff_getElem?.mpr (by simpa using hblock))
  have hsplit := Option.map_eq_none_iff.mp hsplit
  rw [blockSplit?] at hsplit
  split at hsplit
  · next few =>
    rw [dissenters]
    cases members : block.toList with
    | nil => rfl
    | cons first rest =>
      rw [StateSet.size, members, List.length_cons] at few
      have none : rest = [] := List.length_eq_zero_iff.mp (by omega)
      rw [none]
      rfl
  · have hrest := List.findSome?_eq_none_iff.mp hsplit c hc
    dsimp only at hrest
    split at hrest
    · next none => exact StateSet.isEmpty_iff.mp none
    · cases hrest

/-- The loop stops when there is nothing to split, whatever the order. -/
theorem settled_iff : p.Settled fa alphabet ↔ p.refine? fa alphabet = none := by
  refine ⟨fun settled => ?_, fun stop q splits => ?_⟩
  · exact Option.eq_none_iff_forall_ne_some.mpr fun q hq => settled q (splits_of_refine? hq)
  · obtain ⟨k, block, c, hblock, hc, part, -⟩ := splits
    exact part (dissenters_of_refine?_eq_none stop hblock hc)

theorem Settled.dissenters_eq (settled : p.Settled fa alphabet) (hblock : p.blocks[k]? = some block)
    (hc : c ∈ alphabet) : p.dissenters fa block c = ∅ := by
  by_contra part
  exact settled _ ⟨k, block, c, hblock, hc, part, rfl⟩

/-- A split moves the dissenters of a block on some character to a further block; a member stays. -/
theorem Sound.exists_splits {size : Nat} (h : p.Sound size) (hq : p.Splits fa alphabet q) :
    ∃ (k : Nat) (block : StateSet) (c : Char), p.blocks[k]? = some block ∧
      (∃ first ∈ block, ∀ i, i ∈ p.dissenters fa block c ↔ i ∈ block ∧ p.landing fa c i ≠ p.landing fa c first) ∧
      (∃ i, i ∈ p.dissenters fa block c) ∧ q = p.separate k (p.dissenters fa block c) ∧
      ∀ i, q.blockOf? i = if i ∈ p.dissenters fa block c then some p.blocks.size else p.blockOf? i := by
  obtain ⟨k, block, c, hblock, -, part, rfl⟩ := hq
  obtain ⟨first, hfirst, parted⟩ := mem_dissenters p fa c (h.nonempty hblock)
  have members : ∃ i, i ∈ p.dissenters fa block c := by
    by_contra none
    exact part (StateSet.ext fun i => by simpa using fun hi => none ⟨i, hi⟩)
  refine ⟨k, block, c, hblock, ⟨first, hfirst, parted⟩, members, rfl, ?_⟩
  exact blockOf?_separate fun i hi => h.owner.symm ▸ h.lt ((h.mem_iff hblock).mp ((parted i).mp hi).1)

/-- A split keeps the partition sound, covers the same states and adds a block, whatever the steps are. -/
theorem Sound.splits {size : Nat} (h : p.Sound size) (hq : p.Splits fa alphabet q) : q.Sound size ∧
    (∀ i, (∃ k, q.blockOf? i = some k) ↔ ∃ k, p.blockOf? i = some k) ∧ q.blocks.size = p.blocks.size + 1 := by
  obtain ⟨k, block, c, hblock, ⟨first, hfirst, parted⟩, part, rfl, lookup⟩ := h.exists_splits hq
  refine ⟨?_, fun i => ?_, ?_⟩
  · exact h.separate hblock (fun i hi => ((parted i).mp hi).1) part
      ⟨first, hfirst, fun hmem => ((parted first).mp hmem).2 rfl⟩
  · rw [lookup]
    by_cases hi : i ∈ p.dissenters fa block c
    · simp [hi, (h.mem_iff hblock).mp ((parted i).mp hi).1]
    · simp [hi]
  · rw [blocks_separate part, Array.size_push, Array.size_modify]

/-- States that share a block after a split shared one before. -/
theorem Sound.mates_of_splits {size : Nat} (h : p.Sound size) (hq : p.Splits fa alphabet q)
    (hi : q.blockOf? i = some k) (hj : q.blockOf? j = some k) : ∃ l, p.blockOf? i = some l ∧ p.blockOf? j = some l := by
  obtain ⟨l, block, c, hblock, ⟨first, -, parted⟩, -, -, lookup⟩ := h.exists_splits hq
  have inside : ∀ {i}, i ∈ p.dissenters fa block c → p.blockOf? i = some l := fun hi =>
    (h.mem_iff hblock).mp ((parted _).mp hi).1
  obtain ⟨hi, hj⟩ | mates := h.mates_of_further lookup hi hj
  · exact ⟨l, inside hi, inside hj⟩
  · exact ⟨k, mates⟩

/-- As many splits as there are states in the blocks suffice. -/
theorem Sound.stabilize {size : Nat} {l : List StateId} (h : p.Sound size) (fa : Automaton) (alphabet : List Char)
    (all : ∀ {i k}, p.blockOf? i = some k → i ∈ l) {n : Nat} (enough : l.length < p.blocks.size + n) :
    (stabilize fa alphabet n p).Sound size ∧
    (∀ i, (∃ k, (stabilize fa alphabet n p).blockOf? i = some k) ↔ ∃ k, p.blockOf? i = some k) ∧
    (stabilize fa alphabet n p).refine? fa alphabet = none := by
  induction n generalizing p with
  | zero => exact absurd (h.blocks_le_length all) (Nat.not_le.mpr enough)
  | succ n ih =>
    rw [Partition.stabilize]
    cases hq : p.refine? fa alphabet with
    | none => exact ⟨h, fun _ => Iff.rfl, hq⟩
    | some q =>
      obtain ⟨h', covered, more⟩ := h.splits (splits_of_refine? hq)
      have all' : ∀ {i k}, q.blockOf? i = some k → i ∈ l := fun hi => by
        obtain ⟨k, hk⟩ := (covered _).mp ⟨_, hi⟩
        exact all hk
      obtain ⟨sound, covered', stable⟩ := ih h' all' (by omega)
      exact ⟨sound, fun i => (covered' i).trans (covered i), stable⟩

theorem stabilize_of_refine?_eq_none {n : Nat} (h : p.refine? fa alphabet = none) : stabilize fa alphabet n p = p := by
  cases n with
  | zero => rfl
  | succ n => rw [stabilize, h]

/-- Nothing changes once there is nothing to split. -/
theorem stabilize_add {n : Nat} (stop : (stabilize fa alphabet n p).refine? fa alphabet = none) (m : Nat) :
    stabilize fa alphabet (n + m) p = stabilize fa alphabet n p := by
  induction n generalizing p with
  | zero => exact stabilize_of_refine?_eq_none stop
  | succ n ih =>
    rw [Nat.add_right_comm]
    rw [stabilize] at stop ⊢
    cases split : p.refine? fa alphabet with
    | none => rw [stabilize, split]
    | some q =>
      rw [split] at stop
      rw [stabilize, split]
      exact ih stop

/-! ### The invariant -/

/-- The blocks hold the states that matter. Those of a block agree on acceptance, and states that recognise the
    same words share a block. -/
structure Coarse (p : Partition) (fa : Automaton) : Prop where
  sound : p.Sound fa.size
  covers : ∀ {i}, (∃ k, p.blockOf? i = some k) ↔ fa.Useful i
  accepting : ∀ {i j k}, p.blockOf? i = some k → p.blockOf? j = some k → fa.accepting i = fa.accepting j
  together : ∀ {i j}, fa.Useful i → fa.Useful j → (∀ word, fa.RecognizesFrom i word ↔ fa.RecognizesFrom j word) →
    p.blockOf? i = p.blockOf? j

/-- States that recognise the same words are led to the same block. -/
theorem Coarse.landing_eq (h : p.Coarse fa) (det : fa.Deterministic) (hi : fa.Useful i) (hj : fa.Useful j)
    (same : ∀ word, fa.RecognizesFrom i word ↔ fa.RecognizesFrom j word) : p.landing fa c i = p.landing fa c j := by
  have follow : ∀ {i j k}, fa.Useful i → fa.Useful j → (∀ word, fa.RecognizesFrom i word ↔ fa.RecognizesFrom j word) →
      p.landing fa c i = some k → p.landing fa c j = some k := by
    intro i j k hi hj same hland
    obtain ⟨s, step, hs⟩ := (landing_eq_some_iff det hi.1).mp hland
    obtain ⟨-, word, recognizes⟩ := h.covers.mp ⟨k, hs⟩
    have recognizes' := (same (c :: word)).mp ((det.recognizesFrom_step hi.1 step).mpr recognizes)
    obtain ⟨t, step', ht⟩ := (det.recognizesFrom_cons hj.1).mp recognizes'
    refine (landing_eq_some_iff det hj.1).mpr ⟨t, step', ?_⟩
    rw [← hs]
    refine h.together ⟨hj.1.trans step'.leads, word, ht⟩ ⟨hi.1.trans step.leads, word, recognizes⟩ fun word => ?_
    rw [← det.recognizesFrom_step hj.1 step', ← det.recognizesFrom_step hi.1 step, same]
  ext k
  exact ⟨follow hi hj same, follow hj hi fun word => (same word).symm⟩

/-- No split parts states that recognise the same words. -/
theorem Coarse.splits (h : p.Coarse fa) (det : fa.Deterministic) (hq : p.Splits fa alphabet q) : q.Coarse fa := by
  obtain ⟨sound, covered, -⟩ := h.sound.splits hq
  obtain ⟨k, block, c, hblock, ⟨first, -, parted⟩, -, -, lookup⟩ := h.sound.exists_splits hq
  refine ⟨sound, (covered _).trans h.covers, fun hi hj => ?_, ?_⟩
  · obtain ⟨l, hi, hj⟩ := h.sound.mates_of_splits hq hi hj
    exact h.accepting hi hj
  · intro i j hi hj same
    have mates := h.together hi hj same
    have both : i ∈ p.dissenters fa block c ↔ j ∈ p.dissenters fa block c := by
      rw [parted, parted, h.sound.mem_iff hblock, h.sound.mem_iff hblock, mates, h.landing_eq det hi hj same]
    rw [lookup, lookup, mates]
    simp only [both]

theorem Coarse.stabilize (h : p.Coarse fa) (det : fa.Deterministic) (alphabet : List Char) (n : Nat) :
    (stabilize fa alphabet n p).Coarse fa := by
  induction n generalizing p with
  | zero => exact h
  | succ n ih =>
    rw [Partition.stabilize]
    cases hq : p.refine? fa alphabet with
    | none => exact h
    | some q => exact ih (h.splits det (splits_of_refine? hq))

section Stable
variable (h : p.Coarse fa) (det : fa.Deterministic) (settled : p.Settled fa alphabet)
  (reads : ∀ {i j c}, fa.Leads fa.start i → fa.Step i (.char c) j → c ∈ alphabet)
include h det settled reads

/-- Once no character splits a block its members are led to the same block. -/
theorem Coarse.landing_eq_of_settled (hi : p.blockOf? i = some k) (hj : p.blockOf? j = some k) :
    p.landing fa c i = p.landing fa c j := by
  by_cases hc : c ∈ alphabet
  · obtain ⟨block, hblock, hmem⟩ := h.sound.held.mp hi
    obtain ⟨first, -, parted⟩ := mem_dissenters p fa c ⟨i, hmem⟩
    have like : ∀ l ∈ block, p.landing fa c l = p.landing fa c first := fun l hl => by
      by_contra hne
      have := (parted l).mpr ⟨hl, hne⟩
      rw [settled.dissenters_eq hblock hc] at this
      exact StateSet.not_mem_empty l this
    rw [like i hmem, like j ((h.sound.mem_iff hblock).mpr hj)]
  · have none : ∀ {i k}, p.blockOf? i = some k → p.landing fa c i = Option.none := by
      intro i k hi
      refine Option.eq_none_iff_forall_ne_some.mpr fun l hl => hc ?_
      have lead := (h.covers.mp ⟨k, hi⟩).1
      obtain ⟨j, step, -⟩ := (landing_eq_some_iff det lead).mp hl
      exact reads lead step
    rw [none hi, none hj]

/-- So they recognise the same words. -/
theorem Coarse.recognizesFrom_iff (hi : p.blockOf? i = some k) (hj : p.blockOf? j = some k) (word : List Char) :
    fa.RecognizesFrom i word ↔ fa.RecognizesFrom j word := by
  -- A step to a state that matters is matched by one to the same block, where the rest is recognised alike.
  have follow : ∀ {word i j k}, p.blockOf? i = some k → p.blockOf? j = some k →
      fa.RecognizesFrom i word → fa.RecognizesFrom j word := by
    intro word
    induction word with
    | nil =>
      intro i j k hi hj recognizes
      have leadi := (h.covers.mp ⟨k, hi⟩).1
      have leadj := (h.covers.mp ⟨k, hj⟩).1
      rw [det.recognizesFrom_nil leadj, ← h.accepting hi hj]
      exact (det.recognizesFrom_nil leadi).mp recognizes
    | cons c word ih =>
      intro i j k hi hj recognizes
      have leadi := (h.covers.mp ⟨k, hi⟩).1
      have leadj := (h.covers.mp ⟨k, hj⟩).1
      obtain ⟨s, step, rest⟩ := (det.recognizesFrom_cons leadi).mp recognizes
      obtain ⟨l, hl⟩ := h.covers.mpr ⟨leadi.trans step.leads, word, rest⟩
      have landed := (landing_eq_some_iff det leadi).mpr ⟨s, step, hl⟩
      rw [h.landing_eq_of_settled det settled reads hi hj] at landed
      obtain ⟨t, step', ht⟩ := (landing_eq_some_iff det leadj).mp landed
      exact (det.recognizesFrom_step leadj step').mpr (ih hl ht rest)
  exact ⟨follow hi hj, follow hj hi⟩

end Stable

/-! ### The partition that refinement begins with -/

/-- The states that matter and do not accept. -/
def rejecting (fa : Automaton) : StateSet :=
  StateSet.ofList (fa.seen.states.filter fun id => id ∈ fa.live) \ fa.seen.accepting

theorem mem_rejecting (wf : fa.WellFormed) (complete : fa.CompleteFrom fa.start) :
    i ∈ rejecting fa ↔ fa.Useful i ∧ fa.accepting i = false := by
  rw [rejecting, StateSet.mem_diff, StateSet.mem_ofList, List.mem_filter, decide_eq_true_eq, mem_seen complete,
    mem_live_iff_exists_recognizesFrom wf, mem_seen_accepting complete, Useful]
  refine ⟨fun h => ?_, fun h => ?_⟩
  · rcases h with ⟨⟨lead, recognizes⟩, outside⟩
    exact ⟨⟨lead, recognizes⟩, Bool.eq_false_iff.mpr fun hi => outside ⟨lead, hi⟩⟩
  · rcases h with ⟨useful, hi⟩
    exact ⟨useful, fun inside => Bool.eq_false_iff.mp hi inside.2⟩

theorem mem_seen_accepting_iff_useful (complete : fa.CompleteFrom fa.start) :
    i ∈ fa.seen.accepting ↔ fa.Useful i ∧ fa.accepting i = true := by
  rw [mem_seen_accepting complete]
  refine ⟨fun h => ?_, fun h => ?_⟩
  · rcases h with ⟨lead, hi⟩
    exact ⟨⟨lead, [], i, .nil i, hi⟩, hi⟩
  · rcases h with ⟨useful, hi⟩
    exact ⟨useful.1, hi⟩

/-- The two blocks that refinement begins with when some word is recognised. -/
def halves (fa : Automaton) : Partition := ((blank fa.size).push fa.seen.accepting).push (rejecting fa)

theorem initial_eq (h : fa.start ∈ fa.live) : initial fa fa.seen = halves fa := if_pos h

section Initial
variable (wf : fa.WellFormed) (complete : fa.CompleteFrom fa.start)
include wf complete

theorem lt_of_mem_rejecting : ∀ i ∈ rejecting fa, i < fa.size := fun i hi =>
  complete i ((mem_rejecting wf complete).mp hi).1.1

omit wf in
theorem lt_of_mem_accepting : ∀ i ∈ fa.seen.accepting, i < fa.size := fun i hi =>
  complete i ((mem_seen_accepting complete).mp hi).1

omit wf in
theorem blockOf?_first (i : StateId) : ((blank fa.size).push fa.seen.accepting).blockOf? i =
    if i ∈ fa.seen.accepting then some 0 else none := by
  have size : (blank fa.size).owner.size = fa.size := Array.size_replicate
  rw [blockOf?_push fun i hi => size.symm ▸ lt_of_mem_accepting complete i hi, blockOf?_blank]
  rfl

theorem blockOf?_halves (i : StateId) : (halves fa).blockOf? i =
    if i ∈ rejecting fa then some ((blank fa.size).push fa.seen.accepting).blocks.size
    else if i ∈ fa.seen.accepting then some 0 else none := by
  have size : ((blank fa.size).push fa.seen.accepting).owner.size = fa.size :=
    owner_size_push.trans Array.size_replicate
  rw [halves, blockOf?_push fun i hi => size.symm ▸ lt_of_mem_rejecting wf complete i hi, blockOf?_first complete]

theorem sound_halves : (halves fa).Sound fa.size := by
  refine ((sound_blank fa.size).push (lt_of_mem_accepting complete) fun i _ => blockOf?_blank fa.size i).push
    (lt_of_mem_rejecting wf complete) fun i hi => ?_
  rw [blockOf?_first complete, if_neg fun ha => ?_]
  have hi := ((mem_rejecting wf complete).mp hi).2
  rw [((mem_seen_accepting_iff_useful complete).mp ha).2] at hi
  cases hi

theorem blockOf?_of_accepting (hi : fa.Useful i) (accepting : fa.accepting i = true) :
    (halves fa).blockOf? i = some 0 := by
  have outside : i ∉ rejecting fa := fun hr => by
    rw [((mem_rejecting wf complete).mp hr).2] at accepting
    cases accepting
  rw [blockOf?_halves wf complete, if_neg outside,
    if_pos ((mem_seen_accepting_iff_useful complete).mpr ⟨hi, accepting⟩)]

theorem blockOf?_of_not_accepting (hi : fa.Useful i) (accepting : fa.accepting i = false) :
    (halves fa).blockOf? i = some 1 := by
  obtain ⟨lead, word, j, path, hj⟩ := hi
  have members : ∃ j, j ∈ fa.seen.accepting := ⟨j, (mem_seen_accepting complete).mpr ⟨lead.trans path.leads, hj⟩⟩
  rw [blockOf?_halves wf complete, if_pos ((mem_rejecting wf complete).mpr ⟨⟨lead, word, j, path, hj⟩, accepting⟩),
    blocks_push members]
  rfl

theorem exists_blockOf?_halves : (∃ k, (halves fa).blockOf? i = some k) ↔ fa.Useful i := by
  refine ⟨fun h => ?_, fun hi => ?_⟩
  · rcases h with ⟨k, hk⟩
    rw [blockOf?_halves wf complete] at hk
    split at hk
    · next hr => exact ((mem_rejecting wf complete).mp hr).1
    · split at hk
      · next ha => exact ((mem_seen_accepting_iff_useful complete).mp ha).1
      · cases hk
  · cases hc : fa.accepting i with
    | true => exact ⟨0, blockOf?_of_accepting wf complete hi hc⟩
    | false => exact ⟨1, blockOf?_of_not_accepting wf complete hi hc⟩

theorem coarse_halves (det : fa.Deterministic) : (halves fa).Coarse fa where
  sound := sound_halves wf complete
  covers := exists_blockOf?_halves wf complete
  accepting := by
    have place : ∀ {i k}, (halves fa).blockOf? i = some k → (fa.accepting i = true ↔ k = 0) := by
      intro i k hk
      have hi := (exists_blockOf?_halves wf complete).mp ⟨k, hk⟩
      cases hc : fa.accepting i with
      | true => simpa using Option.some.inj (hk.symm.trans (blockOf?_of_accepting wf complete hi hc))
      | false => simp [Option.some.inj (hk.symm.trans (blockOf?_of_not_accepting wf complete hi hc))]
    intro i j k hi hj
    rw [Bool.eq_iff_iff, place hi, place hj]
  together := by
    intro i j hi hj same
    have agree : fa.accepting i = fa.accepting j := by
      rw [Bool.eq_iff_iff, ← det.recognizesFrom_nil hi.1, ← det.recognizesFrom_nil hj.1, same]
    cases hc : fa.accepting i with
    | true =>
      rw [blockOf?_of_accepting wf complete hi hc, blockOf?_of_accepting wf complete hj (agree ▸ hc)]
    | false =>
      rw [blockOf?_of_not_accepting wf complete hi hc, blockOf?_of_not_accepting wf complete hj (agree ▸ hc)]

/-! ### The partition that refinement ends with -/

/-- The blocks are the classes of the states that matter by the words they recognise. -/
structure Exact (p : Partition) (fa : Automaton) : Prop extends Coarse p fa where
  alike : ∀ {i j k}, p.blockOf? i = some k → p.blockOf? j = some k →
    ∀ word, fa.RecognizesFrom i word ↔ fa.RecognizesFrom j word

omit wf in
theorem Coarse.exact (h : p.Coarse fa) (det : fa.Deterministic) (settled : p.Settled fa fa.seen.alphabet.chars) :
    p.Exact fa := by
  refine ⟨h, h.recognizesFrom_iff det settled fun lead step => ?_⟩
  exact Label.mem_chars.mpr ((mem_seen_alphabet complete).mpr ⟨_, _, lead, step⟩)

/-- When some word is recognised, refinement of a deterministic automaton finds these classes. -/
theorem exact_stablePartition (det : fa.Deterministic) (h : ∃ word, fa.Recognizes word) :
    (fa.stablePartition fa.seen).Exact fa := by
  have coarse := coarse_halves wf complete det
  have some_block : 0 < (halves fa).blocks.size := by
    obtain ⟨k, hk⟩ := coarse.covers.mpr ⟨.refl fa.start, h⟩
    exact Nat.zero_lt_of_lt (coarse.sound.lt_blocks hk)
  obtain ⟨-, -, stable⟩ := coarse.sound.stabilize fa fa.seen.alphabet.chars (l := List.range fa.size)
    (fun hi => List.mem_range.mpr (coarse.sound.lt hi)) (by rw [List.length_range]; exact Nat.lt_add_of_pos_left some_block)
  rw [stablePartition, initial_eq ((mem_live_iff_exists_recognizesFrom wf).mpr h)]
  exact (coarse.stabilize det _ _).exact complete det (settled_iff.mpr stable)

end Initial

end Partition
end FiniteAutomata
