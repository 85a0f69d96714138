import FiniteAutomata.Proofs.Pairing

/-! The comparison up to renaming as an equivalence relation. It succeeds exactly when as many states are reached on both
    sides and some relation takes start to start, is one to one, keeps acceptance and symbols, and goes along the last
    target of each symbol: the forced pairs are such a relation, and they are part of any other. Equality is one, and so
    are the converse and the composition of such relations. None of this asks for determinism: of several targets on a
    symbol only the last counts, the others only among what is reached. -/

namespace FiniteAutomata
namespace Automaton

variable {fa fb fc : Automaton} {R S : StateId → StateId → Prop} {n : Nat}

/-! ### Correspondences -/

/-- A relation between states that the comparison can go along from the starts. -/
structure Correspondence (fa fb : Automaton) (R : StateId → StateId → Prop) : Prop where
  start : R fa.start fb.start
  unique : Relator.BiUnique R
  accepting : ∀ {i j}, R i j → fa.accepting i = fb.accepting j
  symbols : ∀ {i j}, R i j → ∀ a, (∃ k, fa.Step i a k) ↔ ∃ l, fb.Step j a l
  last : ∀ {i j a k l}, R i j → fa.lastTarget? i a = some k → fb.lastTarget? j a = some l → R k l

theorem Correspondence.refl (fa : Automaton) : fa.Correspondence fa Eq where
  start := rfl
  unique := ⟨fun _ _ _ h h' => h.trans h'.symm, fun _ _ _ h h' => h.symm.trans h'⟩
  accepting h := by rw [h]
  symbols h a := by rw [h]
  last h first second := by
    subst h
    exact Option.some.inj (first.symm.trans second)

theorem Correspondence.symm (h : fa.Correspondence fb R) : fb.Correspondence fa (flip R) where
  start := h.start
  unique := ⟨fun _ _ _ hi hj => h.unique.2 hi hj, fun _ _ _ hi hj => h.unique.1 hi hj⟩
  accepting hij := (h.accepting hij).symm
  symbols hij a := (h.symbols hij a).symm
  last hij first second := h.last hij second first

theorem Correspondence.trans (h : fa.Correspondence fb R) (g : fb.Correspondence fc S) :
    fa.Correspondence fc (Relation.Comp R S) where
  start := ⟨fb.start, h.start, g.start⟩
  unique := by
    constructor
    · rintro i k j ⟨m, him, hmk⟩ ⟨m', hjm, hmk'⟩
      obtain rfl := g.unique.1 hmk hmk'
      exact h.unique.1 him hjm
    · rintro i j k ⟨m, him, hmj⟩ ⟨m', him', hmk⟩
      obtain rfl := h.unique.2 him him'
      exact g.unique.2 hmj hmk
  accepting := by
    rintro i k ⟨m, him, hmk⟩
    exact (h.accepting him).trans (g.accepting hmk)
  symbols := by
    rintro i k ⟨m, him, hmk⟩ a
    exact (h.symbols him a).trans (g.symbols hmk a)
  last := by
    rintro i k a i' k' ⟨m, him, hmk⟩ first second
    -- The state between has a last target too, as it reads the same symbols.
    obtain ⟨m', between⟩ := exists_lastTarget?_iff.mpr ((h.symbols him a).mp ⟨i', step_of_lastTarget? first⟩)
    exact ⟨m', h.last him first between, g.last hmk between second⟩

/-- Whatever is forced is related. -/
theorem Correspondence.of_mem_forcedPairs (h : fa.Correspondence fb R) : ∀ p ∈ fa.forcedPairs fb n, R p.1 p.2 := by
  refine explore_induction (fun p hp q hq => ?_) fun p hp => ?_
  · obtain ⟨-, a, first, second⟩ := mem_forcedBy.mp hq
    exact h.last hp first second
  · obtain rfl := List.mem_singleton.mp hp
    exact h.start

/-- The forced pairs are a correspondence, if the comparison has nothing against them. -/
theorem correspondence_forcedPairs (complete : fa.CompleteFrom fa.start)
    (compatible : ∀ p ∈ fa.forcedPairs fb fa.seen.states.length, fa.compatible fb p = true)
    (unique : OneToOne (fa.forcedPairs fb fa.seen.states.length)) :
    fa.Correspondence fb fun i j => (i, j) ∈ fa.forcedPairs fb fa.seen.states.length where
  start := start_mem_forcedPairs fa fb _
  unique := ⟨fun _ _ _ hi hj => (unique _ hi _ hj).mpr rfl, fun _ _ _ hi hj => (unique _ hi _ hj).mp rfl⟩
  accepting hij := (compatible_iff.mp (compatible _ hij)).1
  symbols hij := (compatible_iff.mp (compatible _ hij)).2
  last hij first second :=
    closed_forcedPairs complete (Nat.le_refl _) unique _ hij _ (mem_forcedBy.mpr ⟨compatible _ hij, _, first, second⟩)

/-! ### The comparison -/

/-- Neither has states, or as many are reached and there is a correspondence. -/
structure Similar (fa fb : Automaton) : Prop where
  empty : fa.isEmpty = fb.isEmpty
  reached : fa.isEmpty = false → fa.seen.states.length = fb.seen.states.length
  related : fa.isEmpty = false → ∃ R, fa.Correspondence fb R

theorem Similar.refl (fa : Automaton) : fa.Similar fa := ⟨rfl, fun _ => rfl, fun _ => ⟨Eq, .refl fa⟩⟩

theorem Similar.symm (h : fa.Similar fb) : fb.Similar fa where
  empty := h.empty.symm
  reached nonempty := (h.reached (h.empty.trans nonempty)).symm
  related nonempty := by
    obtain ⟨R, corresponds⟩ := h.related (h.empty.trans nonempty)
    exact ⟨flip R, corresponds.symm⟩

theorem Similar.trans (h : fa.Similar fb) (g : fb.Similar fc) : fa.Similar fc where
  empty := h.empty.trans g.empty
  reached nonempty := (h.reached nonempty).trans (g.reached (h.empty.symm.trans nonempty))
  related nonempty := by
    obtain ⟨R, first⟩ := h.related nonempty
    obtain ⟨S, second⟩ := g.related (h.empty.symm.trans nonempty)
    exact ⟨Relation.Comp R S, first.trans second⟩

/-- Where there are states, it is the forced pairs that decide. -/
theorem similar_iff (complete : fa.CompleteFrom fa.start) (complete' : fb.CompleteFrom fb.start) :
    fa.Similar fb ↔ fa.seen.states.length = fb.seen.states.length ∧
      (∀ p ∈ fa.forcedPairs fb fa.seen.states.length, fa.compatible fb p = true) ∧
      OneToOne (fa.forcedPairs fb fa.seen.states.length) := by
  have nonempty := isEmpty_eq_false complete.lt
  refine ⟨fun h => ?_, fun given => ?_⟩
  · obtain ⟨R, corresponds⟩ := h.related nonempty
    have related : ∀ p ∈ fa.forcedPairs fb fa.seen.states.length, R p.1 p.2 := corresponds.of_mem_forcedPairs
    refine ⟨h.reached nonempty, fun p hp => ?_, fun p hp q hq => ?_⟩
    · exact compatible_iff.mpr ⟨corresponds.accepting (related p hp), corresponds.symbols (related p hp)⟩
    · exact Relator.rel_eq corresponds.unique (related p hp) (related q hq)
  · obtain ⟨lengths, compatible, unique⟩ := given
    exact ⟨nonempty.trans (isEmpty_eq_false complete'.lt).symm, fun _ => lengths,
      fun _ => ⟨_, correspondence_forcedPairs complete compatible unique⟩⟩

theorem exists_isomorphic_iff_similar (ha : fa.Complete) (hb : fb.Complete) :
    ∃ same, fa.isomorphic fb = .ok same ∧ (same = true ↔ fa.Similar fb) := by
  cases emptyA : fa.isEmpty with
  | true =>
    refine ⟨fb.isEmpty, by rw [isomorphic, emptyA]; rfl, fun emptyB => ?_, fun h => h.empty.symm.trans emptyA⟩
    have none : ¬fa.isEmpty = false := fun nonempty => Bool.false_ne_true (nonempty.symm.trans emptyA)
    exact ⟨emptyA.trans emptyB.symm, fun nonempty => absurd nonempty none, fun nonempty => absurd nonempty none⟩
  | false =>
    cases emptyB : fb.isEmpty with
    | true =>
      refine ⟨false, by rw [isomorphic, emptyA, emptyB]; rfl, iff_of_false Bool.false_ne_true fun h => ?_⟩
      exact Bool.false_ne_true (emptyA.symm.trans (h.empty.trans emptyB))
    | false =>
      have complete := ha.completeFrom emptyA
      have complete' := hb.completeFrom emptyB
      obtain ⟨same, answer, iff⟩ := isomorphic_eq complete complete'
      exact ⟨same, answer, iff.trans (similar_iff complete complete').symm⟩

/-- With as many rounds as there are states to reach the loop over pairs comes to the same answer. -/
theorem exists_build_eq (ha : fa.Complete) (hb : fb.Complete) {v : Walk} (view : fa.view = .ok v)
    (enough : v.states.length ≤ n) :
    ∃ outcome, Pairing.build fa fb n = .ok outcome ∧ fa.isomorphic fb = .ok outcome.isSome := by
  by_cases empty : (fa.isEmpty || fb.isEmpty) = true
  · refine ⟨_, if_pos empty, (if_pos empty).trans ?_⟩
    cases fa.isEmpty && fb.isEmpty <;> rfl
  · obtain ⟨emptyA, emptyB⟩ := Bool.or_eq_false_iff.mp (Bool.eq_false_iff.mpr empty)
    have complete := ha.completeFrom emptyA
    obtain rfl := Except.ok.inj (view.symm.trans (view_eq complete))
    obtain ⟨outcome, ran, answer, -⟩ := Pairing.build_spec complete (hb.completeFrom emptyB) enough
    exact ⟨outcome, ran, answer⟩

/-- The comparison is an equivalence relation on all automata whose edges lead to states, deterministic or not. It always
    answers, both ways round alike, and the loop over pairs gives the same answer. -/
theorem isomorphic_equivalence :
    Equivalence (fun fa fb : {fa : Automaton // fa.Usable} => fa.val.isomorphic fb.val = .ok true) ∧
    ∀ fa fb : Automaton, fa.Usable → fb.Usable → ∃ v same, fa.view = .ok v ∧ fa.isomorphic fb = .ok same ∧
      fb.isomorphic fa = .ok same ∧ ∀ n, v.states.length ≤ n → ∃ outcome, Pairing.build fa fb n = .ok outcome ∧
        outcome.isSome = same := by
  have similar : ∀ fa fb : {fa : Automaton // fa.Usable}, fa.val.isomorphic fb.val = .ok true ↔ fa.val.Similar fb.val := by
    intro fa fb
    obtain ⟨same, answer, iff⟩ := exists_isomorphic_iff_similar fa.property.complete fb.property.complete
    rw [answer, Except.ok.injEq, iff]
  refine ⟨⟨fun fa => ?_, fun {fa fb} h => ?_, fun {fa fb fc} h g => ?_⟩, fun fa fb usable usable' => ?_⟩
  · exact (similar fa fa).mpr (.refl fa.val)
  · exact (similar fb fa).mpr ((similar fa fb).mp h).symm
  · exact (similar fa fc).mpr (((similar fa fb).mp h).trans ((similar fb fc).mp g))
  · have complete := usable.complete
    have complete' := usable'.complete
    obtain ⟨v, -, view, -⟩ := Checked.exists_view complete
    obtain ⟨same, answer, iff⟩ := exists_isomorphic_iff_similar complete complete'
    obtain ⟨same', answer', iff'⟩ := exists_isomorphic_iff_similar complete' complete
    have symmetric : same' = same :=
      Bool.eq_iff_iff.mpr (iff'.trans (Iff.trans ⟨Similar.symm, Similar.symm⟩ iff.symm))
    refine ⟨v, same, view, answer, symmetric ▸ answer', fun n enough => ?_⟩
    obtain ⟨outcome, ran, answer''⟩ := exists_build_eq complete complete' view enough
    exact ⟨outcome, ran, Except.ok.inj (answer''.symm.trans answer)⟩

/-- Two ways to read one character, the later of which counts, and an empty step. -/
def forked : {fa : Automaton // fa.Usable} where
  val := assembled [(.nfa, false), (.nfa, true), (.nfa, false)]
    [⟨0, 2, .char 'a'⟩, ⟨0, 1, .char 'a'⟩, ⟨1, 0, .epsilon⟩, ⟨2, 2, .char 'b'⟩] 0
  property := ⟨wellFormed_assembled (by decide) (Or.inl (by decide)), inRange_assembled (by decide)⟩

/-- The same, but for the state that counts only as one that is reached. -/
def forkedAside : {fa : Automaton // fa.Usable} where
  val := assembled [(.nfa, true), (.nfa, false), (.nfa, false)]
    [⟨2, 1, .char 'a'⟩, ⟨2, 0, .char 'a'⟩, ⟨0, 2, .epsilon⟩, ⟨1, 0, .char 'c'⟩] 2
  property := ⟨wellFormed_assembled (by decide) (Or.inl (by decide)), inRange_assembled (by decide)⟩

/-- The same again, with the two in the first order and another state reached from the later one. -/
def forkedAnew : {fa : Automaton // fa.Usable} where
  val := assembled [(.nfa, false), (.nfa, true), (.nfa, true)]
    [⟨0, 2, .char 'a'⟩, ⟨0, 1, .char 'a'⟩, ⟨1, 2, .epsilon⟩, ⟨1, 0, .epsilon⟩] 0
  property := ⟨wellFormed_assembled (by decide) (Or.inl (by decide)), inRange_assembled (by decide)⟩

theorem isomorphic_forked : forked.val.isomorphic forkedAside.val = .ok true ∧
    forkedAside.val.isomorphic forked.val = .ok true ∧ forkedAside.val.isomorphic forkedAnew.val = .ok true ∧
    forked.val.isomorphic forkedAnew.val = .ok true ∧
    ∃ outcome, Pairing.build forked.val forkedAnew.val 3 = .ok outcome ∧ outcome.isSome = true := by
  have first : forked.val.isomorphic forkedAside.val = .ok true := by decide +kernel
  have second : forkedAside.val.isomorphic forkedAnew.val = .ok true := by decide +kernel
  obtain ⟨equivalence, answers⟩ := isomorphic_equivalence
  have third : forked.val.isomorphic forkedAnew.val = .ok true := equivalence.trans first second
  obtain ⟨v, same, view, answer, -, loop⟩ := answers forked.val forkedAnew.val forked.property forkedAnew.property
  obtain rfl := Except.ok.inj (answer.symm.trans third)
  have few : forked.val.view.map (fun v => v.states.length) = .ok 3 := by decide +kernel
  rw [view] at few
  exact ⟨first, equivalence.symm first, second, third, loop 3 (Nat.le_of_eq (Except.ok.inj few))⟩

end Automaton
end FiniteAutomata
