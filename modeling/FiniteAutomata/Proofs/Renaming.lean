import FiniteAutomata.Proofs.Isomorphism
import Mathlib.Data.Set.Function

/-! Equality up to renaming. Two deterministic automata are the same up to the names of their states when a bijection
    between the reachable ones keeps the start, acceptance and steps. No other map than the one that goes along the forced
    pairs can do so, and this one does as soon as the pairs are compatible and one to one: they are then closed under the
    steps of both sides. There are not more of them than reachable states in this case, so the comparison sees them all. -/

namespace FiniteAutomata
namespace Automaton

/-- A bijection between the reachable states that keeps the start, acceptance and the steps. -/
structure Isomorphism (fa fb : Automaton) (f : StateId → StateId) : Prop where
  start : f fa.start = fb.start
  bijOn : Set.BijOn f {i | fa.Reachable i} {j | fb.Reachable j}
  accepting : ∀ {i}, fa.Reachable i → fa.accepting i = fb.accepting (f i)
  step : ∀ {i j}, fa.Reachable i → fa.Reachable j → ∀ c : Char, fa.Step i (.char c) j ↔ fb.Step (f i) (.char c) (f j)

/-- A deterministic automaton with a start. -/
structure Comparable (fa : Automaton) : Prop where
  wellFormed : fa.WellFormed
  nonempty : fa.isEmpty = false
  deterministic : fa.isDeterministic = .ok true

/-- The same is reached from the same start, with the same steps. -/
structure SameReached (fa fa' : Automaton) : Prop where
  start : fa.start = fa'.start
  accepting : ∀ i, fa.Reachable i → fa.accepting i = fa'.accepting i
  step : ∀ i, fa.Reachable i → ∀ a j, fa.Step i a j ↔ fa'.Step i a j

variable {fa fb fa' : Automaton} {i j k l : StateId} {a : Symbol} {n : Nat} {f : StateId → StateId}

theorem Comparable.start_lt (h : fa.Comparable) : fa.start < fa.size := by
  refine h.wellFormed.start.resolve_right fun none => ?_
  rw [h.nonempty] at none
  cases none.1

theorem Comparable.spec (h : fa.Comparable) : fa.CompleteFrom fa.start ∧ fa.Deterministic :=
  Deterministic.of_isDeterministic h.start_lt h.deterministic

/-! ### What is reached -/

theorem Reachable.step (h : fa.Reachable i) (step : fa.Step i a j) : fa.Reachable j := ⟨h.1, h.2.trans step.leads⟩

/-- Whatever holds of the start and goes along steps holds of all that is reached. -/
theorem WellFormed.reachable_induction (wf : fa.WellFormed) {P : StateId → Prop} (start : P fa.start)
    (kept : ∀ i a j, fa.Reachable i → P i → fa.Step i a j → P j) (h : fa.Reachable i) : P i := by
  obtain ⟨hstart, lead⟩ := h
  have along : ∀ {i j}, fa.Leads i j → fa.Reachable i → P i → P j := by
    intro i j lead
    induction lead with
    | refl => exact fun _ hi => hi
    | step he target _ ih =>
      intro reached hi
      obtain ⟨a, ha⟩ := wf.exists_symbol he
      have step : fa.Step _ a _ := ⟨_, he, ha, target⟩
      exact ih (reached.step step) (kept _ a _ reached hi step)
  exact along lead ⟨hstart, .refl fa.start⟩ start

section SameReached
variable {fb' : Automaton} (ha : fa.Comparable) (ha' : fa'.Comparable) (hb : fb.Comparable) (hb' : fb'.Comparable)
include ha ha'

theorem SameReached.reachable_iff (h : fa.SameReached fa') : fa.Reachable i ↔ fa'.Reachable i := by
  have first : fa.Reachable fa.start := ⟨ha.start_lt, .refl fa.start⟩
  have first' : fa'.Reachable fa'.start := ⟨ha'.start_lt, .refl fa'.start⟩
  refine ⟨ha.wellFormed.reachable_induction ?_ fun i a j reached here step => ?_,
    ha'.wellFormed.reachable_induction ?_ fun i a j _ there step => ?_⟩
  · exact h.start ▸ first'
  · exact here.step ((h.step i reached a j).mp step)
  · exact h.start ▸ first
  · exact there.step ((h.step i there a j).mpr step)

theorem SameReached.symm (h : fa.SameReached fa') : fa'.SameReached fa where
  start := h.start.symm
  accepting i hi := (h.accepting i ((h.reachable_iff ha ha').mpr hi)).symm
  step i hi a j := (h.step i ((h.reachable_iff ha ha').mpr hi) a j).symm

include hb hb'

theorem Isomorphism.of_sameReached (iso : fa.Isomorphism fb f) (sameA : fa.SameReached fa') (sameB : fb.SameReached fb') :
    fa'.Isomorphism fb' f where
  start := by rw [← sameA.start, ← sameB.start, iso.start]
  bijOn := by
    have setA : {i | fa.Reachable i} = {i | fa'.Reachable i} := Set.ext fun i => sameA.reachable_iff ha ha'
    have setB : {i | fb.Reachable i} = {i | fb'.Reachable i} := Set.ext fun i => sameB.reachable_iff hb hb'
    rw [← setA, ← setB]
    exact iso.bijOn
  accepting hi := by
    have hi := (sameA.reachable_iff ha ha').mpr hi
    rw [← sameA.accepting _ hi, ← sameB.accepting _ (iso.bijOn.mapsTo hi), iso.accepting hi]
  step hi hj c := by
    have hi := (sameA.reachable_iff ha ha').mpr hi
    have hj := (sameA.reachable_iff ha ha').mpr hj
    rw [← sameA.step _ hi, ← sameB.step _ (iso.bijOn.mapsTo hi), iso.step hi hj]

/-- Only what is reached plays a part in an isomorphism. -/
theorem isomorphism_congr (sameA : fa.SameReached fa') (sameB : fb.SameReached fb') :
    fa.Isomorphism fb f ↔ fa'.Isomorphism fb' f :=
  ⟨fun iso => iso.of_sameReached ha ha' hb hb' sameA sameB,
    fun iso => iso.of_sameReached ha' ha hb' hb (sameA.symm ha ha') (sameB.symm hb hb')⟩

end SameReached

/-! ### Pairs along steps -/

/-- Steps of two compatible states on one symbol force the pair of their targets. -/
theorem mem_forcedBy_of_step (det : fa.Deterministic) (det' : fb.Deterministic) (hi : fa.Leads fa.start i)
    (hj : fb.Leads fb.start j) (compatible : fa.compatible fb (i, j) = true) (first : fa.Step i a k)
    (second : fb.Step j a l) : (k, l) ∈ fa.forcedBy fb (i, j) := by
  obtain ⟨k', last⟩ := exists_lastTarget?_iff.mpr ⟨k, first⟩
  obtain ⟨l', last'⟩ := exists_lastTarget?_iff.mpr ⟨l, second⟩
  obtain rfl := det.functional hi first (step_of_lastTarget? last)
  obtain rfl := det'.functional hj second (step_of_lastTarget? last')
  exact mem_forcedBy.mpr ⟨compatible, a, last, last'⟩

/-! ### All pairs -/

theorem OneToOne.mono {pairs more : List (StateId × StateId)} (h : OneToOne more) (sub : pairs ⊆ more) : OneToOne pairs :=
  fun p hp q hq => h p (sub hp) q (sub hq)

theorem start_mem_forcedPairs (fa fb : Automaton) (n : Nat) : (fa.start, fb.start) ∈ fa.forcedPairs fb n :=
  mem_explore_of_mem (List.mem_singleton_self _)

theorem nodup_forcedPairs (fa fb : Automaton) (n : Nat) : (fa.forcedPairs fb n).Nodup :=
  nodup_explore (List.nodup_singleton _)

/-- Pairs that are one to one are not more than the states that are reached. -/
theorem length_forcedPairs_le (complete : fa.CompleteFrom fa.start) (unique : OneToOne (fa.forcedPairs fb n)) :
    (fa.forcedPairs fb n).length ≤ fa.seen.states.length := by
  have nodup : ((fa.forcedPairs fb n).map Prod.fst).Nodup :=
    (nodup_forcedPairs fa fb n).map_on fun p hp q hq same => Prod.ext same ((unique p hp q hq).mp same)
  have reached : (fa.forcedPairs fb n).map Prod.fst ⊆ fa.seen.states := fun i hi => by
    obtain ⟨p, hp, rfl⟩ := List.mem_map.mp hi
    exact (mem_seen complete).mpr (leads_of_mem_forcedPairs p hp).1
  have few := nodup.length_le_of_subset reached
  rwa [List.length_map] at few

theorem closed_forcedPairs (complete : fa.CompleteFrom fa.start) (enough : fa.seen.states.length ≤ n)
    (unique : OneToOne (fa.forcedPairs fb n)) : Closed (fa.forcedBy fb) (fa.forcedPairs fb n) := by
  have few := length_forcedPairs_le complete unique
  exact closed_explore (fa.forcedPairs fb n) (fun _ hp => hp) (few.trans enough) (List.nodup_singleton _) nofun

/-- Further rounds find no further pairs, unless the pairs are not one to one anyway. -/
theorem forcedPairs_eq_or (fb : Automaton) (complete : fa.CompleteFrom fa.start) (enough : fa.seen.states.length ≤ n) :
    fa.forcedPairs fb n = fa.forcedPairs fb fa.seen.states.length ∨
      ¬OneToOne (fa.forcedPairs fb n) ∧ ¬OneToOne (fa.forcedPairs fb fa.seen.states.length) := by
  by_cases unique : OneToOne (fa.forcedPairs fb fa.seen.states.length)
  · obtain ⟨k, rfl⟩ := Nat.exists_eq_add_of_le enough
    exact Or.inl (explore_add (closed_forcedPairs complete (Nat.le_refl _) unique) k)
  · refine Or.inr ⟨fun more => unique (more.mono ?_), unique⟩
    have closed := closed_forcedPairs complete enough more
    refine explore_induction (fun p hp q hq => closed p hp q hq) fun p hp => ?_
    obtain rfl := List.mem_singleton.mp hp
    exact start_mem_forcedPairs fa fb n

/-! ### Bijections from pairs -/

/-- Pairs of reachable states, the starts among them, that agree on acceptance and go along the steps of both sides. -/
structure Paired (fa fb : Automaton) (pairs : List (StateId × StateId)) : Prop where
  start : (fa.start, fb.start) ∈ pairs
  reachable : ∀ {i j}, (i, j) ∈ pairs → fa.Reachable i ∧ fb.Reachable j
  unique : OneToOne pairs
  accepting : ∀ {i j}, (i, j) ∈ pairs → fa.accepting i = fb.accepting j
  forth : ∀ {i j a k}, (i, j) ∈ pairs → fa.Step i a k → ∃ l, fb.Step j a l ∧ (k, l) ∈ pairs
  back : ∀ {i j a l}, (i, j) ∈ pairs → fb.Step j a l → ∃ k, fa.Step i a k ∧ (k, l) ∈ pairs

theorem paired_forcedPairs (ha : fa.Comparable) (hb : fb.Comparable) (enough : fa.seen.states.length ≤ n)
    (compatible : ∀ p ∈ fa.forcedPairs fb n, fa.compatible fb p = true) (unique : OneToOne (fa.forcedPairs fb n)) :
    fa.Paired fb (fa.forcedPairs fb n) := by
  obtain ⟨complete, det⟩ := ha.spec
  obtain ⟨-, det'⟩ := hb.spec
  have closed := closed_forcedPairs complete enough unique
  have agree : ∀ {i j}, (i, j) ∈ fa.forcedPairs fb n →
      fa.accepting i = fb.accepting j ∧ ∀ a, (∃ k, fa.Step i a k) ↔ ∃ k, fb.Step j a k := fun h =>
    compatible_iff.mp (compatible _ h)
  have forced : ∀ {i j a k l}, (i, j) ∈ fa.forcedPairs fb n → fa.Step i a k → fb.Step j a l →
      (k, l) ∈ fa.forcedPairs fb n := fun h first second =>
    have lead := leads_of_mem_forcedPairs _ h
    closed _ h _ (mem_forcedBy_of_step det det' lead.1 lead.2 (compatible _ h) first second)
  exact {
    start := start_mem_forcedPairs fa fb n
    reachable := fun h =>
      have lead := leads_of_mem_forcedPairs _ h
      ⟨⟨ha.start_lt, lead.1⟩, hb.start_lt, lead.2⟩
    unique
    accepting := fun h => (agree h).1
    forth := fun h step => by
      obtain ⟨l, step'⟩ := ((agree h).2 _).mp ⟨_, step⟩
      exact ⟨l, step', forced h step step'⟩
    back := fun h step => by
      obtain ⟨k, step'⟩ := ((agree h).2 _).mpr ⟨_, step⟩
      exact ⟨k, step', forced h step' step⟩ }

section Paired
variable {pairs : List (StateId × StateId)} (h : fa.Paired fb pairs)
include h

theorem Paired.exists_right (wf : fa.WellFormed) (hi : fa.Reachable i) : ∃ j, (i, j) ∈ pairs := by
  refine wf.reachable_induction (P := fun i => ∃ j, (i, j) ∈ pairs) ⟨_, h.start⟩ (fun i a k _ paired step => ?_) hi
  obtain ⟨j, hj⟩ := paired
  obtain ⟨l, -, hl⟩ := h.forth hj step
  exact ⟨l, hl⟩

theorem Paired.exists_left (wf : fb.WellFormed) (hj : fb.Reachable j) : ∃ i, (i, j) ∈ pairs := by
  refine wf.reachable_induction (P := fun j => ∃ i, (i, j) ∈ pairs) ⟨_, h.start⟩ (fun j a l _ paired step => ?_) hj
  obtain ⟨i, hi⟩ := paired
  obtain ⟨k, -, hk⟩ := h.back hi step
  exact ⟨k, hk⟩

/-- A map that takes every state to the one it is paired with is an isomorphism. -/
theorem Paired.isomorphism (wf : fb.WellFormed) (hf : ∀ i, fa.Reachable i → (i, f i) ∈ pairs) : fa.Isomorphism fb f := by
  have eq_of_mem : ∀ {i j}, (i, j) ∈ pairs → f i = j := fun hi =>
    (h.unique _ (hf _ (h.reachable hi).1) _ hi).mp rfl
  exact {
    start := eq_of_mem h.start
    bijOn := by
      refine ⟨fun i hi => (h.reachable (hf i hi)).2, fun i hi j hj same => ?_, fun j hj => ?_⟩
      · exact (h.unique _ (hf i hi) _ (hf j hj)).mpr same
      · obtain ⟨i, hi⟩ := h.exists_left wf hj
        exact ⟨i, (h.reachable hi).1, eq_of_mem hi⟩
    accepting := fun hi => h.accepting (hf _ hi)
    step := by
      intro i j hi hj c
      refine ⟨fun step => ?_, fun step => ?_⟩
      · obtain ⟨l, step', hl⟩ := h.forth (hf i hi) step
        rwa [eq_of_mem hl]
      · obtain ⟨k, step', hk⟩ := h.back (hf i hi) step
        have same : k = j := (h.unique _ hk _ (hf j hj)).mpr rfl
        rwa [← same] }

theorem Paired.exists_isomorphism (wf : fa.WellFormed) (wf' : fb.WellFormed) :
    ∃ f, fa.Isomorphism fb f ∧ ∀ i, fa.Reachable i → (i, f i) ∈ pairs := by
  have right : ∀ i, fa.Reachable i → ∃ j, (i, j) ∈ pairs := fun i hi => h.exists_right wf hi
  choose! f hf using right
  exact ⟨f, h.isomorphism wf' hf, hf⟩

end Paired

/-! ### Pairs from bijections -/

section Isomorphism
variable (iso : fa.Isomorphism fb f) (ha : fa.Comparable) (hb : fb.Comparable)
include iso ha hb

/-- The pairs that are forced go along the bijection. -/
theorem Isomorphism.of_mem_forcedPairs : ∀ p ∈ fa.forcedPairs fb n, fa.Reachable p.1 ∧ f p.1 = p.2 := by
  obtain ⟨-, det⟩ := ha.spec
  obtain ⟨-, det'⟩ := hb.spec
  refine explore_induction (fun p hp q hq => ?_) fun p hp => ?_
  · obtain ⟨reached, along⟩ := hp
    obtain ⟨a, step, step'⟩ := step_of_mem_forcedBy hq
    have next := reached.step step
    refine ⟨next, ?_⟩
    cases a with
    | epsilon => exact absurd step (det.silent reached.2)
    | char c =>
      have image := (iso.step reached next c).mp step
      rw [along] at image
      exact det'.functional (along ▸ (iso.bijOn.mapsTo reached).2) image step'
  · obtain rfl := List.mem_singleton.mp hp
    exact ⟨⟨ha.start_lt, .refl fa.start⟩, iso.start⟩

theorem Isomorphism.compatible (hi : fa.Reachable i) : fa.compatible fb (i, f i) = true := by
  obtain ⟨-, det⟩ := ha.spec
  obtain ⟨-, det'⟩ := hb.spec
  have image := iso.bijOn.mapsTo hi
  refine compatible_iff.mpr ⟨iso.accepting hi, fun a => ?_⟩
  cases a with
  | epsilon =>
    refine iff_of_false (fun step => ?_) fun step => ?_
    · obtain ⟨k, step⟩ := step
      exact det.silent hi.2 step
    · obtain ⟨k, step⟩ := step
      exact det'.silent image.2 step
  | char c =>
    refine ⟨fun step => ?_, fun step => ?_⟩
    · obtain ⟨k, step⟩ := step
      exact ⟨f k, (iso.step hi (hi.step step) c).mp step⟩
    · obtain ⟨l, step⟩ := step
      obtain ⟨k, hk, rfl⟩ := iso.bijOn.surjOn (Reachable.step image step)
      exact ⟨k, (iso.step hi hk c).mpr step⟩

theorem Isomorphism.oneToOne : OneToOne (fa.forcedPairs fb n) := by
  intro p hp q hq
  obtain ⟨reached, along⟩ := iso.of_mem_forcedPairs ha hb p hp
  obtain ⟨reached', along'⟩ := iso.of_mem_forcedPairs ha hb q hq
  rw [← along, ← along']
  exact (iso.bijOn.injOn.eq_iff reached reached').symm

theorem Isomorphism.length_seen : fa.seen.states.length = fb.seen.states.length := by
  obtain ⟨complete, -⟩ := ha.spec
  obtain ⟨complete', -⟩ := hb.spec
  have nodup : (fa.seen.states.map f).Nodup := (seen_nodup fa).map_on fun i hi j hj same =>
    iso.bijOn.injOn ((mem_seen_iff_reachable complete).mp hi) ((mem_seen_iff_reachable complete).mp hj) same
  have perm : (fa.seen.states.map f).Perm fb.seen.states := by
    refine (List.perm_ext_iff_of_nodup nodup (seen_nodup fb)).mpr fun j => ?_
    rw [mem_seen_iff_reachable complete', List.mem_map]
    refine ⟨fun given => ?_, fun reached => ?_⟩
    · obtain ⟨i, hi, rfl⟩ := given
      exact iso.bijOn.mapsTo ((mem_seen_iff_reachable complete).mp hi)
    · obtain ⟨i, hi, rfl⟩ := iso.bijOn.surjOn reached
      exact ⟨i, (mem_seen_iff_reachable complete).mpr hi, rfl⟩
  rw [← perm.length_eq, List.length_map]

end Isomorphism

/-- If the comparison succeeds, the forced pairs are a bijection. -/
theorem exists_isomorphism_of_isomorphic (ha : fa.Comparable) (hb : fb.Comparable) (h : fa.isomorphic fb = .ok true) :
    OneToOne (fa.forcedPairs fb fa.seen.states.length) ∧
      ∃ f, fa.Isomorphism fb f ∧ ∀ i, fa.Reachable i → (i, f i) ∈ fa.forcedPairs fb fa.seen.states.length := by
  obtain ⟨same, answer, iff⟩ := isomorphic_eq ha.spec.1 hb.spec.1
  obtain rfl := Except.ok.inj (answer.symm.trans h)
  obtain ⟨-, compatible, unique⟩ := iff.mp rfl
  have paired := paired_forcedPairs ha hb (Nat.le_refl _) compatible unique
  exact ⟨unique, paired.exists_isomorphism ha.wellFormed hb.wellFormed⟩

/-- The comparison finds out whether there is an isomorphism. -/
theorem exists_isomorphic_iff (ha : fa.Comparable) (hb : fb.Comparable) :
    ∃ same, fa.isomorphic fb = .ok same ∧ (same = true ↔ ∃ f, fa.Isomorphism fb f) := by
  obtain ⟨same, answer, iff⟩ := isomorphic_eq ha.spec.1 hb.spec.1
  refine ⟨same, answer, fun given => ?_, fun given => iff.mpr ?_⟩
  · subst given
    obtain ⟨-, f, iso, -⟩ := exists_isomorphism_of_isomorphic ha hb answer
    exact ⟨f, iso⟩
  · obtain ⟨f, iso⟩ := given
    refine ⟨iso.length_seen ha hb, fun p hp => ?_, iso.oneToOne ha hb⟩
    obtain ⟨reached, along⟩ := iso.of_mem_forcedPairs ha hb p hp
    have compatible := iso.compatible ha hb reached
    rwa [along] at compatible

end Automaton
end FiniteAutomata
