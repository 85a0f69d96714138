import FiniteAutomata.Automaton.Determinism
import FiniteAutomata.Proofs.Simulation
import Mathlib.Data.List.Nodup
import Mathlib.Data.List.Pairwise

/-! Deterministic automata: what the test for determinism finds out, and that from a reachable state a word leads
    to one state at most, alone or as a set of one. -/

namespace FiniteAutomata
namespace Automaton

/-- No reachable state has an empty step, and none has two targets on one symbol. -/
structure Deterministic (fa : Automaton) : Prop where
  silent : ∀ {i j}, fa.Leads fa.start i → ¬fa.Step i .epsilon j
  functional : ∀ {i j k a}, fa.Leads fa.start i → fa.Step i a j → fa.Step i a k → j = k

variable {fa : Automaton} {i j k : StateId} {c : Char}

/-! ### The test -/

theorem eq_of_nodup_symbolsOf (h : (fa.symbolsOf i).Nodup) {e e' : Edge} (he : e ∈ fa.edgesOf i)
    (he' : e' ∈ fa.edgesOf i) {a : Symbol} (ha : a ∈ e.label) (ha' : a ∈ e'.label) : e = e' := by
  by_contra hne
  have apart := (List.nodup_flatMap.mp h).2
  have : Std.Symm (Function.onFun List.Disjoint fun e : Edge => e.label.toList) := ⟨fun _ _ h a ha ha' => h ha' ha⟩
  exact apart.forall he he' hne ha ha'

theorem eq_of_step_of_nodup_symbolsOf (h : (fa.symbolsOf i).Nodup) {a : Symbol} (first : fa.Step i a j)
    (second : fa.Step i a k) : j = k := by
  obtain ⟨e, he, ha, rfl⟩ := first
  obtain ⟨e', he', ha', rfl⟩ := second
  rw [eq_of_nodup_symbolsOf h he he' ha ha']

theorem Deterministic.of_isDeterministic (hstart : fa.start < fa.size) (h : fa.isDeterministic = .ok true) :
    fa.CompleteFrom fa.start ∧ fa.Deterministic := by
  rw [isDeterministic] at h
  cases hv : fa.view with
  | error f =>
    rw [hv] at h
    cases h
  | ok v =>
    obtain ⟨complete, rfl⟩ := (view_eq_ok_iff hstart).mp hv
    rw [hv] at h
    have both : (decide (.epsilon ∉ fa.seen.alphabet) && fa.seen.states.all fun id => decide (fa.symbolsOf id).Nodup) =
      true := Except.ok.inj h
    simp only [Bool.and_eq_true, decide_eq_true_eq, List.all_eq_true] at both
    obtain ⟨silent, nodup⟩ := both
    refine ⟨complete, ⟨fun {i j} hi step => silent ?_, fun {i j k a} hi => ?_⟩⟩
    · exact (mem_seen_alphabet complete).mpr ⟨i, j, hi, step⟩
    · exact eq_of_step_of_nodup_symbolsOf (nodup i ((mem_seen complete).mpr hi))

/-- The test finds out the same when there are no states. -/
theorem WellFormed.deterministic (wf : fa.WellFormed) (h : fa.isDeterministic = .ok true) :
    fa.Complete ∧ fa.Deterministic := by
  obtain start | ⟨empty, -⟩ := wf.start
  · obtain ⟨complete, det⟩ := Deterministic.of_isDeterministic start h
    exact ⟨Or.inr complete, det⟩
  · have none : ∀ {i j a}, ¬fa.Step i a j := fun step => by
      have lt := step.lt
      rw [size_eq_zero empty] at lt
      exact Nat.not_lt_zero _ lt
    exact ⟨Or.inl empty, fun _ step => none step, fun _ step => absurd step none⟩

theorem WellFormed.nodup_targets (wf : fa.WellFormed) (i : StateId) : (fa.targets i).Nodup := by
  rw [targets, edgesOf]
  cases hs : fa.states[i]? with
  | none => simp
  | some s => exact (wf.states i s hs).targets

/-- As a state has one edge for each target, a symbol is on two of its edges just when it has two targets. -/
theorem WellFormed.nodup_symbolsOf_iff (wf : fa.WellFormed) :
    (fa.symbolsOf i).Nodup ↔ ∀ {a j k}, fa.Step i a j → fa.Step i a k → j = k := by
  refine ⟨fun nodup {a j k} => eq_of_step_of_nodup_symbolsOf nodup, fun functional => List.nodup_flatMap.mpr ⟨?_, ?_⟩⟩
  · refine fun e _ => e.label.sorted.imp fun hlt heq => ?_
    exact Nat.lt_irrefl _ (heq ▸ hlt)
  · have apart : (fa.edgesOf i).Pairwise fun e e' => e.target ≠ e'.target :=
      List.pairwise_map.mp (wf.nodup_targets i)
    refine apart.imp_of_mem fun {e e'} he he' hne a ha ha' => hne ?_
    exact functional ⟨e, he, ha, rfl⟩ ⟨e', he', ha', rfl⟩

theorem Deterministic.isDeterministic (wf : fa.WellFormed) (complete : fa.CompleteFrom fa.start)
    (det : fa.Deterministic) : fa.isDeterministic = .ok true := by
  rw [Automaton.isDeterministic, view_eq complete]
  have silent : .epsilon ∉ fa.seen.alphabet := fun h => by
    obtain ⟨i, j, hi, step⟩ := (mem_seen_alphabet complete).mp h
    exact det.silent hi step
  have nodup : ∀ i ∈ fa.seen.states, (fa.symbolsOf i).Nodup := fun i hi =>
    wf.nodup_symbolsOf_iff.mpr (det.functional ((mem_seen complete).mp hi))
  have all : (fa.seen.states.all fun id => decide (fa.symbolsOf id).Nodup) = true := by
    simpa [List.all_eq_true] using nodup
  show Except.ok (decide (.epsilon ∉ fa.seen.alphabet) && fa.seen.states.all fun id => decide (fa.symbolsOf id).Nodup) =
    .ok true
  rw [all, decide_eq_true silent]
  rfl

/-! ### The step on a symbol -/

/-- The step on a character, from a state with one such step at most. -/
theorem next?_eq_some_iff {a : Symbol} (functional : ∀ {j k}, fa.Step i a j → fa.Step i a k → j = k) :
    (fa.states[i]?.bind fun s => s.next? a) = some j ↔ fa.Step i a j := by
  have edges : (fa.states[i]?.bind fun s => s.next? a) = ((fa.edgesOf i).find? fun e => a ∈ e.label).map Edge.target := by
    rw [edgesOf]
    cases fa.states[i]? <;> rfl
  rw [edges, Option.map_eq_some_iff]
  refine ⟨fun h => ?_, fun h => ?_⟩
  · rcases h with ⟨e, find, rfl⟩
    exact ⟨e, List.mem_of_find?_eq_some find, by simpa using List.find?_some find, rfl⟩
  · rcases h with ⟨e, he, ha, rfl⟩
    have some : ((fa.edgesOf i).find? fun e => decide (a ∈ e.label)).isSome = true := by
      rw [List.find?_isSome]
      exact ⟨e, he, by simpa using ha⟩
    obtain ⟨e', find⟩ := Option.isSome_iff_exists.mp some
    have ha' : a ∈ e'.label := by simpa using List.find?_some find
    exact ⟨e', find, functional ⟨e', List.mem_of_find?_eq_some find, ha', rfl⟩ ⟨e, he, ha, rfl⟩⟩

/-! ### Words -/

theorem Deterministic.path_nil (det : fa.Deterministic) (hi : fa.Leads fa.start i) (h : fa.Path i [] j) : i = j := by
  cases h with
  | nil => rfl
  | silent step _ => exact absurd step (det.silent hi)

theorem Deterministic.path_cons (det : fa.Deterministic) (hi : fa.Leads fa.start i) {c : Char} {word : List Char} :
    fa.Path i (c :: word) k ↔ ∃ j, fa.Step i (.char c) j ∧ fa.Path j word k := by
  rw [path_cons_iff]
  refine ⟨fun h => ?_, fun h => ?_⟩
  · rcases h with ⟨j, l, silent, read, rest⟩
    obtain rfl := det.path_nil hi silent
    exact ⟨l, read, rest⟩
  · rcases h with ⟨l, read, rest⟩
    exact ⟨i, l, .nil i, read, rest⟩

/-- From a reachable state a word leads to one state at most. -/
theorem Deterministic.path_unique (det : fa.Deterministic) {word : List Char} (hi : fa.Leads fa.start i)
    (hj : fa.Path i word j) (hk : fa.Path i word k) : j = k := by
  induction word generalizing i with
  | nil => exact (det.path_nil hi hj).symm.trans (det.path_nil hi hk)
  | cons c word ih =>
    obtain ⟨l, read, rest⟩ := (det.path_cons hi).mp hj
    obtain ⟨l', read', rest'⟩ := (det.path_cons hi).mp hk
    obtain rfl := det.functional hi read read'
    exact ih (hi.trans read.leads) rest rest'

theorem Deterministic.recognizesFrom_append (det : fa.Deterministic) {u v : List Char} (hi : fa.Leads fa.start i)
    (h : fa.Path i u j) : fa.RecognizesFrom i (u ++ v) ↔ fa.RecognizesFrom j v := by
  refine ⟨fun given => ?_, fun given => ?_⟩
  · rcases given with ⟨k, path, hk⟩
    obtain ⟨j', first, second⟩ := path.split
    obtain rfl := det.path_unique hi h first
    exact ⟨k, second, hk⟩
  · rcases given with ⟨k, path, hk⟩
    exact ⟨k, h.append path, hk⟩

theorem Deterministic.recognizesFrom_cons (det : fa.Deterministic) {c : Char} {word : List Char}
    (hi : fa.Leads fa.start i) :
    fa.RecognizesFrom i (c :: word) ↔ ∃ j, fa.Step i (.char c) j ∧ fa.RecognizesFrom j word := by
  refine ⟨fun h => ?_, fun h => ?_⟩
  · rcases h with ⟨k, path, hk⟩
    obtain ⟨j, read, rest⟩ := (det.path_cons hi).mp path
    exact ⟨j, read, k, rest, hk⟩
  · rcases h with ⟨j, read, k, rest, hk⟩
    exact ⟨k, .read read rest, hk⟩

theorem Deterministic.recognizesFrom_nil (det : fa.Deterministic) (hi : fa.Leads fa.start i) :
    fa.RecognizesFrom i [] ↔ fa.accepting i = true := by
  constructor
  · rintro ⟨k, path, hk⟩
    exact det.path_nil hi path ▸ hk
  · exact fun h => ⟨i, .nil i, h⟩

/-! ### Sets of one state -/

section Singletons
variable (complete : fa.CompleteFrom fa.start) (det : fa.Deterministic)
include complete det

theorem Deterministic.closure_singleton (hi : fa.Leads fa.start i) : fa.closure {i} = {i} := by
  ext j
  rw [mem_closure (completeFromSet_singleton (complete.of_leads hi)), StateSet.mem_singleton]
  constructor
  · rintro ⟨k, hk, path⟩
    obtain rfl := StateSet.mem_singleton.mp hk
    exact (det.path_nil hi path).symm
  · rintro rfl
    exact ⟨j, StateSet.mem_singleton.mpr rfl, .nil j⟩

theorem Deterministic.step_singleton (hi : fa.Leads fa.start i) (step : fa.Step i (.char c) j) :
    fa.step {i} c = {j} := by
  have image : fa.image {i} c = {j} := by
    ext k
    rw [mem_image, StateSet.mem_singleton]
    constructor
    · rintro ⟨l, hl, step'⟩
      obtain rfl := StateSet.mem_singleton.mp hl
      exact det.functional hi step' step
    · rintro rfl
      exact ⟨i, StateSet.mem_singleton.mpr rfl, step⟩
  rw [Automaton.step, image, det.closure_singleton complete (hi.trans step.leads)]

end Singletons

end Automaton
end FiniteAutomata
