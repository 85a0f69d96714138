import FiniteAutomata.Automaton.SingleRun
import FiniteAutomata.Proofs.Assembly
import FiniteAutomata.Proofs.Determinism

/-! On a deterministic automaton the set simulation is a run in one state at a time. The active set begins as the start
    alone. A character takes a set of one state to the set of the one target, which is that of the first edge that carries
    it, or else to the empty set, where it stays. -/

namespace FiniteAutomata
namespace Automaton

variable {fa : Automaton} {i : StateId}

theorem exists_state (inside : i < fa.size) : ∃ s, fa.states[i]? = some s ∧ fa.state i = .ok s := by
  have found : fa.states[i]? = some fa.states[i] := Array.getElem?_eq_getElem inside
  exact ⟨_, found, by rw [state, found]⟩

theorem runFrom_cons {s : State} {c : Char} {word : List Char} (found : fa.state i = .ok s) : fa.runFrom i (c :: word) =
    match s.next? (.char c) with
    | none => .ok none
    | some j => fa.runFrom j word := by
  rw [runFrom, found]
  rfl

section Run
variable (complete : fa.CompleteFrom fa.start) (det : fa.Deterministic)
include complete det

/-- From a reachable state the run and the active set move together. -/
theorem Deterministic.exists_next (hi : fa.Leads fa.start i) (c : Char) : ∃ s, fa.state i = .ok s ∧
    fa.step {i} c = .ofList (s.next? (.char c)).toList ∧ ∀ j ∈ s.next? (.char c), fa.Leads fa.start j := by
  obtain ⟨s, found, state⟩ := exists_state (complete i hi)
  have next : ∀ j, s.next? (.char c) = some j ↔ fa.Step i (.char c) j := fun j => by
    rw [← next?_eq_some_iff (det.functional hi), found, Option.bind_some]
  refine ⟨s, state, ?_, fun j hj => hi.trans ((next j).mp hj).leads⟩
  cases target : s.next? (.char c) with
  | some j => exact det.step_singleton complete hi ((next j).mp target)
  | none =>
    refine step_eq_empty fun stuck => ?_
    obtain ⟨k, hk, j, step⟩ := stuck
    obtain rfl := StateSet.mem_singleton.mp hk
    rw [(next j).mpr step] at target
    cases target

/-- The active set after a word is the state in which the run ends, or no state. -/
theorem Deterministic.exists_runFrom (word : List Char) (hi : fa.Leads fa.start i) : ∃ last?, fa.runFrom i word = .ok last? ∧
    word.foldl fa.step {i} = .ofList last?.toList ∧ ∀ j ∈ last?, fa.Leads fa.start j := by
  induction word generalizing i with
  | nil => exact ⟨some i, rfl, rfl, fun j hj => Option.some.inj hj ▸ hi⟩
  | cons c word ih =>
    obtain ⟨s, state, step, reached⟩ := det.exists_next complete hi c
    rw [runFrom_cons state, List.foldl_cons, step]
    cases target : s.next? (.char c) with
    | none => exact ⟨none, rfl, foldl_step_empty word, nofun⟩
    | some j => exact ih (reached j target)

end Run

/-- A deterministic automaton accepts a word as a set exactly when it does in one state at a time, and no more than one
    state is ever active. -/
theorem accepts_eq_acceptsAlone (start : fa.start < fa.size) (deterministic : fa.isDeterministic = .ok true)
    (word : List Char) : ∃ answer last?, fa.accepts word = .ok answer ∧ fa.acceptsAlone word = .ok answer ∧
      fa.runFrom fa.start word = .ok last? ∧
      word.foldl fa.step (fa.closure {fa.start}) = .ofList last?.toList := by
  obtain ⟨complete, det⟩ := Deterministic.of_isDeterministic start deterministic
  have alone := det.closure_singleton complete (.refl fa.start)
  obtain ⟨last?, ran, active, reached⟩ := det.exists_runFrom complete word (.refl fa.start)
  refine ⟨_, last?, accepts_eq complete word, ?_, ran, alone.symm ▸ active⟩
  rw [acceptsAlone, ran, alone, active]
  cases last? with
  | none => rfl
  | some i =>
    obtain ⟨s, found, state⟩ := exists_state (complete i (reached i rfl))
    show (fa.state i >>= fun s => pure s.accepting) = .ok (fa.acceptsAt {i})
    rw [state, acceptsAt_singleton, accepting, found]
    rfl

/-- Two characters on one edge, and a state that nothing leads to, with an empty step and two ways to read one character. -/
def steering : Automaton :=
  assembled [(.dfa, true), (.dfa, false), (.nfa, false)]
    [⟨0, 1, .char 'a'⟩, ⟨0, 1, .char 'b'⟩, ⟨1, 0, .char 'a'⟩, ⟨2, 0, .epsilon⟩, ⟨2, 0, .char 'a'⟩, ⟨2, 1, .char 'a'⟩] 1

theorem accepts_steering : steering.start < steering.size ∧ steering.isDeterministic = .ok true ∧
    (∃ answer, steering.accepts ['a', 'b', 'a'] = .ok answer ∧ steering.acceptsAlone ['a', 'b', 'a'] = .ok answer ∧
      ['a', 'b', 'a'].foldl steering.step (steering.closure {1}) = {0}) ∧
    ['a', 'b', 'b'].foldl steering.step (steering.closure {1}) = ∅ := by
  have start : steering.start < steering.size := by decide
  have deterministic : steering.isDeterministic = .ok true := by decide +kernel
  have ends : steering.runFrom steering.start ['a', 'b', 'a'] = .ok (some 0) := by decide +kernel
  have stuck : steering.runFrom steering.start ['a', 'b', 'b'] = .ok none := by decide +kernel
  obtain ⟨answer, last?, accepts, alone, ran, active⟩ := accepts_eq_acceptsAlone start deterministic ['a', 'b', 'a']
  obtain rfl := Except.ok.inj (ran.symm.trans ends)
  obtain ⟨-, last?, -, -, ran', active'⟩ := accepts_eq_acceptsAlone start deterministic ['a', 'b', 'b']
  obtain rfl := Except.ok.inj (ran'.symm.trans stuck)
  exact ⟨start, deterministic, ⟨answer, accepts, alone, active⟩, active'⟩

end Automaton
end FiniteAutomata
