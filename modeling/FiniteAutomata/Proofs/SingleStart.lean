import FiniteAutomata.Proofs.Edit
import FiniteAutomata.Proofs.Extension
import FiniteAutomata.Proofs.Reversal

/-! Reading words backwards from a single start. A single initial state is itself the start; otherwise, also when there is
    none, the start is a state of its own with an empty step to each initial state. Both ways the automaton recognises
    what is recognised from some initial state, and it accepts only where the reversed automaton does: at the place of
    the old start. -/

namespace FiniteAutomata
namespace Reversed

/-- `m` is the reversed automaton with a start of its own, which only has an empty step to each initial state. -/
structure Entered (r : Reversed) (m : Automaton) : Prop where
  old : m.Extends r.automaton
  size : m.size = r.automaton.size + 1
  start : m.start = r.automaton.size
  wellFormed : m.WellFormed
  inRange : m.InRange
  step : ∀ {a j}, m.Step r.automaton.size a j ↔ a = .epsilon ∧ j ∈ r.initial
  rejects : m.accepting r.automaton.size = false

variable {r : Reversed} {m : Automaton} {p : StateId} {word : List Char}

/-! ### Making a start -/

theorem withStart_of_single (single : r.initial = {p}) (lt : p < r.automaton.size) :
    r.withStart = .ok { r.automaton with start := p } := by
  rw [withStart, single, Automaton.toList_singleton]
  exact if_pos lt

theorem toList_ne_singleton (several : ∀ p, r.initial ≠ {p}) (p : StateId) : r.initial.toList ≠ [p] := by
  intro single
  refine several p (StateSet.ext fun i => ?_)
  rw [← StateSet.mem_toList, single, List.mem_singleton, StateSet.mem_singleton]

/-- The empty steps from a state to some others. -/
def silentArcs (entry : StateId) (ids : List StateId) : List Arc := ids.map fun p => ⟨entry, p, .epsilon⟩

section Assembled
open Automaton

/-- A further state as the start, with an empty step to each of the given states. -/
def enteredAt (states : List (Kind × Bool)) (arcs : List Arc) (ids : List StateId) : Automaton :=
  assembled (states ++ [(.nfa, false)]) (arcs ++ silentArcs states.length ids) states.length

variable {states : List (Kind × Bool)} {arcs : List Arc} {ids : List StateId} {start : StateId} {a : Arc}

theorem mem_silentArcs {entry : StateId} : a ∈ silentArcs entry ids ↔ ∃ p ∈ ids, a = ⟨entry, p, .epsilon⟩ := by
  simp [silentArcs, eq_comm]

theorem getElem?_concat_entry : (states ++ [(Kind.nfa, false)])[states.length]? = some (.nfa, false) :=
  List.getElem?_concat_length

@[simp] theorem size_enteredAt : (enteredAt states arcs ids).size = states.length + 1 := by
  rw [enteredAt, size_assembled, List.length_append, List.length_singleton]

theorem outgoing_append_silentArcs {i : StateId} (hi : i ≠ states.length) :
    outgoing (arcs ++ silentArcs states.length ids) i = outgoing arcs i := by
  have none : (silentArcs states.length ids).filter (fun a => a.source = i) = [] := by
    refine List.filter_eq_nil_iff.mpr fun a ha => ?_
    obtain ⟨p, -, rfl⟩ := mem_silentArcs.mp ha
    simpa using hi.symm
  rw [outgoing, outgoing, List.filter_append, none, List.append_nil]

section Allowed
variable (allowed : ∀ a ∈ arcs, Allowed states a)
include allowed

theorem allowed_append_silentArcs :
    ∀ a ∈ arcs ++ silentArcs states.length ids, Allowed (states ++ [(.nfa, false)]) a := by
  intro a ha
  rcases List.mem_append.mp ha with ha | ha
  · obtain ⟨s, hs, kind⟩ := allowed a ha
    exact ⟨s, by rw [List.getElem?_append_left (List.getElem?_eq_some_iff.mp hs).1, hs], kind⟩
  · obtain ⟨p, -, rfl⟩ := mem_silentArcs.mp ha
    exact ⟨_, getElem?_concat_entry, fun _ => rfl⟩

theorem withStart_of_several (made : r.automaton = assembled states arcs start) (several : ∀ p, r.initial ≠ {p}) :
    r.withStart = .ok (enteredAt states arcs r.initial.toList) := by
  have connected : r.initial.toList.foldlM (fun (fa : Automaton) p => fa.addEdge states.length p .epsilon)
      (assembled (states ++ [(.nfa, false)]) arcs start) =
      .ok (assembled (states ++ [(.nfa, false)]) (arcs ++ silentArcs states.length r.initial.toList) start) := by
    refine Eq.trans ?_ (foldlM_addEdge arcs (silentArcs states.length r.initial.toList) fun a ha =>
      allowed_append_silentArcs allowed a (List.mem_append_right _ ha))
    rw [silentArcs, List.foldlM_map]
  have started : (assembled (states ++ [(.nfa, false)]) (arcs ++ silentArcs states.length r.initial.toList)
      start).setStart states.length = .ok (enteredAt states arcs r.initial.toList) := by
    refine if_pos ?_
    rw [size_assembled, List.length_append]
    exact Nat.lt_succ_self _
  rw [withStart]
  split
  · next p single => exact absurd single (toList_ne_singleton several p)
  · rw [made, size_assembled, addState_assembled .nfa false fun a ha => (allowed a ha).lt]
    dsimp only
    rw [connected]
    exact started

theorem entered_enteredAt (made : r.automaton = assembled states arcs start)
    (range : ∀ a ∈ arcs, a.target < states.length) (initial : ∀ p ∈ r.initial, p < states.length) :
    r.Entered (enteredAt states arcs r.initial.toList) := by
  have size : r.automaton.size = states.length := made ▸ size_assembled
  have allowed' : ∀ a ∈ arcs ++ silentArcs states.length r.initial.toList, Allowed (states ++ [(.nfa, false)]) a :=
    allowed_append_silentArcs allowed
  have length : (states ++ [(Kind.nfa, false)]).length = states.length + 1 := List.length_append
  exact {
    old := fun i hi => by
      rw [size] at hi
      rw [made, enteredAt, state?_assembled, state?_assembled, List.getElem?_append_left hi,
        outgoing_append_silentArcs (Nat.ne_of_lt hi)]
    size := by rw [size, size_enteredAt]
    start := size.symm
    wellFormed := wellFormed_assembled allowed' (Or.inl (length ▸ Nat.lt_succ_self _))
    inRange := inRange_assembled fun a ha => by
      rw [length]
      rcases List.mem_append.mp ha with ha | ha
      · exact Nat.lt_succ_of_lt (range a ha)
      · obtain ⟨p, hp, rfl⟩ := mem_silentArcs.mp ha
        exact Nat.lt_succ_of_lt (initial p (StateSet.mem_toList.mp hp))
    step := by
      intro a j
      rw [size, enteredAt, step_assembled fun a ha => (allowed' a ha).lt, List.mem_append, mem_silentArcs]
      refine ⟨fun given => ?_, fun given => ?_⟩
      · obtain old | ⟨p, hp, heq⟩ := given
        · exact absurd (allowed _ old).lt (Nat.lt_irrefl _)
        · obtain ⟨-, rfl, rfl⟩ := Arc.mk.inj heq
          exact ⟨rfl, StateSet.mem_toList.mp hp⟩
      · obtain ⟨rfl, hj⟩ := given
        exact Or.inr ⟨j, StateSet.mem_toList.mpr hj, rfl⟩
    rejects := by
      rw [size, enteredAt, accepting_assembled, getElem?_concat_entry]
      rfl }

end Allowed
end Assembled

/-! ### What it recognises -/

namespace Entered

variable {i j : StateId}

theorem start_lt (h : r.Entered m) : m.start < m.size := by
  rw [h.start, h.size]
  exact Nat.lt_succ_self _

theorem accepting (h : r.Entered m) (i : StateId) : m.accepting i = r.automaton.accepting i := by
  by_cases hi : i < r.automaton.size
  · exact h.old.accepting hi
  · have none : r.automaton.accepting i = false := Bool.eq_false_iff.mpr fun given => hi (Automaton.lt_of_accepting given)
    rw [none]
    rcases Nat.lt_or_eq_of_le (Nat.le_of_not_lt hi) with lt | rfl
    · refine Bool.eq_false_iff.mpr fun given => ?_
      have below := Automaton.lt_of_accepting given
      rw [h.size] at below
      exact absurd lt (Nat.not_lt.mpr (Nat.le_of_lt_succ below))
    · exact h.rejects

/-- Whatever is not empty begins with an empty step from the start. -/
theorem path_iff (h : r.Entered m) (range : r.automaton.InRange) (within : r.automaton.Within r.initial) :
    m.Path m.start word j ↔ (word = [] ∧ j = m.start) ∨ ∃ p ∈ r.initial, r.automaton.Path p word j := by
  rw [h.start]
  refine ⟨fun path => ?_, fun given => ?_⟩
  · cases path with
    | nil => exact Or.inl ⟨rfl, rfl⟩
    | silent step rest =>
      have hp := (h.step.mp step).2
      exact Or.inr ⟨_, hp, (h.old.path_iff range (within _ hp)).mp rest⟩
    | read step rest => exact nomatch (h.step.mp step).1
  · obtain ⟨rfl, rfl⟩ | ⟨p, hp, path⟩ := given
    · exact .nil _
    · exact .silent (h.step.mpr ⟨rfl, hp⟩) ((h.old.path_iff range (within p hp)).mpr path)

theorem recognizes (h : r.Entered m) (range : r.automaton.InRange) (within : r.automaton.Within r.initial) :
    m.Recognizes word ↔ ∃ p ∈ r.initial, r.automaton.RecognizesFrom p word := by
  refine ⟨fun given => ?_, fun given => ?_⟩
  · obtain ⟨j, path, accepting⟩ := given
    obtain ⟨-, rfl⟩ | ⟨p, hp, path⟩ := (h.path_iff range within).mp path
    · rw [h.start, h.rejects] at accepting
      cases accepting
    · exact ⟨p, hp, j, path, h.accepting j ▸ accepting⟩
  · obtain ⟨p, hp, j, path, accepting⟩ := given
    exact ⟨j, (h.path_iff range within).mpr (Or.inr ⟨p, hp, path⟩), (h.accepting j).trans accepting⟩

end Entered

/-- `m` is the reversed automaton with a single start. -/
inductive Started (r : Reversed) : Automaton → Prop where
  | single {p : StateId} (initial : r.initial = {p}) : Started r { r.automaton with start := p }
  | several {m : Automaton} (initial : ∀ p, r.initial ≠ {p}) (entered : r.Entered m) : Started r m

namespace Started

theorem old (h : r.Started m) : m.Extends r.automaton := by
  cases h with
  | single => exact fun _ _ => rfl
  | several _ entered => exact entered.old

theorem accepting (h : r.Started m) (i : StateId) : m.accepting i = r.automaton.accepting i := by
  cases h with
  | single => rfl
  | several _ entered => exact entered.accepting i

theorem inRange (h : r.Started m) (range : r.automaton.InRange) : m.InRange := by
  cases h with
  | single => exact range
  | several _ entered => exact entered.inRange

theorem start_lt (h : r.Started m) (within : r.automaton.Within r.initial) : m.start < m.size := by
  cases h with
  | single initial => exact within _ (initial ▸ StateSet.mem_singleton.mpr rfl)
  | several _ entered => exact entered.start_lt

theorem wellFormed (h : r.Started m) (wf : r.automaton.WellFormed) (within : r.automaton.Within r.initial) :
    m.WellFormed := by
  cases h with
  | @single p initial =>
    have lt : p < r.automaton.size := within _ (initial ▸ StateSet.mem_singleton.mpr rfl)
    exact wf.setStart (if_pos lt)
  | several _ entered => exact entered.wellFormed

/-- It recognises what is recognised from some initial state. -/
theorem recognizes (h : r.Started m) (range : r.automaton.InRange) (within : r.automaton.Within r.initial) :
    m.Recognizes word ↔ ∃ p ∈ r.initial, r.automaton.RecognizesFrom p word := by
  cases h with
  | @single p initial =>
    have lt : p < r.automaton.size := within _ (initial ▸ StateSet.mem_singleton.mpr rfl)
    have old : Automaton.Extends { r.automaton with start := p } r.automaton := fun _ _ => rfl
    simp only [initial, StateSet.mem_singleton, exists_eq_left]
    exact old.recognizesFrom_iff range lt
  | several _ entered => exact entered.recognizes range within

end Started

theorem Of.within {fa : Automaton} {visited : List StateId} (h : Of fa visited r) : r.automaton.Within r.initial :=
  h.completeFromSet.within

end Reversed

/-! ### Reversal with a single start -/

namespace Automaton

variable {fa : Automaton} {word : List Char}

theorem exists_started {r : Reversed} {states : List (Kind × Bool)} {arcs : List Arc} {start : StateId}
    (made : r.automaton = assembled states arcs start) (allowed : ∀ a ∈ arcs, Allowed states a)
    (range : ∀ a ∈ arcs, a.target < states.length) (initial : r.automaton.Within r.initial) :
    ∃ m, r.withStart = .ok m ∧ r.Started m := by
  by_cases single : ∃ p, r.initial = {p}
  · obtain ⟨p, single⟩ := single
    exact ⟨_, Reversed.withStart_of_single single (initial p (single ▸ StateSet.mem_singleton.mpr rfl)), .single single⟩
  · have several : ∀ p, r.initial ≠ {p} := fun p hp => single ⟨p, hp⟩
    refine ⟨_, Reversed.withStart_of_several allowed made several, .several several ?_⟩
    refine Reversed.entered_enteredAt allowed made range fun p hp => ?_
    have lt := initial p hp
    rwa [made, size_assembled] at lt

/-- The walk that is turned round, the reversed automaton and the same with a single start. -/
theorem exists_reverse_started (h : fa.Complete) : ∃ v r m, fa.view = .ok v ∧ fa.reverseEdges = .ok r ∧
    fa.reverse = .ok m ∧ Reversed.Of fa v.states r ∧ r.automaton.WellFormed ∧
    (fa.isEmpty = false → v.states[r.automaton.start]? = some fa.start) ∧ r.Started m := by
  rcases h with empty | complete
  · obtain ⟨made, spec⟩ := reverseEdges_of_isEmpty empty
    have view := view_of_size_le (Nat.le_of_not_lt (start_not_lt empty))
    have blank : ({} : Automaton) = assembled [] [] 0 := rfl
    obtain ⟨m, started, enters⟩ := exists_started (r := { automaton := {}, initial := ∅ }) blank nofun nofun spec.within
    refine ⟨_, _, m, view, made, ?_, spec, .empty, fun nonempty => ?_, enters⟩
    · rw [reverse, made]
      exact started
    · rw [empty] at nonempty
      cases nonempty
  · have spec := of_turnedRound complete
    have mem : fa.start ∈ fa.seen.states := (mem_seen complete).mpr (.refl fa.start)
    have allowed : ∀ a ∈ fa.turned fa.seen.states, Allowed fa.turnedStates a := fun a ha => allowed_turned complete ha
    obtain ⟨m, started, enters⟩ := exists_started (r := fa.turnedRound) rfl allowed
      (fun a ha => target_lt_of_mem_turned complete ha) spec.within
    refine ⟨_, _, m, view_eq complete, reverseEdges_eq complete, ?_, spec, wellFormed_turnedRound complete,
      fun _ => List.getElem?_idxOf mem, enters⟩
    rw [reverse, reverseEdges_eq complete]
    exact started

/-- Reversal with a single start succeeds, and the automaton accepts the words that are accepted backwards. Its states are
    those visited, with the steps between them turned round, and an entry at most; it accepts at the old start only. -/
theorem reverse_accepts (range : fa.InRange) (start : fa.start < fa.size ∨ fa.isEmpty = true) :
    ∃ v m, fa.view = .ok v ∧ fa.reverse = .ok m ∧
      (∀ word : List Char, ∃ b, fa.accepts word.reverse = .ok b ∧ m.accepts word = .ok b) ∧
      (∀ p < v.states.length, ∀ q a, m.Step p a q ↔
        ∃ i j, v.states[q]? = some i ∧ v.states[p]? = some j ∧ fa.Step i a j) ∧
      (fa.isEmpty = false → ∃ q, v.states[q]? = some fa.start ∧ ∀ p, m.accepting p = true ↔ p = q) := by
  have complete := range.complete start
  obtain ⟨v, r, m, view, -, made, spec, -, place, started⟩ := exists_reverse_started complete
  have complete' : m.Complete := Or.inr ((started.inRange spec.inRange).completeFrom (started.start_lt spec.within))
  refine ⟨v, m, view, made, fun word => ?_, fun p hp q a => ?_, fun nonempty => ?_⟩
  · obtain ⟨b, answer⟩ := exists_accepts_eq complete word.reverse
    refine ⟨b, answer, (accepts_eq_ok_iff complete').mpr ?_⟩
    rw [started.recognizes spec.inRange spec.within, spec.exists_recognizesFrom complete]
    exact (accepts_eq_ok_iff complete).mp answer
  · rw [started.old.step_iff (spec.size ▸ hp), spec.step]
  · refine ⟨_, place nonempty, fun p => ?_⟩
    rw [started.accepting, spec.accepting]
    refine ⟨fun given => spec.place_unique given (place nonempty), fun same => ?_⟩
    rw [same, place nonempty]

/-- An accepting start on a cycle of empty steps, a second accepting state that leads back to it, and an accepting state
    that nothing leads to. -/
def homing : Automaton :=
  assembled [(.nfa, true), (.nfa, false), (.nfa, true), (.nfa, true)]
    [⟨0, 1, .epsilon⟩, ⟨1, 0, .epsilon⟩, ⟨1, 2, .char 'a'⟩, ⟨1, 2, .char 'b'⟩, ⟨2, 0, .char 'c'⟩, ⟨3, 0, .char 'a'⟩] 0

theorem reverse_accepts_homing : homing.InRange ∧ homing.start < homing.size ∧ ∃ m, homing.reverse = .ok m ∧
    homing.accepts ['a', 'c', 'b'] = .ok true ∧ m.accepts ['b', 'c', 'a'] = .ok true ∧
    homing.accepts ['c', 'a'] = .ok false ∧ m.accepts ['a', 'c'] = .ok false ∧
    ∃ q, ∀ p, m.accepting p = true ↔ p = q := by
  have range : homing.InRange := inRange_assembled (by decide)
  have start : homing.start < homing.size := by decide
  have accepted : homing.accepts ['a', 'c', 'b'] = .ok true := by decide +kernel
  have rejected : homing.accepts ['c', 'a'] = .ok false := by decide +kernel
  obtain ⟨v, m, -, made, words, -, only⟩ := reverse_accepts range (Or.inl start)
  obtain ⟨b, given, same⟩ := words ['b', 'c', 'a']
  obtain ⟨b', given', same'⟩ := words ['a', 'c']
  obtain rfl := Except.ok.inj (given.symm.trans accepted)
  obtain rfl := Except.ok.inj (given'.symm.trans rejected)
  obtain ⟨q, -, only⟩ := only rfl
  exact ⟨range, start, m, made, accepted, same, rejected, same', q, only⟩

end Automaton
end FiniteAutomata
