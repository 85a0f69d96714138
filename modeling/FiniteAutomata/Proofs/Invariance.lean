import FiniteAutomata.Proofs.DoubleReversal
import FiniteAutomata.Proofs.Renaming

/-! The subset construction does not see how its input is numbered. A renaming of the reachable states carries paths over
    in both directions, so it takes the closure of a set to the closure of its image and a step of it to the step of the
    image. The sets found from either side then correspond one to one, met in the same order of characters, and what
    is numbered is the same, however the members of a set are listed and whatever else the two automata contain. -/

namespace FiniteAutomata
namespace Automaton

/-- A bijection between the reachable states that keeps the start, acceptance and all steps, the empty ones included. -/
structure Renames (fa fb : Automaton) (f : StateId → StateId) : Prop extends Isomorphism fa fb f where
  silent : ∀ {i j}, fa.Reachable i → fa.Reachable j → (fa.Step i .epsilon j ↔ fb.Step (f i) .epsilon (f j))

/-- The second set holds the images of the members of the first, all of which are reachable. -/
structure Mirrors (fa : Automaton) (f : StateId → StateId) (s t : StateSet) : Prop where
  reachable : ∀ {i}, i ∈ s → fa.Reachable i
  mem : ∀ {j}, j ∈ t ↔ ∃ i ∈ s, f i = j

variable {fa fb : Automaton} {f : StateId → StateId} {i j : StateId} {a : Symbol} {c : Char} {word : List Char}
  {s t : StateSet}

theorem Mirrors.completeFromSet (h : Mirrors fa f s t) (range : fa.InRange) : fa.CompleteFromSet s := fun _ hi =>
  (range.completeFrom (h.reachable hi).1).of_leads (h.reachable hi).2

namespace Renames

/-! ### Steps and paths -/

variable (renames : fa.Renames fb f)
include renames

theorem step_iff (hi : fa.Reachable i) (hj : fa.Reachable j) : fa.Step i a j ↔ fb.Step (f i) a (f j) := by
  cases a with
  | epsilon => exact renames.silent hi hj
  | char c => exact renames.step hi hj c

theorem step_forth (hi : fa.Reachable i) (step : fa.Step i a j) : fb.Step (f i) a (f j) :=
  (renames.step_iff hi (hi.step step)).mp step

theorem step_back (hi : fa.Reachable i) (step : fb.Step (f i) a j) : ∃ k, fa.Step i a k ∧ f k = j := by
  obtain ⟨k, hk, rfl⟩ := renames.bijOn.surjOn (Reachable.step (renames.bijOn.mapsTo hi) step)
  exact ⟨k, (renames.step_iff hi hk).mpr step, rfl⟩

theorem path_forth (hi : fa.Reachable i) (path : fa.Path i word j) : fb.Path (f i) word (f j) := by
  induction path with
  | nil => exact .nil _
  | silent step _ ih => exact .silent (renames.step_forth hi step) (ih (hi.step step))
  | read step _ ih => exact .read (renames.step_forth hi step) (ih (hi.step step))

theorem path_back (hi : fa.Reachable i) (path : fb.Path (f i) word j) : ∃ k, fa.Path i word k ∧ f k = j := by
  generalize same : f i = i' at path
  induction path generalizing i with
  | nil => exact ⟨i, .nil i, same⟩
  | silent step _ ih =>
    obtain ⟨k, step', rfl⟩ := renames.step_back hi (same ▸ step)
    obtain ⟨l, rest, hl⟩ := ih (hi.step step') rfl
    exact ⟨l, .silent step' rest, hl⟩
  | read step _ ih =>
    obtain ⟨k, step', rfl⟩ := renames.step_back hi (same ▸ step)
    obtain ⟨l, rest, hl⟩ := ih (hi.step step') rfl
    exact ⟨l, .read step' rest, hl⟩

theorem start_lt_iff : fa.start < fa.size ↔ fb.start < fb.size := by
  constructor
  · intro lt
    exact (renames.bijOn.mapsTo ⟨lt, .refl fa.start⟩).1
  · intro lt
    obtain ⟨i, hi, -⟩ := renames.bijOn.surjOn ⟨lt, .refl fb.start⟩
    exact hi.1

/-! ### Sets -/

theorem biUnique_mirrors : Relator.BiUnique (Mirrors fa f) := by
  constructor
  · intro s s' t hs hs'
    have sub : ∀ {s s'}, Mirrors fa f s t → Mirrors fa f s' t → ∀ i ∈ s, i ∈ s' := by
      intro s s' hs hs' i hi
      obtain ⟨j, hj, same⟩ := hs'.mem.mp (hs.mem.mpr ⟨i, hi, rfl⟩)
      rwa [← renames.bijOn.injOn (hs'.reachable hj) (hs.reachable hi) same]
    ext i
    exact ⟨sub hs hs' i, sub hs' hs i⟩
  · intro s t t' ht ht'
    ext j
    rw [ht.mem, ht'.mem]

theorem acceptsAt_eq (h : Mirrors fa f s t) : fa.acceptsAt s = fb.acceptsAt t := by
  rw [Bool.eq_iff_iff, acceptsAt_iff, acceptsAt_iff]
  constructor
  · rintro ⟨i, hi, accepting⟩
    exact ⟨f i, h.mem.mpr ⟨i, hi, rfl⟩, by rwa [← renames.accepting (h.reachable hi)]⟩
  · rintro ⟨j, hj, accepting⟩
    obtain ⟨i, hi, rfl⟩ := h.mem.mp hj
    exact ⟨i, hi, by rwa [renames.accepting (h.reachable hi)]⟩

theorem image (h : Mirrors fa f s t) (c : Char) : Mirrors fa f (fa.image s c) (fb.image t c) where
  reachable hi := by
    obtain ⟨k, hk, step⟩ := mem_image.mp hi
    exact (h.reachable hk).step step
  mem {j} := by
    rw [mem_image]
    constructor
    · rintro ⟨j', hj', step⟩
      obtain ⟨i, hi, rfl⟩ := h.mem.mp hj'
      obtain ⟨k, step, hk⟩ := renames.step_back (h.reachable hi) step
      exact ⟨k, mem_image.mpr ⟨i, hi, step⟩, hk⟩
    · rintro ⟨k, hk, rfl⟩
      obtain ⟨i, hi, step⟩ := mem_image.mp hk
      exact ⟨f i, h.mem.mpr ⟨i, hi, rfl⟩, renames.step_forth (h.reachable hi) step⟩

/-- A character is read from a set as from its image. -/
theorem reads_iff (h : Mirrors fa f s t) :
    (∃ i ∈ s, ∃ j, fa.Step i (.char c) j) ↔ ∃ i ∈ t, ∃ j, fb.Step i (.char c) j := by
  constructor
  · rintro ⟨i, hi, j, step⟩
    exact ⟨f i, h.mem.mpr ⟨i, hi, rfl⟩, f j, renames.step_forth (h.reachable hi) step⟩
  · rintro ⟨i', hi', j', step⟩
    obtain ⟨i, hi, rfl⟩ := h.mem.mp hi'
    obtain ⟨j, step, -⟩ := renames.step_back (h.reachable hi) step
    exact ⟨i, hi, j, step⟩

variable (range : fa.InRange) (range' : fb.InRange)
include range range'

omit range in
theorem completeFromSet_image (h : Mirrors fa f s t) : fb.CompleteFromSet t := fun j hj => by
  obtain ⟨i, hi, rfl⟩ := h.mem.mp hj
  obtain ⟨start, lead⟩ := renames.bijOn.mapsTo (h.reachable hi)
  exact (range'.completeFrom start).of_leads lead

theorem closure (h : Mirrors fa f s t) : Mirrors fa f (fa.closure s) (fb.closure t) where
  reachable hi := by
    obtain ⟨k, hk, path⟩ := (mem_closure (h.completeFromSet range)).mp hi
    exact ⟨(h.reachable hk).1, (h.reachable hk).2.trans path.leads⟩
  mem {j} := by
    rw [mem_closure (renames.completeFromSet_image range' h)]
    constructor
    · rintro ⟨j', hj', path⟩
      obtain ⟨i, hi, rfl⟩ := h.mem.mp hj'
      obtain ⟨k, path, hk⟩ := renames.path_back (h.reachable hi) path
      exact ⟨k, (mem_closure (h.completeFromSet range)).mpr ⟨i, hi, path⟩, hk⟩
    · rintro ⟨k, hk, rfl⟩
      obtain ⟨i, hi, path⟩ := (mem_closure (h.completeFromSet range)).mp hk
      exact ⟨f i, h.mem.mpr ⟨i, hi, rfl⟩, renames.path_forth (h.reachable hi) path⟩

theorem step_mirrors (h : Mirrors fa f s t) (c : Char) : Mirrors fa f (fa.step s c) (fb.step t c) :=
  renames.closure range range' (renames.image h c)

/-- A set moves as its image does, character by character. -/
theorem forall₂_moves (h : Mirrors fa f s t) : List.Forall₂ (fun p q => p.1 = q.1 ∧ Mirrors fa f p.2 q.2)
    (fa.subsetSystem.moves s) (fb.subsetSystem.moves t) := by
  refine System.forall₂_of_ascending (ordered_subsetSystem fa s) (ordered_subsetSystem fb t) ?_ ?_ ?_
  · rintro ⟨c, u⟩ hu
    exact ⟨(c, fb.step t c), mem_stepsFrom.mpr ⟨rfl, (renames.reads_iff h).mp (mem_stepsFrom.mp hu).2⟩, rfl⟩
  · rintro ⟨c, u⟩ hu
    exact ⟨(c, fa.step s c), mem_stepsFrom.mpr ⟨rfl, (renames.reads_iff h).mpr (mem_stepsFrom.mp hu).2⟩, rfl⟩
  · rintro ⟨c, u⟩ hu ⟨d, v⟩ hv same
    obtain rfl : c = d := same
    obtain ⟨rfl, -⟩ := mem_stepsFrom.mp hu
    obtain ⟨rfl, -⟩ := mem_stepsFrom.mp hv
    exact renames.step_mirrors range range' h c

theorem determinizeFrom_eq (h : Mirrors fa f s t) :
    ∃ d, fa.determinizeFrom s = .ok d ∧ fb.determinizeFrom t = .ok d := by
  have complete := h.completeFromSet range
  have complete' := renames.completeFromSet_image range' h
  refine ⟨_, Automaton.determinizeFrom_eq complete, ?_⟩
  rw [Automaton.determinizeFrom_eq complete']
  exact congrArg Except.ok (System.tabulated_eq_of_explore renames.biUnique_mirrors
    (fun _ _ h => renames.forall₂_moves range range' h) (fun _ _ h => renames.acceptsAt_eq h)
    (renames.closure range range' h) (closed_subsets complete) (closed_subsets complete')).symm

end Renames

/-! ### The construction -/

/-- Automata that differ by the names of their reachable states alone are determinized to one and the same automaton,
    numbers and order of edges included. Their kinds of states, the order of their edges and whatever cannot be reached
    play no part. -/
theorem determinize_eq_of_renames (renames : fa.Renames fb f) (range : fa.InRange) (range' : fb.InRange) :
    ∃ d, fa.determinize = .ok d ∧ fb.determinize = .ok d := by
  refine renames.determinizeFrom_eq range range' ?_
  by_cases start : fa.start < fa.size
  · rw [if_pos start, if_pos (renames.start_lt_iff.mp start)]
    constructor
    · rintro i hi
      obtain rfl := StateSet.mem_singleton.mp hi
      exact ⟨start, .refl fa.start⟩
    · simp [renames.start, eq_comm]
  · rw [if_neg start, if_neg (mt renames.start_lt_iff.mpr start)]
    constructor
    · exact fun hi => absurd hi (StateSet.not_mem_empty _)
    · simp

/-- The states of `tangled` in another order and of other kinds, with their edges in another order, and a state with a
    step of its own that nothing leads to. -/
def retangled : Automaton :=
  assembled [(.nfa, true), (.dfa, false), (.nfa, false), (.dfa, false)]
    [⟨2, 3, .char 'b'⟩, ⟨0, 0, .char 'a'⟩, ⟨0, 2, .epsilon⟩, ⟨1, 3, .char 'c'⟩, ⟨2, 0, .epsilon⟩] 2

theorem renames_retangled : tangled.Renames retangled fun i => [2, 0, 3].getD i i := by
  have range : tangled.InRange := inRange_assembled (by decide)
  have range' : retangled.InRange := inRange_assembled (by decide)
  have left : ∀ i, tangled.Reachable i ↔ i ∈ [0, 1, 2] := fun i => by
    have seen : tangled.seen.states = [0, 1, 2] := by decide +kernel
    rw [← mem_seen_iff_reachable (range.completeFrom (by decide)), seen]
  have right : ∀ i, retangled.Reachable i ↔ i ∈ [2, 3, 0] := fun i => by
    have seen : retangled.seen.states = [2, 3, 0] := by decide +kernel
    rw [← mem_seen_iff_reachable (range'.completeFrom (by decide)), seen]
  have into : ∀ i ∈ [0, 1, 2], [2, 0, 3].getD i i ∈ [2, 3, 0] := by decide
  have apart : ∀ i ∈ [0, 1, 2], ∀ j ∈ [0, 1, 2], [2, 0, 3].getD i i = [2, 0, 3].getD j j → i = j := by decide
  have onto : ∀ j ∈ [2, 3, 0], ∃ i ∈ [0, 1, 2], [2, 0, 3].getD i i = j := by decide
  have accepting : ∀ i ∈ [0, 1, 2], tangled.accepting i = retangled.accepting ([2, 0, 3].getD i i) := by decide
  have step : ∀ i ∈ [0, 1, 2], ∀ j ∈ [0, 1, 2], ∀ a, tangled.Step i a j ↔
      retangled.Step ([2, 0, 3].getD i i) a ([2, 0, 3].getD j j) := by
    intro i hi j hj a
    rw [tangled, retangled, step_assembled (by decide), step_assembled (by decide)]
    simp only [List.mem_cons, List.not_mem_nil, or_false] at hi hj
    rcases hi with rfl | rfl | rfl <;> rcases hj with rfl | rfl | rfl <;> simp
  refine ⟨⟨rfl, ⟨?_, ?_, ?_⟩, fun {i} hi => ?_, fun {i j} hi hj c => ?_⟩, fun {i j} hi hj => ?_⟩
  · exact fun i hi => (right _).mpr (into i ((left i).mp hi))
  · exact fun i hi j hj => apart i ((left i).mp hi) j ((left j).mp hj)
  · intro j hj
    obtain ⟨i, hi, same⟩ := onto j ((right j).mp hj)
    exact ⟨i, (left i).mpr hi, same⟩
  · exact accepting i ((left i).mp hi)
  · exact step i ((left i).mp hi) j ((left j).mp hj) (.char c)
  · exact step i ((left i).mp hi) j ((left j).mp hj) .epsilon

theorem determinize_eq_of_renames_retangled : tangled.InRange ∧ retangled.InRange ∧
    (tangled.Renames retangled fun i => [2, 0, 3].getD i i) ∧
    ∃ d, tangled.determinize = .ok d ∧ retangled.determinize = .ok d ∧ d.size = 2 := by
  have range : tangled.InRange := inRange_assembled (by decide)
  have range' : retangled.InRange := inRange_assembled (by decide)
  obtain ⟨d, made, made'⟩ := determinize_eq_of_renames renames_retangled range range'
  exact ⟨range, range', renames_retangled, d, made, made', size_eq_of_map made (by decide +kernel)⟩

end Automaton
end FiniteAutomata
