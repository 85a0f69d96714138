import FiniteAutomata.Automaton.Simulation
import FiniteAutomata.Proofs.Reachability

/-! Running an automaton with all its active states at once follows exactly its paths: the active set after a
    word holds the ends of the paths that spell it, so a word is accepted when it is recognised. -/

namespace FiniteAutomata
namespace Automaton

variable {fa : Automaton} {s : StateSet} {i j k : StateId} {c : Char} {word : List Char}

/-! ### Splitting paths -/

theorem Path.split {u v : List Char} (h : fa.Path i (u ++ v) k) : ∃ j, fa.Path i u j ∧ fa.Path j v k := by
  generalize hw : u ++ v = w at h
  induction h generalizing u with
  | nil i =>
    obtain ⟨rfl, rfl⟩ := List.append_eq_nil_iff.mp hw
    exact ⟨i, .nil i, .nil i⟩
  | silent step _ ih =>
    obtain ⟨j, first, second⟩ := ih hw
    exact ⟨j, .silent step first, second⟩
  | read step rest ih =>
    cases u with
    | nil =>
      subst hw
      exact ⟨_, .nil _, .read step rest⟩
    | cons d u =>
      obtain ⟨rfl, rfl⟩ := List.cons.inj hw
      obtain ⟨j, first, second⟩ := ih rfl
      exact ⟨j, .read step first, second⟩

theorem path_cons_iff : fa.Path i (c :: word) k ↔
    ∃ j l, fa.Path i [] j ∧ fa.Step j (.char c) l ∧ fa.Path l word k := by
  refine ⟨fun h => ?_, fun h => ?_⟩
  · generalize hw : c :: word = w at h
    induction h with
    | nil => cases hw
    | silent step _ ih =>
      obtain ⟨j, l, silent, read, rest⟩ := ih hw
      exact ⟨j, l, .silent step silent, read, rest⟩
    | read step rest =>
      obtain ⟨rfl, rfl⟩ := List.cons.inj hw
      exact ⟨_, _, .nil _, step, rest⟩
  · rcases h with ⟨j, l, silent, read, rest⟩
    exact silent.append (.read read rest)

/-- What goes along empty steps holds at the end of a path that reads nothing, if at its start. -/
theorem Path.silent_induction {P : StateId → Prop} (path : fa.Path i [] j)
    (kept : ∀ k l, P k → fa.Step k .epsilon l → P l) (start : P i) : P j := by
  generalize hw : ([] : List Char) = w at path
  induction path with
  | nil => exact start
  | silent step _ ih => exact ih (kept _ _ start step) hw
  | read => cases hw

/-! ### Sets of states -/

theorem mem_targetsOn {edges : List Edge} {a : Symbol} :
    j ∈ targetsOn edges a ↔ ∃ e ∈ edges, a ∈ e.label ∧ e.target = j := by
  simp [targetsOn, and_assoc]

theorem mem_edgesOfSet {e : Edge} : e ∈ fa.edgesOfSet s ↔ ∃ i ∈ s, e ∈ fa.edgesOf i := by
  simp [edgesOfSet]

theorem mem_targetsOn_edgesOfSet {a : Symbol} : j ∈ targetsOn (fa.edgesOfSet s) a ↔ ∃ i ∈ s, fa.Step i a j := by
  rw [mem_targetsOn]
  refine ⟨fun h => ?_, fun h => ?_⟩
  · rcases h with ⟨e, he, ha, target⟩
    obtain ⟨i, hi, he⟩ := mem_edgesOfSet.mp he
    exact ⟨i, hi, e, he, ha, target⟩
  · rcases h with ⟨i, hi, e, he, ha, target⟩
    exact ⟨e, mem_edgesOfSet.mpr ⟨i, hi, he⟩, ha, target⟩

theorem mem_image : j ∈ fa.image s c ↔ ∃ i ∈ s, fa.Step i (.char c) j := by
  rw [image, StateSet.mem_ofList, mem_targetsOn_edgesOfSet]

theorem toList_singleton (i : StateId) : ({i} : StateSet).toList = [i] := by
  have only : ∀ j ∈ ({i} : StateSet).toList, j = i := fun j hj => StateSet.mem_singleton.mp (StateSet.mem_toList.mp hj)
  have nodup := StateSet.toList_nodup {i}
  have mem : i ∈ ({i} : StateSet).toList := StateSet.mem_toList.mpr (StateSet.mem_singleton.mpr rfl)
  cases h : ({i} : StateSet).toList with
  | nil => rw [h] at mem; cases mem
  | cons j rest =>
    rw [h] at only nodup
    obtain rfl := only j List.mem_cons_self
    cases rest with
    | nil => rfl
    | cons k rest =>
      obtain rfl := only k (by simp)
      simp at nodup

/-- All that a set of states leads to exists. -/
def CompleteFromSet (fa : Automaton) (s : StateSet) : Prop := ∀ i ∈ s, fa.CompleteFrom i

/-- The closure holds the ends of the paths that read nothing. -/
theorem mem_closure (h : fa.CompleteFromSet s) : j ∈ fa.closure s ↔ ∃ i ∈ s, fa.Path i [] j := by
  rw [closure, StateSet.mem_reach]
  have silent : ∀ {k l}, l ∈ targetsOn (fa.edgesOf k) .epsilon → fa.Step k .epsilon l := fun hl => mem_targetsOn.mp hl
  have sound : ∀ l ∈ explore (fun i => targetsOn (fa.edgesOf i) .epsilon) fa.size [] s.toList,
      ∃ i ∈ s, fa.Path i [] l := by
    refine explore_induction ?_ ?_
    · rintro k ⟨i, hi, path⟩ l hl
      exact ⟨i, hi, path.append (.silent (silent hl) (.nil l))⟩
    · intro k hk
      exact ⟨k, by simpa using hk, .nil k⟩
  constructor
  · exact sound j
  · rintro ⟨i, hi, path⟩
    have closed : Closed (fun i => targetsOn (fa.edgesOf i) .epsilon)
        (explore (fun i => targetsOn (fa.edgesOf i) .epsilon) fa.size [] s.toList) := by
      refine closed_explore (List.range fa.size) (fun k hk => ?_) (by simp) (by simpa using s.toList_nodup) (by simp)
      obtain ⟨l, hl, path⟩ := sound k hk
      exact List.mem_range.mpr (h l hl k path.leads)
    refine path.silent_induction (fun k l hk step => closed k hk l (mem_targetsOn.mpr step)) ?_
    exact mem_explore_of_mem (by simpa using hi)

theorem CompleteFromSet.image (h : fa.CompleteFromSet s) (c : Char) : fa.CompleteFromSet (fa.image s c) := by
  intro j hj
  obtain ⟨i, hi, step⟩ := mem_image.mp hj
  exact (h i hi).of_leads step.leads

theorem CompleteFromSet.closure (h : fa.CompleteFromSet s) : fa.CompleteFromSet (fa.closure s) := by
  intro j hj
  obtain ⟨i, hi, path⟩ := (mem_closure h).mp hj
  exact (h i hi).of_leads path.leads

theorem CompleteFromSet.step (h : fa.CompleteFromSet s) (c : Char) : fa.CompleteFromSet (fa.step s c) :=
  (h.image c).closure

theorem CompleteFromSet.holds (h : fa.CompleteFromSet s) : fa.holds s = true := by
  simp only [Automaton.holds, List.all_eq_true, StateSet.mem_toList, decide_eq_true_eq]
  exact fun i hi => (h i hi).lt

theorem CompleteFromSet.delta_eq (h : fa.CompleteFromSet s) (c : Char) : fa.delta s c = .ok (fa.image s c) :=
  if_pos h.holds

theorem CompleteFromSet.epsilonClosure_eq (h : fa.CompleteFromSet s) : fa.epsilonClosure s = .ok (fa.closure s) :=
  if_pos h.closure.holds

theorem completeFromSet_singleton (h : fa.CompleteFrom i) : fa.CompleteFromSet {i} := by
  intro j hj
  rw [StateSet.mem_singleton] at hj
  exact hj ▸ h

/-- The active set after a word holds the ends of the paths that spell it. -/
theorem mem_foldl_step (h : fa.CompleteFromSet s) (word : List Char) :
    j ∈ word.foldl fa.step (fa.closure s) ↔ ∃ i ∈ s, fa.Path i word j := by
  induction word generalizing s with
  | nil => exact mem_closure h
  | cons c word ih =>
    rw [List.foldl_cons, Automaton.step, ih (h.closure.image c)]
    refine ⟨fun given => ?_, fun given => ?_⟩
    · rcases given with ⟨l, hl, rest⟩
      obtain ⟨k, hk, read⟩ := mem_image.mp hl
      obtain ⟨i, hi, silent⟩ := (mem_closure h).mp hk
      exact ⟨i, hi, path_cons_iff.mpr ⟨k, l, silent, read, rest⟩⟩
    · rcases given with ⟨i, hi, path⟩
      obtain ⟨k, l, silent, read, rest⟩ := path_cons_iff.mp path
      exact ⟨l, mem_image.mpr ⟨k, (mem_closure h).mpr ⟨i, hi, silent⟩, read⟩, rest⟩

theorem acceptsAt_iff : fa.acceptsAt s = true ↔ ∃ i ∈ s, fa.accepting i = true := by
  simp [acceptsAt]

theorem acceptsAt_singleton (fa : Automaton) (i : StateId) : fa.acceptsAt {i} = fa.accepting i := by
  rw [acceptsAt, toList_singleton, List.any_cons, List.any_nil, Bool.or_false]

/-! ### Acceptance -/

theorem completeFromSet_empty (fa : Automaton) : fa.CompleteFromSet ∅ :=
  fun i hi => absurd hi (StateSet.not_mem_empty i)

theorem closure_empty (fa : Automaton) : fa.closure ∅ = ∅ := by
  ext i
  rw [mem_closure fa.completeFromSet_empty]
  simp

theorem foldl_step_empty (word : List Char) : word.foldl fa.step ∅ = ∅ := by
  ext i
  rw [← fa.closure_empty, mem_foldl_step fa.completeFromSet_empty, closure_empty]
  simp

theorem step_eq_empty (none : ¬∃ i ∈ s, ∃ j, fa.Step i (.char c) j) : fa.step s c = ∅ := by
  have image : fa.image s c = ∅ := by
    ext j
    rw [mem_image]
    constructor
    · rintro ⟨i, hi, step⟩
      exact absurd ⟨i, hi, j, step⟩ none
    · exact fun h => absurd h (StateSet.not_mem_empty j)
  rw [step, image, closure_empty]

theorem acceptsFrom_eq (h : fa.CompleteFromSet s) (word : List Char) :
    fa.acceptsFrom s word = .ok (fa.acceptsAt (word.foldl fa.step s)) := by
  induction word generalizing s with
  | nil =>
    rw [acceptsFrom, anyAccepting, h.holds, List.foldl_nil]
    cases fa.acceptsAt s <;> rfl
  | cons c word ih =>
    rw [acceptsFrom, h.delta_eq, List.foldl_cons]
    show (fa.epsilonClosure (fa.image s c) >>= fun next =>
      if next.isEmpty then return false else fa.acceptsFrom next word) = _
    rw [(h.image c).epsilonClosure_eq]
    show (if (fa.step s c).isEmpty then .ok false else fa.acceptsFrom (fa.step s c) word) = _
    by_cases none : fa.step s c = ∅
    · rw [if_pos (StateSet.isEmpty_iff.mpr none), none, foldl_step_empty]
      rfl
    · rw [if_neg fun h => none (StateSet.isEmpty_iff.mp h), ih (h.step c)]

theorem size_eq_zero (h : fa.isEmpty = true) : fa.size = 0 := by simpa [isEmpty, size] using h

theorem start_not_lt (h : fa.isEmpty = true) : ¬fa.start < fa.size := by
  rw [size_eq_zero h]
  exact Nat.not_lt_zero _

/-- The answer for a word is that of the active set after it. -/
theorem accepts_eq (h : fa.CompleteFrom fa.start) (word : List Char) :
    fa.accepts word = .ok (fa.acceptsAt (word.foldl fa.step (fa.closure {fa.start}))) := by
  have complete := completeFromSet_singleton h
  rw [accepts, if_neg fun empty => start_not_lt empty h.lt, complete.epsilonClosure_eq]
  exact acceptsFrom_eq complete.closure word

/-- There are no states, or all that the start leads to exists. -/
def Complete (fa : Automaton) : Prop := fa.isEmpty = true ∨ fa.CompleteFrom fa.start

theorem Complete.completeFrom (h : fa.Complete) (nonempty : fa.isEmpty = false) : fa.CompleteFrom fa.start :=
  h.resolve_left (Bool.eq_false_iff.mp nonempty)

theorem InRange.complete (h : fa.InRange) (start : fa.start < fa.size ∨ fa.isEmpty = true) : fa.Complete :=
  start.elim (fun hlt => Or.inr (h.completeFrom hlt)) Or.inl

theorem Usable.complete (h : fa.Usable) : fa.Complete := h.inRange.complete (h.wellFormed.start.imp_right And.left)

theorem not_recognizes_of_isEmpty (h : fa.isEmpty = true) : ¬fa.Recognizes word := by
  rintro ⟨j, -, hj⟩
  have := lt_of_accepting hj
  rw [size_eq_zero h] at this
  exact absurd this (Nat.not_lt_zero j)

/-- The answer for a word says whether some path to an accepting state spells it. -/
theorem accepts_eq_ok_iff (h : fa.Complete) {b : Bool} : fa.accepts word = .ok b ↔ (b = true ↔ fa.Recognizes word) := by
  by_cases empty : fa.isEmpty = true
  · rw [accepts, if_pos empty]
    have : ¬fa.Recognizes word := not_recognizes_of_isEmpty empty
    cases b <;> simp [this]
  · have complete := completeFromSet_singleton (h.resolve_left empty)
    have meaning : fa.acceptsAt (word.foldl fa.step (fa.closure {fa.start})) = true ↔ fa.Recognizes word := by
      rw [acceptsAt_iff]
      simp [mem_foldl_step complete, Recognizes, RecognizesFrom]
    rw [accepts_eq (h.resolve_left empty), ← meaning, Except.ok.injEq]
    cases fa.acceptsAt (word.foldl fa.step (fa.closure {fa.start})) <;> cases b <;> simp

theorem accepts_eq_true_iff (h : fa.Complete) : fa.accepts word = .ok true ↔ fa.Recognizes word := by
  simp [accepts_eq_ok_iff h]

theorem exists_accepts_eq (h : fa.Complete) (word : List Char) : ∃ b, fa.accepts word = .ok b := by
  by_cases hw : fa.Recognizes word
  · exact ⟨true, (accepts_eq_ok_iff h).mpr (by simp [hw])⟩
  · exact ⟨false, (accepts_eq_ok_iff h).mpr (by simp [hw])⟩

theorem accepts_congr {fb : Automaton} (ha : fa.Complete) (hb : fb.Complete)
    (h : fa.Recognizes word ↔ fb.Recognizes word) : fa.accepts word = fb.accepts word := by
  obtain ⟨b, hb'⟩ := exists_accepts_eq hb word
  rw [hb', accepts_eq_ok_iff ha, h]
  exact (accepts_eq_ok_iff hb).mp hb'

/-! ### Matching states -/

/-- A relation between the states of two automata that acceptance respects, and steps as far as some word is
    recognised where they lead. -/
structure Matching (fa fb : Automaton) (R : StateId → StateId → Prop) : Prop where
  accepting : ∀ {i p}, R i p → fa.accepting i = fb.accepting p
  forth : ∀ {i p j a}, R i p → fa.Step i a j → (∃ word, fa.RecognizesFrom j word) → ∃ q, fb.Step p a q ∧ R j q
  back : ∀ {i p q a}, R i p → fb.Step p a q → ∃ j, fa.Step i a j ∧ R j q

theorem Matching.recognizesFrom {fb : Automaton} {R : StateId → StateId → Prop} (h : Matching fa fb R) {p : StateId}
    (hip : R i p) : fb.RecognizesFrom p word ↔ fa.RecognizesFrom i word := by
  refine ⟨fun recognizes => ?_, fun recognizes => ?_⟩
  · obtain ⟨q, path, hq⟩ := recognizes
    induction path generalizing i with
    | nil => exact ⟨i, .nil i, (h.accepting hip).trans hq⟩
    | silent step _ ih =>
      obtain ⟨k, step', hk⟩ := h.back hip step
      obtain ⟨j, path', hj⟩ := ih hk hq
      exact ⟨j, .silent step' path', hj⟩
    | read step _ ih =>
      obtain ⟨k, step', hk⟩ := h.back hip step
      obtain ⟨j, path', hj⟩ := ih hk hq
      exact ⟨j, .read step' path', hj⟩
  · obtain ⟨j, path, hj⟩ := recognizes
    induction path generalizing p with
    | nil => exact ⟨p, .nil p, (h.accepting hip).symm.trans hj⟩
    | silent step rest ih =>
      obtain ⟨q, step', hq⟩ := h.forth hip step ⟨_, _, rest, hj⟩
      obtain ⟨r, path', hr⟩ := ih hq hj
      exact ⟨r, .silent step' path', hr⟩
    | read step rest ih =>
      obtain ⟨q, step', hq⟩ := h.forth hip step ⟨_, _, rest, hj⟩
      obtain ⟨r, path', hr⟩ := ih hq hj
      exact ⟨r, .read step' path', hr⟩

end Automaton
end FiniteAutomata
