import FiniteAutomata.Closing
import FiniteAutomata.Proofs.Checked

/-! Set simulation along paths. The closure of a set is the least set that holds it and goes along empty steps, and the
    loop over a stack finds just that: no state is put on the stack twice, so it is empty after as many rounds as the
    closure has members, cycles of empty steps or not, and by then every state that was found has been expanded. The
    active set after a word therefore holds the ends of the paths whose symbols, without the empty steps, are the word. -/

namespace FiniteAutomata

variable {fa : Automaton} {s t : StateSet} {i j : StateId} {n : Nat}

namespace Automaton

/-! ### The least closed set -/

theorem subset_closure (complete : fa.CompleteFromSet s) (hi : i ∈ s) : i ∈ fa.closure s :=
  (mem_closure complete).mpr ⟨i, hi, .nil i⟩

theorem closure_silent (complete : fa.CompleteFromSet s) (hi : i ∈ fa.closure s) (step : fa.Step i .epsilon j) :
    j ∈ fa.closure s := by
  obtain ⟨k, hk, path⟩ := (mem_closure complete).mp hi
  exact (mem_closure complete).mpr ⟨k, hk, path.append (.silent step (.nil j))⟩

theorem closure_subset (complete : fa.CompleteFromSet s) (begun : ∀ i ∈ s, i ∈ t)
    (closed : ∀ i ∈ t, ∀ j, fa.Step i .epsilon j → j ∈ t) : ∀ i ∈ fa.closure s, i ∈ t := by
  intro j hj
  obtain ⟨i, hi, path⟩ := (mem_closure complete).mp hj
  exact path.silent_induction (fun i j hi step => closed i hi j step) (begun i hi)

end Automaton

/-! ### The loop over a stack -/

namespace Closing

variable {w : Closing} {done stack : List StateId}

/-- Each state that has been found waits on the stack or is done, and only once. -/
structure Tracks (w : Closing) (done : List StateId) : Prop where
  nodup : (w.stack ++ done).Nodup
  mem : ∀ i, i ∈ w.found ↔ i ∈ w.stack ++ done

theorem tracks_first (s : StateSet) : (first s).Tracks [] where
  nodup := by
    rw [List.append_nil]
    exact List.nodup_reverse.mpr s.toList_nodup
  mem i := by simp [first]

theorem mem_follow {e : Edge} :
    i ∈ (w.follow e).found ↔ i ∈ w.found ∨ .epsilon ∈ e.label ∧ e.target = i := by
  rw [follow]
  split
  · next new => rw [StateSet.mem_insert, and_iff_right new.1, eq_comm (a := i)]
  · next old =>
    refine ⟨Or.inl, fun h => h.elim id fun given => ?_⟩
    by_contra hi
    exact old ⟨given.1, given.2 ▸ hi⟩

theorem Tracks.follow (h : w.Tracks done) (e : Edge) : (w.follow e).Tracks done := by
  rw [Closing.follow]
  split
  · next new =>
    refine ⟨List.nodup_cons.mpr ⟨fun mem => new.2 ((h.mem _).mpr mem), h.nodup⟩, fun i => ?_⟩
    rw [StateSet.mem_insert, h.mem, List.cons_append, List.mem_cons, or_comm]
  · exact h

theorem mem_foldl_follow (edges : List Edge) :
    i ∈ (edges.foldl follow w).found ↔ i ∈ w.found ∨ i ∈ Automaton.targetsOn edges .epsilon := by
  rw [Automaton.mem_targetsOn]
  induction edges generalizing w with
  | nil => simp
  | cons e edges ih =>
    rw [List.foldl_cons, ih, mem_follow, List.exists_mem_cons_iff, or_assoc]

theorem Tracks.foldl (h : w.Tracks done) (edges : List Edge) : (edges.foldl Closing.follow w).Tracks done := by
  induction edges generalizing w with
  | nil => exact h
  | cons e edges ih => exact ih (h.follow e)

/-- Between two rounds of the loop from a set: what has been found is in the closure, and holds the set and what empty
    steps of the states that are done lead to. -/
structure Covers (fa : Automaton) (s : StateSet) (w : Closing) (done : List StateId) : Prop extends Tracks w done where
  begun : ∀ i ∈ s, i ∈ w.found
  sound : ∀ i ∈ w.found, i ∈ fa.closure s
  expanded : ∀ i ∈ done, ∀ j, fa.Step i .epsilon j → j ∈ w.found

section Covers
variable (complete : fa.CompleteFromSet s)
include complete

theorem covers_first : Covers fa s (first s) [] where
  toTracks := tracks_first s
  begun _ hi := hi
  sound _ hi := Automaton.subset_closure complete hi
  expanded := nofun

theorem Covers.lt (h : Covers fa s w done) (hi : i ∈ w.stack ++ done) : i < fa.size :=
  (complete.closure i (h.sound i ((h.mem i).mpr hi))).lt

/-- A round expands what is on top. -/
theorem Covers.round (h : Covers fa s w done) (top : w.stack = i :: stack) :
    Covers fa s ((fa.edgesOf i).foldl follow { w with stack }) (i :: done) := by
  have moved : (w.stack ++ done).Perm (stack ++ i :: done) := by
    rw [top]
    exact List.perm_middle.symm
  have here : i ∈ w.found := (h.mem i).mpr (moved.mem_iff.mpr (by simp))
  have found : ∀ {j}, j ∈ ((fa.edgesOf i).foldl follow { w with stack }).found ↔ j ∈ w.found ∨ fa.Step i .epsilon j :=
    (mem_foldl_follow _).trans (or_congr_right Automaton.mem_targetsOn)
  have popped : Tracks { w with stack } (i :: done) := ⟨moved.nodup_iff.mp h.nodup, fun j => (h.mem j).trans moved.mem_iff⟩
  exact {
    toTracks := popped.foldl _
    begun := fun j hj => found.mpr (Or.inl (h.begun j hj))
    sound := fun j hj => (found.mp hj).elim (h.sound j) (Automaton.closure_silent complete (h.sound i here))
    expanded := fun k hk j step => by
      obtain rfl | hk := List.mem_cons.mp hk
      · exact found.mpr (Or.inr step)
      · exact found.mpr (Or.inl (h.expanded k hk j step)) }

/-- Each round puts one more state among those that are done, unless the stack is empty before. No look-up fails. -/
theorem Covers.exists_loop (h : Covers fa s w done) (n : Nat) : ∃ w' done', loop fa n w = .ok w' ∧ Covers fa s w' done' ∧
    done'.length ≤ n + done.length ∧ (w'.stack = [] ∨ done'.length = n + done.length) := by
  induction n generalizing w done with
  | zero => exact ⟨w, done, rfl, h, by omega, Or.inr (by omega)⟩
  | succ n ih =>
    rw [loop]
    cases top : w.stack with
    | nil => exact ⟨w, done, rfl, h, by omega, Or.inl top⟩
    | cons i stack =>
      have inside : i < fa.size := h.lt complete (by simp [top])
      obtain ⟨w', done', ran, covers, most, ended⟩ := ih (h.round complete top)
      rw [List.length_cons] at most ended
      refine ⟨w', done', ?_, covers, by omega, ended.imp_right (by omega)⟩
      dsimp only
      rw [Checked.bind_eq (Checked.state_eq inside), Checked.edges_stateAt, ran]

/-- The loop over a stack has found the closure when the stack is empty. That takes as many rounds as the closure has
    members, since each of them is expanded once. -/
theorem exists_loop_iff (n : Nat) : ∃ w, loop fa n (first s) = .ok w ∧ (w.stack = [] ↔ (fa.closure s).size ≤ n) ∧
    (w.stack = [] → w.found = fa.closure s) := by
  obtain ⟨w, done, ran, covers, most, ended⟩ := (covers_first complete).exists_loop complete n
  rw [List.length_nil, Nat.add_zero] at most ended
  have found : w.stack = [] → w.found = fa.closure s := fun empty => by
    have all : ∀ i, i ∈ w.found ↔ i ∈ done := fun i => by rw [covers.mem, empty, List.nil_append]
    refine StateSet.ext fun i => ⟨covers.sound i, ?_⟩
    exact Automaton.closure_subset complete covers.begun (fun i hi => covers.expanded i ((all i).mp hi)) i
  refine ⟨w, ran, ⟨fun empty => ?_, fun enough => ?_⟩, found⟩
  · have listed : ∀ i ∈ fa.closure s, i ∈ done := fun i hi => by
      rw [← found empty, covers.mem, empty, List.nil_append] at hi
      exact hi
    exact Nat.le_trans (StateSet.size_le_length listed) most
  · -- What waits and what is done are different members of the closure, and no more of them than it has.
    rcases ended with empty | full
    · exact empty
    · have few := StateSet.length_le_size covers.nodup fun i hi => covers.sound i ((covers.mem i).mpr hi)
      rw [List.length_append] at few
      exact List.length_eq_zero_iff.mp (by omega)

/-- The loop over a stack finds the closure. -/
theorem exists_loop_eq (enough : fa.size ≤ n) :
    ∃ w, loop fa n (first s) = .ok w ∧ w.stack = [] ∧ w.found = fa.closure s := by
  obtain ⟨w, ran, ends, found⟩ := exists_loop_iff complete n
  have few : (fa.closure s).size ≤ fa.size := StateSet.size_le fun i hi => (complete.closure i hi).lt
  have empty := ends.mpr (Nat.le_trans few enough)
  exact ⟨w, ran, empty, found empty⟩

end Covers
end Closing

namespace Automaton

/-! ### Acceptance -/

/-- A word is accepted exactly when the symbols of some path from the start to an accepting state, less the empty steps,
    are the word. Each closure on the way is what the loop over a stack finds. -/
theorem accepts_iff_exists_trace (range : fa.InRange) (start : fa.start < fa.size ∨ fa.isEmpty = true) :
    (∀ word, ∃ answer, fa.accepts word = .ok answer ∧ (answer = true ↔ ∃ symbols i, fa.Trace fa.start symbols i ∧
      fa.accepting i = true ∧ symbols.filterMap Symbol.char? = word)) ∧
    ∀ s : StateSet, (∀ i ∈ s, i < fa.size) → ∀ n, fa.size ≤ n → ∃ w, Closing.loop fa n (.first s) = .ok w ∧
      w.stack = [] ∧ fa.epsilonClosure s = .ok w.found := by
  refine ⟨fun word => ?_, fun s inside n enough => ?_⟩
  · have complete := range.complete start
    obtain ⟨answer, answered⟩ := exists_accepts_eq complete word
    refine ⟨answer, answered, ((accepts_eq_ok_iff complete).mp answered).trans ?_⟩
    rw [Recognizes, RecognizesFrom]
    simp only [path_iff_exists_trace]
    constructor
    · rintro ⟨i, ⟨symbols, trace, spelled⟩, accepting⟩
      exact ⟨symbols, i, trace, accepting, spelled⟩
    · rintro ⟨symbols, i, trace, accepting, spelled⟩
      exact ⟨i, ⟨symbols, trace, spelled⟩, accepting⟩
  · have complete : fa.CompleteFromSet s := fun i hi => range.completeFrom (inside i hi)
    obtain ⟨w, ran, empty, found⟩ := Closing.exists_loop_eq complete enough
    exact ⟨w, ran, empty, found ▸ complete.epsilonClosure_eq⟩

/-- An edge with the empty step and a character, an edge with two characters, and empty steps in a cycle. -/
def coiled : Automaton :=
  assembled [(.nfa, false), (.nfa, false), (.dfa, true)]
    [⟨0, 1, .epsilon⟩, ⟨0, 1, .char 'a'⟩, ⟨1, 0, .epsilon⟩, ⟨1, 2, .char 'b'⟩, ⟨1, 2, .char 'c'⟩] 0

theorem accepts_coiled : coiled.InRange ∧ (coiled.start < coiled.size ∨ coiled.isEmpty = true) ∧
    coiled.accepts ['a', 'c'] = .ok true ∧
    (¬∃ symbols i, coiled.Trace coiled.start symbols i ∧ coiled.accepting i = true ∧
      symbols.filterMap Symbol.char? = ['c', 'c']) ∧
    ∃ w, Closing.loop coiled 3 (.first {0}) = .ok w ∧ w.stack = [] ∧ coiled.epsilonClosure {0} = .ok w.found := by
  have range : coiled.InRange := inRange_assembled (by decide)
  have start : coiled.start < coiled.size ∨ coiled.isEmpty = true := Or.inl (by decide)
  have forth : coiled.Step 0 .epsilon 1 := (step_assembled (by decide)).mpr (by decide)
  have back : coiled.Step 1 .epsilon 0 := (step_assembled (by decide)).mpr (by decide)
  have first : coiled.Step 0 (.char 'a') 1 := (step_assembled (by decide)).mpr (by decide)
  have last : coiled.Step 1 (.char 'c') 2 := (step_assembled (by decide)).mpr (by decide)
  obtain ⟨accepts, closures⟩ := accepts_iff_exists_trace range start
  -- Along the empty steps and back to the start, and then along the other symbols of the same edges.
  have around : coiled.Trace coiled.start [.epsilon, .epsilon, .char 'a', .char 'c'] 2 :=
    .cons forth (.cons back (.cons first (.cons last (.nil 2))))
  obtain ⟨answer, answered, iff⟩ := accepts ['a', 'c']
  obtain rfl := iff.mpr ⟨_, 2, around, rfl, rfl⟩
  obtain ⟨answer', answered', iff'⟩ := accepts ['c', 'c']
  have rejected : coiled.accepts ['c', 'c'] = .ok false := by decide +kernel
  obtain rfl := Except.ok.inj (answered'.symm.trans rejected)
  have inside : ∀ i ∈ ({0} : StateSet), i < coiled.size := fun i hi => StateSet.mem_singleton.mp hi ▸ by decide
  exact ⟨range, start, answered, fun given => Bool.false_ne_true (iff'.mpr given), closures {0} inside 3 (by decide)⟩

end Automaton
end FiniteAutomata
