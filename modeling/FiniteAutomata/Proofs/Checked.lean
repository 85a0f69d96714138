import FiniteAutomata.Checked
import FiniteAutomata.Proofs.Compilation
import FiniteAutomata.Proofs.Isomorphism

/-! Where all exists, the checked operations find it, and give what the operations proper give. -/

namespace FiniteAutomata
namespace Checked

/-! ### Lists -/

section Lists
variable {α β : Type} {l : List α}

theorem bind_eq {ε : Type} {a : Except ε α} {x : α} {f : α → Except ε β} (h : a = .ok x) : (a >>= f) = f x := by
  rw [h]
  rfl

theorem mapM_eq {f : α → Except Fault β} {g : α → β} (h : ∀ x ∈ l, f x = .ok (g x)) : l.mapM f = .ok (l.map g) := by
  induction l with
  | nil => rfl
  | cons x l ih =>
    rw [List.mapM_cons, h x List.mem_cons_self, ih fun y hy => h y (List.mem_cons_of_mem _ hy)]
    rfl

theorem allM_eq {f : α → Except Fault Bool} {g : α → Bool} (h : ∀ x ∈ l, f x = .ok (g x)) :
    l.allM f = .ok (l.all g) := by
  induction l with
  | nil => rfl
  | cons x l ih =>
    rw [List.allM, h x List.mem_cons_self, List.all_cons]
    cases g x with
    | false => rfl
    | true => exact ih fun y hy => h y (List.mem_cons_of_mem _ hy)

theorem anyM_eq {f : α → Except Fault Bool} {g : α → Bool} (h : ∀ x ∈ l, f x = .ok (g x)) :
    l.anyM f = .ok (l.any g) := by
  induction l with
  | nil => rfl
  | cons x l ih =>
    rw [List.anyM, h x List.mem_cons_self, List.any_cons]
    cases g x with
    | true => rfl
    | false => exact ih fun y hy => h y (List.mem_cons_of_mem _ hy)

theorem filterM_eq {f : α → Except Fault Bool} {g : α → Bool} (h : ∀ x ∈ l, f x = .ok (g x)) :
    l.filterM f = .ok (l.filter g) := by
  have onto : ∀ kept, l.filterAuxM f kept = .ok ((l.filter g).reverse ++ kept) := by
    induction l with
    | nil => exact fun kept => rfl
    | cons x l ih =>
      intro kept
      rw [List.filterAuxM, bind_eq (h x List.mem_cons_self), ih fun y hy => h y (List.mem_cons_of_mem _ hy)]
      cases hx : g x with
      | true =>
        rw [List.filter_cons_of_pos hx, List.reverse_cons, List.append_assoc]
        rfl
      | false =>
        rw [List.filter_cons_of_neg (by simp [hx])]
        rfl
  rw [List.filterM, bind_eq (onto []), List.append_nil, List.reverse_reverse]
  rfl

theorem findSomeM?_eq {f : α → Except Fault (Option β)} {g : α → Option β} (h : ∀ x ∈ l, f x = .ok (g x)) :
    l.findSomeM? f = .ok (l.findSome? g) := by
  induction l with
  | nil => rfl
  | cons x l ih =>
    rw [List.findSomeM?, h x List.mem_cons_self, List.findSome?_cons]
    cases g x with
    | some y => rfl
    | none => exact ih fun y hy => h y (List.mem_cons_of_mem _ hy)

theorem number_eq [DecidableEq α] {x : α} (h : x ∈ l) : number l x = .ok (l.idxOf x) := if_pos h

/-- An exploration whose expansions succeed lists what the exploration with their values does. -/
theorem explore_eq [DecidableEq α] {expand : α → Except Fault β} {f : α → β} {next : β → List α} {n : Nat}
    {done queue : List α}
    (h : ∀ x ∈ FiniteAutomata.explore (fun x => next (f x)) n done queue, expand x = .ok (f x)) :
    explore expand next n (done.map fun x => (x, f x)) queue =
      .ok ((FiniteAutomata.explore (fun x => next (f x)) n done queue).map fun x => (x, f x)) := by
  induction n generalizing done queue with
  | zero =>
    have left : queue.mapM (fun x => do return (x, ← expand x)) = .ok (queue.map fun x => (x, f x)) := by
      refine mapM_eq fun x hx => ?_
      rw [h x (mem_explore_of_mem (List.mem_append_right _ hx))]
      rfl
    rw [explore, left, FiniteAutomata.explore, List.map_append, List.map_reverse]
    rfl
  | succ n ih =>
    cases queue with
    | nil =>
      rw [explore, FiniteAutomata.explore, List.map_reverse]
      rfl
    | cons x queue =>
      have known : (done.map fun x => (x, f x)).map Prod.fst = done := by
        rw [List.map_map]
        exact List.map_id done
      rw [explore, h x (mem_explore_of_mem (by simp))]
      simp only [FiniteAutomata.explore, known] at h ⊢
      exact ih h

theorem explore_rows [DecidableEq α] {expand : α → Except Fault β} (f : α → β) {next : β → List α} {n : Nat}
    {queue : List α} (h : ∀ x ∈ FiniteAutomata.explore (fun x => next (f x)) n [] queue, expand x = .ok (f x)) :
    explore expand next n [] queue =
      .ok ((FiniteAutomata.explore (fun x => next (f x)) n [] queue).map fun x => (x, f x)) :=
  @explore_eq α β _ expand f next n [] queue h

end Lists

variable {fa fb : Automaton} {i root : StateId} {s : StateSet} {c : Char} {word : List Char}

/-! ### States -/

/-- The state with an id, a blank one if there is none. -/
def stateAt (fa : Automaton) (i : StateId) : State := fa.states[i]?.getD { id := i, kind := .nfa, accepting := false }

theorem state_eq (hi : i < fa.size) : fa.state i = .ok (stateAt fa i) := by
  rw [Automaton.state, stateAt, Array.getElem?_eq_getElem hi]
  rfl

@[simp] theorem edges_stateAt : (stateAt fa i).edges = fa.edgesOf i := by
  rw [stateAt, Automaton.edgesOf]
  cases fa.states[i]? <;> rfl

@[simp] theorem accepting_stateAt : (stateAt fa i).accepting = fa.accepting i := by
  rw [stateAt, Automaton.accepting]
  cases fa.states[i]? <;> rfl

theorem mapM_state_eq {ids : List StateId} (h : ∀ i ∈ ids, i < fa.size) :
    ids.mapM fa.state = .ok (ids.map (stateAt fa)) := mapM_eq fun i hi => state_eq (h i hi)

/-- An exploration that looks every state up. -/
theorem explore_state (next : State → List StateId) {next' : StateId → List StateId} {n : Nat} {queue : List StateId}
    (same : ∀ i, next (stateAt fa i) = next' i) (h : ∀ i ∈ FiniteAutomata.explore next' n [] queue, i < fa.size) :
    explore fa.state next n [] queue =
      .ok ((FiniteAutomata.explore next' n [] queue).map fun i => (i, stateAt fa i)) := by
  obtain rfl : (fun i => next (stateAt fa i)) = next' := funext same
  exact explore_rows (stateAt fa) fun i hi => state_eq (h i hi)

/-! ### Walks -/

theorem traverse_eq (complete : fa.CompleteFrom root) : traverse fa root = .ok (fa.collect (fa.order [root])) := by
  have order : fa.order [root] = FiniteAutomata.explore fa.targets fa.size [] [root] := by
    rw [Automaton.order_eq, eraseDups_eq_self (List.nodup_singleton root)]
  have exist : ∀ i ∈ FiniteAutomata.explore fa.targets fa.size [] [root], i < fa.size := fun i hi =>
    complete i ((Automaton.mem_order_root complete).mp (order ▸ hi))
  have rows := explore_state (fun s => s.edges.map Edge.target) (fun i => by rw [edges_stateAt]; rfl) exist
  have edges : ∀ ids : List StateId, ((ids.map fun i => (i, stateAt fa i)).flatMap fun r => r.2.edges) =
      ids.flatMap fa.edgesOf := fun ids => by simp [List.flatMap_map]
  have accepting : ∀ ids : List StateId,
      ((ids.map fun i => (i, stateAt fa i)).filter fun r => r.2.accepting).map Prod.fst = ids.filter fa.accepting :=
    fun ids => by
      rw [List.filter_map, List.map_map]
      simp [Function.comp_def]
  rw [traverse, if_pos complete.lt, bind_eq rows, map_fst_rows, edges, accepting, order]
  rfl

theorem view_eq (complete : fa.CompleteFrom fa.start) : view fa = .ok fa.seen := traverse_eq complete

/-- The walk from the start is the same, and what it visits exists. -/
theorem exists_view (h : fa.Complete) : ∃ v, view fa = .ok v ∧ fa.view = .ok v ∧ ∀ i ∈ v.states, i < fa.size := by
  rcases h with empty | complete
  · have none := Automaton.start_not_lt empty
    refine ⟨{}, ?_, Automaton.view_of_size_le (Nat.le_of_not_lt none), fun i hi => nomatch hi⟩
    rw [view, traverse, if_neg none]
    rfl
  · exact ⟨fa.seen, view_eq complete, Automaton.view_eq complete, fun i hi =>
      complete i ((Automaton.mem_seen complete).mp hi)⟩

theorem unambiguous_eq (hi : i < fa.size) : unambiguous fa i = .ok (decide (fa.symbolsOf i).Nodup) := by
  rw [unambiguous, bind_eq (state_eq hi), Automaton.symbolsOf, ← edges_stateAt]
  rfl

theorem agree_isDeterministic (h : fa.Complete) : Agree (isDeterministic fa) fa.isDeterministic := by
  obtain ⟨v, checked, made, exist⟩ := exists_view h
  have all := allM_eq fun i hi => unambiguous_eq (exist i hi)
  refine ⟨decide (.epsilon ∉ v.alphabet) && v.states.all fun i => decide (fa.symbolsOf i).Nodup, ?_, ?_⟩
  · rw [isDeterministic, bind_eq checked, all]
    split
    · next silent => simp [silent, pure, Except.pure]
    · next silent => simp [silent]
  · rw [Automaton.isDeterministic, made]
    rfl

theorem lineOf_eq (hi : i < fa.size) : lineOf fa i = .ok (fa.lineOf i) := by
  rw [lineOf, bind_eq (state_eq hi), Automaton.lineOf, stateAt, Array.getElem?_eq_getElem hi]
  rfl

theorem agree_text (h : fa.Complete) : Agree (text fa) fa.text := by
  obtain ⟨v, checked, made, exist⟩ := exists_view h
  have lines := mapM_eq fun i hi => lineOf_eq (exist i hi)
  refine ⟨"start: ".toList ++ Text.decimal fa.start ++ ['\n'] ++ v.states.flatMap fa.lineOf, ?_, ?_⟩
  · rw [text, bind_eq checked, bind_eq lines, List.flatMap_def]
    rfl
  · rw [Automaton.text, made]
    rfl

/-! ### Runs -/

theorem epsilonClosure_eq (h : fa.CompleteFromSet s) : epsilonClosure fa s = .ok (fa.closure s) := by
  have exist : ∀ i ∈ FiniteAutomata.explore (fun i => Automaton.targetsOn (fa.edgesOf i) .epsilon) fa.size [] s.toList,
      i < fa.size := fun i hi => (h.closure i (StateSet.mem_reach.mpr hi)).lt
  have rows := explore_state (fun s => Automaton.targetsOn s.edges .epsilon)
    (fun i => by rw [edges_stateAt]) exist
  have closure : fa.closure s = StateSet.ofList
      (FiniteAutomata.explore (fun i => Automaton.targetsOn (fa.edgesOf i) .epsilon) fa.size [] s.toList) := by
    ext i
    rw [Automaton.closure, StateSet.mem_reach, StateSet.mem_ofList]
  rw [epsilonClosure, bind_eq rows, map_fst_rows, closure]
  rfl

theorem delta_eq (h : ∀ i ∈ s, i < fa.size) (c : Char) : delta fa s c = .ok (fa.image s c) := by
  have states : s.toList.mapM fa.state = .ok (s.toList.map (stateAt fa)) :=
    mapM_state_eq fun i hi => h i (StateSet.mem_toList.mp hi)
  have edges : (s.toList.map (stateAt fa)).flatMap State.edges = fa.edgesOfSet s := by
    simp [List.flatMap_map, Automaton.edgesOfSet]
  rw [delta, bind_eq states, Automaton.image, ← edges]
  rfl

theorem accepting_eq (hi : i < fa.size) : accepting fa i = .ok (fa.accepting i) := by
  rw [accepting, bind_eq (state_eq hi), ← accepting_stateAt]
  rfl

theorem anyAccepting_eq (h : ∀ i ∈ s, i < fa.size) : anyAccepting fa s = .ok (fa.acceptsAt s) :=
  anyM_eq fun i hi => accepting_eq (h i (StateSet.mem_toList.mp hi))

theorem acceptsFrom_eq (h : fa.CompleteFromSet s) (word : List Char) :
    acceptsFrom fa s word = fa.acceptsFrom s word := by
  induction word generalizing s with
  | nil => exact (anyAccepting_eq fun i hi => (h i hi).lt).trans (Automaton.acceptsFrom_eq h []).symm
  | cons c word ih =>
    have moved : fa.delta s c = .ok (fa.image s c) := if_pos h.holds
    have closed : fa.epsilonClosure (fa.image s c) = .ok (fa.step s c) := if_pos (h.image c).closure.holds
    rw [acceptsFrom, Automaton.acceptsFrom, bind_eq (delta_eq (fun i hi => (h i hi).lt) c),
      bind_eq (epsilonClosure_eq (h.image c)), bind_eq moved, bind_eq closed]
    show (if (fa.step s c).isEmpty then _ else acceptsFrom fa (fa.step s c) word) = _
    rw [ih (h.step c)]

theorem accepts_eq (h : fa.Complete) (word : List Char) : accepts fa word = fa.accepts word := by
  rw [accepts, Automaton.accepts]
  split
  · rfl
  · next nonempty =>
    have complete := Automaton.completeFromSet_singleton (h.resolve_left nonempty)
    have closed : fa.epsilonClosure {fa.start} = .ok (fa.closure {fa.start}) := if_pos complete.closure.holds
    rw [bind_eq (epsilonClosure_eq complete), bind_eq closed]
    exact acceptsFrom_eq complete.closure word

theorem agree_accepts (h : fa.Complete) (word : List Char) : Agree (accepts fa word) (fa.accepts word) := by
  obtain ⟨b, answer⟩ := Automaton.exists_accepts_eq h word
  exact ⟨b, (accepts_eq h word).trans answer, answer⟩

/-! ### Comparison -/

theorem transitions_stateAt : transitions (stateAt fa i) = fa.transitions i := by
  simp only [transitions, Automaton.transitions, Automaton.lastTarget?, edges_stateAt]

theorem compatible_stateAt (p : StateId × StateId) :
    compatible (stateAt fa p.1) (stateAt fb p.2) = fa.compatible fb p := by
  simp only [compatible, Automaton.compatible, transitions_stateAt, accepting_stateAt]

theorem forcedBy_stateAt (p : StateId × StateId) :
    forcedBy (stateAt fa p.1, stateAt fb p.2) = fa.forcedBy fb p := by
  simp only [forcedBy, Automaton.forcedBy, transitions_stateAt, compatible_stateAt]

theorem exist_of_mem_forcedPairs (complete : fa.CompleteFrom fa.start) (complete' : fb.CompleteFrom fb.start)
    {n : Nat} : ∀ p ∈ fa.forcedPairs fb n, p.1 < fa.size ∧ p.2 < fb.size := by
  intro p hp
  obtain ⟨lead, lead'⟩ := Automaton.leads_of_mem_forcedPairs p hp
  exact ⟨complete _ lead, complete' _ lead'⟩

theorem explore_statesOf (complete : fa.CompleteFrom fa.start) (complete' : fb.CompleteFrom fb.start) (n : Nat) :
    explore (statesOf fa fb) forcedBy n [] [(fa.start, fb.start)] =
      .ok ((fa.forcedPairs fb n).map fun p => (p, stateAt fa p.1, stateAt fb p.2)) := by
  have forced : fa.forcedPairs fb n = FiniteAutomata.explore
      (fun p : StateId × StateId => forcedBy (stateAt fa p.1, stateAt fb p.2)) n [] [(fa.start, fb.start)] := by
    simp only [forcedBy_stateAt]
    rfl
  rw [forced]
  refine explore_rows (fun p : StateId × StateId => (stateAt fa p.1, stateAt fb p.2)) fun p hp => ?_
  obtain ⟨first, second⟩ := exist_of_mem_forcedPairs complete complete' p (forced ▸ hp)
  rw [statesOf, bind_eq (state_eq first), bind_eq (state_eq second)]
  rfl

theorem agree_isomorphic (h : fa.Complete) (h' : fb.Complete) : Agree (isomorphic fa fb) (fa.isomorphic fb) := by
  rw [isomorphic, Automaton.isomorphic]
  by_cases empty : (fa.isEmpty || fb.isEmpty) = true
  · rw [if_pos empty, if_pos empty]
    exact ⟨_, rfl, rfl⟩
  obtain ⟨nonempty, nonempty'⟩ := not_or.mp fun either => empty ((Bool.or_eq_true _ _).mpr either)
  have complete := h.resolve_left nonempty
  have complete' := h'.resolve_left nonempty'
  rw [if_neg empty, if_neg empty, bind_eq (view_eq complete), bind_eq (view_eq complete'),
    bind_eq (Automaton.view_eq complete), bind_eq (Automaton.view_eq complete')]
  split
  · exact ⟨_, rfl, rfl⟩
  · rw [bind_eq (explore_statesOf complete complete' _)]
    refine ⟨_, rfl, congrArg Except.ok ?_⟩
    rw [List.all_map, List.map_map]
    congr 1
    · exact congrArg ((fa.forcedPairs fb fa.seen.states.length).all ·) (funext fun p => (compatible_stateAt p).symm)
    · exact congrArg Automaton.oneToOne (List.map_id _).symm

end Checked
end FiniteAutomata
