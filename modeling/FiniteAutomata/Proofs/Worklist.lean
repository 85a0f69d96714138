import FiniteAutomata.Proofs.CheckedConstruction
import FiniteAutomata.Worklist

/-! The loop of the subset construction. Between any two of its edits the state of a set is its place among the sets
    found, and the steps of the automaton are those of the sets expanded so far (`holding`). The sets are found in the
    order of the exploration, so the loop ends, and its automaton is the constructed one, in which each state stands for
    one set. -/

namespace FiniteAutomata
namespace Worklist

/-- A set with its steps, as far as they have been found. -/
abbrev Row := StateSet × List (Char × StateSet)

variable {fa : Automaton} {rows : List Row} {steps : List (Char × StateSet)} {family queue : List StateSet}
  {s t x : StateSet} {c : Char} {letters : List Char} {n : Nat}

/-! ### Places -/

theorem lookup_zipIdx_of_mem {α : Type} [DecidableEq α] {l : List α} {x : α} (h : x ∈ l) (n : Nat) :
    (l.zipIdx n).lookup x = some (n + l.idxOf x) := by
  induction l generalizing n with
  | nil => cases h
  | cons y l ih =>
    rw [List.zipIdx_cons, List.lookup_cons]
    by_cases same : x = y
    · subst same
      simp
    · rw [beq_eq_false_iff_ne.mpr same, ih ((List.mem_cons.mp h).resolve_left same),
        List.idxOf_cons_ne _ (Ne.symm same)]
      simp only [Option.some.injEq]
      omega

theorem lookup_zipIdx_of_not_mem {α : Type} [DecidableEq α] {l : List α} {x : α} (h : x ∉ l) (n : Nat) :
    (l.zipIdx n).lookup x = none := by
  induction l generalizing n with
  | nil => rfl
  | cons y l ih =>
    obtain ⟨apart, h⟩ := not_or.mp (mt List.mem_cons.mpr h)
    rw [List.zipIdx_cons, List.lookup_cons, beq_eq_false_iff_ne.mpr apart]
    exact ih h (n + 1)

/-! ### What the loop holds -/

/-- The sets found: those of the rows and then those that wait. -/
def found (rows : List Row) (queue : List StateSet) : List StateSet := rows.map Prod.fst ++ queue

/-- The loop with some sets expanded and others waiting. -/
def holding (fa : Automaton) (rows : List Row) (queue : List StateSet) : Worklist where
  automaton := Automaton.assembled ((found rows queue).map fun s => (Kind.dfa, fa.acceptsAt s))
    (rows.flatMap (Automaton.subsetArcs (found rows queue))) 0
  index := (found rows queue).zipIdx
  waiting := queue.zipIdx rows.length

/-- No set is found twice, and all that the rows lead to has been found. -/
structure Known (rows : List Row) (queue : List StateSet) : Prop where
  nodup : (found rows queue).Nodup
  targets : ∀ row ∈ rows, ∀ p ∈ row.2, p.2 ∈ found rows queue

theorem found_concat (rows : List Row) (row : Row) (queue : List StateSet) :
    found (rows ++ [row]) queue = found rows (row.1 :: queue) := by
  simp [found]

theorem found_append (rows : List Row) (queue more : List StateSet) :
    found rows (queue ++ more) = found rows queue ++ more := (List.append_assoc _ _ _).symm

theorem mem_found_of_mem {row : Row} (h : row ∈ rows) : row.1 ∈ found rows queue :=
  List.mem_append_left _ (List.mem_map_of_mem h)

/-- The arcs of a row stay as they are when more sets are found. -/
theorem subsetArcs_append {row : Row} (source : row.1 ∈ family) (targets : ∀ p ∈ row.2, p.2 ∈ family)
    (more : List StateSet) : Automaton.subsetArcs (family ++ more) row = Automaton.subsetArcs family row := by
  rw [Automaton.subsetArcs, Automaton.subsetArcs, List.idxOf_append_of_mem source]
  refine List.map_congr_left fun p hp => ?_
  rw [List.idxOf_append_of_mem (targets p hp)]

theorem Known.arcs_append (known : Known rows queue) (more : List StateSet) :
    rows.flatMap (Automaton.subsetArcs (found rows (queue ++ more))) =
      rows.flatMap (Automaton.subsetArcs (found rows queue)) := by
  refine List.flatMap_congr fun row hrow => ?_
  rw [found_append, subsetArcs_append (mem_found_of_mem hrow) (known.targets row hrow)]

theorem source_lt {a : Arc} (h : a ∈ rows.flatMap (Automaton.subsetArcs (found rows queue))) :
    a.source < (found rows queue).length := by
  obtain ⟨row, hrow, ha⟩ := List.mem_flatMap.mp h
  obtain ⟨p, -, rfl⟩ := List.mem_map.mp ha
  exact List.idxOf_lt_length_of_mem (mem_found_of_mem hrow)

/-! ### Single edits -/

/-- The sets that wait once a set has a state. -/
def join (rows : List Row) (queue : List StateSet) (t : StateSet) : List StateSet :=
  if t ∈ found rows queue then queue else queue ++ [t]

theorem mem_join (rows : List Row) (queue : List StateSet) (t : StateSet) : t ∈ found rows (join rows queue t) := by
  rw [join]
  split
  · assumption
  · rw [found_append]
    exact List.mem_append_right _ (List.mem_singleton_self t)

theorem Known.join (known : Known rows queue) (t : StateSet) : Known rows (join rows queue t) := by
  rw [Worklist.join]
  split
  · exact known
  · next new =>
    have apart : ∀ s ∈ found rows queue, ∀ u ∈ [t], s ≠ u := fun s hs u hu same =>
      new (List.mem_singleton.mp hu ▸ same ▸ hs)
    constructor
    · rw [found_append]
      exact List.nodup_append.mpr ⟨known.nodup, List.nodup_singleton t, apart⟩
    · intro row hrow p hp
      rw [found_append]
      exact List.mem_append_left _ (known.targets row hrow p hp)

/-- A set keeps the state it has, or gets the next one. -/
theorem place_holding (known : Known rows queue) (lt : ∀ i ∈ t, i < fa.size) :
    place fa (holding fa rows queue) t =
      .ok (holding fa rows (join rows queue t), (found rows (join rows queue t)).idxOf t) := by
  have size : (holding fa rows queue).automaton.size = (found rows queue).length := by
    rw [holding, Automaton.size_assembled, List.length_map]
  rw [place, join]
  by_cases old : t ∈ found rows queue
  · have given : (holding fa rows queue).index.lookup t = some (0 + (found rows queue).idxOf t) :=
      lookup_zipIdx_of_mem old 0
    rw [given, if_pos old, Nat.zero_add]
  · have none : (holding fa rows queue).index.lookup t = none := lookup_zipIdx_of_not_mem old 0
    have automaton : (holding fa rows queue).automaton.addState .dfa (fa.acceptsAt t) =
        (holding fa rows (queue ++ [t])).automaton := by
      rw [holding, holding, found_append, List.map_append, ← found_append, known.arcs_append]
      exact Automaton.addState_assembled _ _ fun a ha => by
        rw [List.length_map]
        exact source_lt ha
    have number : (found rows (queue ++ [t])).idxOf t = (found rows queue).length := by
      rw [found_append, List.idxOf_append_of_notMem old, List.idxOf_cons_self, Nat.add_zero]
    have length : (found rows queue).length = rows.length + queue.length := by
      rw [found, List.length_append, List.length_map]
    rw [none, if_neg old, Checked.bind_eq (Checked.anyAccepting_eq lt), automaton, number, size]
    refine congrArg (fun w => Except.ok (w, _)) ?_
    rw [holding, holding, Worklist.mk.injEq]
    refine ⟨rfl, ?_, ?_⟩
    · rw [found_append, List.zipIdx_append, Nat.zero_add]
      rfl
    · rw [List.zipIdx_append, length]
      rfl

theorem Known.idxOf (known : Known (rows ++ [(x, steps)]) queue) :
    (found (rows ++ [(x, steps)]) queue).idxOf x = rows.length := by
  refine idxOf_of_getElem? known.nodup ?_
  rw [found_concat, found, List.getElem?_append_right (by rw [List.length_map]), List.length_map, Nat.sub_self]
  rfl

/-- A further step of the last row. -/
theorem Known.step (known : Known (rows ++ [(x, steps)]) queue) (c : Char)
    (ht : t ∈ found (rows ++ [(x, steps)]) queue) : Known (rows ++ [(x, steps ++ [(c, t)])]) queue := by
  have same : found (rows ++ [(x, steps ++ [(c, t)])]) queue = found (rows ++ [(x, steps)]) queue := by
    rw [found_concat, found_concat]
  constructor
  · rw [same]
    exact known.nodup
  · intro row hrow p hp
    rw [same]
    rcases List.mem_append.mp hrow with hrow | hrow
    · exact known.targets row (List.mem_append_left _ hrow) p hp
    · obtain rfl := List.mem_singleton.mp hrow
      rcases List.mem_append.mp hp with hp | hp
      · exact known.targets _ (List.mem_append_right _ (List.mem_singleton_self _)) p hp
      · exact List.mem_singleton.mp hp ▸ ht

theorem addEdge_holding (known : Known (rows ++ [(x, steps)]) queue) (t : StateSet) (c : Char) :
    (holding fa (rows ++ [(x, steps)]) queue).automaton.addEdge rows.length
      ((found (rows ++ [(x, steps)]) queue).idxOf t) (.char c) =
        .ok (holding fa (rows ++ [(x, steps ++ [(c, t)])]) queue).automaton := by
  have source := known.idxOf
  rw [holding, holding]
  simp only [found_concat] at source ⊢
  have arcs : (rows ++ [(x, steps ++ [(c, t)])]).flatMap (Automaton.subsetArcs (found rows (x :: queue))) =
      (rows ++ [(x, steps)]).flatMap (Automaton.subsetArcs (found rows (x :: queue))) ++
        [⟨rows.length, (found rows (x :: queue)).idxOf t, .char c⟩] := by
    simp only [List.flatMap_append, List.flatMap_singleton, Automaton.subsetArcs, List.map_append, List.map_singleton,
      source, List.append_assoc]
  have allowed : Automaton.Allowed ((found rows (x :: queue)).map fun s => (Kind.dfa, fa.acceptsAt s))
      ⟨rows.length, (found rows (x :: queue)).idxOf t, .char c⟩ := by
    refine ⟨(.dfa, fa.acceptsAt x), ?_, fun silent => nomatch silent⟩
    rw [found, List.map_append, List.getElem?_append_right (by simp)]
    simp
  rw [arcs]
  exact Automaton.addEdge_assembled allowed

/-- A step to a set with members is added, and one to the empty set is not. -/
theorem read_holding (known : Known (rows ++ [(x, steps)]) queue) (complete : fa.CompleteFromSet x) (c : Char) :
    read fa x rows.length (holding fa (rows ++ [(x, steps)]) queue) c =
      .ok (if (fa.step x c).isEmpty then holding fa (rows ++ [(x, steps)]) queue
        else holding fa (rows ++ [(x, steps ++ [(c, fa.step x c)])])
          (join (rows ++ [(x, steps)]) queue (fa.step x c))) := by
  have next : Checked.epsilonClosure fa (fa.image x c) = .ok (fa.step x c) :=
    Checked.epsilonClosure_eq (complete.image c)
  rw [read, Checked.bind_eq (Checked.delta_eq (fun i hi => (complete i hi).lt) c), Checked.bind_eq next]
  split
  · rfl
  · have placed := place_holding known fun i hi => ((complete.step c) i hi).lt
    rw [Checked.bind_eq placed]
    dsimp only
    rw [Checked.bind_eq (addEdge_holding (known.join _) (fa.step x c) c)]
    simp only [holding, found_concat, List.length_append, List.length_singleton]
    rfl

/-! ### Rounds -/

/-- The steps of a set on some characters, but for those that lead nowhere. -/
def taken (fa : Automaton) (x : StateSet) (letters : List Char) : List (Char × StateSet) :=
  (letters.map fun c => (c, fa.step x c)).filter fun p => !p.2.isEmpty

/-- The sets that have not been found before, once each. -/
def fresh (family sets : List StateSet) : List StateSet := (sets.filter fun t => t ∉ family).eraseDups

theorem append_fresh_cons (rows : List Row) (queue : List StateSet) (t : StateSet) (sets : List StateSet) :
    queue ++ fresh (found rows queue) (t :: sets) =
      join rows queue t ++ fresh (found rows (join rows queue t)) sets := by
  rw [join, fresh]
  split
  · next old => rw [List.filter_cons_of_neg (by simpa using old), fresh]
  · next new =>
    rw [List.filter_cons_of_pos (by simpa using new), List.eraseDups_cons, List.filter_filter, fresh, found_append,
      List.append_assoc]
    simp only [List.mem_append, List.mem_singleton, not_or, List.singleton_append]
    congr 3
    refine List.filter_congr fun u _ => ?_
    by_cases same : u = t <;> simp [same]

/-- The characters of a round one after the other. -/
theorem foldlM_read (known : Known (rows ++ [(x, steps)]) queue) (complete : fa.CompleteFromSet x) :
    letters.foldlM (read fa x rows.length) (holding fa (rows ++ [(x, steps)]) queue) =
      .ok (holding fa (rows ++ [(x, steps ++ taken fa x letters)])
        (queue ++ fresh (found rows (x :: queue)) ((taken fa x letters).map Prod.snd))) ∧
    Known (rows ++ [(x, steps ++ taken fa x letters)])
      (queue ++ fresh (found rows (x :: queue)) ((taken fa x letters).map Prod.snd)) := by
  -- One character at a time: the row gains a step, and the set it leads to waits unless it has been found.
  induction letters generalizing steps queue with
  | nil =>
    simp only [taken, fresh, List.map_nil, List.filter_nil, List.append_nil, List.eraseDups_nil]
    exact ⟨rfl, known⟩
  | cons c letters ih =>
    rw [List.foldlM_cons, Checked.bind_eq (read_holding known complete c)]
    cases none : (fa.step x c).isEmpty with
    | true =>
      have taken_cons : taken fa x (c :: letters) = taken fa x letters := by
        rw [taken, List.map_cons, List.filter_cons_of_neg (by rw [none]; decide), taken]
      rw [if_pos rfl, taken_cons]
      exact ih known
    | false =>
      have taken_cons : taken fa x (c :: letters) = (c, fa.step x c) :: taken fa x letters := by
        rw [taken, List.map_cons, List.filter_cons_of_pos (by rw [none]; decide), taken]
      have regroup : steps ++ (c, fa.step x c) :: taken fa x letters =
          steps ++ [(c, fa.step x c)] ++ taken fa x letters := by simp
      have after := append_fresh_cons (rows ++ [(x, steps)]) queue (fa.step x c) ((taken fa x letters).map Prod.snd)
      rw [found_concat, found_concat] at after
      rw [if_neg Bool.false_ne_true, taken_cons, List.map_cons, after, regroup]
      exact ih ((known.join (fa.step x c)).step c (mem_join _ _ _))

/-- A round gives the first set that waits its row, and the new sets among those it leads to join the others. -/
theorem round_holding (known : Known rows (x :: queue)) (complete : fa.CompleteFromSet x)
    (all : taken fa x letters = fa.stepsFrom x) :
    letters.foldlM (read fa x rows.length)
        { holding fa rows (x :: queue) with waiting := queue.zipIdx (rows.length + 1) } =
      .ok (holding fa (rows ++ [(x, fa.stepsFrom x)])
        (queue ++ fresh (found rows (x :: queue)) (fa.successors x))) ∧
    Known (rows ++ [(x, fa.stepsFrom x)]) (queue ++ fresh (found rows (x :: queue)) (fa.successors x)) := by
  have blank : Automaton.subsetArcs (found rows (x :: queue)) (x, []) = [] := rfl
  have begun : { holding fa rows (x :: queue) with waiting := queue.zipIdx (rows.length + 1) } =
      holding fa (rows ++ [(x, [])]) queue := by
    simp only [holding, found_concat, List.flatMap_append, List.flatMap_singleton, blank, List.append_nil,
      List.length_append, List.length_singleton]
  have known : Known (rows ++ [(x, [])]) queue := by
    constructor
    · rw [found_concat]
      exact known.nodup
    · intro row hrow p hp
      rw [found_concat]
      rcases List.mem_append.mp hrow with hrow | hrow
      · exact known.targets row hrow p hp
      · obtain rfl := List.mem_singleton.mp hrow
        cases hp
  rw [begun, Automaton.successors, ← all]
  exact foldlM_read known complete

/-! ### The loop -/

/-- The rows of some sets, of which the latest comes first. -/
def rowsOf (fa : Automaton) (done : List StateSet) : List Row := done.reverse.map fun s => (s, fa.stepsFrom s)

theorem found_rowsOf (done queue : List StateSet) : found (rowsOf fa done) queue = done.reverse ++ queue := by
  rw [found, rowsOf, map_fst_rows]

theorem rowsOf_cons (x : StateSet) (done : List StateSet) :
    rowsOf fa (x :: done) = rowsOf fa done ++ [(x, fa.stepsFrom x)] := by
  rw [rowsOf, List.reverse_cons, List.map_append, List.map_singleton, rowsOf]

/-- After some rounds the sets found are those that the exploration lists, and none waits unless there were as many
    rounds as allowed. -/
theorem loop_holding {done : List StateSet} (known : Known (rowsOf fa done) queue)
    (h : ∀ s ∈ explore fa.successors n done queue, fa.CompleteFromSet s ∧ taken fa s letters = fa.stepsFrom s) :
    ∃ done' queue', loop fa letters n (holding fa (rowsOf fa done) queue) = .ok (holding fa (rowsOf fa done') queue') ∧
      Known (rowsOf fa done') queue' ∧ done'.reverse ++ queue' = explore fa.successors n done queue ∧
      (queue' = [] ∨ done'.length = done.length + n) := by
  -- On the number of rounds, each of which gives the first set that waits its row.
  induction n generalizing done queue with
  | zero => exact ⟨done, queue, rfl, known, rfl, Or.inr rfl⟩
  | succ n ih =>
    cases queue with
    | nil => exact ⟨done, [], rfl, known, List.append_nil _, Or.inl rfl⟩
    | cons x queue =>
      obtain ⟨complete, all⟩ := h x (mem_explore_of_mem (by simp))
      obtain ⟨expanded, known'⟩ := round_holding known complete all
      have joined : fresh (found (rowsOf fa done) (x :: queue)) (fa.successors x) =
          ((fa.successors x).filter fun y => y ∉ x :: done ∧ y ∉ queue).eraseDups := by
        rw [fresh, found_rowsOf]
        refine congrArg List.eraseDups (List.filter_congr fun y _ => decide_eq_decide.mpr ?_)
        simp only [List.mem_append, List.mem_reverse, List.mem_cons, not_or]
        tauto
      rw [joined, ← rowsOf_cons] at expanded known'
      obtain ⟨done', queue', looped, known', listed, ended⟩ := ih known' h
      refine ⟨done', queue', ?_, known', listed, ?_⟩
      · show (letters.foldlM (read fa x (rowsOf fa done).length) _ >>= fun w => loop fa letters n w) = _
        rw [← looped]
        exact Checked.bind_eq expanded
      · rw [List.length_cons, Nat.add_assoc, Nat.add_comm 1 n] at ended
        exact ended

theorem first_eq (h : fa.CompleteFromSet s) : first fa s = .ok (holding fa (rowsOf fa []) [fa.closure s]) := by
  have accepting : Checked.anyAccepting fa (fa.closure s) = .ok (fa.acceptsAt (fa.closure s)) :=
    Checked.anyAccepting_eq fun i hi => (h.closure i hi).lt
  rw [first, Checked.bind_eq (Checked.epsilonClosure_eq h), Checked.bind_eq accepting]
  have started : (({} : Automaton).addState .dfa (fa.acceptsAt (fa.closure s))).setStart 0 =
      .ok (holding fa (rowsOf fa []) [fa.closure s]).automaton :=
    congrArg (fun fb : Automaton => fb.setStart 0) (Automaton.foldl_addState [(.dfa, fa.acceptsAt (fa.closure s))])
  rw [Checked.bind_eq started]
  rfl

theorem exists_alphabet_eq (h : fa.CompleteFromSet s) : ∃ letters, alphabet fa s = .ok letters ∧
    ∀ t ∈ fa.subsets s, taken fa t letters = fa.stepsFrom t := by
  obtain ⟨walks, walked, reads⟩ := Checked.exists_alphabet h
  refine ⟨_, Checked.bind_eq walked, fun t ht => ?_⟩
  have led := Checked.leads_of_mem_subsets h ht
  refine Checked.filter_steps_eq (Automaton.completeFromSet_of_mem_subsets h t ht) (Label.chars_pairwise _) fun hi step => (reads _).mpr ?_
  obtain ⟨i, hi, lead⟩ := led _ hi
  exact ⟨i, hi, _, _, lead, step⟩

theorem mem_subsets_of_mem_explore (h : fa.CompleteFromSet s) :
    ∀ t ∈ explore fa.successors n [] [fa.closure s], t ∈ fa.subsets s :=
  explore_induction (Automaton.closed_subsets h) fun t ht => mem_explore_of_mem (by simpa using ht)

/-- The loop ends once it may expand as many sets as there are, and its automaton is the constructed one. -/
theorem build_eq (h : fa.CompleteFromSet s) (enough : (fa.subsets s).length ≤ n) : build fa s n =
    .ok {
      automaton := fa.subsetSystem.tabulated (fa.subsets s)
      index := (fa.subsets s).zipIdx
      waiting := [] } := by
  obtain ⟨letters, read, all⟩ := exists_alphabet_eq h
  have known : Known (rowsOf fa []) [fa.closure s] := ⟨List.nodup_singleton _, fun row hrow => nomatch hrow⟩
  have read_all : ∀ t ∈ explore fa.successors n [] [fa.closure s],
      fa.CompleteFromSet t ∧ taken fa t letters = fa.stepsFrom t := fun t ht =>
    have ht := mem_subsets_of_mem_explore h t ht
    ⟨Automaton.completeFromSet_of_mem_subsets h t ht, all t ht⟩
  obtain ⟨done, queue, looped, known, listed, ended⟩ := loop_holding known read_all
  obtain ⟨nodup, targets⟩ := known
  rw [found_rowsOf] at nodup targets
  -- As many sets as there are have been expanded, so none is left.
  obtain rfl : queue = [] := by
    have few := nodup.length_le_of_subset fun t ht => mem_subsets_of_mem_explore h t (listed ▸ ht)
    rw [List.length_append, List.length_reverse] at few
    rcases ended with none | rounds
    · exact none
    · rw [List.length_nil, Nat.zero_add] at rounds
      exact List.length_eq_zero_iff.mp (by omega)
  rw [List.append_nil] at listed targets
  have closed : Closed fa.successors (explore fa.successors n [] [fa.closure s]) := by
    intro t ht u hu
    obtain ⟨p, hp, rfl⟩ := List.mem_map.mp hu
    exact listed ▸ targets (t, fa.stepsFrom t) (List.mem_map.mpr ⟨t, listed ▸ ht, rfl⟩) p hp
  have family : done.reverse = fa.subsets s := by
    rw [listed, ← explore_add closed (1 <<< fa.size), Nat.add_comm]
    exact explore_add (Automaton.closed_subsets h) n
  have rows : rowsOf fa done = (fa.subsets s).map fun t => (t, fa.stepsFrom t) := by rw [rowsOf, family]
  rw [build, Checked.bind_eq read, Checked.bind_eq (first_eq h), looped, holding, found_rowsOf, List.append_nil, family,
    rows, List.flatMap_map]
  rfl

end Worklist

/-! ### The sets that the states stand for -/

namespace Automaton

variable {fa : Automaton} {initial s t : StateSet} {c : Char} {word : List Char}

/-- The closure of what a set leads to on a character. -/
def move (fa : Automaton) (s : StateSet) (c : Char) : Except Fault StateSet := do
  let moved ← fa.delta s c
  fa.epsilonClosure moved

/-- The closure of the initial set, and what it leads to without the empty set. -/
inductive Attained (fa : Automaton) (initial : StateSet) : StateSet → Prop where
  | closure {s : StateSet} (h : fa.epsilonClosure initial = .ok s) : Attained fa initial s
  | move {s t : StateSet} {c : Char} (before : Attained fa initial s) (h : fa.move s c = .ok t) (some : t ≠ ∅) :
      Attained fa initial t

/-- Each state of an automaton stands for the set in its place, and steps as that set does. -/
structure Represents (d fa : Automaton) (initial : StateSet) (family : List StateSet) : Prop where
  size : d.size = family.length
  nodup : family.Nodup
  states : ∀ s ∈ family, ∀ i ∈ s, i < fa.size
  start : d.start = 0 ∧ ∃ s, fa.epsilonClosure initial = .ok s ∧ family[0]? = some s
  accepting : ∀ q s, family[q]? = some s → (d.accepting q = true ↔ ∃ i ∈ s, fa.accepting i = true)
  /-- A state has an edge for a character unless its set leads nowhere, and the edge leads to the state of what its set
      leads to. -/
  steps : ∀ q s c, family[q]? = some s → ∃ t, fa.move s c = .ok t ∧ ((∃ r, d.Step q (.char c) r) ↔ t ≠ ∅) ∧
    ∀ r, d.Step q (.char c) r → family[r]? = some t
  silent : ∀ q r, ¬d.Step q .epsilon r
  attained : ∀ s, s ∈ family ↔ fa.Attained initial s

theorem move_eq (h : fa.CompleteFromSet s) (c : Char) : fa.move s c = .ok (fa.step s c) :=
  (Checked.bind_eq (h.delta_eq c)).trans (h.image c).epsilonClosure_eq

theorem mem_stepsFrom_iff (h : fa.CompleteFromSet s) : (c, t) ∈ fa.stepsFrom s ↔ t = fa.step s c ∧ t ≠ ∅ := by
  rw [mem_stepsFrom]
  refine and_congr_right fun same => ?_
  rw [same, ← Checked.isEmpty_step_iff h, Bool.eq_false_iff, ne_eq, StateSet.isEmpty_iff]

theorem Attained.run (attained : fa.Attained initial s) (h : fa.CompleteFromSet s)
    (run : fa.subsetSystem.Run s word t) : fa.Attained initial t := by
  induction run with
  | nil => exact attained
  | cons move _ ih =>
    obtain ⟨rfl, some⟩ := (mem_stepsFrom_iff h).mp move
    exact ih (attained.move (move_eq h _) some) (h.step _)

theorem mem_subsets_iff (h : fa.CompleteFromSet initial) : t ∈ fa.subsets initial ↔ fa.Attained initial t := by
  refine ⟨fun ht => ?_, fun attained => ?_⟩
  · obtain ⟨word, run⟩ := (lists_subsets h).reached t ht
    exact (Attained.closure h.epsilonClosure_eq).run h.closure run
  · induction attained with
    | closure found =>
      obtain rfl := Except.ok.inj (h.epsilonClosure_eq.symm.trans found)
      exact List.mem_of_getElem? (lists_subsets h).head
    | @move s t c _ found some ih =>
      have complete := completeFromSet_of_mem_subsets h s ih
      obtain rfl := Except.ok.inj ((move_eq complete c).symm.trans found)
      exact closed_subsets h s ih _ (List.mem_map.mpr ⟨_, (mem_stepsFrom_iff complete).mpr ⟨rfl, some⟩, rfl⟩)

theorem represents_subsets (h : fa.CompleteFromSet initial) :
    (fa.subsetSystem.tabulated (fa.subsets initial)).Represents fa initial (fa.subsets initial) where
  size := System.size_tabulated
  nodup := (lists_subsets h).nodup
  states s hs i hi := (completeFromSet_of_mem_subsets h s hs i hi).lt
  start := ⟨rfl, _, h.epsilonClosure_eq, (lists_subsets h).head⟩
  accepting q s hs := by
    rw [System.accepting_tabulated, hs, ← acceptsAt_iff]
    exact ⟨fun ⟨_, same, accepting⟩ => Option.some.inj same ▸ accepting, fun accepting => ⟨s, rfl, accepting⟩⟩
  steps q s c hs := by
    have hmem := List.mem_of_getElem? hs
    have complete := completeFromSet_of_mem_subsets h s hmem
    have step : ∀ r, (fa.subsetSystem.tabulated (fa.subsets initial)).Step q (.char c) r ↔
        fa.step s c ≠ ∅ ∧ (fa.subsets initial)[r]? = some (fa.step s c) := by
      intro r
      rw [System.step_tabulated (lists_subsets h)]
      refine ⟨fun given => ?_, fun given => ?_⟩
      · obtain ⟨s', t, c', hs', ht, hc, move⟩ := given
        obtain rfl := Option.some.inj (hs.symm.trans hs')
        obtain rfl := Symbol.char.inj hc
        obtain ⟨rfl, some⟩ := (mem_stepsFrom_iff complete).mp move
        exact ⟨some, ht⟩
      · obtain ⟨some, ht⟩ := given
        exact ⟨s, _, c, hs, ht, rfl, (mem_stepsFrom_iff complete).mpr ⟨rfl, some⟩⟩
    refine ⟨fa.step s c, move_eq complete c, ⟨fun ⟨r, hr⟩ => ((step r).mp hr).1, fun some => ?_⟩,
      fun r hr => ((step r).mp hr).2⟩
    have target := closed_subsets h s hmem (fa.step s c)
      (List.mem_map.mpr ⟨_, (mem_stepsFrom_iff complete).mpr ⟨rfl, some⟩, rfl⟩)
    obtain ⟨r, hr⟩ := List.mem_iff_getElem?.mp target
    exact ⟨r, (step r).mpr ⟨some, hr⟩⟩
  silent _ _ := System.not_silent_tabulated (lists_subsets h)
  attained _ := mem_subsets_iff h

/-- The states of the constructed automaton stand one for one for the closure of the initial set and the sets with
    members that it leads to. The loop over the sets found ends with this automaton, and there are no more of its states
    than sets of states. -/
theorem determinizeFrom_represents (range : fa.InRange) (states : ∀ i ∈ initial, i < fa.size) :
    ∃ d family, fa.determinizeFrom initial = .ok d ∧ d.Represents fa initial family ∧ d.size ≤ 2 ^ fa.size ∧
      ∀ n, d.size ≤ n →
        Worklist.build fa initial n = .ok { automaton := d, index := family.zipIdx, waiting := [] } := by
  have complete : fa.CompleteFromSet initial := fun i hi => range.completeFrom (states i hi)
  have represents := represents_subsets complete
  refine ⟨_, _, determinizeFrom_eq complete, represents, ?_, fun n enough => ?_⟩
  · exact represents.size ▸ length_subsets_le complete
  · exact Worklist.build_eq complete (represents.size ▸ enough)

/-- Two characters lead from one set to the same other one. -/
theorem determinizeFrom_represents_twoWay : twoWay.InRange ∧ (∀ i ∈ StateSet.ofList [0, 3], i < twoWay.size) ∧
    ∃ d, twoWay.determinizeFrom (StateSet.ofList [0, 3]) = .ok d ∧
      d.Represents twoWay (StateSet.ofList [0, 3]) [StateSet.ofList [0, 1, 3], StateSet.ofList [2]] := by
  have range : twoWay.InRange := inRange_assembled (by decide)
  have states : ∀ i ∈ StateSet.ofList [0, 3], i < twoWay.size := fun i hi => by
    have : i = 0 ∨ i = 3 := by simpa using hi
    rcases this with rfl | rfl <;> decide
  obtain ⟨d, family, made, represents, few, built⟩ := determinizeFrom_represents range states
  have index : family.zipIdx = [(StateSet.ofList [0, 1, 3], 0), (StateSet.ofList [2], 1)] := by
    have found : (Worklist.build twoWay (StateSet.ofList [0, 3]) 16).map Worklist.index =
        .ok [(StateSet.ofList [0, 1, 3], 0), (StateSet.ofList [2], 1)] := rfl
    rw [built 16 few] at found
    exact Except.ok.inj found
  have sets : family = [StateSet.ofList [0, 1, 3], StateSet.ofList [2]] := by
    have places := congrArg (List.map Prod.fst) index
    rwa [List.zipIdx_map_fst] at places
  exact ⟨range, states, d, made, sets ▸ represents⟩

end Automaton
end FiniteAutomata
