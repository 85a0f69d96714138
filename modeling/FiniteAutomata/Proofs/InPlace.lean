import FiniteAutomata.Pattern.InPlace
import FiniteAutomata.Proofs.Fragment

/-! Building in place gives the automaton of the tree. The parts that wait are the fragments of the expressions that
    reading keeps on its stacks, one behind the other; the automaton holds their states and steps, and accepts at their
    exits only. Taking up the latest of them makes one fragment of them, as if it had been built at once. -/

namespace FiniteAutomata

variable {fa fb : Automaton} {arcs arcs' arcs₁ arcs₁' : List Arc} {i j n : StateId} {flags flags' : StateId → Bool}
  {f g : Fragment} {fs : List Fragment}

namespace Building

/-! ### Single edits -/

/-- States of kind `nfa` with the given flags and arcs. -/
def grown (n : StateId) (flags : StateId → Bool) (arcs : List Arc) : Automaton :=
  Automaton.assembled ((List.range n).map fun id => (Kind.nfa, flags id)) arcs 0

/-- Each source has the same arcs, in the same order. -/
def Alike (arcs arcs' : List Arc) : Prop :=
  ∀ i : StateId, (arcs.filter fun a => a.source = i) = arcs'.filter fun a => a.source = i

theorem bind_eq {α β : Type} {b : Building α} {x : α} (k : α → Building β) (h : b fa = .ok (x, fb)) :
    (b >>= k) fa = k x fb := by
  show (b fa >>= fun p => k p.1 p.2) = _
  rw [h]
  rfl

theorem getElem?_grown (i : StateId) : (grown n flags arcs).states[i]? =
    if i < n then some { id := i, kind := .nfa, accepting := flags i, edges := Automaton.outgoing arcs i } else none := by
  rw [grown, Automaton.state?_assembled, List.getElem?_map]
  split
  · next hi => rw [List.getElem?_range hi]; rfl
  · next hi => rw [List.getElem?_eq_none (by simpa using hi)]; rfl

theorem size_grown : (grown n flags arcs).size = n := by simp [grown]

/-- Only the arcs of each source count, and the flags of states. -/
theorem grown_congr (same : ∀ i < n, flags i = flags' i) (alike : Alike arcs arcs') :
    grown n flags arcs = grown n flags' arcs' := by
  refine Automaton.ext_states (fun i => ?_) rfl
  rw [getElem?_grown, getElem?_grown]
  split
  · next hi => rw [same i hi, Automaton.outgoing, Automaton.outgoing, alike i]
  · rfl

theorem state_grown (accepting : Bool) (below : ∀ a ∈ arcs, a.source < n) : state accepting (grown n flags arcs) =
    .ok (n, grown (n + 1) (fun id => if id = n then accepting else flags id) arcs) := by
  have states : ((List.range n).map fun id => (Kind.nfa, flags id)) ++ [(Kind.nfa, accepting)] =
      (List.range (n + 1)).map fun id => (Kind.nfa, if id = n then accepting else flags id) := by
    rw [List.range_succ, List.map_append, List.map_singleton, if_pos rfl]
    refine congrArg (· ++ _) (List.map_congr_left fun id hid => ?_)
    rw [if_neg (Nat.ne_of_lt (List.mem_range.mp hid))]
  have grow : (grown n flags arcs).addState .nfa accepting =
      grown (n + 1) (fun id => if id = n then accepting else flags id) arcs := by
    rw [grown, grown, ← states]
    exact Automaton.addState_assembled .nfa accepting (by simpa using below)
  rw [state, grow, size_grown]

theorem edge_grown (a : Symbol) (hi : i < n) :
    edge i j a (grown n flags arcs) = .ok ((), grown n flags (arcs ++ [⟨i, j, a⟩])) := by
  have allowed : Automaton.Allowed ((List.range n).map fun id => (Kind.nfa, flags id)) ⟨i, j, a⟩ :=
    ⟨(.nfa, flags i), by simp [List.getElem?_range hi], fun _ => rfl⟩
  have added : (grown n flags arcs).addEdge i j a = .ok (grown n flags (arcs ++ [⟨i, j, a⟩])) :=
    Automaton.addEdge_assembled allowed
  rw [edge, added]
  rfl

theorem clear_grown (hi : i < n) :
    clear i (grown n flags arcs) = .ok ((), grown n (fun id => if id = i then false else flags id) arcs) := by
  have size : (grown n flags arcs).states.size = n := size_grown
  have cleared : (grown n flags arcs).setAccepting i false =
      .ok (grown n (fun id => if id = i then false else flags id) arcs) := by
    rw [Automaton.setAccepting, getElem?_grown, if_pos hi]
    refine congrArg Except.ok (Automaton.ext_states (fun j => ?_) rfl)
    rw [Array.getElem?_setIfInBounds, size, getElem?_grown, getElem?_grown]
    by_cases hj : i = j
    · subst hj
      rw [if_pos rfl, if_pos hi, if_pos hi, if_pos rfl]
    · rw [if_neg hj, if_neg (Ne.symm hj)]
  rw [clear, cleared]
  rfl

/-! ### Arcs of different sources -/

theorem Alike.refl (arcs : List Arc) : Alike arcs arcs := fun _ => rfl

theorem Alike.trans (h : Alike arcs arcs') (h' : Alike arcs' arcs₁) : Alike arcs arcs₁ := fun i => (h i).trans (h' i)

theorem Alike.append (h : Alike arcs arcs') (h' : Alike arcs₁ arcs₁') : Alike (arcs ++ arcs₁) (arcs' ++ arcs₁') := by
  intro i
  rw [List.filter_append, List.filter_append, h i, h' i]

theorem alike_swap (arcs arcs' : List Arc) (apart : ∀ a ∈ arcs, ∀ b ∈ arcs', a.source ≠ b.source) :
    Alike (arcs ++ arcs') (arcs' ++ arcs) := by
  intro i
  rw [List.filter_append, List.filter_append]
  by_cases mem : ∃ a ∈ arcs, a.source = i
  · obtain ⟨a, ha, rfl⟩ := mem
    have none : (arcs'.filter fun b => b.source = a.source) = [] :=
      List.filter_eq_nil_iff.mpr fun b hb => by simpa using (apart a ha b hb).symm
    rw [none, List.append_nil, List.nil_append]
  · have none : (arcs.filter fun a => a.source = i) = [] :=
      List.filter_eq_nil_iff.mpr fun a ha => by simpa using fun source => mem ⟨a, ha, source⟩
    rw [none, List.append_nil, List.nil_append]

/-- What is added at sources without arcs may come first, and so may one of two parts. -/
theorem alike_added (added first second rest : List Arc)
    (apart : ∀ a ∈ second ++ (first ++ rest), ∀ b ∈ added, a.source ≠ b.source)
    (apart' : ∀ a ∈ second, ∀ b ∈ first, a.source ≠ b.source) :
    Alike (second ++ (first ++ rest) ++ added) (added ++ (first ++ second) ++ rest) := by
  refine (alike_swap _ _ apart).trans ?_
  rw [List.append_assoc, ← List.append_assoc second]
  exact (Alike.refl added).append ((alike_swap _ _ apart').append (.refl rest))

/-! ### Waiting fragments -/

/-- The automaton while some fragments wait, the latest first. It accepts at their exits. -/
def yard (n : StateId) (fs : List Fragment) : Automaton :=
  grown n (fun id => decide (id ∈ fs.map Fragment.exit)) (fs.flatMap Fragment.arcs)

/-- The ids of the fragments are below `n`, as far as acceptance and steps are concerned. -/
structure Below (fs : List Fragment) (n : StateId) : Prop where
  exit : ∀ i ∈ fs.map Fragment.exit, i < n
  source : ∀ a ∈ fs.flatMap Fragment.arcs, a.source < n

theorem silent_grown (hi : i < n) :
    silent i j (grown n flags arcs) = .ok ((), grown n flags (arcs ++ [.silent i j])) := edge_grown .epsilon hi

theorem Below.cons (placed : f.Placed n) (below : Below fs n) : Below (f :: fs) f.next := by
  obtain ⟨entry, exit, source, target, last⟩ := placed
  obtain ⟨exit', source'⟩ := below
  constructor
  · grind [Fragment.Holds]
  · intro a ha
    rcases List.mem_append.mp ha with ha | ha
    · exact (source a ha).2
    · exact Nat.lt_trans (source' a ha) (Nat.lt_of_le_of_lt entry.1 entry.2)

/-- Nothing is left to edit but the order in which things were done. -/
theorem pure_grown {x : Part} (same : ∀ i < n, flags i = flags' i) (alike : Alike arcs arcs') :
    (pure x : Building Part) (grown n flags arcs) = .ok (x, grown n flags' arcs') := by
  rw [grown_congr same alike]
  rfl

section Constructs
variable (placed : f.Placed n) (placed' : g.Placed f.next) (below : Below fs n)
include below

theorem empty_yard : empty (yard n fs) =
    .ok ((Regex.empty.fragment n).part, yard (n + 1) (Regex.empty.fragment n :: fs)) := by
  rw [empty, yard, bind_eq _ (state_grown true below.source)]
  refine pure_grown (fun i hi => ?_) (.refl _)
  have := below.exit
  grind [Regex.fragment]

theorem literal_yard (c : Char) : literal c (yard n fs) =
    .ok (((Regex.literal c).fragment n).part, yard (n + 2) ((Regex.literal c).fragment n :: fs)) := by
  have lt : ∀ a ∈ fs.flatMap Fragment.arcs, a.source < n + 1 := fun a ha => Nat.lt_succ_of_lt (below.source a ha)
  have entry : n < n + 2 := Nat.lt_add_of_pos_right Nat.two_pos
  rw [literal, yard, bind_eq _ (state_grown false below.source), bind_eq _ (state_grown true lt),
    bind_eq _ (edge_grown _ entry)]
  refine pure_grown (fun i hi => ?_) (alike_swap _ _ fun a ha b hb => ?_)
  · have := below.exit
    grind [Regex.fragment]
  · rw [List.mem_singleton.mp hb]
    exact Nat.ne_of_lt (below.source a ha)

include placed

theorem star_yard : star f.part (yard f.next (f :: fs)) = .ok (f.star.part, yard f.star.next (f.star :: fs)) := by
  have both := below.cons placed
  have lt : ∀ a ∈ (f :: fs).flatMap Fragment.arcs, a.source < f.next + 1 := fun a ha =>
    Nat.lt_succ_of_lt (both.source a ha)
  have entry : f.next < f.next + 2 := Nat.lt_add_of_pos_right Nat.two_pos
  have exit : f.part.exit < f.next + 2 := Nat.lt_add_right 2 placed.exit.2
  rw [star, yard, bind_eq _ (state_grown false both.source), bind_eq _ (state_grown true lt),
    bind_eq _ (silent_grown entry), bind_eq _ (silent_grown entry), bind_eq _ (clear_grown exit),
    bind_eq _ (silent_grown exit), bind_eq _ (silent_grown exit)]
  refine pure_grown (fun i hi => ?_) ?_
  · obtain ⟨-, exit', -⟩ := placed
    have := below.exit
    grind [Fragment.Holds, Fragment.star, Fragment.part]
  · have swap := alike_swap ((f :: fs).flatMap Fragment.arcs)
      [.silent f.next f.entry, .silent f.next (f.next + 1), .silent f.exit (f.next + 1), .silent f.exit f.entry] ?_
    · simpa [Fragment.star, Fragment.part] using swap
    · obtain ⟨-, exit', -, -, last⟩ := placed
      have := below.source
      have := both.source
      grind [Fragment.Holds, Arc.silent]

theorem plus_yard : plus f.part (yard f.next (f :: fs)) = .ok (f.plus.part, yard f.plus.next (f.plus :: fs)) := by
  have both := below.cons placed
  have exit : f.part.exit < f.next + 1 := Nat.lt_succ_of_lt placed.exit.2
  rw [plus, yard, bind_eq _ (state_grown true both.source), bind_eq _ (clear_grown exit), bind_eq _ (silent_grown exit),
    bind_eq _ (silent_grown exit)]
  refine pure_grown (fun i hi => ?_) ?_
  · obtain ⟨-, exit', -⟩ := placed
    have := below.exit
    grind [Fragment.Holds, Fragment.plus, Fragment.part]
  · have swap := alike_swap ((f :: fs).flatMap Fragment.arcs)
      [.silent f.exit f.entry, .silent f.exit f.next] ?_
    · simpa [Fragment.plus, Fragment.part] using swap
    · obtain ⟨-, exit', -, -, last⟩ := placed
      have := below.source
      grind [Fragment.Holds, Arc.silent]

theorem optional_yard :
    optional f.part (yard f.next (f :: fs)) = .ok (f.optional.part, yard f.optional.next (f.optional :: fs)) := by
  have both := below.cons placed
  have lt : ∀ a ∈ (f :: fs).flatMap Fragment.arcs, a.source < f.next + 1 := fun a ha =>
    Nat.lt_succ_of_lt (both.source a ha)
  have entry : f.next < f.next + 2 := Nat.lt_add_of_pos_right Nat.two_pos
  have exit : f.part.exit < f.next + 2 := Nat.lt_add_right 2 placed.exit.2
  rw [optional, yard, bind_eq _ (state_grown false both.source), bind_eq _ (state_grown true lt),
    bind_eq _ (silent_grown entry), bind_eq _ (silent_grown entry), bind_eq _ (clear_grown exit),
    bind_eq _ (silent_grown exit)]
  refine pure_grown (fun i hi => ?_) ?_
  · obtain ⟨-, exit', -⟩ := placed
    have := below.exit
    grind [Fragment.Holds, Fragment.optional, Fragment.part]
  · have swap := alike_swap ((f :: fs).flatMap Fragment.arcs)
      [.silent f.next f.entry, .silent f.next (f.next + 1), .silent f.exit (f.next + 1)] ?_
    · simpa [Fragment.optional, Fragment.part] using swap
    · obtain ⟨-, exit', -, -, last⟩ := placed
      have := below.source
      have := both.source
      grind [Fragment.Holds, Arc.silent]

include placed'

theorem seq_yard :
    seq f.part g.part (yard g.next (g :: f :: fs)) = .ok ((f.seq g).part, yard (f.seq g).next (f.seq g :: fs)) := by
  have all := (below.cons placed).cons placed'
  have exit : f.part.exit < g.next := all.exit _ (by simp [Fragment.part])
  rw [seq, yard, bind_eq _ (clear_grown exit), bind_eq _ (silent_grown exit)]
  refine pure_grown (fun i hi => ?_) ?_
  · obtain ⟨-, exit', -⟩ := placed
    obtain ⟨-, exit'', -⟩ := placed'
    have := below.exit
    grind [Fragment.Holds, Fragment.seq, Fragment.part]
  · have added := alike_added [.silent f.exit g.entry] f.arcs g.arcs (fs.flatMap Fragment.arcs) ?_
      (placed.apart placed')
    · simpa [Fragment.seq, Fragment.part] using added
    · obtain ⟨-, exit', source, -, last⟩ := placed
      obtain ⟨-, exit'', source', -, last'⟩ := placed'
      have := below.source
      grind [Fragment.Holds, Arc.silent]

theorem alt_yard :
    alt f.part g.part (yard g.next (g :: f :: fs)) = .ok ((f.alt g).part, yard (f.alt g).next (f.alt g :: fs)) := by
  have all := (below.cons placed).cons placed'
  have lt : ∀ a ∈ (g :: f :: fs).flatMap Fragment.arcs, a.source < g.next + 1 := fun a ha =>
    Nat.lt_succ_of_lt (all.source a ha)
  have entry : g.next < g.next + 2 := Nat.lt_add_of_pos_right Nat.two_pos
  have exit : f.part.exit < g.next + 2 := Nat.lt_add_right 2 (all.exit _ (by simp [Fragment.part]))
  have exit' : g.part.exit < g.next + 2 := Nat.lt_add_right 2 placed'.exit.2
  rw [alt, yard, bind_eq _ (state_grown false all.source), bind_eq _ (state_grown true lt),
    bind_eq _ (silent_grown entry), bind_eq _ (silent_grown entry), bind_eq _ (clear_grown exit),
    bind_eq _ (silent_grown exit),
    bind_eq _ (clear_grown exit'), bind_eq _ (silent_grown exit')]
  refine pure_grown (fun i hi => ?_) ?_
  · obtain ⟨-, exit', -⟩ := placed
    obtain ⟨-, exit'', -⟩ := placed'
    have := below.exit
    grind [Fragment.Holds, Fragment.alt, Fragment.part]
  · have added := alike_added [.silent g.next f.entry, .silent g.next g.entry, .silent f.exit (g.next + 1),
      .silent g.exit (g.next + 1)] f.arcs g.arcs (fs.flatMap Fragment.arcs) ?_ (placed.apart placed')
    · simpa [Fragment.alt, Fragment.part] using added
    · obtain ⟨-, exit', source, -, last⟩ := placed
      obtain ⟨-, exit'', source', -, last'⟩ := placed'
      have := below.source
      grind [Fragment.Holds, Arc.silent]

end Constructs

/-! ### Waiting expressions -/

/-- The first id above the fragments of some expressions, the latest of which comes first. -/
def nextId : List Regex → StateId
  | [] => 0
  | r :: rest => (r.fragment (nextId rest)).next

/-- The fragments of some expressions, one behind the other. -/
def fragments : List Regex → List Fragment
  | [] => []
  | r :: rest => r.fragment (nextId rest) :: fragments rest

/-- The automaton while some expressions wait. -/
def built (rs : List Regex) : Automaton := yard (nextId rs) (fragments rs)

/-- The ends of an expression behind others. -/
def partOn (rs : List Regex) (r : Regex) : Part := (r.fragment (nextId rs)).part

/-- The ends of some expressions behind others. -/
def partsOn (rs : List Regex) : List Regex → List Part
  | [] => []
  | r :: rest => partOn (rest ++ rs) r :: partsOn rs rest

theorem below_fragments : ∀ rs : List Regex, Below (fragments rs) (nextId rs)
  | [] => ⟨by simp [fragments], by simp [fragments]⟩
  | r :: rest => (below_fragments rest).cons (Fragment.placed_fragment r _)

variable {rs : List Regex}

theorem literal_built (c : Char) : literal c (built rs) =
    .ok (partOn rs (.literal c), built (.literal c :: rs)) := literal_yard (below_fragments rs) c

theorem repeated_built (r : Regex) (op : Repetition) : repeated (partOn rs r) op (built (r :: rs)) =
    .ok (partOn rs (.repeated op r), built (.repeated op r :: rs)) := by
  have placed := Fragment.placed_fragment r (nextId rs)
  have below := below_fragments rs
  cases op with
  | star => exact star_yard placed below
  | plus => exact plus_yard placed below
  | optional => exact optional_yard placed below

/-- Joining the latest two over and over, where two can be joined. -/
theorem foldlM_built {op : Part → Part → Building Part} {join : Regex → Regex → Regex}
    (joined : ∀ r s rs, op (partOn rs r) (partOn (r :: rs) s) (built (s :: r :: rs)) =
      .ok (partOn rs (join r s), built (join r s :: rs))) (earlier : List Regex) (last : Regex) :
    (partsOn rs earlier).foldlM (fun rest f => op f rest) (partOn (earlier ++ rs) last)
      (built (last :: (earlier ++ rs))) =
      .ok (partOn rs (earlier.foldl (fun rest r => join r rest) last),
        built (earlier.foldl (fun rest r => join r rest) last :: rs)) := by
  induction earlier generalizing last with
  | nil => rfl
  | cons r earlier ih =>
    rw [partsOn, List.foldlM_cons]
    exact (bind_eq _ (joined r last (earlier ++ rs))).trans (ih (join r last))

theorem sequence_built (items : List Regex) : sequence (partsOn rs items) (built (items ++ rs)) =
    .ok (partOn rs (Level.sequence items), built (Level.sequence items :: rs)) := by
  cases items with
  | nil => exact empty_yard (below_fragments rs)
  | cons last earlier =>
    refine foldlM_built (fun r s rs => ?_) earlier last
    exact seq_yard (Fragment.placed_fragment r _) (Fragment.placed_fragment s _) (below_fragments rs)

end Building

open Building

/-- The parts of a level behind other expressions. -/
def Level.draft (rs : List Regex) (l : Level) : Draft :=
  { branches := partsOn rs l.branches, items := partsOn (l.branches ++ rs) l.items }

/-- The expressions of a level, the latest first. -/
def Level.all (l : Level) : List Regex := l.items ++ l.branches

theorem draft_append {rs : List Regex} (l : Level) (r : Regex) :
    (l.append r).draft rs = (l.draft rs).append (partOn (l.all ++ rs) r) := by
  rw [Level.all, List.append_assoc]
  rfl

theorem finish_built {rs : List Regex} (l : Level) : (l.draft rs).finish (built (l.all ++ rs)) =
    .ok (partOn rs l.finish, built (l.finish :: rs)) := by
  rw [Level.all, List.append_assoc]
  refine (bind_eq _ (sequence_built l.items)).trans (foldlM_built (fun r s rs => ?_) l.branches (Level.sequence l.items))
  exact alt_yard (Fragment.placed_fragment r _) (Fragment.placed_fragment s _) (below_fragments rs)

/-! ### Reading -/

/-- The expressions of the levels around the innermost one. -/
def waiting (outer : List (Nat × Level)) : List Regex := outer.flatMap fun p => p.2.all

/-- The parts of those levels. -/
def drafts : List (Nat × Level) → List (Nat × Draft)
  | [] => []
  | (opened, l) :: outer => (opened, l.draft (waiting outer)) :: drafts outer

theorem getLast?_drafts (outer : List (Nat × Level)) :
    (drafts outer).getLast?.map Prod.fst = outer.getLast?.map Prod.fst := by
  have opened : (drafts outer).map Prod.fst = outer.map Prod.fst := by
    induction outer with
    | nil => rfl
    | cons p outer ih => rw [drafts, List.map_cons, List.map_cons, ih]
  rw [← List.getLast?_map, opened, List.getLast?_map]

theorem perform_bind {α β : Type} {b : Building α} {x : α} (k : α × Automaton → Except Failure β)
    (h : b fa = .ok (x, fb)) : (b.perform fa >>= k) = k (x, fb) := by
  rw [Building.perform, StateT.run, h]
  rfl

/-- With the start set, the automaton of a single expression is done. -/
theorem start_built (r : Regex) : start (partOn [] r).entry (built [r]) = .ok ((), (r.fragment 0).automaton) := by
  have placed := Fragment.placed_fragment r 0
  have entry : (partOn [] r).entry < (built [r]).size := by
    rw [built, yard, size_grown]
    exact placed.entry.2
  have states : ∀ i : StateId, (built [r]).states[i]? = (r.fragment 0).automaton.states[i]? := by
    intro i
    rw [built, yard, getElem?_grown, Fragment.automaton, Automaton.state?_assembled]
    show (if i < (r.fragment 0).next then _ else none) = _
    split
    · next hi =>
      rw [Fragment.getElem?_states hi]
      simp [fragments, nextId, Bool.beq_eq_decide_eq]
    · next hi =>
      rw [List.getElem?_eq_none (Fragment.length_states ▸ Nat.le_of_not_lt hi)]
      rfl
  have started : (built [r]).setStart (partOn [] r).entry = .ok (r.fragment 0).automaton := by
    rw [Automaton.setStart, if_pos entry]
    exact congrArg Except.ok (Automaton.ext_states states rfl)
  rw [start, started]
  rfl

/-- Reading in place goes on from the automaton of the expressions that wait, and ends as building the expression that is
    read does. -/
theorem scanInPlace_eq (offset : Nat) (level : Level) (outer : List (Nat × Level)) (pattern : List Char) :
    (built (level.all ++ waiting outer)).scanInPlace offset (level.draft (waiting outer)) (drafts outer) pattern =
      (Regex.scan offset level outer pattern).mapError Failure.pattern >>= fun r => r.build.mapError .fault := by
  -- The cases of the other reader: an expression that it puts on a level is one that waits here, with its edits made.
  fun_induction Regex.scan offset level outer pattern with
  | case1 offset level outer opened enclosing last =>
    obtain ⟨⟨_, draft⟩, last', rfl⟩ := Option.map_eq_some_iff.mp ((getLast?_drafts outer).trans (congrArg _ last))
    rw [Automaton.scanInPlace, last']
    rfl
  | case2 offset level outer none =>
    obtain rfl := List.getLast?_eq_none_iff.mp none
    rw [Automaton.scanInPlace]
    show (level.draft []).finish.perform (built (level.all ++ [])) >>= _ = _
    refine (perform_bind _ (finish_built level)).trans ((perform_bind _ (start_built level.finish)).trans ?_)
    show _ = level.finish.build.mapError Failure.fault
    rw [Regex.build_eq]
    rfl
  | case3 offset level outer c rest token ih =>
    rw [Automaton.scanInPlace.eq_def]
    simp only [token]
    exact ih
  | case4 offset level c rest token =>
    rw [Automaton.scanInPlace.eq_def]
    simp only [token]
    rfl
  | case5 offset level c rest token opened enclosing outer ih =>
    rw [Automaton.scanInPlace.eq_def]
    simp only [token]
    rw [draft_append] at ih
    exact (perform_bind _ (finish_built level)).trans ih
  | case6 offset level outer c rest token ih =>
    rw [Automaton.scanInPlace.eq_def]
    simp only [token]
    rw [Level.all, List.append_assoc]
    exact (perform_bind _ (sequence_built level.items)).trans ih
  | case7 offset level outer c rest op token none =>
    obtain ⟨branches, items⟩ := level
    cases items with
    | nil =>
      rw [Automaton.scanInPlace.eq_def]
      simp only [token]
      rfl
    | cons r items => cases none
  | case8 offset level outer c rest op token level' some ih =>
    obtain ⟨branches, items⟩ := level
    cases items with
    | nil => cases some
    | cons r items =>
      obtain rfl := Option.some.inj some
      rw [Automaton.scanInPlace.eq_def]
      simp only [token]
      rw [Level.all, List.append_assoc] at ih ⊢
      exact (perform_bind _ (repeated_built r op)).trans ih
  | case9 offset level outer c token =>
    rw [Automaton.scanInPlace.eq_def]
    simp only [token]
    rfl
  | case10 offset level outer c token d rest ih =>
    rw [Automaton.scanInPlace.eq_def]
    simp only [token]
    rw [draft_append] at ih
    exact (perform_bind _ (literal_built _)).trans ih
  | case11 offset level outer c rest token ih =>
    rw [Automaton.scanInPlace.eq_def]
    simp only [token]
    rw [draft_append] at ih
    exact (perform_bind _ (literal_built _)).trans ih

/-- Built in place, a pattern has the same automaton and the same failures. -/
theorem Automaton.ofPatternInPlace_eq (pattern : List Char) : ofPatternInPlace pattern = ofPattern pattern := by
  rw [ofPatternInPlace, ofPattern, Regex.parse]
  cases pattern.zipIdx.find? fun p => Regex.isBracket p.1 with
  | some p => rfl
  | none => exact scanInPlace_eq 0 {} [] pattern

end FiniteAutomata
