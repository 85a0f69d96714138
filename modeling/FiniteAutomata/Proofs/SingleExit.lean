import FiniteAutomata.Proofs.Compilation
import FiniteAutomata.Proofs.InPlace

/-! One way in and one way out. Every state of a fragment lies between its entry and its exit, since a construct around
    a fragment leads to its entry and on from its exit; and no state gets a third step, since steps are only added at
    new states and at exits, which had none. So the automaton of a pattern accepts at one state only, which is reached
    from everywhere and left nowhere. -/

namespace FiniteAutomata

variable {arcs arcs' : List Arc} {i j n : StateId} {f g h : Fragment} {pattern : List Char} {fa : Automaton}

namespace Fragment

/-! ### Between entry and exit -/

/-- The entry leads to the state, and the state to the exit. -/
structure Between (f : Fragment) (i : StateId) : Prop where
  entered : ∃ word, Trail f.arcs f.entry word i
  left : ∃ word, Trail f.arcs i word f.exit

/-- All states of a fragment lie between its entry and its exit. -/
def Linked (f : Fragment) (n : StateId) : Prop := ∀ i, f.Holds n i → f.Between i

/-- What lies inside a fragment lies inside the construct that leads to its entry and on from its exit. -/
theorem Linked.between (linked : f.Linked n) (own : ∀ a ∈ f.arcs, a ∈ h.arcs)
    (enter : ∃ word, Trail h.arcs h.entry word f.entry) (leave : ∃ word, Trail h.arcs f.exit word h.exit)
    (hi : f.Holds n i) : h.Between i := by
  obtain ⟨⟨u, entered⟩, v, left⟩ := linked i hi
  obtain ⟨u', enter⟩ := enter
  obtain ⟨v', leave⟩ := leave
  exact ⟨⟨_, enter.append (entered.mono own)⟩, _, (left.mono own).append leave⟩

theorem exists_trail_of_mem (h : .silent i j ∈ arcs) : ∃ word, Trail arcs i word j := ⟨[], .silent h (.nil j)⟩

section Constructs
variable (placed : f.Placed n) (placed' : g.Placed f.next) (linked : f.Linked n) (linked' : g.Linked f.next)
include linked

/-- The construct has a new entry, which leads to the entry of the fragment and to a new exit. -/
theorem Linked.wrap (entry : h.entry = f.next) (exit : h.exit = f.next + 1) (next : h.next = f.next + 2)
    (own : ∀ a ∈ f.arcs, a ∈ h.arcs) (enter : .silent f.next f.entry ∈ h.arcs)
    (skip : .silent f.next (f.next + 1) ∈ h.arcs) (leave : .silent f.exit (f.next + 1) ∈ h.arcs) : h.Linked n := by
  intro i hi
  have cases : f.Holds n i ∨ i = f.next ∨ i = f.next + 1 := by grind [Holds]
  rcases cases with inside | rfl | rfl
  · refine linked.between own ?_ ?_ inside
    · rw [entry]
      exact exists_trail_of_mem enter
    · rw [exit]
      exact exists_trail_of_mem leave
  · constructor
    · rw [entry]
      exact ⟨[], .nil _⟩
    · rw [exit]
      exact exists_trail_of_mem skip
  · constructor
    · rw [entry]
      exact exists_trail_of_mem skip
    · rw [exit]
      exact ⟨[], .nil _⟩

theorem Linked.star : f.star.Linked n :=
  linked.wrap rfl rfl rfl (by simp +contextual [Fragment.star]) (by simp [Fragment.star]) (by simp [Fragment.star])
    (by simp [Fragment.star])

theorem Linked.optional : f.optional.Linked n :=
  linked.wrap rfl rfl rfl (by simp +contextual [Fragment.optional]) (by simp [Fragment.optional])
    (by simp [Fragment.optional]) (by simp [Fragment.optional])

include placed

theorem Linked.plus : f.plus.Linked n := by
  have own : ∀ a ∈ f.arcs, a ∈ f.plus.arcs := by simp +contextual [Fragment.plus]
  have leave : ∃ word, Trail f.plus.arcs f.exit word f.next := exists_trail_of_mem (by simp [Fragment.plus])
  intro i hi
  have cases : f.Holds n i ∨ i = f.next := by grind [Holds, Fragment.plus]
  rcases cases with inside | rfl
  · exact linked.between own ⟨[], .nil _⟩ leave inside
  · obtain ⟨v, leave⟩ := leave
    obtain ⟨u, through⟩ := (linked _ placed.exit).entered
    exact ⟨⟨_, (through.mono own).append leave⟩, [], .nil _⟩

include linked'

theorem Linked.alt : (f.alt g).Linked n := by
  have own : ∀ a ∈ f.arcs, a ∈ (f.alt g).arcs := by simp +contextual [Fragment.alt]
  have own' : ∀ a ∈ g.arcs, a ∈ (f.alt g).arcs := by simp +contextual [Fragment.alt]
  have enter : ∃ word, Trail (f.alt g).arcs (f.alt g).entry word f.entry := exists_trail_of_mem (by simp [Fragment.alt])
  have enter' : ∃ word, Trail (f.alt g).arcs (f.alt g).entry word g.entry := exists_trail_of_mem (by simp [Fragment.alt])
  have leave : ∃ word, Trail (f.alt g).arcs f.exit word (f.alt g).exit := exists_trail_of_mem (by simp [Fragment.alt])
  have leave' : ∃ word, Trail (f.alt g).arcs g.exit word (f.alt g).exit := exists_trail_of_mem (by simp [Fragment.alt])
  have through := linked.between own enter leave placed.entry
  intro i hi
  have cases : f.Holds n i ∨ g.Holds f.next i ∨ i = (f.alt g).entry ∨ i = (f.alt g).exit := by
    grind [Holds, Fragment.alt]
  rcases cases with inside | inside | rfl | rfl
  · exact linked.between own enter leave inside
  · exact linked'.between own' enter' leave' inside
  · obtain ⟨⟨u, first⟩, v, second⟩ := through
    exact ⟨⟨[], .nil _⟩, _, first.append second⟩
  · obtain ⟨⟨u, first⟩, v, second⟩ := through
    exact ⟨⟨_, first.append second⟩, [], .nil _⟩

include placed'

theorem Linked.seq : (f.seq g).Linked n := by
  have own : ∀ a ∈ f.arcs, a ∈ (f.seq g).arcs := by simp +contextual [Fragment.seq]
  have own' : ∀ a ∈ g.arcs, a ∈ (f.seq g).arcs := by simp +contextual [Fragment.seq]
  have join : Trail (f.seq g).arcs f.exit [] g.entry := .silent (by simp [Fragment.seq]) (.nil _)
  obtain ⟨u, first⟩ := (linked _ placed.exit).entered
  obtain ⟨v, second⟩ := (linked' _ placed'.entry).left
  intro i hi
  have cases : f.Holds n i ∨ g.Holds f.next i := by grind [Holds, Fragment.seq]
  rcases cases with inside | inside
  · exact linked.between own ⟨[], .nil _⟩ ⟨_, join.append (second.mono own')⟩ inside
  · exact linked'.between own' ⟨_, (first.mono own).append join⟩ ⟨[], .nil _⟩ inside

end Constructs

theorem linked_fragment (r : Regex) (n : StateId) : (r.fragment n).Linked n := by
  induction r generalizing n with
  | empty =>
    intro i hi
    obtain rfl : i = n := by grind [Regex.fragment, Holds]
    exact ⟨⟨[], .nil _⟩, [], .nil _⟩
  | literal c =>
    have step : Trail [⟨n, n + 1, .char c⟩] n [c] (n + 1) := .read (List.mem_singleton_self _) (.nil _)
    intro i hi
    have cases : i = n ∨ i = n + 1 := by grind [Regex.fragment, Holds]
    rcases cases with rfl | rfl
    · exact ⟨⟨[], .nil _⟩, _, step⟩
    · exact ⟨⟨_, step⟩, [], .nil _⟩
  | seq r s ihr ihs => exact (ihr n).seq (placed_fragment r n) (placed_fragment s _) (ihs _)
  | alt r s ihr ihs => exact (ihr n).alt (placed_fragment r n) (ihs _)
  | repeated op r ih =>
    cases op with
    | star => exact (ih n).star
    | plus => exact (ih n).plus (placed_fragment r n)
    | optional => exact (ih n).optional

/-! ### Steps of one state -/

/-- No state has more than two arcs, and the arcs of a state lead to different states. -/
structure Sparse (arcs : List Arc) : Prop where
  degree : ∀ i, arcs.countP (fun a => a.source = i) ≤ 2
  apart : arcs.Pairwise fun a b => a.source = b.source → a.target ≠ b.target

theorem countP_eq_zero_of_source (none : ∀ a ∈ arcs, a.source ≠ i) : arcs.countP (fun a => a.source = i) = 0 := by
  simpa [List.countP_eq_zero] using none

theorem Sparse.append (h : Sparse arcs) (h' : Sparse arcs') (disjoint : ∀ a ∈ arcs, ∀ b ∈ arcs', a.source ≠ b.source) :
    Sparse (arcs ++ arcs') where
  degree i := by
    rw [List.countP_append]
    by_cases mem : ∃ a ∈ arcs, a.source = i
    · obtain ⟨a, ha, rfl⟩ := mem
      rw [countP_eq_zero_of_source fun b hb => (disjoint a ha b hb).symm, Nat.add_zero]
      exact h.degree _
    · rw [countP_eq_zero_of_source fun a ha source => mem ⟨a, ha, source⟩, Nat.zero_add]
      exact h'.degree i
  apart := List.pairwise_append.mpr
    ⟨h.apart, h'.apart, fun a ha b hb source => absurd source (disjoint a ha b hb)⟩

/-- Up to two steps are added at a state that had none. -/
theorem Sparse.fan {outs : List StateId} (sparse : Sparse arcs) (none : ∀ a ∈ arcs, a.source ≠ i) (nodup : outs.Nodup)
    (few : outs.length ≤ 2) : Sparse (outs.map (Arc.silent i) ++ arcs) := by
  refine Sparse.append ⟨fun j => ?_, ?_⟩ sparse fun a ha b hb => ?_
  · exact Nat.le_trans List.countP_le_length (by simpa using few)
  · refine List.pairwise_map.mpr (nodup.imp fun {j k} hne => ?_)
    exact fun _ => hne
  · obtain ⟨j, -, rfl⟩ := List.mem_map.mp ha
    exact (none b hb).symm

section Constructs
variable (placed : f.Placed n) (placed' : g.Placed f.next) (sparse : Sparse f.arcs) (sparse' : Sparse g.arcs)
include placed sparse

theorem Placed.sparse_star : Sparse f.star.arcs := by
  obtain ⟨entry, exit, source, target, last⟩ := placed
  show Sparse ([f.entry, f.next + 1].map (Arc.silent f.next) ++ ([f.next + 1, f.entry].map (Arc.silent f.exit) ++ f.arcs))
  refine (sparse.fan last ?_ (by simp)).fan ?_ ?_ (by simp) <;> grind [Holds, Arc.silent]

theorem Placed.sparse_plus : Sparse f.plus.arcs := by
  obtain ⟨entry, exit, source, target, last⟩ := placed
  show Sparse ([f.entry, f.next].map (Arc.silent f.exit) ++ f.arcs)
  refine sparse.fan last ?_ (by simp)
  grind [Holds]

theorem Placed.sparse_optional : Sparse f.optional.arcs := by
  obtain ⟨entry, exit, source, target, last⟩ := placed
  show Sparse ([f.entry, f.next + 1].map (Arc.silent f.next) ++ ([f.next + 1].map (Arc.silent f.exit) ++ f.arcs))
  refine (sparse.fan last ?_ (by simp)).fan ?_ ?_ (by simp) <;> grind [Holds, Arc.silent]

include placed' sparse'

theorem Placed.sparse_append : Sparse (f.arcs ++ g.arcs) :=
  sparse.append sparse' fun a ha b hb => (placed.apart placed' b hb a ha).symm

theorem Placed.sparse_seq : Sparse (f.seq g).arcs := by
  have both := placed.sparse_append placed' sparse sparse'
  obtain ⟨entry, exit, source, target, last⟩ := placed
  obtain ⟨entry', exit', source', target', last'⟩ := placed'
  show Sparse ([g.entry].map (Arc.silent f.exit) ++ (f.arcs ++ g.arcs))
  refine both.fan ?_ (by simp) (by simp)
  grind [Holds]

theorem Placed.sparse_alt : Sparse (f.alt g).arcs := by
  have both := placed.sparse_append placed' sparse sparse'
  obtain ⟨entry, exit, source, target, last⟩ := placed
  obtain ⟨entry', exit', source', target', last'⟩ := placed'
  show Sparse ([f.entry, g.entry].map (Arc.silent g.next) ++ ([g.next + 1].map (Arc.silent f.exit) ++
    ([g.next + 1].map (Arc.silent g.exit) ++ (f.arcs ++ g.arcs))))
  refine ((both.fan ?_ (by simp) (by simp)).fan ?_ (by simp) (by simp)).fan ?_ ?_ (by simp) <;>
    grind [Holds, Arc.silent]

end Constructs

theorem sparse_fragment (r : Regex) (n : StateId) : Sparse (r.fragment n).arcs := by
  induction r generalizing n with
  | empty => exact ⟨fun _ => Nat.zero_le 2, .nil⟩
  | literal c => exact ⟨fun i => Nat.le_trans List.countP_le_length (by simp [Regex.fragment]), List.pairwise_singleton _ _⟩
  | seq r s ihr ihs => exact (placed_fragment r n).sparse_seq (placed_fragment s _) (ihr n) (ihs _)
  | alt r s ihr ihs => exact (placed_fragment r n).sparse_alt (placed_fragment s _) (ihr n) (ihs _)
  | repeated op r ih =>
    cases op with
    | star => exact (placed_fragment r n).sparse_star (ih n)
    | plus => exact (placed_fragment r n).sparse_plus (ih n)
    | optional => exact (placed_fragment r n).sparse_optional (ih n)

open Automaton in
/-- A state has an edge for each of its arcs. -/
theorem Sparse.outgoing (sparse : Sparse arcs) (i : StateId) :
    (outgoing arcs i).length ≤ 2 ∧ ∀ e ∈ outgoing arcs i, ∃ a, e.label = {a} := by
  have apart : ∀ a ∈ arcs, ∀ b ∈ arcs, a ≠ b → a.source = b.source → a.target ≠ b.target := by
    have : Std.Symm fun a b : Arc => a.source = b.source → a.target ≠ b.target :=
      ⟨fun _ _ h source => (h source.symm).symm⟩
    exact fun a ha b hb => sparse.apart.forall ha hb
  refine ⟨?_, fun e he => ?_⟩
  · have few := sparse.degree i
    rw [List.countP_eq_length_filter] at few
    rw [Automaton.outgoing, Edge.gather, List.length_map]
    have fewer := (nodup_eraseDups ((arcs.filter fun a => a.source = i).map Arc.target)).length_le_of_subset
      fun j hj => List.mem_eraseDups.mp hj
    exact Nat.le_trans fewer (by rwa [List.length_map])
  · obtain ⟨a, ha, source, same⟩ := mem_outgoing.mp he
    have target : e.target = a.target := by rw [same]; rfl
    refine ⟨a.symbol, Label.ext fun x => ?_⟩
    rw [mem_outgoing_label he, Label.mem_singleton, target]
    constructor
    · intro hx
      by_contra ne
      exact apart _ hx a ha (fun h => ne (congrArg Arc.symbol h)) source.symm rfl
    · rintro rfl
      exact source ▸ ha

/-! ### On their own -/

theorem size_automaton : f.automaton.size = f.next := by
  rw [automaton, Automaton.size_assembled, length_states]

theorem kind_of_getElem? {s : State} (f : Fragment) (hs : f.automaton.states[i]? = some s) :
    i < f.next ∧ s.kind = .nfa := by
  have hi : i < f.next := size_automaton ▸ (Array.getElem?_eq_some_iff.mp hs).1
  rw [automaton, Automaton.state?_assembled, getElem?_states hi] at hs
  obtain rfl := Option.some.inj hs
  exact ⟨hi, rfl⟩

theorem edgesOf_eq (hi : i < f.next) : f.automaton.edgesOf i = Automaton.outgoing f.arcs i :=
  Automaton.edgesOf_assembled (length_states.symm ▸ hi)

theorem edgesOf_eq_nil (hi : f.next ≤ i) : f.automaton.edgesOf i = [] := by
  have none : f.automaton.states[i]? = none := Array.getElem?_eq_none (Nat.le_trans (Nat.le_of_eq size_automaton) hi)
  rw [Automaton.edgesOf, none]

section Automaton
variable (placed : f.Placed 0)
include placed

theorem Placed.edgesOf_exit : f.automaton.edgesOf f.exit = [] := by
  have none : ∀ a ∈ f.arcs, ¬decide (a.source = f.exit) = true := fun a ha => by simpa using placed.last a ha
  rw [edgesOf_eq placed.exit.2, Automaton.outgoing, List.filter_eq_nil_iff.mpr none]
  rfl

theorem Linked.reachable (linked : f.Linked 0) (hi : i < f.next) : f.automaton.Reachable i := by
  obtain ⟨word, trail⟩ := (linked i ⟨Nat.zero_le i, hi⟩).entered
  exact ⟨placed.start_lt, (placed.path_iff.mpr trail).leads⟩

theorem Linked.leads_exit (linked : f.Linked 0) (hi : i < f.next) : f.automaton.Leads i f.exit := by
  obtain ⟨word, trail⟩ := (linked i ⟨Nat.zero_le i, hi⟩).left
  exact (placed.path_iff.mpr trail).leads

end Automaton
end Fragment

namespace Automaton

theorem exists_fragment (made : ofPattern pattern = .ok fa) : ∃ q : Regex, (q.fragment 0).automaton = fa := by
  obtain ⟨q, parsed⟩ := exists_parse made
  rw [ofPattern, parsed] at made
  have built : (q.build.mapError Failure.fault) = .ok fa := made
  rw [q.build_eq] at built
  exact ⟨q, Except.ok.inj built⟩

/-- The automaton of a pattern, which building in place gives too, has states of kind `nfa` only, all of them reachable.
    One of them accepts; nothing leads on from it, and every state leads to it. A state has two edges at most, each with
    a single symbol. -/
theorem ofPattern_single_exit (made : ofPattern pattern = .ok fa) : ofPatternInPlace pattern = .ok fa ∧
    (∀ i s, fa.states[i]? = some s → s.kind = .nfa ∧ fa.Reachable i) ∧
    (∃ exit, (∀ i, fa.accepting i = true ↔ i = exit) ∧ fa.edgesOf exit = [] ∧ ∀ i < fa.size, fa.Leads i exit) ∧
    ∀ i, (fa.edgesOf i).length ≤ 2 ∧ ∀ e ∈ fa.edgesOf i, ∃ a, e.label = {a} := by
  refine ⟨(ofPatternInPlace_eq pattern).trans made, ?_⟩
  obtain ⟨q, rfl⟩ := exists_fragment made
  have placed := Fragment.placed_fragment q 0
  have linked := Fragment.linked_fragment q 0
  refine ⟨fun i s hs => ?_, ⟨(q.fragment 0).exit, fun i => placed.accepting_iff, placed.edgesOf_exit, ?_⟩, fun i => ?_⟩
  · obtain ⟨hi, kind⟩ := (q.fragment 0).kind_of_getElem? hs
    exact ⟨kind, linked.reachable placed hi⟩
  · intro i hi
    exact linked.leads_exit placed (Fragment.size_automaton ▸ hi)
  · by_cases hi : i < (q.fragment 0).next
    · rw [Fragment.edgesOf_eq hi]
      exact (Fragment.sparse_fragment q 0).outgoing i
    · rw [Fragment.edgesOf_eq_nil (Nat.le_of_not_lt hi)]
      exact ⟨Nat.zero_le 2, fun e he => nomatch he⟩

/-- A group of nothing, whose entry is its exit, as one alternative of a repeated group. -/
theorem ofPattern_single_exit_hollow : ∃ fa, ofPattern ['(', '(', ')', '|', 'a', ')', '+'] = .ok fa ∧
    fa.accepting 5 = true ∧ (∀ i < fa.size, fa.Leads i 5) ∧ ∀ e ∈ fa.edgesOf 4, ∃ a, e.label = {a} := by
  obtain ⟨fa, made⟩ : ∃ fa, ofPattern ['(', '(', ')', '|', 'a', ')', '+'] = .ok fa := ⟨_, rfl⟩
  obtain ⟨-, -, ⟨exit, only, -, leads⟩, sparse⟩ := ofPattern_single_exit made
  have five : fa.accepting 5 = true := by
    obtain rfl := Except.ok.inj made
    rfl
  obtain rfl := (only 5).mp five
  exact ⟨fa, made, five, leads, (sparse 4).2⟩

end Automaton
end FiniteAutomata
