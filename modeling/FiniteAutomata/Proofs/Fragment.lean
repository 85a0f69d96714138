import FiniteAutomata.Pattern.Fragment
import FiniteAutomata.Pattern.Language
import FiniteAutomata.Proofs.Assembly
import FiniteAutomata.Proofs.Simulation

/-! Fragments recognise what their expressions describe. No step of a fragment leaves its exit or the range of its
    ids, so whatever is built around a fragment can only be entered from its exit: a trail that starts inside
    follows the steps of the fragment to the exit, and what is left of the word is up to the construct around
    it. -/

namespace FiniteAutomata

/-! ### Trails -/

/-- A sequence of arcs that spells a word. -/
inductive Trail (arcs : List Arc) : StateId → List Char → StateId → Prop where
  | nil (i : StateId) : Trail arcs i [] i
  | silent {i j k : StateId} {word : List Char} (h : .silent i j ∈ arcs) (rest : Trail arcs j word k) :
      Trail arcs i word k
  | read {i j k : StateId} {c : Char} {word : List Char} (h : ⟨i, j, .char c⟩ ∈ arcs) (rest : Trail arcs j word k) :
      Trail arcs i (c :: word) k

variable {arcs arcs' : List Arc} {i j k l n : StateId} {f g : Fragment} {r s : Regex} {u v word : List Char}

theorem Trail.append (h : Trail arcs i u j) (h' : Trail arcs j v k) : Trail arcs i (u ++ v) k := by
  induction h with
  | nil => exact h'
  | silent step _ ih => exact .silent step (ih h')
  | read step _ ih => exact .read step (ih h')

theorem Trail.mono (sub : ∀ a ∈ arcs, a ∈ arcs') (h : Trail arcs i word j) : Trail arcs' i word j := by
  induction h with
  | nil i => exact .nil i
  | silent step _ ih => exact .silent (sub _ step) ih
  | read step _ ih => exact .read (sub _ step) ih

theorem Trail.through (enter : .silent i k ∈ arcs) (h : Trail arcs k word l) (leave : .silent l j ∈ arcs) :
    Trail arcs i word j :=
  .silent enter (List.append_nil word ▸ h.append (.silent leave (.nil j)))

/-- Where no arc starts a trail ends. -/
theorem Trail.stuck (last : ∀ a ∈ arcs, a.source ≠ i) (h : Trail arcs i word j) : word = [] ∧ i = j := by
  cases h with
  | nil => exact ⟨rfl, rfl⟩
  | silent step _ => exact absurd rfl (last _ step)
  | read step _ => exact absurd rfl (last _ step)

/-- The first step of a trail that starts where only empty steps do. -/
theorem Trail.first {outs : List StateId} (only : ∀ a ∈ arcs, a.source = i → ∃ l ∈ outs, a = .silent i l) (hij : i ≠ j)
    (h : Trail arcs i word j) : ∃ l ∈ outs, Trail arcs l word j := by
  cases h with
  | nil => exact absurd rfl hij
  | silent step rest =>
    obtain ⟨l, hl, heq⟩ := only _ step rfl
    obtain ⟨-, rfl, -⟩ := Arc.mk.inj heq
    exact ⟨_, hl, rest⟩
  | read step _ =>
    obtain ⟨l, -, heq⟩ := only _ step rfl
    obtain ⟨-, -, hc⟩ := Arc.mk.inj heq
    cases hc

namespace Fragment

/-! ### Ranges -/

/-- The id is one of the fragment. -/
def Holds (f : Fragment) (n i : StateId) : Prop := n ≤ i ∧ i < f.next

/-- The ids of a fragment are those from `n` up to its `next`, and no step leaves its exit. -/
structure Placed (f : Fragment) (n : StateId) : Prop where
  entry : f.Holds n f.entry
  exit : f.Holds n f.exit
  source : ∀ a ∈ f.arcs, f.Holds n a.source
  target : ∀ a ∈ f.arcs, f.Holds n a.target
  last : ∀ a ∈ f.arcs, a.source ≠ f.exit

/-- Two fragments, one behind the other, have no source in common. -/
theorem Placed.apart (placed : f.Placed n) (placed' : g.Placed f.next) :
    ∀ a ∈ g.arcs, ∀ b ∈ f.arcs, a.source ≠ b.source := fun a ha b hb =>
  Nat.ne_of_gt (Nat.lt_of_lt_of_le (placed.source b hb).2 (placed'.source a ha).1)

/-- Among the given arcs, those that start inside the fragment are its own or empty steps from its exit to `outs`. -/
def Within (f : Fragment) (n : StateId) (outs : List StateId) (arcs : List Arc) : Prop :=
  ∀ a ∈ arcs, f.Holds n a.source → a ∈ f.arcs ∨ ∃ j ∈ outs, a = .silent f.exit j

/-- A trail from inside a fragment to a state outside of it leads to the exit first. What is left of the word then
    satisfies whatever the ways out guarantee; when the entry is among them, the fragment may be repeated. -/
theorem Within.leave {outs : List StateId} (within : f.Within n outs arcs) (placed : f.Placed n) (P : List Char → Prop)
    (out : ∀ l ∈ outs, l ≠ f.entry → ∀ v, Trail arcs l v j → P v)
    (again : f.entry ∈ outs → ∀ u v, Trail f.arcs f.entry u f.exit → P v → P (u ++ v))
    (outside : ¬f.Holds n j) (hi : f.Holds n i) (h : Trail arcs i word j) :
    ∃ u v, word = u ++ v ∧ Trail f.arcs i u f.exit ∧ P v := by
  induction h with
  | nil => exact absurd hi outside
  | @silent i l j word step rest ih =>
    rcases within _ step hi with own | ⟨l', hl', heq⟩
    · obtain ⟨u, v, rfl, trail, hv⟩ := ih out outside (placed.target _ own)
      exact ⟨u, v, rfl, .silent own trail, hv⟩
    · obtain ⟨rfl, rfl, -⟩ := Arc.mk.inj heq
      refine ⟨[], word, rfl, .nil _, ?_⟩
      by_cases hentry : l = f.entry
      · -- Back at the entry the rest of the trail is one from inside again, so the induction speaks of it.
        subst hentry
        obtain ⟨u, v, rfl, trail, hv⟩ := ih out outside placed.entry
        exact again hl' u v trail hv
      · exact out l hl' hentry word rest
  | read step _ ih =>
    rcases within _ step hi with own | ⟨l', hl', heq⟩
    · obtain ⟨u, v, rfl, trail, hv⟩ := ih out outside (placed.target _ own)
      exact ⟨_ :: u, v, rfl, .read own trail, hv⟩
    · obtain ⟨-, -, hc⟩ := Arc.mk.inj heq
      cases hc

/-- A trail that cannot leave a fragment follows its steps. -/
theorem Within.stay (within : f.Within n [] arcs) (placed : f.Placed n) (hi : f.Holds n i) (h : Trail arcs i word j) :
    Trail f.arcs i word j := by
  induction h with
  | nil i => exact .nil i
  | silent step _ ih =>
    rcases within _ step hi with own | ⟨l', hl', -⟩
    · exact .silent own (ih (placed.target _ own))
    · cases hl'
  | read step _ ih =>
    rcases within _ step hi with own | ⟨l', hl', -⟩
    · exact .read own (ih (placed.target _ own))
    · cases hl'

/-! ### Constructs keep to their ids -/

section Constructs
variable (hf : f.Placed n) (hg : g.Placed f.next)
include hf

theorem Placed.star : f.star.Placed n := by
  obtain ⟨entry, exit, source, target, last⟩ := hf
  constructor <;> grind [Holds, Fragment.star, Arc.silent]

theorem Placed.plus : f.plus.Placed n := by
  obtain ⟨entry, exit, source, target, last⟩ := hf
  constructor <;> grind [Holds, Fragment.plus, Arc.silent]

theorem Placed.optional : f.optional.Placed n := by
  obtain ⟨entry, exit, source, target, last⟩ := hf
  constructor <;> grind [Holds, Fragment.optional, Arc.silent]

include hg

theorem Placed.seq : (f.seq g).Placed n := by
  obtain ⟨entry, exit, source, target, last⟩ := hf
  obtain ⟨entry', exit', source', target', last'⟩ := hg
  constructor <;> grind [Holds, Fragment.seq, Arc.silent]

theorem Placed.alt : (f.alt g).Placed n := by
  obtain ⟨entry, exit, source, target, last⟩ := hf
  obtain ⟨entry', exit', source', target', last'⟩ := hg
  constructor <;> grind [Holds, Fragment.alt, Arc.silent]

end Constructs

theorem placed_fragment (r : Regex) (n : StateId) : (r.fragment n).Placed n := by
  induction r generalizing n with
  | empty => constructor <;> simp [Regex.fragment, Holds]
  | literal c => constructor <;> simp [Regex.fragment, Holds]
  | seq r s ihr ihs => exact (ihr n).seq (ihs _)
  | alt r s ihr ihs => exact (ihr n).alt (ihs _)
  | repeated op r ih =>
    cases op with
    | star => exact (ih n).star
    | plus => exact (ih n).plus
    | optional => exact (ih n).optional

/-! ### What a fragment spells -/

/-- The words that lead from the entry of a fragment to its exit are those that the expression describes. -/
def Spells (f : Fragment) (r : Regex) : Prop := ∀ word, Trail f.arcs f.entry word f.exit ↔ r.Matches word

section Spells
variable (hf : f.Placed n) (hg : g.Placed f.next) (spells : f.Spells r) (spells' : g.Spells s)
include spells

/-- Once the only way on is to repeat the fragment or to stop, any number of repetitions may follow. -/
theorem Spells.loop {exit : StateId} (own : ∀ a ∈ f.arcs, a ∈ arcs) (stop : .silent f.exit exit ∈ arcs)
    (again : .silent f.exit f.entry ∈ arcs) (h : (Regex.repeated .star r).Matches word) :
    Trail arcs f.exit word exit := by
  generalize hs : Regex.repeated .star r = s at h
  induction h with
  | starNil => exact .silent stop (.nil exit)
  | starCons first _ _ ih =>
    obtain ⟨-, rfl⟩ := Regex.repeated.inj hs
    exact .silent again ((((spells _).mpr first).mono own).append (ih rfl))
  | empty | literal | seq | left | right | plus | optionalNil | optionalOnce => cases hs

include hf

theorem Spells.leave_loop {exit : StateId} (within : f.Within n [exit, f.entry] arcs) (last : ∀ a ∈ arcs, a.source ≠ exit)
    (outside : ¬f.Holds n exit) (h : Trail arcs f.entry word exit) : (Regex.repeated .plus r).Matches word := by
  have out : ∀ l ∈ [exit, f.entry], l ≠ f.entry → ∀ v, Trail arcs l v exit → (Regex.repeated .star r).Matches v := by
    intro l hl hentry v trail
    rcases List.mem_cons.mp hl with rfl | hl
    · obtain ⟨rfl, -⟩ := trail.stuck last
      exact .starNil
    · exact absurd (List.mem_singleton.mp hl) hentry
  obtain ⟨u, v, rfl, first, rest⟩ := within.leave hf (Regex.repeated .star r).Matches out
    (fun _ u v trail hv => .starCons ((spells u).mp trail) hv) outside hf.entry h
  exact .plus ((spells u).mp first) rest

/-- A fragment that leads on to a last state spells what it did before. -/
theorem Spells.leave_once {exit : StateId} (within : f.Within n [exit] arcs) (last : ∀ a ∈ arcs, a.source ≠ exit)
    (outside : ¬f.Holds n exit) (h : Trail arcs f.entry word exit) : r.Matches word := by
  have out : ∀ l ∈ [exit], l ≠ f.entry → ∀ v, Trail arcs l v exit → v = [] := by
    intro l hl _ v trail
    exact (trail.stuck (List.mem_singleton.mp hl ▸ last)).1
  have again : f.entry ∈ [exit] → ∀ u v, Trail f.arcs f.entry u f.exit → v = [] → u ++ v = [] := by
    intro hentry
    exact absurd (List.mem_singleton.mp hentry ▸ hf.entry) outside
  obtain ⟨u, v, rfl, trail, rfl⟩ := within.leave hf (· = []) out again outside hf.entry h
  rw [List.append_nil]
  exact (spells u).mp trail

theorem Spells.star : f.star.Spells (.repeated .star r) := by
  obtain ⟨entry, exit, source, target, last⟩ := id hf
  have within : f.Within n [f.next + 1, f.entry] f.star.arcs := by grind [Within, Holds, Fragment.star, Arc.silent]
  have last' : ∀ a ∈ f.star.arcs, a.source ≠ f.next + 1 := by grind [Holds, Fragment.star, Arc.silent]
  have own : ∀ a ∈ f.arcs, a ∈ f.star.arcs := by simp +contextual [Fragment.star]
  have only : ∀ a ∈ f.star.arcs, a.source = f.next → ∃ l ∈ [f.entry, f.next + 1], a = .silent f.next l := by
    grind [Holds, Fragment.star, Arc.silent]
  intro word
  refine ⟨fun h => ?_, fun h => ?_⟩
  · obtain ⟨l, hl, trail⟩ := h.first only (Nat.ne_of_lt (Nat.lt_succ_self f.next))
    rcases List.mem_cons.mp hl with rfl | hl
    · have outside : ¬f.Holds n (f.next + 1) := by grind [Holds]
      obtain ⟨u, v, rfl, first, rest⟩ := Regex.matches_plus_iff.mp (spells.leave_loop hf within last' outside trail)
      exact .starCons first rest
    · obtain ⟨rfl, -⟩ := trail.stuck (List.mem_singleton.mp hl ▸ last')
      exact .starNil
  · have stop : .silent f.exit (f.next + 1) ∈ f.star.arcs := by simp [Fragment.star]
    have again : .silent f.exit f.entry ∈ f.star.arcs := by simp [Fragment.star]
    cases h with
    | starNil => exact .silent (by simp [Fragment.star]) (.nil _)
    | starCons first rest =>
      exact .silent (by simp [Fragment.star])
        ((((spells _).mpr first).mono own).append (spells.loop own stop again rest))

theorem Spells.plus : f.plus.Spells (.repeated .plus r) := by
  obtain ⟨entry, exit, source, target, last⟩ := id hf
  have within : f.Within n [f.next, f.entry] f.plus.arcs := by grind [Within, Holds, Fragment.plus, Arc.silent]
  have last' : ∀ a ∈ f.plus.arcs, a.source ≠ f.next := by grind [Holds, Fragment.plus, Arc.silent]
  have own : ∀ a ∈ f.arcs, a ∈ f.plus.arcs := by simp +contextual [Fragment.plus]
  intro word
  refine ⟨fun h => ?_, fun h => ?_⟩
  · exact spells.leave_loop hf within last' (by grind [Holds]) h
  · cases h with
    | plus first rest =>
      have stop : .silent f.exit f.next ∈ f.plus.arcs := by simp [Fragment.plus]
      have again : .silent f.exit f.entry ∈ f.plus.arcs := by simp [Fragment.plus]
      exact (((spells _).mpr first).mono own).append (spells.loop own stop again rest)

theorem Spells.optional : f.optional.Spells (.repeated .optional r) := by
  obtain ⟨entry, exit, source, target, last⟩ := id hf
  have within : f.Within n [f.next + 1] f.optional.arcs := by grind [Within, Holds, Fragment.optional, Arc.silent]
  have last' : ∀ a ∈ f.optional.arcs, a.source ≠ f.next + 1 := by grind [Holds, Fragment.optional, Arc.silent]
  have own : ∀ a ∈ f.arcs, a ∈ f.optional.arcs := by simp +contextual [Fragment.optional]
  have only : ∀ a ∈ f.optional.arcs, a.source = f.next → ∃ l ∈ [f.entry, f.next + 1], a = .silent f.next l := by
    grind [Holds, Fragment.optional, Arc.silent]
  intro word
  rw [Regex.matches_optional_iff]
  refine ⟨fun h => ?_, fun h => ?_⟩
  · obtain ⟨l, hl, trail⟩ := h.first only (Nat.ne_of_lt (Nat.lt_succ_self f.next))
    rcases List.mem_cons.mp hl with rfl | hl
    · exact Or.inr (spells.leave_once hf within last' (by grind [Holds]) trail)
    · exact Or.inl (trail.stuck (List.mem_singleton.mp hl ▸ last')).1
  · rcases h with rfl | h
    · exact .silent (by simp [Fragment.optional]) (.nil _)
    · have trail := ((spells word).mpr h).mono own
      exact trail.through (by simp [Fragment.optional]) (by simp [Fragment.optional])

include hg spells'

theorem Spells.seq : (f.seq g).Spells (.seq r s) := by
  obtain ⟨entry, exit, source, target, last⟩ := id hf
  obtain ⟨entry', exit', source', target', last'⟩ := id hg
  have within : f.Within n [g.entry] (f.seq g).arcs := by grind [Within, Holds, Fragment.seq, Arc.silent]
  have within' : g.Within f.next [] (f.seq g).arcs := by grind [Within, Holds, Fragment.seq, Arc.silent]
  have own : ∀ a ∈ f.arcs, a ∈ (f.seq g).arcs := by simp +contextual [Fragment.seq]
  have own' : ∀ a ∈ g.arcs, a ∈ (f.seq g).arcs := by simp +contextual [Fragment.seq]
  intro word
  rw [Regex.matches_seq_iff]
  refine ⟨fun h => ?_, fun h => ?_⟩
  · have out : ∀ l ∈ [g.entry], l ≠ f.entry → ∀ v, Trail (f.seq g).arcs l v g.exit → s.Matches v := by
      intro l hl _ v trail
      rw [List.mem_singleton.mp hl] at trail
      exact (spells' v).mp (within'.stay hg hg.entry trail)
    have again : f.entry ∈ [g.entry] → ∀ u v, Trail f.arcs f.entry u f.exit → s.Matches v → s.Matches (u ++ v) := by
      grind [Holds]
    obtain ⟨u, v, rfl, trail, hv⟩ := within.leave hf s.Matches out again (by grind [Holds]) hf.entry h
    exact ⟨u, v, rfl, (spells u).mp trail, hv⟩
  · obtain ⟨u, v, rfl, hu, hv⟩ := h
    have first := ((spells u).mpr hu).mono own
    have second := ((spells' v).mpr hv).mono own'
    exact first.append (.silent (by simp [Fragment.seq]) second)

theorem Spells.alt : (f.alt g).Spells (.alt r s) := by
  obtain ⟨entry, exit, source, target, last⟩ := id hf
  obtain ⟨entry', exit', source', target', last'⟩ := id hg
  have within : f.Within n [g.next + 1] (f.alt g).arcs := by grind [Within, Holds, Fragment.alt, Arc.silent]
  have within' : g.Within f.next [g.next + 1] (f.alt g).arcs := by grind [Within, Holds, Fragment.alt, Arc.silent]
  have final : ∀ a ∈ (f.alt g).arcs, a.source ≠ g.next + 1 := by grind [Holds, Fragment.alt, Arc.silent]
  have own : ∀ a ∈ f.arcs, a ∈ (f.alt g).arcs := by simp +contextual [Fragment.alt]
  have own' : ∀ a ∈ g.arcs, a ∈ (f.alt g).arcs := by simp +contextual [Fragment.alt]
  have only : ∀ a ∈ (f.alt g).arcs, a.source = g.next → ∃ l ∈ [f.entry, g.entry], a = .silent g.next l := by
    grind [Holds, Fragment.alt, Arc.silent]
  intro word
  rw [Regex.matches_alt_iff]
  refine ⟨fun h => ?_, fun h => ?_⟩
  · obtain ⟨l, hl, trail⟩ := h.first only (Nat.ne_of_lt (Nat.lt_succ_self g.next))
    rcases List.mem_cons.mp hl with rfl | hl
    · exact Or.inl (spells.leave_once hf within final (by grind [Holds]) trail)
    · rw [List.mem_singleton.mp hl] at trail
      exact Or.inr (spells'.leave_once hg within' final (by grind [Holds]) trail)
  · rcases h with h | h
    · have trail := ((spells word).mpr h).mono own
      exact trail.through (by simp [Fragment.alt]) (by simp [Fragment.alt])
    · have trail := ((spells' word).mpr h).mono own'
      exact trail.through (by simp [Fragment.alt]) (by simp [Fragment.alt])

end Spells

theorem spells_fragment (r : Regex) (n : StateId) : (r.fragment n).Spells r := by
  induction r generalizing n with
  | empty =>
    intro word
    rw [Regex.matches_empty_iff]
    exact ⟨fun h => (h.stuck (by simp [Regex.fragment])).1, fun h => h ▸ .nil n⟩
  | literal c =>
    have last : ∀ a ∈ (Regex.literal c).fragment n |>.arcs, a.source ≠ n + 1 := by simp [Regex.fragment]
    intro word
    rw [Regex.matches_literal_iff]
    refine ⟨fun h => ?_, fun h => h ▸ .read (List.mem_singleton_self _) (.nil _)⟩
    generalize hj : (Regex.literal c |>.fragment n).exit = j at h
    cases h with
    | nil => exact absurd hj (Nat.succ_ne_self n)
    | silent step _ => simp [Regex.fragment, Arc.silent] at step
    | read step rest =>
      obtain ⟨-, rfl, rfl⟩ : n = n ∧ _ = n + 1 ∧ _ = c := by simpa [Regex.fragment] using step
      rw [(rest.stuck last).1]
  | seq r s ihr ihs => exact (ihr n).seq (placed_fragment r n) (placed_fragment s _) (ihs _)
  | alt r s ihr ihs => exact (ihr n).alt (placed_fragment r n) (placed_fragment s _) (ihs _)
  | repeated op r ih =>
    cases op with
    | star => exact (ih n).star (placed_fragment r n)
    | plus => exact (ih n).plus (placed_fragment r n)
    | optional => exact (ih n).optional (placed_fragment r n)

end Fragment

/-! ### The automaton of an expression -/

/-- The paths of an assembled automaton are the trails of its arcs. -/
theorem Automaton.path_assembled {states : List (Kind × Bool)} {start : StateId}
    (lt : ∀ a ∈ arcs, a.source < states.length) : (assembled states arcs start).Path i word j ↔ Trail arcs i word j := by
  refine ⟨fun h => ?_, fun h => ?_⟩
  · induction h with
    | nil i => exact .nil i
    | silent step _ ih => exact .silent ((step_assembled lt).mp step) ih
    | read step _ ih => exact .read ((step_assembled lt).mp step) ih
  · induction h with
    | nil i => exact .nil i
    | silent step _ ih => exact .silent ((step_assembled lt).mpr step) ih
    | read step _ ih => exact .read ((step_assembled lt).mpr step) ih

namespace Fragment

/-- The states of a fragment whose ids begin at zero. Its exit is the one that accepts. -/
def states (f : Fragment) : List (Kind × Bool) := (List.range f.next).map fun id => (Kind.nfa, id == f.exit)

/-- A fragment on its own. -/
def automaton (f : Fragment) : Automaton := Automaton.assembled f.states f.arcs f.entry

theorem length_states : f.states.length = f.next := by simp [states]

theorem getElem?_states (h : i < f.next) : f.states[i]? = some (.nfa, i == f.exit) := by
  simp [states, List.getElem?_range h]

section Automaton
variable (placed : f.Placed 0)
include placed

theorem Placed.allowed : ∀ a ∈ f.arcs, Automaton.Allowed f.states a := fun a ha =>
  ⟨_, getElem?_states (placed.source a ha).2, fun _ => rfl⟩

theorem Placed.inRange : f.automaton.InRange :=
  Automaton.inRange_assembled fun a ha => length_states ▸ (placed.target a ha).2

theorem Placed.start_lt : f.automaton.start < f.automaton.size := by
  rw [automaton, Automaton.size_assembled, length_states]
  exact placed.entry.2

theorem Placed.wellFormed : f.automaton.WellFormed :=
  Automaton.wellFormed_assembled placed.allowed (Or.inl (length_states.symm ▸ placed.entry.2))

theorem Placed.accepting_iff : f.automaton.accepting i = true ↔ i = f.exit := by
  rw [automaton, Automaton.accepting_assembled]
  by_cases hi : i < f.next
  · simp [getElem?_states hi]
  · have ne : i ≠ f.exit := fun hexit => hi (hexit ▸ placed.exit.2)
    have none : f.states[i]? = none := List.getElem?_eq_none (length_states ▸ Nat.le_of_not_lt hi)
    simp [none, ne]

theorem Placed.path_iff : f.automaton.Path i word j ↔ Trail f.arcs i word j :=
  Automaton.path_assembled fun a ha => (placed.allowed a ha).lt

end Automaton
end Fragment

namespace Regex

theorem build_eq (r : Regex) : r.build = .ok (r.fragment 0).automaton := by
  have placed := Fragment.placed_fragment r 0
  have start : ∀ id, some (r.fragment 0).entry = some id → id < (r.fragment 0).states.length := by
    rintro id ⟨⟩
    exact Fragment.length_states.symm ▸ placed.entry.2
  exact Automaton.assemble_eq placed.allowed start

/-- Every expression has an automaton, and it recognises what the expression describes. -/
theorem exists_build (r : Regex) : ∃ fa, r.build = .ok fa ∧ fa.InRange ∧ fa.start < fa.size ∧
    ∀ word, fa.Recognizes word ↔ r.Matches word := by
  have placed := Fragment.placed_fragment r 0
  refine ⟨_, r.build_eq, placed.inRange, placed.start_lt, fun word => ?_⟩
  rw [Automaton.Recognizes, Automaton.RecognizesFrom]
  simp only [placed.accepting_iff, placed.path_iff, exists_eq_right]
  exact Fragment.spells_fragment r 0 word

theorem exists_matches (r : Regex) : ∃ word, r.Matches word := by
  induction r with
  | empty => exact ⟨[], .empty⟩
  | literal c => exact ⟨[c], .literal c⟩
  | seq r s ihr ihs =>
    obtain ⟨u, hu⟩ := ihr
    obtain ⟨v, hv⟩ := ihs
    exact ⟨u ++ v, .seq hu hv⟩
  | alt r s ihr _ =>
    obtain ⟨u, hu⟩ := ihr
    exact ⟨u, .left hu⟩
  | repeated op r ih =>
    obtain ⟨u, hu⟩ := ih
    cases op with
    | star => exact ⟨[], .starNil⟩
    | plus => exact ⟨u ++ [], .plus hu .starNil⟩
    | optional => exact ⟨[], .optionalNil⟩

end Regex
end FiniteAutomata
