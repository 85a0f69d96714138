import FiniteAutomata.Proofs.Assembly
import FiniteAutomata.Proofs.Determinism

/-! Deterministic transition systems over values of any type, and the automata that number their values
    breadth-first, characters ascending. Such an automaton runs like the system it numbers. Two systems whose
    reachable values all accept some word, no two of them the same words, get the very same automaton as soon
    as they accept the same words where they begin: its numbering depends on the language alone. -/

namespace FiniteAutomata

theorem Label.chars_pairwise (l : Label) : l.chars.Pairwise fun c d => Symbol.char c < Symbol.char d := by
  refine l.sorted.filterMap _ fun a b hab c hc d hd => ?_
  cases a with
  | epsilon => cases hc
  | char a =>
    cases b with
    | epsilon => cases hd
    | char b =>
      obtain rfl := Option.some.inj hc
      obtain rfl := Option.some.inj hd
      exact hab

/-- What each value reads and where that leads, and whether it accepts. -/
structure System (α : Type) where
  moves : α → List (Char × α)
  accepting : α → Bool

namespace System

variable {α β : Type} {sys : System α} {x y z : α} {c : Char} {word : List Char}

/-- The word leads from one value to another. -/
inductive Run (sys : System α) : α → List Char → α → Prop where
  | nil (x : α) : Run sys x [] x
  | cons {x y z : α} {c : Char} {word : List Char} (h : (c, y) ∈ sys.moves x) (rest : Run sys y word z) :
      Run sys x (c :: word) z

/-- The word leads to a value that accepts. -/
def Accepts (sys : System α) (x : α) (word : List Char) : Prop :=
  ∃ y, sys.Run x word y ∧ sys.accepting y = true

/-- The characters of the moves ascend, so each of them has one move at most. -/
def Ordered (sys : System α) : Prop :=
  ∀ x, (sys.moves x).Pairwise fun p q => Symbol.char p.1 < Symbol.char q.1

def successors (sys : System α) (x : α) : List α := (sys.moves x).map Prod.snd

/-- One move or more lead from one value to another. -/
def After (sys : System α) (x y : α) : Prop := ∃ c z word, (c, z) ∈ sys.moves x ∧ sys.Run z word y

/-! ### Runs -/

theorem Run.append {u v : List Char} (h : sys.Run x u y) (g : sys.Run y v z) : sys.Run x (u ++ v) z := by
  induction h with
  | nil => exact g
  | cons h _ ih => exact .cons h (ih g)

theorem Run.eq_or_after (h : sys.Run x word y) : y = x ∨ sys.After x y := by
  cases h with
  | nil => exact Or.inl rfl
  | cons move rest => exact Or.inr ⟨_, _, _, move, rest⟩

/-- What is led to is what some move leads to from the value or from what it leads to. -/
theorem after_iff : sys.After x y ↔ ∃ z c word, sys.Run x word z ∧ (c, y) ∈ sys.moves z := by
  refine ⟨fun given => ?_, fun given => ?_⟩
  · obtain ⟨c, z, word, move, rest⟩ := given
    induction rest generalizing x c with
    | nil => exact ⟨x, c, [], .nil x, move⟩
    | cons move' _ ih =>
      obtain ⟨z', c', word', run, last⟩ := ih _ move'
      exact ⟨z', c', c :: word', .cons move run, last⟩
  · obtain ⟨z, c, word, run, last⟩ := given
    cases run with
    | nil => exact ⟨c, y, [], last, .nil y⟩
    | cons move rest => exact ⟨_, _, _, move, rest.append (.cons last (.nil y))⟩

theorem accepts_nil : sys.Accepts x [] ↔ sys.accepting x = true := by
  constructor
  · rintro ⟨y, run, hy⟩
    cases run
    exact hy
  · exact fun h => ⟨x, .nil x, h⟩

theorem accepts_cons : sys.Accepts x (c :: word) ↔ ∃ y, (c, y) ∈ sys.moves x ∧ sys.Accepts y word := by
  refine ⟨fun given => ?_, fun given => ?_⟩
  · rcases given with ⟨z, run, hz⟩
    cases run with
    | cons h rest => exact ⟨_, h, z, rest, hz⟩
  · rcases given with ⟨y, h, z, rest, hz⟩
    exact ⟨z, .cons h rest, hz⟩

theorem Ordered.unique (ordered : sys.Ordered) (hy : (c, y) ∈ sys.moves x) (hz : (c, z) ∈ sys.moves x) : y = z := by
  by_contra hne
  have apart : (sys.moves x).Pairwise fun p q => p.1 ≠ q.1 := (ordered x).imp fun hlt heq => by
    rw [heq] at hlt
    exact Nat.lt_irrefl _ hlt
  have : Std.Symm fun p q : Char × α => p.1 ≠ q.1 := ⟨fun _ _ h => h.symm⟩
  exact apart.forall hy hz (fun h => hne (Prod.mk.inj h).2) rfl

theorem Ordered.accepts_cons (ordered : sys.Ordered) (h : (c, y) ∈ sys.moves x) :
    sys.Accepts x (c :: word) ↔ sys.Accepts y word := by
  rw [System.accepts_cons]
  constructor
  · rintro ⟨z, hz, accepts⟩
    exact ordered.unique h hz ▸ accepts
  · exact fun accepts => ⟨y, h, accepts⟩

/-! ### Listing the values -/

variable {family : List α} {i j : StateId}

/-- The family holds exactly what can be reached from its first value, once. -/
structure Lists (sys : System α) (x : α) (family : List α) : Prop where
  head : family[0]? = some x
  nodup : family.Nodup
  closed : Closed sys.successors family
  reached : ∀ y ∈ family, ∃ word, sys.Run x word y

theorem Lists.mem_of_run (h : sys.Lists x family) (hy : y ∈ family) (run : sys.Run y word z) : z ∈ family := by
  induction run with
  | nil => exact hy
  | cons move _ ih => exact ih (h.closed _ hy _ (List.mem_map.mpr ⟨_, move, rfl⟩))

theorem Lists.place_unique (h : sys.Lists x family) (hi : family[i]? = some y) (hj : family[j]? = some y) : i = j :=
  eq_of_getElem? h.nodup hi hj

theorem Lists.mem_iff (h : sys.Lists x family) : y ∈ family ↔ y = x ∨ sys.After x y := by
  have first : x ∈ family := List.mem_of_getElem? h.head
  refine ⟨fun hy => ?_, fun given => ?_⟩
  · obtain ⟨word, run⟩ := h.reached y hy
    exact run.eq_or_after
  · obtain rfl | ⟨c, z, word, move, rest⟩ := given
    · exact first
    · exact h.mem_of_run first (.cons move rest)

theorem Lists.exists_cons (h : sys.Lists x family) :
    ∃ rest, family = x :: rest ∧ rest.Nodup ∧ ∀ y, y ∈ rest ↔ y ≠ x ∧ sys.After x y := by
  cases family with
  | nil => cases h.head
  | cons x' rest =>
    obtain rfl : x' = x := Option.some.inj h.head
    obtain ⟨new, nodup⟩ := List.nodup_cons.mp h.nodup
    refine ⟨rest, rfl, nodup, fun y => ⟨fun hy => ?_, fun given => ?_⟩⟩
    · have apart : y ≠ x' := fun same => new (same ▸ hy)
      exact ⟨apart, (h.mem_iff.mp (List.mem_cons_of_mem _ hy)).resolve_left apart⟩
    · exact (List.mem_cons.mp (h.mem_iff.mpr (Or.inr given.2))).resolve_left given.1

/-- Systems that begin differently and go on alike, where the second never comes back to where it begins: it has one
    value more if the first comes back, and as many if not. -/
theorem Lists.length_of_after {sys' : System α} {x' : α} {family' : List α} (h : sys.Lists x family)
    (h' : sys'.Lists x' family') (same : ∀ y, sys'.After x' y ↔ sys.After x y) (apart : ¬sys'.After x' x') :
    (sys.After x x → family'.length = family.length + 1) ∧ (¬sys.After x x → family'.length = family.length) := by
  obtain ⟨rest, rfl, nodup, mem⟩ := h.exists_cons
  obtain ⟨rest', rfl, nodup', mem'⟩ := h'.exists_cons
  have later : ∀ y, y ∈ rest' ↔ sys.After x y := by
    intro y
    rw [mem', same]
    exact and_iff_right_of_imp fun after again => apart ((same x').mpr (again ▸ after))
  refine ⟨fun back => ?_, fun away => ?_⟩
  · have perm : rest'.Perm (x :: rest) := by
      refine (List.perm_ext_iff_of_nodup nodup' h.nodup).mpr fun y => ?_
      rw [later, h.mem_iff]
      refine ⟨Or.inr, fun given => ?_⟩
      obtain rfl | after := given
      · exact back
      · exact after
    rw [List.length_cons, perm.length_eq]
  · have perm : rest'.Perm rest := by
      refine (List.perm_ext_iff_of_nodup nodup' nodup).mpr fun y => ?_
      have other : sys.After x y → y ≠ x := fun after here => away (here ▸ after)
      rw [later, mem, and_iff_right_of_imp other]
    rw [List.length_cons, List.length_cons, perm.length_eq]

variable [DecidableEq α] [DecidableEq β]

theorem lists_explore {n : Nat} (closed : Closed sys.successors (explore sys.successors n [] [x])) :
    sys.Lists x (explore sys.successors n [] [x]) where
  head := head_explore
  nodup := nodup_explore (by simp)
  closed := closed
  reached := by
    refine explore_induction ?_ ?_
    · rintro y ⟨word, run⟩ z hz
      obtain ⟨⟨c, z'⟩, h, rfl⟩ := List.mem_map.mp hz
      exact ⟨word ++ [c], run.append (.cons h (.nil z'))⟩
    · intro y hy
      obtain rfl : y = x := by simpa using hy
      exact ⟨[], .nil y⟩

/-! ### The numbered automaton -/

/-- The arcs of the values of a family, by place. -/
def arcs (sys : System α) (family : List α) : List Arc :=
  family.flatMap fun x => (sys.moves x).map fun p => ⟨family.idxOf x, family.idxOf p.2, .char p.1⟩

/-- The values of a family as the states of an automaton. -/
def tabulated (sys : System α) (family : List α) : Automaton :=
  Automaton.assembled (family.map fun x => (.dfa, sys.accepting x)) (sys.arcs family) 0

@[simp] theorem size_tabulated : (sys.tabulated family).size = family.length := by
  rw [tabulated, Automaton.size_assembled, List.length_map]

theorem mem_arcs (h : sys.Lists x family) {a : Symbol} : ⟨i, j, a⟩ ∈ sys.arcs family ↔
    ∃ y z c, family[i]? = some y ∧ family[j]? = some z ∧ a = .char c ∧ (c, z) ∈ sys.moves y := by
  rw [arcs, List.mem_flatMap]
  refine ⟨fun given => ?_, fun given => ?_⟩
  · rcases given with ⟨y, hy, hmem⟩
    obtain ⟨⟨c, z⟩, move, heq⟩ := List.mem_map.mp hmem
    obtain ⟨rfl, rfl, rfl⟩ := Arc.mk.inj heq
    have hz : z ∈ family := h.closed y hy z (List.mem_map.mpr ⟨_, move, rfl⟩)
    exact ⟨y, z, c, List.getElem?_idxOf hy, List.getElem?_idxOf hz, rfl, move⟩
  · rcases given with ⟨y, z, c, hi, hj, rfl, move⟩
    refine ⟨y, List.mem_of_getElem? hi, List.mem_map.mpr ⟨(c, z), move, ?_⟩⟩
    rw [idxOf_of_getElem? h.nodup hi, idxOf_of_getElem? h.nodup hj]

theorem allowed_of_mem_arcs (h : sys.Lists x family) : ∀ a ∈ sys.arcs family,
    Automaton.Allowed (family.map fun x => (.dfa, sys.accepting x)) a := by
  rintro ⟨i, j, a⟩ ha
  obtain ⟨y, z, c, hi, -, rfl, -⟩ := (mem_arcs h).mp ha
  exact ⟨(.dfa, sys.accepting y), by simp [hi], fun hsilent => nomatch hsilent⟩

/-- Assembling the numbered values succeeds. -/
theorem assemble_eq_tabulated (h : sys.Lists x family) :
    Automaton.assemble (family.map fun x => (.dfa, sys.accepting x)) (sys.arcs family) (some 0) =
      .ok (sys.tabulated family) := by
  refine Automaton.assemble_eq (allowed_of_mem_arcs h) fun id hid => ?_
  obtain rfl := Option.some.inj hid
  rw [List.length_map]
  exact (List.getElem?_eq_some_iff.mp h.head).1

theorem accepting_tabulated : (sys.tabulated family).accepting i = true ↔
    ∃ y, family[i]? = some y ∧ sys.accepting y = true := by
  rw [tabulated, Automaton.accepting_assembled, List.getElem?_map]
  cases family[i]? <;> simp

theorem step_tabulated (h : sys.Lists x family) {a : Symbol} : (sys.tabulated family).Step i a j ↔
    ∃ y z c, family[i]? = some y ∧ family[j]? = some z ∧ a = .char c ∧ (c, z) ∈ sys.moves y := by
  rw [tabulated, Automaton.step_assembled fun a ha => (allowed_of_mem_arcs h a ha).lt, mem_arcs h]

/-- A step leads to the start exactly when the value it stands for is led to from itself. -/
theorem exists_step_start_tabulated (h : sys.Lists x family) :
    (∃ i a, (sys.tabulated family).Step i a (sys.tabulated family).start) ↔ sys.After x x := by
  rw [after_iff]
  refine ⟨fun given => ?_, fun given => ?_⟩
  · obtain ⟨i, a, step⟩ := given
    obtain ⟨y, z, c, hi, hz, -, move⟩ := (step_tabulated h).mp step
    obtain rfl := Option.some.inj (h.head.symm.trans hz)
    obtain ⟨word, run⟩ := h.reached y (List.mem_of_getElem? hi)
    exact ⟨y, c, word, run, move⟩
  · obtain ⟨y, c, word, run, move⟩ := given
    obtain ⟨i, hi⟩ := List.getElem?_of_mem (h.mem_of_run (List.mem_of_getElem? h.head) run)
    exact ⟨i, .char c, (step_tabulated h).mpr ⟨y, x, c, hi, h.head, rfl, move⟩⟩

theorem path_tabulated (h : sys.Lists x family) (hi : family[i]? = some y) :
    (sys.tabulated family).Path i word j ↔ ∃ z, family[j]? = some z ∧ sys.Run y word z := by
  refine ⟨fun path => ?_, fun given => ?_⟩
  · induction path generalizing y with
    | nil => exact ⟨y, hi, .nil y⟩
    | silent step =>
      obtain ⟨-, -, c, -, -, hc, -⟩ := (step_tabulated h).mp step
      cases hc
    | read step _ ih =>
      obtain ⟨y', z, c, hy', hz, hc, move⟩ := (step_tabulated h).mp step
      obtain rfl := Option.some.inj (hi.symm.trans hy')
      obtain rfl := Symbol.char.inj hc
      obtain ⟨z', hz', rest⟩ := ih hz
      exact ⟨z', hz', .cons move rest⟩
  · rcases given with ⟨z, hz, run⟩
    induction run generalizing i with
    | nil => exact h.place_unique hi hz ▸ .nil i
    | cons move _ ih =>
      have hy := h.closed _ (List.mem_of_getElem? hi) _ (List.mem_map.mpr ⟨_, move, rfl⟩)
      have hk := List.getElem?_idxOf hy
      exact .read ((step_tabulated h).mpr ⟨_, _, _, hi, hk, rfl, move⟩) (ih hk hz)

theorem recognizesFrom_tabulated (h : sys.Lists x family) (hi : family[i]? = some y) :
    (sys.tabulated family).RecognizesFrom i word ↔ sys.Accepts y word := by
  refine ⟨fun given => ?_, fun given => ?_⟩
  · rcases given with ⟨j, path, hj⟩
    obtain ⟨z, hz, run⟩ := (path_tabulated h hi).mp path
    obtain ⟨z', hz', accepting⟩ := accepting_tabulated.mp hj
    obtain rfl := Option.some.inj (hz.symm.trans hz')
    exact ⟨z, run, accepting⟩
  · rcases given with ⟨z, run, accepting⟩
    have hz := h.mem_of_run (List.mem_of_getElem? hi) run
    have hj := List.getElem?_idxOf hz
    exact ⟨_, (path_tabulated h hi).mpr ⟨z, hj, run⟩, accepting_tabulated.mpr ⟨z, hj, accepting⟩⟩

theorem recognizes_tabulated (h : sys.Lists x family) :
    (sys.tabulated family).Recognizes word ↔ sys.Accepts x word := recognizesFrom_tabulated h h.head

theorem wellFormed_tabulated (h : sys.Lists x family) : (sys.tabulated family).WellFormed :=
  Automaton.wellFormed_assembled (allowed_of_mem_arcs h) (Or.inl (by
    rw [List.length_map]
    exact (List.getElem?_eq_some_iff.mp h.head).1))

theorem inRange_tabulated (h : sys.Lists x family) : (sys.tabulated family).InRange := by
  refine Automaton.inRange_assembled fun ⟨i, j, a⟩ ha => ?_
  obtain ⟨-, z, -, -, hj, -, -⟩ := (mem_arcs h).mp ha
  rw [List.length_map]
  exact (List.getElem?_eq_some_iff.mp hj).1

theorem start_lt_tabulated (h : sys.Lists x family) :
    (sys.tabulated family).start < (sys.tabulated family).size := by
  rw [size_tabulated]
  exact (List.getElem?_eq_some_iff.mp h.head).1

theorem completeFrom_tabulated (h : sys.Lists x family) :
    (sys.tabulated family).CompleteFrom (sys.tabulated family).start :=
  (inRange_tabulated h).completeFrom (start_lt_tabulated h)

theorem functional_tabulated (h : sys.Lists x family) (ordered : sys.Ordered) {k : StateId} {a : Symbol}
    (first : (sys.tabulated family).Step i a j) (second : (sys.tabulated family).Step i a k) : j = k := by
  obtain ⟨y, z, c, hi, hj, rfl, move⟩ := (step_tabulated h).mp first
  obtain ⟨y', z', c', hi', hk, hc, move'⟩ := (step_tabulated h).mp second
  obtain rfl := Option.some.inj (hi.symm.trans hi')
  obtain rfl := Symbol.char.inj hc
  obtain rfl := ordered.unique move move'
  exact h.place_unique hj hk

theorem not_silent_tabulated (h : sys.Lists x family) : ¬(sys.tabulated family).Step i .epsilon j := by
  intro step
  obtain ⟨-, -, c, -, -, hc, -⟩ := (step_tabulated h).mp step
  cases hc

theorem deterministic_tabulated (h : sys.Lists x family) (ordered : sys.Ordered) :
    (sys.tabulated family).Deterministic where
  silent _ step := not_silent_tabulated h step
  functional _ first second := functional_tabulated h ordered first second

theorem isDeterministic_tabulated (h : sys.Lists x family) (ordered : sys.Ordered) :
    (sys.tabulated family).isDeterministic = .ok true :=
  (deterministic_tabulated h ordered).isDeterministic (wellFormed_tabulated h) (completeFrom_tabulated h)

/-- Every state is reached by some word. -/
theorem exists_path_tabulated (h : sys.Lists x family) (hi : i < (sys.tabulated family).size) :
    ∃ word, (sys.tabulated family).Path (sys.tabulated family).start word i := by
  rw [size_tabulated] at hi
  have hget := List.getElem?_eq_getElem hi
  obtain ⟨word, run⟩ := h.reached _ (List.mem_of_getElem? hget)
  exact ⟨word, (path_tabulated h h.head).mpr ⟨_, hget, run⟩⟩

end System
end FiniteAutomata
