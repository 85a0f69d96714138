import FiniteAutomata.Proofs.Canonical
import FiniteAutomata.Proofs.Coarsest
import FiniteAutomata.Proofs.Renumbering
import Mathlib.Data.List.Sort

/-! Automata whose edges stand in the order of the least characters on them, as in a numbered system of moves. A walk
    then visits the states of such an automaton in the order of an exploration of its moves, characters
    ascending, so renumbering its states by the walk is numbering this system. -/

namespace FiniteAutomata

/-- Moves with the same ascending characters are equal when they have the same members. -/
theorem System.eq_of_ascending {α : Type} {l l' : List (Char × α)}
    (hl : l.Pairwise fun p q => Symbol.char p.1 < Symbol.char q.1)
    (hl' : l'.Pairwise fun p q => Symbol.char p.1 < Symbol.char q.1) (h : ∀ c x, (c, x) ∈ l ↔ (c, x) ∈ l') : l = l' := by
  have irrefl : Std.Irrefl fun p q : Char × α => Symbol.char p.1 < Symbol.char q.1 := ⟨fun _ => Nat.lt_irrefl _⟩
  have antisymm : Std.Antisymm fun p q : Char × α => Symbol.char p.1 < Symbol.char q.1 :=
    ⟨fun _ _ hlt hgt => absurd (Nat.lt_trans hlt hgt) (Nat.lt_irrefl _)⟩
  exact hl.eq_of_mem_iff hl' fun p => h p.1 p.2

namespace Automaton

variable {fa : Automaton} {i j root : StateId} {c : Char} {word : List Char}

/-- The states with their steps on characters, of each character the first. -/
def stateSystem (fa : Automaton) : System StateId where
  moves i := (alphabetOf (fa.edgesOf i)).chars.filterMap fun c =>
    (fa.states[i]?.bind fun s => s.next? (.char c)).map fun j => (c, j)
  accepting := fa.accepting

theorem ordered_stateSystem (fa : Automaton) : fa.stateSystem.Ordered := by
  intro i
  refine (Label.chars_pairwise (alphabetOf (fa.edgesOf i))).filterMap _ fun c d hlt p hp q hq => ?_
  obtain ⟨-, -, rfl⟩ := Option.map_eq_some_iff.mp hp
  obtain ⟨-, -, rfl⟩ := Option.map_eq_some_iff.mp hq
  exact hlt

theorem mem_moves (functional : ∀ {j k}, fa.Step i (.char c) j → fa.Step i (.char c) k → j = k) :
    (c, j) ∈ fa.stateSystem.moves i ↔ fa.Step i (.char c) j := by
  rw [← next?_eq_some_iff functional]
  refine ⟨fun h => ?_, fun h => List.mem_filterMap.mpr ⟨c, ?_, by rw [h]; rfl⟩⟩
  · obtain ⟨d, -, hd⟩ := List.mem_filterMap.mp h
    obtain ⟨k, hk, heq⟩ := Option.map_eq_some_iff.mp hd
    obtain ⟨rfl, rfl⟩ := Prod.mk.inj heq
    exact hk
  · obtain ⟨e, he, hc, -⟩ := (next?_eq_some_iff functional).mp h
    exact Label.mem_chars.mpr (mem_alphabetOf.mpr ⟨e, he, hc⟩)

/-- The states that moves from the start lead to. -/
def explored (fa : Automaton) : List StateId := explore fa.stateSystem.successors fa.size [] [fa.start]

theorem Deterministic.leads_of_mem_explored (det : fa.Deterministic) : ∀ i ∈ fa.explored, fa.Leads fa.start i := by
  refine explore_induction (fun i hi j hj => ?_) fun i hi => ?_
  · obtain ⟨⟨c, j⟩, move, rfl⟩ := List.mem_map.mp hj
    exact hi.trans ((mem_moves (det.functional hi)).mp move).leads
  · obtain rfl : i = fa.start := by simpa using hi
    exact .refl fa.start

theorem Deterministic.closed_explored (det : fa.Deterministic) (complete : fa.CompleteFrom fa.start) :
    Closed fa.stateSystem.successors fa.explored :=
  closed_explore (List.range fa.size)
    (fun i hi => List.mem_range.mpr (complete i (det.leads_of_mem_explored i hi))) (by simp) (by simp) (by simp)

/-- The targets of a state stand in the order in which its moves first lead to them. -/
def Ascending (fa : Automaton) (i : StateId) : Prop := fa.targets i = (fa.stateSystem.successors i).eraseDups

/-! ### Numbered systems -/

section Tabulated
variable {α : Type} [DecidableEq α] {sys : System α} {x y : α} {family : List α}

/-- The arcs that a place gets are the moves of the value there. -/
theorem filter_arcs (nodup : family.Nodup) (i : StateId) :
    ((sys.arcs family).filter fun a => a.source = i) = (family[i]?.map fun y => (sys.moves y).map fun p =>
      ⟨family.idxOf y, family.idxOf p.2, .char p.1⟩).getD [] := by
  refine filter_flatMap_of_place (fun i y hi a ha => ?_) i
  obtain ⟨p, -, rfl⟩ := List.mem_map.mp ha
  exact idxOf_of_getElem? nodup hi

theorem moves_tabulated (lists : sys.Lists x family) (ordered : sys.Ordered) (hi : family[i]? = some y) :
    (sys.tabulated family).stateSystem.moves i = (sys.moves y).map fun p => (p.1, family.idxOf p.2) := by
  refine System.eq_of_ascending (ordered_stateSystem _ i) (List.pairwise_map.mpr (ordered y)) fun c j => ?_
  rw [mem_moves (System.functional_tabulated lists ordered), System.step_tabulated lists, List.mem_map]
  refine ⟨fun h => ?_, fun h => ?_⟩
  · obtain ⟨y', z, d, hi', hj, hc, move⟩ := h
    obtain rfl := Option.some.inj (hi.symm.trans hi')
    obtain rfl := Symbol.char.inj hc
    exact ⟨(c, z), move, by rw [idxOf_of_getElem? lists.nodup hj]⟩
  · obtain ⟨⟨d, z⟩, move, heq⟩ := h
    obtain ⟨rfl, rfl⟩ := Prod.mk.inj heq
    have hz := lists.closed _ (List.mem_of_getElem? hi) z (List.mem_map.mpr ⟨_, move, rfl⟩)
    exact ⟨y, z, d, hi, List.getElem?_idxOf hz, rfl, move⟩

/-- The edges of a numbered system are ascending. -/
theorem ascending_tabulated (lists : sys.Lists x family) (ordered : sys.Ordered)
    (hi : i < (sys.tabulated family).size) : (sys.tabulated family).Ascending i := by
  rw [System.size_tabulated] at hi
  have hy := List.getElem?_eq_getElem hi
  rw [Ascending, System.successors, moves_tabulated lists ordered hy, System.tabulated,
    targets_assembled (by rwa [List.length_map]), filter_arcs lists.nodup, hy, Option.map_some, Option.getD_some,
    List.map_map, List.map_map]
  rfl

end Tabulated

/-! ### Renumbering -/

/-- The targets of the single steps of a state are its targets, in order, some of them repeated. -/
theorem eraseDups_map_arcsOf (wf : fa.WellFormed) (i : StateId) :
    ((fa.arcsOf i).map Arc.target).eraseDups = (fa.targets i).eraseDups := by
  rw [arcsOf, List.map_flatMap, targets, List.map_eq_flatMap]
  refine eraseDups_flatMap_congr fun e he => ?_
  obtain ⟨a, ha⟩ := wf.exists_symbol he
  have nonempty : e.label.toList ≠ [] := List.ne_nil_of_mem (Label.mem_toList.mpr ha)
  have const : (e.label.toList.map fun a => (⟨i, e.target, a⟩ : Arc)).map Arc.target =
      e.label.toList.flatMap fun _ => [e.target] := by
    rw [List.map_map, List.map_eq_flatMap]
    rfl
  rw [const, eraseDups_flatMap_const nonempty]

/-- Without empty steps the system accepts what is recognised. -/
theorem accepts_stateSystem (silent : ∀ {i j}, ¬fa.Step i .epsilon j)
    (functional : ∀ {i j k a}, fa.Step i a j → fa.Step i a k → j = k) :
    fa.stateSystem.Accepts i word ↔ fa.RecognizesFrom i word := by
  have stays : ∀ {i j}, fa.Path i [] j → i = j := by
    intro i j path
    cases path with
    | nil => rfl
    | silent step _ => exact absurd step silent
  induction word generalizing i with
  | nil =>
    rw [System.accepts_nil]
    refine ⟨fun h => ⟨i, .nil i, h⟩, fun h => ?_⟩
    obtain ⟨j, path, hj⟩ := h
    exact stays path ▸ hj
  | cons c word ih =>
    rw [System.accepts_cons]
    refine ⟨fun h => ?_, fun h => ?_⟩
    · obtain ⟨j, move, accepts⟩ := h
      obtain ⟨k, path, hk⟩ := ih.mp accepts
      exact ⟨k, .read ((mem_moves functional).mp move) path, hk⟩
    · obtain ⟨k, path, hk⟩ := h
      obtain ⟨l, j, still, step, rest⟩ := path_cons_iff.mp path
      obtain rfl := stays still
      exact ⟨j, (mem_moves functional).mpr step, ih.mpr ⟨k, rest, hk⟩⟩

section Renumber
variable (complete : fa.CompleteFrom root) (ascending : ∀ i < fa.size, fa.Ascending i)
include complete ascending

theorem order_eq_explore : fa.order [root] = explore fa.stateSystem.successors fa.size [] [root] := by
  rw [order_singleton]
  refine explore_congr (P := fun i => fa.Leads root i) (fun i lead j hj => lead.trans (.single hj)) ?_ ?_
  · intro i lead
    rw [ascending i (complete i lead), eraseDups_eq_self (nodup_eraseDups _)]
  · intro i hi
    obtain rfl : i = root := by simpa using hi
    exact .refl i

theorem closed_successors : Closed fa.stateSystem.successors (explore fa.stateSystem.successors fa.size [] [root]) := by
  rw [← order_eq_explore complete ascending]
  intro i hi j hj
  have lead := (mem_order_root complete).mp hi
  refine closed_order_root complete i hi j ?_
  rw [ascending i (complete i lead)]
  exact List.mem_eraseDups.mpr hj

theorem lists_order : fa.stateSystem.Lists root (fa.order [root]) := by
  rw [order_eq_explore complete ascending]
  exact System.lists_explore (closed_successors complete ascending)

/-- Renumbering by a walk is numbering the moves. -/
theorem renumbered_eq_tabulated (wf : fa.WellFormed) (silent : ∀ {i j}, ¬fa.Step i .epsilon j)
    (functional : ∀ {i j k a}, fa.Step i a j → fa.Step i a k → j = k) :
    fa.renumbered (fa.order [root]) =
      fa.stateSystem.tabulated (explore fa.stateSystem.successors fa.size [] [root]) := by
  have lists := lists_order complete ascending
  have nodup := order_nodup fa [root]
  rw [← order_eq_explore complete ascending, renumbered, System.tabulated]
  refine assembled_congr ?_ fun p => ?_
  · rintro ⟨p, q, a⟩
    rw [mem_renumberedArcs nodup (closed_order_root complete), System.mem_arcs lists]
    refine ⟨fun h => ?_, fun h => ?_⟩
    · obtain ⟨i, j, hi, hj, step⟩ := h
      cases a with
      | epsilon => exact absurd step silent
      | char c => exact ⟨i, j, c, hi, hj, rfl, (mem_moves functional).mpr step⟩
    · obtain ⟨i, j, c, hi, hj, rfl, move⟩ := h
      exact ⟨i, j, hi, hj, (mem_moves functional).mp move⟩
  · rw [filter_renumberedArcs nodup, filter_arcs nodup]
    cases hp : (fa.order [root])[p]? with
    | none => rfl
    | some i =>
      have lead := (mem_order_root complete).mp (List.mem_of_getElem? hp)
      have same : ((fa.arcsOf i).map Arc.target).eraseDups = (fa.stateSystem.successors i).eraseDups := by
        rw [eraseDups_map_arcsOf wf, ascending i (complete i lead), eraseDups_eq_self (nodup_eraseDups _)]
      have numbered := eraseDups_map_congr (fun j => (fa.order [root]).idxOf j) same
      rw [System.successors, List.map_map, List.map_map] at numbered
      rw [Option.map_some, Option.getD_some, Option.map_some, Option.getD_some, List.map_map, List.map_map]
      exact numbered

end Renumber

end Automaton
end FiniteAutomata
