import FiniteAutomata.Proofs.System

/-! The numbering of a reduced system depends on its language alone. When all that two systems reach accepts
    some word, and no two values they reach accept the same words, the values that accept the same words
    correspond one to one, and this correspondence takes the moves of either system to those of the other. -/

namespace FiniteAutomata
namespace System

variable {α β : Type} {sys : System α} {sys' : System β}

/-! ### Ascending lists -/

/-- Moves with the same ascending characters correspond place by place. -/
theorem forall₂_of_ascending {R : α → β → Prop} : ∀ {l : List (Char × α)} {l' : List (Char × β)},
    (l.Pairwise fun p q => Symbol.char p.1 < Symbol.char q.1) →
    (l'.Pairwise fun p q => Symbol.char p.1 < Symbol.char q.1) →
    (∀ p ∈ l, ∃ q ∈ l', p.1 = q.1) → (∀ q ∈ l', ∃ p ∈ l, p.1 = q.1) →
    (∀ p ∈ l, ∀ q ∈ l', p.1 = q.1 → R p.2 q.2) →
    List.Forall₂ (fun p q => p.1 = q.1 ∧ R p.2 q.2) l l'
  | [], [], _, _, _, _, _ => .nil
  | [], q :: _, _, _, _, right, _ => by
    obtain ⟨p, hp, -⟩ := right q List.mem_cons_self
    cases hp
  | p :: _, [], _, _, left, _, _ => by
    obtain ⟨q, hq, -⟩ := left p List.mem_cons_self
    cases hq
  | p :: l, q :: l', hl, hl', left, right, rel => by
    obtain ⟨hp, hl⟩ := List.pairwise_cons.mp hl
    obtain ⟨hq, hl'⟩ := List.pairwise_cons.mp hl'
    have heads : p.1 = q.1 := by
      obtain ⟨q', hq', hpq⟩ := left p List.mem_cons_self
      obtain ⟨p', hp', hqp⟩ := right q List.mem_cons_self
      rcases List.mem_cons.mp hq' with rfl | hq'
      · exact hpq
      · rcases List.mem_cons.mp hp' with rfl | hp'
        · exact hqp
        · have below := hq q' hq'
          have above := hp p' hp'
          rw [← hpq] at below
          rw [hqp] at above
          exact absurd (Nat.lt_trans below above) (Nat.lt_irrefl _)
    refine .cons ⟨heads, rel p List.mem_cons_self q List.mem_cons_self heads⟩ ?_
    refine forall₂_of_ascending hl hl' (fun p' hp' => ?_) (fun q' hq' => ?_) fun p' hp' q' hq' =>
      rel p' (List.mem_cons_of_mem _ hp') q' (List.mem_cons_of_mem _ hq')
    · obtain ⟨q', hq', heq⟩ := left p' (List.mem_cons_of_mem _ hp')
      rcases List.mem_cons.mp hq' with rfl | hq'
      · have := hp p' hp'
        rw [heads, heq] at this
        exact absurd this (Nat.lt_irrefl _)
      · exact ⟨q', hq', heq⟩
    · obtain ⟨p', hp', heq⟩ := right q' (List.mem_cons_of_mem _ hq')
      rcases List.mem_cons.mp hp' with rfl | hp'
      · have := hq q' hq'
        rw [← heads, heq] at this
        exact absurd this (Nat.lt_irrefl _)
      · exact ⟨p', hp', heq⟩

theorem map_eq_of_forall₂ {γ : Type} {R : α → β → Prop} {f : α → γ} {g : β → γ} (h : ∀ x y, R x y → f x = g y) :
    ∀ {l : List α} {l' : List β}, List.Forall₂ R l l' → l.map f = l'.map g
  | [], _, .nil => rfl
  | x :: l, y :: l', .cons hxy hl => by
    rw [List.map_cons, List.map_cons, h x y hxy, map_eq_of_forall₂ h hl]

theorem idxOf_eq_of_forall₂ [DecidableEq α] [DecidableEq β] {R : α → β → Prop} (unique : Relator.BiUnique R)
    {x : α} {y : β} (hxy : R x y) : ∀ {l : List α} {l' : List β}, List.Forall₂ R l l' → l.idxOf x = l'.idxOf y
  | [], _, .nil => rfl
  | a :: l, b :: l', .cons hab hl => by
    have same : a = x ↔ b = y := Relator.rel_eq unique hab hxy
    rw [List.idxOf_cons, List.idxOf_cons, idxOf_eq_of_forall₂ unique hxy hl]
    have test : (a == x) = (b == y) := by rw [Bool.eq_iff_iff, beq_iff_eq, beq_iff_eq, same]
    rw [test]

/-! ### Corresponding systems -/

/-- Families that correspond one to one, with moves and acceptance, are numbered alike. -/
theorem tabulated_eq_of_forall₂ [DecidableEq α] [DecidableEq β] {R : α → β → Prop} (unique : Relator.BiUnique R)
    (moves : ∀ x y, R x y → List.Forall₂ (fun p q => p.1 = q.1 ∧ R p.2 q.2) (sys.moves x) (sys'.moves y))
    (accepting : ∀ x y, R x y → sys.accepting x = sys'.accepting y) {family : List α} {family' : List β}
    (h : List.Forall₂ R family family') : sys.tabulated family = sys'.tabulated family' := by
  have states : (family.map fun x => (Kind.dfa, sys.accepting x)) =
      family'.map fun y => (Kind.dfa, sys'.accepting y) :=
    map_eq_of_forall₂ (fun x y hxy => by rw [accepting x y hxy]) h
  have arcs : sys.arcs family = sys'.arcs family' := by
    rw [System.arcs, System.arcs, List.flatMap_def, List.flatMap_def]
    congr 1
    refine map_eq_of_forall₂ (fun x y hxy => map_eq_of_forall₂ (fun p q hpq => ?_) (moves x y hxy)) h
    rw [idxOf_eq_of_forall₂ unique hxy h, idxOf_eq_of_forall₂ unique hpq.2 h, hpq.1]
  rw [tabulated, tabulated, states, arcs]

theorem forall₂_successors {R : α → β → Prop} {x : α} {y : β}
    (moves : List.Forall₂ (fun p q => p.1 = q.1 ∧ R p.2 q.2) (sys.moves x) (sys'.moves y)) :
    List.Forall₂ R (sys.successors x) (sys'.successors y) := List.rel_map (fun _ _ hpq => hpq.2) moves

/-- So it is enough that the values with which two explorations begin correspond. -/
theorem tabulated_eq_of_explore [DecidableEq α] [DecidableEq β] {R : α → β → Prop} {x : α} {y : β} {n m : Nat}
    (unique : Relator.BiUnique R)
    (moves : ∀ x y, R x y → List.Forall₂ (fun p q => p.1 = q.1 ∧ R p.2 q.2) (sys.moves x) (sys'.moves y))
    (accepting : ∀ x y, R x y → sys.accepting x = sys'.accepting y) (h : R x y)
    (closed : Closed sys.successors (explore sys.successors n [] [x]))
    (closed' : Closed sys'.successors (explore sys'.successors m [] [y])) :
    sys.tabulated (explore sys.successors n [] [x]) = sys'.tabulated (explore sys'.successors m [] [y]) := by
  refine tabulated_eq_of_forall₂ unique moves accepting ?_
  exact forall₂_explore_of_closed unique (fun x y h => forall₂_successors (moves x y h)) h closed closed'

/-- All that is reached accepts some word, and no two values reached accept the same words. -/
structure Reduced (sys : System α) (x : α) : Prop where
  ordered : sys.Ordered
  live : ∀ {y u}, sys.Run x u y → ∃ word, sys.Accepts y word
  separated : ∀ {y z u v}, sys.Run x u y → sys.Run x v z → (∀ word, sys.Accepts y word ↔ sys.Accepts z word) → y = z

/-- Two values that are reached and accept the same words. -/
structure Equivalent (sys : System α) (sys' : System β) (start : α) (start' : β) (x : α) (y : β) : Prop where
  left : ∃ word, sys.Run start word x
  right : ∃ word, sys'.Run start' word y
  language : ∀ word, sys.Accepts x word ↔ sys'.Accepts y word

theorem Equivalent.accepting {start x : α} {start' y : β} (h : Equivalent sys sys' start start' x y) :
    sys.accepting x = sys'.accepting y := by
  rw [Bool.eq_iff_iff, ← accepts_nil, ← accepts_nil, h.language]

section
variable {start : α} {start' : β} (red : sys.Reduced start) (red' : sys'.Reduced start')
include red red'

theorem biUnique_equivalent : Relator.BiUnique (Equivalent sys sys' start start') := by
  constructor
  · intro x y z hxz hyz
    obtain ⟨u, hu⟩ := hxz.left
    obtain ⟨v, hv⟩ := hyz.left
    exact red.separated hu hv fun word => (hxz.language word).trans (hyz.language word).symm
  · intro x y z hxy hxz
    obtain ⟨u, hu⟩ := hxy.right
    obtain ⟨v, hv⟩ := hxz.right
    exact red'.separated hu hv fun word => (hxy.language word).symm.trans (hxz.language word)

theorem Equivalent.moves {x : α} {y : β} (h : Equivalent sys sys' start start' x y) :
    List.Forall₂ (fun p q => p.1 = q.1 ∧ Equivalent sys sys' start start' p.2 q.2) (sys.moves x) (sys'.moves y) := by
  obtain ⟨u, hu⟩ := h.left
  obtain ⟨v, hv⟩ := h.right
  refine forall₂_of_ascending (red.ordered x) (red'.ordered y) ?_ ?_ ?_
  · -- What is accepted after a move of the one is accepted by the other, which has to move on the same character.
    rintro ⟨c, x'⟩ hx'
    obtain ⟨word, accepts⟩ := red.live (hu.append (.cons hx' (.nil x')))
    obtain ⟨y', hy', -⟩ := accepts_cons.mp ((h.language (c :: word)).mp (accepts_cons.mpr ⟨x', hx', accepts⟩))
    exact ⟨(c, y'), hy', rfl⟩
  · rintro ⟨c, y'⟩ hy'
    obtain ⟨word, accepts⟩ := red'.live (hv.append (.cons hy' (.nil y')))
    obtain ⟨x', hx', -⟩ := accepts_cons.mp ((h.language (c :: word)).mpr (accepts_cons.mpr ⟨y', hy', accepts⟩))
    exact ⟨(c, x'), hx', rfl⟩
  · rintro ⟨c, x'⟩ hx' ⟨d, y'⟩ hy' hcd
    obtain rfl : c = d := hcd
    refine ⟨⟨_, hu.append (.cons hx' (.nil x'))⟩, ⟨_, hv.append (.cons hy' (.nil y'))⟩, fun word => ?_⟩
    rw [← red.ordered.accepts_cons hx', ← red'.ordered.accepts_cons hy', h.language]

/-- Reduced systems with the same language have the same numbered automaton. -/
theorem tabulated_eq [DecidableEq α] [DecidableEq β] {n m : Nat}
    (closed : Closed sys.successors (explore sys.successors n [] [start]))
    (closed' : Closed sys'.successors (explore sys'.successors m [] [start']))
    (language : ∀ word, sys.Accepts start word ↔ sys'.Accepts start' word) :
    sys.tabulated (explore sys.successors n [] [start]) = sys'.tabulated (explore sys'.successors m [] [start']) := by
  exact tabulated_eq_of_explore (biUnique_equivalent red red') (fun x y h => h.moves red red')
    (fun x y h => h.accepting) ⟨⟨[], .nil _⟩, ⟨[], .nil _⟩, language⟩ closed closed'

end

end System
end FiniteAutomata
