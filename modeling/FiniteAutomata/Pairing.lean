import FiniteAutomata.Checked

/-! The comparison up to renaming as a loop over pairs of states. The pairs are kept as two maps, one for each side. A
    pair that waits is taken, its two states are compared, and each symbol they read pairs the two targets. The comparison
    fails as soon as two states disagree or a target is paired with another state already. -/

namespace FiniteAutomata

/-- What the loop holds. -/
structure Pairing where
  /-- The state that a state of the first automaton is paired with. -/
  forward : List (StateId × StateId)
  /-- The same for the second automaton. -/
  backward : List (StateId × StateId)
  /-- The pairs that have not been compared yet. -/
  waiting : List (StateId × StateId)
  deriving DecidableEq, Repr

namespace Pairing

/-- The starts are paired, and wait. -/
def first (fa fb : Automaton) : Pairing where
  forward := [(fa.start, fb.start)]
  backward := [(fb.start, fa.start)]
  waiting := [(fa.start, fb.start)]

/-- Pairs two states. If one of them has been paired already, it has to be with the other. -/
def join (w : Pairing) (p : StateId × StateId) : Option Pairing :=
  match w.forward.lookup p.1, w.backward.lookup p.2 with
  | some j, some i => if j = p.2 ∧ i = p.1 then some w else none
  | none, none => some {
      forward := w.forward ++ [p]
      backward := w.backward ++ [p.swap]
      waiting := w.waiting ++ [p] }
  | _, _ => none

/-- A step of each side, on the same symbol. -/
def read (w : Pairing) (steps : (Symbol × StateId) × (Symbol × StateId)) : Option Pairing :=
  if steps.1.1 = steps.2.1 then w.join (steps.1.2, steps.2.2) else none

/-- Compares two states, and pairs what their steps lead to. -/
def expand (w : Pairing) (s t : State) : Option Pairing :=
  let steps := Checked.transitions s
  let steps' := Checked.transitions t
  if s.accepting = t.accepting ∧ steps.length = steps'.length then (steps.zip steps').foldlM read w else none

/-- Compares the pairs that wait, first come first, as long as there are any, but no more than the given number. -/
def loop (fa fb : Automaton) : Nat → Pairing → Except Fault (Option Pairing)
  | 0, w => .ok (some w)
  | n + 1, w =>
    match w.waiting with
    | [] => .ok (some w)
    | (i, j) :: waiting => do
      let s ← fa.state i
      let t ← fb.state j
      match expand { w with waiting } s t with
      | none => return none
      | some w => loop fa fb n w

/-- The loop from the starts, unless more states are reached on one side than on the other. An automaton without states
    equals only another such. -/
def build (fa fb : Automaton) (n : Nat) : Except Fault (Option Pairing) :=
  if fa.isEmpty || fb.isEmpty then .ok (if fa.isEmpty && fb.isEmpty then some ⟨[], [], []⟩ else none)
  else do
    let a ← Checked.view fa
    let b ← Checked.view fb
    if a.states.length ≠ b.states.length then return none else loop fa fb n (first fa fb)

end Pairing
end FiniteAutomata
