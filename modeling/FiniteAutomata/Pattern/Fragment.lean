import FiniteAutomata.Automaton.Basic
import FiniteAutomata.Pattern.Regex

/-! The automaton of a regular expression. Each subexpression becomes a fragment with one entry and one exit; the
    exit has no steps until the construct around the fragment adds them. The states of a subexpression are
    numbered before those that are added around it. -/

namespace FiniteAutomata

/-- The states and steps of a subexpression. -/
structure Fragment where
  entry : StateId
  exit : StateId
  /-- The first id above those of the fragment. -/
  next : StateId
  arcs : List Arc
  deriving DecidableEq, Repr

/-- An empty step. -/
def Arc.silent (source target : StateId) : Arc := ⟨source, target, .epsilon⟩

namespace Fragment

/-- One fragment after the other. -/
def seq (f g : Fragment) : Fragment :=
  ⟨f.entry, g.exit, g.next, .silent f.exit g.entry :: (f.arcs ++ g.arcs)⟩

/-- A choice between two fragments. -/
def alt (f g : Fragment) : Fragment :=
  let entry := g.next
  let exit := g.next + 1
  ⟨entry, exit, g.next + 2,
    .silent entry f.entry :: .silent entry g.entry :: .silent f.exit exit :: .silent g.exit exit ::
      (f.arcs ++ g.arcs)⟩

/-- A fragment any number of times. -/
def star (f : Fragment) : Fragment :=
  let entry := f.next
  let exit := f.next + 1
  ⟨entry, exit, f.next + 2,
    .silent entry f.entry :: .silent entry exit :: .silent f.exit exit :: .silent f.exit f.entry :: f.arcs⟩

/-- A fragment at least once. -/
def plus (f : Fragment) : Fragment :=
  let exit := f.next
  ⟨f.entry, exit, f.next + 1, .silent f.exit f.entry :: .silent f.exit exit :: f.arcs⟩

/-- A fragment at most once. -/
def optional (f : Fragment) : Fragment :=
  let entry := f.next
  let exit := f.next + 1
  ⟨entry, exit, f.next + 2, .silent entry f.entry :: .silent entry exit :: .silent f.exit exit :: f.arcs⟩

end Fragment

namespace Regex

/-- The fragment of an expression, with ids from `n` on. -/
def fragment : Regex → StateId → Fragment
  | empty, n => ⟨n, n, n + 1, []⟩
  | literal c, n => ⟨n, n + 1, n + 2, [⟨n, n + 1, .char c⟩]⟩
  | seq r s, n =>
    let f := r.fragment n
    f.seq (s.fragment f.next)
  | alt r s, n =>
    let f := r.fragment n
    f.alt (s.fragment f.next)
  | repeated .star r, n => (r.fragment n).star
  | repeated .plus r, n => (r.fragment n).plus
  | repeated .optional r, n => (r.fragment n).optional

/-- The automaton of an expression, which accepts at the exit of its fragment only. -/
def build (r : Regex) : Except Fault Automaton :=
  let f := r.fragment 0
  Automaton.assemble ((List.range f.next).map fun id => (Kind.nfa, id == f.exit)) f.arcs (some f.entry)

end Regex
end FiniteAutomata
