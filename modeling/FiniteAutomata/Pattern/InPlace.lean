import FiniteAutomata.Compile

/-! Building in place: the automaton of a pattern grows edit by edit while the pattern is read, and no tree is made of
    the pattern. What has been read of it is parts of the one automaton. A part that waits accepts at its exit, since
    it may turn out to be all there is; the construct that takes it up clears that, and adds the steps on from there. -/

namespace FiniteAutomata

/-- The states where a part of an automaton is entered and left. -/
structure Part where
  entry : StateId
  exit : StateId
  deriving DecidableEq, Repr

/-- The ends of a fragment. -/
def Fragment.part (f : Fragment) : Part := ⟨f.entry, f.exit⟩

/-- Edits of one automaton on the way to a value. -/
abbrev Building := StateT Automaton (Except Fault)

namespace Building

/-- A further state, of kind `nfa`. -/
def state (accepting : Bool) : Building StateId := fun fa => .ok (fa.size, fa.addState .nfa accepting)

def edge (source target : StateId) (symbol : Symbol) : Building Unit := fun fa => do
  return ((), ← fa.addEdge source target symbol)

def silent (source target : StateId) : Building Unit := edge source target .epsilon

/-- The state accepts no longer. -/
def clear (id : StateId) : Building Unit := fun fa => do return ((), ← fa.setAccepting id false)

def start (id : StateId) : Building Unit := fun fa => do return ((), ← fa.setStart id)

def empty : Building Part := do
  let id ← state true
  return ⟨id, id⟩

def literal (c : Char) : Building Part := do
  let entry ← state false
  let exit ← state true
  edge entry exit (.char c)
  return ⟨entry, exit⟩

def seq (f g : Part) : Building Part := do
  clear f.exit
  silent f.exit g.entry
  return ⟨f.entry, g.exit⟩

def alt (f g : Part) : Building Part := do
  let entry ← state false
  let exit ← state true
  silent entry f.entry
  silent entry g.entry
  clear f.exit
  silent f.exit exit
  clear g.exit
  silent g.exit exit
  return ⟨entry, exit⟩

def star (f : Part) : Building Part := do
  let entry ← state false
  let exit ← state true
  silent entry f.entry
  silent entry exit
  clear f.exit
  silent f.exit exit
  silent f.exit f.entry
  return ⟨entry, exit⟩

def plus (f : Part) : Building Part := do
  let exit ← state true
  clear f.exit
  silent f.exit f.entry
  silent f.exit exit
  return ⟨f.entry, exit⟩

def optional (f : Part) : Building Part := do
  let entry ← state false
  let exit ← state true
  silent entry f.entry
  silent entry exit
  clear f.exit
  silent f.exit exit
  return ⟨entry, exit⟩

def repeated (f : Part) : Repetition → Building Part
  | .star => star f
  | .plus => plus f
  | .optional => optional f

/-- The sequence of some parts, latest first; a state of its own if there are none. -/
def sequence : List Part → Building Part
  | [] => empty
  | last :: earlier => earlier.foldlM (fun rest f => seq f rest) last

end Building

/-- What has been built of one level of nesting. -/
structure Draft where
  /-- The alternatives before the last `|`, latest first. -/
  branches : List Part := []
  /-- The parts after it, latest first. -/
  items : List Part := []
  deriving DecidableEq, Repr

namespace Draft

/-- The level as one part. -/
def finish (d : Draft) : Building Part := do
  let last ← Building.sequence d.items
  d.branches.foldlM (fun rest f => Building.alt f rest) last

/-- A further part. -/
def append (d : Draft) (f : Part) : Draft := { d with items := f :: d.items }

end Draft

/-- The edits of a pattern's automaton; a fault is a failure of the pattern. -/
def Building.perform {α : Type} (b : Building α) (fa : Automaton) : Except Failure (α × Automaton) :=
  (b.run fa).mapError .fault

namespace Automaton

/-- Reads the rest of a pattern, which begins at `offset`, into `fa`. The innermost open level is `draft`; `outer`
    holds the levels around it, innermost first, each with the offset of the parenthesis that ended its reading. -/
def scanInPlace (fa : Automaton) (offset : Nat) (draft : Draft) (outer : List (Nat × Draft)) :
    List Char → Except Failure Automaton
  | [] =>
    match outer.getLast? with
    | some (opened, _) => .error (.pattern (.unmatchedOpen opened))
    | none => do
      let (f, fa) ← draft.finish.perform fa
      let (_, fa) ← (Building.start f.entry).perform fa
      return fa
  | c :: rest =>
    match Token.ofChar c with
    | .opening => scanInPlace fa (offset + 1) {} ((offset, draft) :: outer) rest
    | .closing =>
      match outer with
      | [] => .error (.pattern (.unmatchedClose offset))
      | (_, enclosing) :: outer => do
        let (f, fa) ← draft.finish.perform fa
        scanInPlace fa (offset + 1) (enclosing.append f) outer rest
    | .bar => do
      let (f, fa) ← (Building.sequence draft.items).perform fa
      scanInPlace fa (offset + 1) { branches := f :: draft.branches } outer rest
    | .repetition op =>
      match draft.items with
      | [] => .error (.pattern (.nothingToRepeat offset op))
      | f :: items => do
        let (f, fa) ← (Building.repeated f op).perform fa
        scanInPlace fa (offset + 1) { draft with items := f :: items } outer rest
    | .escape =>
      match rest with
      | [] => .error (.pattern (.danglingEscape offset))
      | d :: rest => do
        let (f, fa) ← (Building.literal (unescape d)).perform fa
        scanInPlace fa (offset + 2) (draft.append f) outer rest
    | .plain => do
      let (f, fa) ← (Building.literal c).perform fa
      scanInPlace fa (offset + 1) (draft.append f) outer rest

/-- The automaton of a pattern, built in place. -/
def ofPatternInPlace (pattern : List Char) : Except Failure Automaton :=
  match pattern.zipIdx.find? fun p => Regex.isBracket p.1 with
  | some (bracket, offset) => .error (.pattern (.unsupportedBracket offset bracket))
  | none => scanInPlace {} 0 {} [] pattern

end Automaton
end FiniteAutomata
