import FiniteAutomata.Automaton.Basic

/-! Paths of an automaton and the words they spell. A word is recognised when a path from the start to an
    accepting state spells it; empty steps spell nothing. -/

namespace FiniteAutomata
namespace Automaton

variable {fa : Automaton}

/-- An edge from `i` to `j` carries `a`. -/
def Step (fa : Automaton) (i : StateId) (a : Symbol) (j : StateId) : Prop :=
  ∃ e ∈ fa.edgesOf i, a ∈ e.label ∧ e.target = j

/-- A path from one state to another that spells a word. -/
inductive Path (fa : Automaton) : StateId → List Char → StateId → Prop where
  | nil (i : StateId) : Path fa i [] i
  | silent {i j k : StateId} {word : List Char} (h : fa.Step i .epsilon j) (rest : Path fa j word k) :
      Path fa i word k
  | read {i j k : StateId} {c : Char} {word : List Char} (h : fa.Step i (.char c) j) (rest : Path fa j word k) :
      Path fa i (c :: word) k

/-- A path from one state to another, told by the symbols of its steps. -/
inductive Trace (fa : Automaton) : StateId → List Symbol → StateId → Prop where
  | nil (i : StateId) : Trace fa i [] i
  | cons {i j k : StateId} {a : Symbol} {symbols : List Symbol} (h : fa.Step i a j) (rest : Trace fa j symbols k) :
      Trace fa i (a :: symbols) k

/-- A path from one state to another, whatever it spells. -/
inductive Leads (fa : Automaton) : StateId → StateId → Prop where
  | refl (i : StateId) : Leads fa i i
  | step {i j k : StateId} {e : Edge} (h : e ∈ fa.edgesOf i) (target : e.target = j) (rest : Leads fa j k) :
      Leads fa i k

/-- The start leads to the state. -/
def Reachable (fa : Automaton) (i : StateId) : Prop := fa.start < fa.size ∧ fa.Leads fa.start i

/-- A path from `i` to an accepting state spells the word. -/
def RecognizesFrom (fa : Automaton) (i : StateId) (word : List Char) : Prop :=
  ∃ j, fa.Path i word j ∧ fa.accepting j = true

/-- A path from the start to an accepting state spells the word. -/
def Recognizes (fa : Automaton) (word : List Char) : Prop := fa.RecognizesFrom fa.start word

theorem Path.append {i j k : StateId} {u v : List Char} (h : fa.Path i u j) (g : fa.Path j v k) :
    fa.Path i (u ++ v) k := by
  induction h with
  | nil => exact g
  | silent h _ ih => exact .silent h (ih g)
  | read h _ ih => exact .read h (ih g)

/-- The word of a path is what is left of its symbols without the empty steps. -/
theorem path_iff_exists_trace {i j : StateId} {word : List Char} :
    fa.Path i word j ↔ ∃ symbols, fa.Trace i symbols j ∧ symbols.filterMap Symbol.char? = word := by
  refine ⟨fun h => ?_, fun h => ?_⟩
  · induction h with
    | nil i => exact ⟨[], .nil i, rfl⟩
    | silent step _ ih =>
      obtain ⟨symbols, trace, spelled⟩ := ih
      exact ⟨.epsilon :: symbols, .cons step trace, spelled⟩
    | @read _ _ _ c _ step _ ih =>
      obtain ⟨symbols, trace, rfl⟩ := ih
      exact ⟨.char c :: symbols, .cons step trace, rfl⟩
  · obtain ⟨symbols, trace, rfl⟩ := h
    induction trace with
    | nil i => exact .nil i
    | @cons _ _ _ a _ step _ ih =>
      cases a with
      | epsilon => exact .silent step ih
      | char c => exact .read step ih

theorem Leads.trans {i j k : StateId} (h : fa.Leads i j) (g : fa.Leads j k) : fa.Leads i k := by
  induction h with
  | refl => exact g
  | step h target _ ih => exact .step h target (ih g)

theorem Path.leads {i j : StateId} {word : List Char} (h : fa.Path i word j) : fa.Leads i j := by
  induction h with
  | nil => exact .refl _
  | silent h _ ih =>
    obtain ⟨e, he, -, target⟩ := h
    exact .step he target ih
  | read h _ ih =>
    obtain ⟨e, he, -, target⟩ := h
    exact .step he target ih

end Automaton
end FiniteAutomata
