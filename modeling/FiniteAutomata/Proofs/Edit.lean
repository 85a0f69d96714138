import FiniteAutomata.Automaton.Edit
import FiniteAutomata.Automaton.WellFormed
import Mathlib.Data.List.Nodup

/-! Edits keep automata well-formed, and a refused edit changes nothing. The symbols of a label ascend, so the empty
    step, which alone may be refused at a state that is there, comes first: a label is refused at its first symbol or
    not at all. -/

namespace FiniteAutomata

variable {fa fb : Automaton} {source target id i : StateId} {a : Symbol} {s t : State} {e : Edge} {edges : List Edge}
  {fault : Fault}

/-! ### Edges -/

namespace Edge

theorem mem_connect (h : e ∈ connect source target a edges) : e ∈ edges ∨ e = ⟨source, target, {a}⟩ ∨
    ∃ e' ∈ edges, e = { e' with label := e'.label.insert a } := by
  induction edges with
  | nil => exact Or.inr (Or.inl (List.mem_singleton.mp h))
  | cons e' edges ih =>
    rw [connect] at h
    split at h
    · rcases List.mem_cons.mp h with rfl | h
      · exact Or.inr (Or.inr ⟨e', List.mem_cons_self, rfl⟩)
      · exact Or.inl (List.mem_cons_of_mem _ h)
    · rcases List.mem_cons.mp h with rfl | h
      · exact Or.inl List.mem_cons_self
      · rcases ih h with h | h | ⟨e'', he'', h⟩
        · exact Or.inl (List.mem_cons_of_mem _ h)
        · exact Or.inr (Or.inl h)
        · exact Or.inr (Or.inr ⟨e'', List.mem_cons_of_mem _ he'', h⟩)

theorem targets_connect (source target : StateId) (a : Symbol) (edges : List Edge) :
    (connect source target a edges).map Edge.target =
      if target ∈ edges.map Edge.target then edges.map Edge.target else edges.map Edge.target ++ [target] := by
  induction edges with
  | nil => rfl
  | cons e edges ih =>
    rw [connect]
    by_cases h : e.target = target
    · simp [h]
    · rw [if_neg h, List.map_cons, ih]
      by_cases mem : target ∈ edges.map Edge.target
      · simp [mem]
      · simp [mem, Ne.symm h]

end Edge

namespace State

/-- A further symbol on an edge of a state, on a new edge if need be. -/
theorem WellFormed.connect (h : s.WellFormed) (source : s.id = i) (silent : a = .epsilon → s.kind = .nfa) :
    WellFormed { s with edges := Edge.connect i target a s.edges } where
  sources e he := by
    rcases Edge.mem_connect he with he | rfl | ⟨e', he', rfl⟩
    · exact h.sources e he
    · exact source.symm
    · exact h.sources e' he'
  labels e he := by
    rcases Edge.mem_connect he with he | rfl | ⟨e', he', rfl⟩
    · exact h.labels e he
    · intro none
      exact Label.not_mem_empty a (none ▸ Label.mem_singleton.mpr rfl)
    · intro none
      exact Label.not_mem_empty a (none ▸ Label.mem_insert.mpr (Or.inl rfl))
  targets := by
    rw [Edge.targets_connect]
    split
    · exact h.targets
    · next new => exact List.nodup_append.mpr ⟨h.targets, by simp, fun x hx y hy => by
        rw [List.mem_singleton.mp hy]
        exact fun same => new (same ▸ hx)⟩
  silent e he mem := by
    rcases Edge.mem_connect he with he | rfl | ⟨e', he', rfl⟩
    · exact h.silent e he mem
    · exact silent (Label.mem_singleton.mp mem).symm
    · rcases Label.mem_insert.mp mem with same | mem
      · exact silent same.symm
      · exact h.silent e' he' mem

end State

namespace Automaton

/-! ### Single edits -/

/-- Putting a well-formed state in the place of another. -/
theorem WellFormed.set (wf : fa.WellFormed) (hid : s.id = i) (hs : s.WellFormed) :
    WellFormed { fa with states := fa.states.setIfInBounds i s } where
  ids j t ht := by
    rw [Array.getElem?_setIfInBounds] at ht
    split at ht
    · next same =>
      subst same
      split at ht
      · exact Option.some.inj ht ▸ hid
      · cases ht
    · exact wf.ids j t ht
  states j t ht := by
    rw [Array.getElem?_setIfInBounds] at ht
    split at ht
    · split at ht
      · exact Option.some.inj ht ▸ hs
      · cases ht
    · exact wf.states j t ht
  start := by
    simpa [size, isEmpty] using wf.start

@[simp] theorem size_addState (kind : Kind) (accepting : Bool) : (fa.addState kind accepting).size = fa.size + 1 := by
  simp [addState, size]

theorem WellFormed.addState (wf : fa.WellFormed) (kind : Kind) (accepting : Bool) :
    (fa.addState kind accepting).WellFormed where
  ids i s h := by
    rw [Automaton.addState, Array.getElem?_push] at h
    split at h
    · next last => exact Option.some.inj h ▸ last.symm
    · exact wf.ids i s h
  states i s h := by
    rw [Automaton.addState, Array.getElem?_push] at h
    split at h
    · exact Option.some.inj h ▸ .blank
    · exact wf.states i s h
  start := by
    left
    rw [size_addState]
    rcases wf.start with lt | ⟨-, zero⟩
    · exact Nat.lt_succ_of_lt lt
    · exact zero ▸ Nat.succ_pos _

/-- An arc is added from a state that is there, and an empty step only from one of kind `nfa`. -/
theorem addEdge_eq_ok_iff : fa.addEdge source target a = .ok fb ↔ ∃ s, fa.states[source]? = some s ∧
    (a = .epsilon → s.kind = .nfa) ∧ fb = { fa with
      states := fa.states.setIfInBounds source { s with edges := Edge.connect source target a s.edges } } := by
  rw [addEdge]
  cases fa.states[source]? with
  | none => simp
  | some s =>
    dsimp only
    by_cases refused : a = .epsilon ∧ s.kind ≠ .nfa
    · rw [if_pos refused]
      refine iff_of_false nofun fun h => ?_
      obtain ⟨t, ht, silent, -⟩ := h
      obtain rfl := Option.some.inj ht
      exact refused.2 (silent refused.1)
    · have allowed : a = .epsilon → s.kind = .nfa := fun h => by_contra fun hk => refused ⟨h, hk⟩
      rw [if_neg refused]
      refine ⟨fun h => ⟨s, rfl, allowed, (Except.ok.inj h).symm⟩, fun h => ?_⟩
      obtain ⟨t, ht, -, rfl⟩ := h
      obtain rfl := Option.some.inj ht
      rfl

theorem size_of_addEdge (h : fa.addEdge source target a = .ok fb) : fb.size = fa.size := by
  obtain ⟨s, -, -, rfl⟩ := addEdge_eq_ok_iff.mp h
  simp [size]

theorem WellFormed.addEdge (wf : fa.WellFormed) (h : fa.addEdge source target a = .ok fb) : fb.WellFormed := by
  obtain ⟨s, hs, silent, rfl⟩ := addEdge_eq_ok_iff.mp h
  have hid := wf.ids source s hs
  exact wf.set hid ((wf.states source s hs).connect hid silent)

theorem WellFormed.setAccepting {accepting : Bool} (wf : fa.WellFormed) (h : fa.setAccepting i accepting = .ok fb) :
    fb.WellFormed := by
  rw [Automaton.setAccepting] at h
  cases hs : fa.states[i]? with
  | none => rw [hs] at h; cases h
  | some s =>
    rw [hs] at h
    obtain rfl := Except.ok.inj h
    obtain ⟨sources, labels, targets, silent⟩ := wf.states i s hs
    exact wf.set (wf.ids i s hs) ⟨sources, labels, targets, silent⟩

theorem WellFormed.setStart (wf : fa.WellFormed) (h : fa.setStart i = .ok fb) : fb.WellFormed := by
  rw [Automaton.setStart] at h
  split at h
  · next lt =>
    obtain rfl := Except.ok.inj h
    exact ⟨wf.ids, wf.states, Or.inl lt⟩
  · cases h

/-! ### Labels -/

theorem WellFormed.connectEach {symbols : List Symbol} (wf : fa.WellFormed) :
    (fa.connectEach source target symbols).automaton.WellFormed := by
  induction symbols generalizing fa with
  | nil => exact wf
  | cons a symbols ih =>
    rw [Automaton.connectEach]
    split
    · next connected => exact ih (wf.addEdge connected)
    · exact wf

/-- Characters are added at any state that is there. -/
theorem connectEach_of_chars {symbols : List Symbol} (lt : source < fa.size) (chars : ∀ a ∈ symbols, a ≠ .epsilon) :
    (fa.connectEach source target symbols).fault? = none := by
  induction symbols generalizing fa with
  | nil => rfl
  | cons a symbols ih =>
    obtain ⟨ha, chars⟩ := List.forall_mem_cons.mp chars
    obtain ⟨connected, made⟩ : ∃ fb, fa.addEdge source target a = .ok fb :=
      ⟨_, addEdge_eq_ok_iff.mpr ⟨_, Array.getElem?_eq_getElem lt, fun h => absurd h ha, rfl⟩⟩
    rw [connectEach, made]
    exact ih ((size_of_addEdge made).symm ▸ lt) chars

/-- Adding symbols one by one ends like adding them as a whole. -/
theorem result_connectEach (fa : Automaton) (source target : StateId) (symbols : List Symbol) :
    (fa.connectEach source target symbols).result = symbols.foldlM (fun fa a => fa.addEdge source target a) fa := by
  induction symbols generalizing fa with
  | nil => rfl
  | cons a symbols ih =>
    rw [List.foldlM_cons, connectEach]
    cases fa.addEdge source target a with
    | ok connected => exact ih connected
    | error fault => rfl

/-- A label that is refused is refused at its first symbol. -/
theorem connectEach_of_fault {symbols : List Symbol} (ascending : symbols.Pairwise (· < ·))
    (h : (fa.connectEach source target symbols).fault? = some fault) :
    ∃ first rest, symbols = first :: rest ∧ fa.addEdge source target first = .error fault ∧
      (fa.connectEach source target symbols).automaton = fa := by
  cases symbols with
  | nil => cases h
  | cons a symbols =>
    refine ⟨a, symbols, rfl, ?_⟩
    rw [connectEach] at h ⊢
    cases made : fa.addEdge source target a with
    | error fault' =>
      rw [made] at h
      obtain rfl := Option.some.inj h
      exact ⟨rfl, rfl⟩
    | ok connected =>
      -- Whatever follows is greater than the first symbol, hence not the empty step.
      have chars : ∀ b ∈ symbols, b ≠ .epsilon := fun b hb epsilon => by
        have := (List.pairwise_cons.mp ascending).1 b hb
        rw [epsilon] at this
        exact Nat.not_lt_zero _ this
      obtain ⟨s, hs, -⟩ := addEdge_eq_ok_iff.mp made
      have lt : source < fa.size := (Array.getElem?_eq_some_iff.mp hs).1
      rw [made] at h
      dsimp only at h
      rw [connectEach_of_chars ((size_of_addEdge made).symm ▸ lt) chars] at h
      cases h

end Automaton

/-! ### Sequences of edits -/

theorem Edited.wellFormed_ofResult {result : Except Fault Automaton} (wf : fa.WellFormed)
    (h : ∀ fb, result = .ok fb → fb.WellFormed) : (ofResult fa result).automaton.WellFormed := by
  cases result with
  | ok fb => exact h fb rfl
  | error fault => exact wf

/-- An edit that changes nothing when it is refused is made as a whole or not at all. -/
theorem Edited.eq_ofResult {edited : Edited} (h : ∀ fault, edited.fault? = some fault → edited.automaton = fa) :
    edited = .ofResult fa edited.result := by
  obtain ⟨changed, _ | fault⟩ := edited
  · rfl
  · obtain rfl : changed = fa := h fault rfl
    rfl

theorem Edited.automaton_ofResult {result : Except Fault Automaton} (h : (ofResult fa result).fault? = some fault) :
    (ofResult fa result).automaton = fa := by
  cases result with
  | ok fb => cases h
  | error fault => rfl

namespace Edit

variable {edit : Edit} {edits : List Edit}

theorem wellFormed_apply (wf : fa.WellFormed) : (edit.apply fa).automaton.WellFormed := by
  cases edit with
  | clear => exact .empty
  | addState kind accepting => exact wf.addState kind accepting
  | addEdge source target a => exact Edited.wellFormed_ofResult wf fun _ => wf.addEdge
  | addLabeledEdge source target label => exact wf.connectEach
  | setAccepting i accepting => exact Edited.wellFormed_ofResult wf fun _ => wf.setAccepting
  | setStart i => exact Edited.wellFormed_ofResult wf fun _ => wf.setStart

theorem wellFormed_foldl (wf : fa.WellFormed) :
    (edits.foldl (fun fa edit => (edit.apply fa).automaton) fa).WellFormed := by
  induction edits generalizing fa with
  | nil => exact wf
  | cons edit edits ih => exact ih (wellFormed_apply wf)

/-- A refused edit leaves the automaton as it was. -/
theorem automaton_apply_of_fault (h : (edit.apply fa).fault? = some fault) : (edit.apply fa).automaton = fa := by
  cases edit with
  | clear => cases h
  | addState => cases h
  | addEdge => exact Edited.automaton_ofResult h
  | addLabeledEdge source target label =>
    obtain ⟨-, -, -, -, same⟩ := Automaton.connectEach_of_fault label.sorted h
    exact same
  | setAccepting => exact Edited.automaton_ofResult h
  | setStart => exact Edited.automaton_ofResult h

/-- Adding a label symbol by symbol gives what adding it as a whole gives. -/
theorem apply_addLabeledEdge (fa : Automaton) (source target : StateId) (label : Label) :
    apply fa (.addLabeledEdge source target label) = .ofResult fa (fa.addLabeledEdge source target label) := by
  rw [Automaton.addLabeledEdge, ← Automaton.result_connectEach]
  exact Edited.eq_ofResult fun _ => automaton_apply_of_fault

/-- Whatever edits are tried from an automaton without states, and whichever of them are refused, the automaton is
    well-formed. A refused edit has changed nothing. A label is added as a whole or not at all, and if it is refused,
    it is refused at its first symbol. -/
theorem wellFormed_run (edits : List Edit) : (run edits).WellFormed ∧
    (∀ edit fault, (apply (run edits) edit).fault? = some fault → (apply (run edits) edit).automaton = run edits) ∧
    ∀ source target label,
      apply (run edits) (.addLabeledEdge source target label) =
        .ofResult (run edits) ((run edits).addLabeledEdge source target label) ∧
      ∀ fault, (run edits).addLabeledEdge source target label = .error fault → ∃ first rest,
        label.toList = first :: rest ∧ (run edits).addEdge source target first = .error fault := by
  refine ⟨wellFormed_foldl .empty, fun edit fault => automaton_apply_of_fault, fun source target label => ?_⟩
  have whole := apply_addLabeledEdge (run edits) source target label
  refine ⟨whole, fun fault refused => ?_⟩
  rw [refused] at whole
  obtain ⟨first, rest, symbols, fails, -⟩ := Automaton.connectEach_of_fault label.sorted (congrArg Edited.fault? whole)
  exact ⟨first, rest, symbols, fails⟩

/-- Two states and an edge back, and a start that is not there. -/
def started : List Edit :=
  [.addState .dfa false, .addState .nfa true, .addEdge 1 0 .epsilon, .addEdge 1 0 (.char 'b'), .setStart 5]

/-- At a deterministic state a label with an empty step in it is refused, and its character is not added either. -/
theorem wellFormed_run_started : (run started).WellFormed ∧
    (apply (run started) (.addLabeledEdge 0 1 (.ofList [.char 'a', .epsilon]))).fault? = some .epsilonOnDeterministic ∧
    (apply (run started) (.addLabeledEdge 0 1 (.ofList [.char 'a', .epsilon]))).automaton = run started ∧
    ∃ first rest, (Label.ofList [.char 'a', .epsilon]).toList = first :: rest ∧
      (run started).addEdge 0 1 first = .error .epsilonOnDeterministic := by
  obtain ⟨wf, same, labels⟩ := wellFormed_run started
  have refused : (apply (run started) (.addLabeledEdge 0 1 (.ofList [.char 'a', .epsilon]))).fault? =
      some .epsilonOnDeterministic := rfl
  exact ⟨wf, refused, same _ _ refused, (labels 0 1 _).2 _ rfl⟩

end Edit
end FiniteAutomata
