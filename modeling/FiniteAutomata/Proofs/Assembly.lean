import FiniteAutomata.Proofs.Reachability

/-! What assembling an automaton from states and arcs gives. Unless an arc starts outside the states or an
    empty step starts at a state that has none, the edges of a state are the first occurrences of its targets,
    each with all the symbols that lead there (`assembled`), so the steps are exactly the arcs. -/

namespace FiniteAutomata

/-! ### Edges from arcs -/

namespace Edge

/-- The edge to a target that the arcs of one source make. -/
def between (source : StateId) (arcs : List Arc) (target : StateId) : Edge :=
  ⟨source, target, Label.ofList ((arcs.filter fun a => a.target = target).map Arc.symbol)⟩

/-- The edges that the arcs of one source make. -/
def gather (source : StateId) (arcs : List Arc) : List Edge :=
  (arcs.map Arc.target).eraseDups.map (between source arcs)

theorem connect_map {source target : StateId} {a : Symbol} {f : StateId → Label} :
    ∀ {targets : List StateId}, targets.Nodup →
      connect source target a (targets.map fun t => ⟨source, t, f t⟩) =
        if target ∈ targets then
          targets.map fun t => ⟨source, t, if t = target then (f t).insert a else f t⟩
        else (targets.map fun t => ⟨source, t, f t⟩) ++ [⟨source, target, {a}⟩]
  | [], _ => rfl
  | t :: targets, h => by
    obtain ⟨ht, h⟩ := List.nodup_cons.mp h
    rw [List.map_cons, connect]
    by_cases htt : t = target
    · subst htt
      have others : (targets.map fun t' => (⟨source, t', if t' = t then (f t').insert a else f t'⟩ : Edge)) =
          targets.map fun t' => ⟨source, t', f t'⟩ := by
        refine List.map_congr_left fun t' ht' => ?_
        have : t' ≠ t := fun htt' => ht (htt' ▸ ht')
        rw [if_neg this]
      simp [others]
    · rw [if_neg htt, connect_map h]
      by_cases hmem : target ∈ targets
      · simp [hmem, htt]
      · simp [hmem, Ne.symm htt]

theorem between_concat (source : StateId) (arcs : List Arc) (a : Arc) (t : StateId) :
    between source (arcs ++ [a]) t =
      ⟨source, t, if t = a.target then (between source arcs t).label.insert a.symbol
        else (between source arcs t).label⟩ := by
  unfold between
  congr 1
  ext x
  by_cases ht : t = a.target
  · subst ht
    simp [List.filter_append, or_comm]
  · simp [List.filter_append, ht, Ne.symm ht]

theorem connect_gather (source : StateId) (arcs : List Arc) (a : Arc) :
    connect source a.target a.symbol (gather source arcs) = gather source (arcs ++ [a]) := by
  refine (connect_map (f := fun t => (between source arcs t).label)
    (nodup_eraseDups (arcs.map Arc.target))).trans ?_
  rw [gather, List.map_append, List.map_singleton, eraseDups_concat]
  simp only [List.mem_eraseDups]
  by_cases hmem : a.target ∈ arcs.map Arc.target
  · rw [if_pos hmem, if_pos hmem]
    exact List.map_congr_left fun t _ => (between_concat source arcs a t).symm
  · rw [if_neg hmem, if_neg hmem, List.map_append, List.map_singleton]
    congr 1
    · refine List.map_congr_left fun t ht => ?_
      have hta : t ≠ a.target := fun hta => hmem (hta ▸ List.mem_eraseDups.mp ht)
      rw [between_concat, if_neg hta]
    · have none : (arcs.filter fun b => b.target = a.target) = [] := by
        refine List.filter_eq_nil_iff.mpr fun b hb => ?_
        have : b.target ≠ a.target := fun hba => hmem (hba ▸ List.mem_map_of_mem hb)
        simpa using this
      rw [between_concat, if_pos rfl, between, none]
      rfl

theorem mem_between {source target : StateId} {arcs : List Arc} {a : Symbol} :
    a ∈ (between source arcs target).label ↔ ∃ arc ∈ arcs, arc.target = target ∧ arc.symbol = a := by
  simp [between, and_assoc]

theorem mem_gather {source : StateId} {arcs : List Arc} {e : Edge} :
    e ∈ gather source arcs ↔ ∃ arc ∈ arcs, e = between source arcs arc.target := by
  simp [gather, eq_comm]

theorem targets_gather (source : StateId) (arcs : List Arc) :
    (gather source arcs).map Edge.target = (arcs.map Arc.target).eraseDups := by
  rw [gather, List.map_map]
  exact List.map_id _

end Edge

/-! ### The assembled automaton -/

namespace Automaton

/-- The edges that arcs make at a state. -/
def outgoing (arcs : List Arc) (i : StateId) : List Edge := Edge.gather i (arcs.filter fun a => a.source = i)

/-- The automaton that states and arcs make. -/
def assembled (states : List (Kind × Bool)) (arcs : List Arc) (start : StateId) : Automaton where
  states := (states.mapIdx fun i s => { id := i, kind := s.1, accepting := s.2, edges := outgoing arcs i }).toArray
  start := start

/-- The arc starts at one of the states, at one of kind `nfa` if it is an empty step. -/
def Allowed (states : List (Kind × Bool)) (a : Arc) : Prop :=
  ∃ s, states[a.source]? = some s ∧ (a.symbol = .epsilon → s.1 = .nfa)

instance (states : List (Kind × Bool)) (a : Arc) : Decidable (Allowed states a) :=
  match h : states[a.source]? with
  | none => isFalse (by simp [Allowed, h])
  | some s => decidable_of_iff (a.symbol = .epsilon → s.1 = .nfa) (by simp [Allowed, h])

variable {states : List (Kind × Bool)} {arcs : List Arc} {start : StateId}

theorem ext_states {fa fb : Automaton} (h : ∀ i : StateId, fa.states[i]? = fb.states[i]?)
    (start : fa.start = fb.start) : fa = fb := by
  obtain ⟨as, i⟩ := fa
  obtain ⟨bs, j⟩ := fb
  obtain rfl : as = bs := Array.ext_getElem? h
  obtain rfl : i = j := start
  rfl

theorem size_eq_of_map {r : Except Fault Automaton} {fa : Automaton} {n : Nat} (made : r = .ok fa)
    (counted : r.map size = .ok n) : fa.size = n := by
  rw [made] at counted
  exact Except.ok.inj counted

@[simp] theorem size_assembled : (assembled states arcs start).size = states.length := by
  simp [assembled, size]

@[simp] theorem start_assembled : (assembled states arcs start).start = start := rfl

theorem state?_assembled (i : StateId) :
    (assembled states arcs start).states[i]? =
      states[i]?.map fun s => { id := i, kind := s.1, accepting := s.2, edges := outgoing arcs i } := by
  simp [assembled]

/-- A further state, from which no arc starts as yet. -/
theorem addState_assembled (kind : Kind) (accepting : Bool) (h : ∀ a ∈ arcs, a.source < states.length) :
    (assembled states arcs start).addState kind accepting = assembled (states ++ [(kind, accepting)]) arcs start := by
  have none : outgoing arcs states.length = [] := by
    have idle : (arcs.filter fun a => a.source = states.length) = [] :=
      List.filter_eq_nil_iff.mpr fun a ha => by simpa using Nat.ne_of_lt (h a ha)
    rw [outgoing, idle]
    rfl
  have size : (assembled states arcs start).states.size = states.length := size_assembled
  refine ext_states (fun i => ?_) rfl
  rw [addState, Array.getElem?_push, size, size_assembled, state?_assembled, state?_assembled, List.getElem?_append]
  rcases Nat.lt_trichotomy i states.length with h | rfl | h
  · rw [if_neg (Nat.ne_of_lt h), if_pos h]
  · rw [if_pos rfl, if_neg (Nat.lt_irrefl _), Nat.sub_self]
    exact congrArg some (congrArg (State.mk states.length kind accepting) none.symm)
  · rw [if_neg (Nat.ne_of_gt h), if_neg (Nat.lt_asymm h), List.getElem?_eq_none (Nat.le_of_lt h),
      List.getElem?_eq_none (by simp only [List.length_singleton]; omega)]

theorem foldl_addState (states : List (Kind × Bool)) :
    states.foldl (fun (fa : Automaton) s => fa.addState s.1 s.2) {} = assembled states [] 0 := by
  induction states using List.reverseRecOn with
  | nil => rfl
  | append_singleton states s ih =>
    rw [List.foldl_append, ih]
    exact addState_assembled s.1 s.2 nofun

theorem addEdge_assembled {a : Arc} (h : Allowed states a) :
    (assembled states arcs start).addEdge a.source a.target a.symbol =
      .ok (assembled states (arcs ++ [a]) start) := by
  obtain ⟨s, hs, hkind⟩ := h
  have allowed : ¬(a.symbol = .epsilon ∧ s.1 ≠ .nfa) := fun h => h.2 (hkind h.1)
  rw [addEdge, state?_assembled, hs]
  simp only [Option.map_some, if_neg allowed, outgoing, Edge.connect_gather]
  congr 1
  refine ext_states (fun i => ?_) rfl
  have hlt : a.source < (assembled states arcs start).states.size := by
    have hsize : (assembled states arcs start).states.size = states.length := size_assembled
    rw [hsize]
    exact (List.getElem?_eq_some_iff.mp hs).1
  rw [Array.getElem?_setIfInBounds, state?_assembled, state?_assembled]
  by_cases hi : a.source = i
  · subst hi
    simp [hs, hlt, outgoing, List.filter_append]
  · simp [hi, outgoing, List.filter_append]

theorem foldlM_addEdge (done arcs : List Arc) (h : ∀ a ∈ arcs, Allowed states a) :
    arcs.foldlM (fun (fa : Automaton) a => fa.addEdge a.source a.target a.symbol)
      (assembled states done start) = .ok (assembled states (done ++ arcs) start) := by
  induction arcs generalizing done with
  | nil => simp [pure, Except.pure]
  | cons a arcs ih =>
    rw [List.foldlM_cons, addEdge_assembled (h a List.mem_cons_self)]
    refine (ih (done ++ [a]) fun b hb => h b (List.mem_cons_of_mem _ hb)).trans ?_
    rw [List.append_assoc, List.singleton_append]

/-- Allowed arcs and an existing start are assembled without a fault. -/
theorem assemble_eq {start? : Option StateId} (h : ∀ a ∈ arcs, Allowed states a)
    (start : ∀ id, start? = some id → id < states.length) :
    assemble states arcs start? = .ok (assembled states arcs (start?.getD 0)) := by
  rw [assemble, foldl_addState]
  have connected : arcs.foldlM (fun (fa : Automaton) a => fa.addEdge a.source a.target a.symbol)
      (assembled states [] 0) = .ok (assembled states arcs 0) := foldlM_addEdge [] arcs h
  rw [connected]
  cases start? with
  | none => rfl
  | some id =>
    show setStart _ id = _
    rw [setStart, size_assembled, if_pos (start id rfl)]
    rfl

/-! ### What the assembled automaton satisfies -/

theorem accepting_assembled (i : StateId) :
    (assembled states arcs start).accepting i = (states[i]?.map Prod.snd).getD false := by
  rw [accepting, state?_assembled]
  cases states[i]? <;> rfl

theorem edgesOf_assembled {i : StateId} (h : i < states.length) :
    (assembled states arcs start).edgesOf i = outgoing arcs i := by
  rw [edgesOf, state?_assembled, List.getElem?_eq_getElem h]
  rfl

theorem mem_outgoing {e : Edge} {i : StateId} : e ∈ outgoing arcs i ↔
    ∃ a ∈ arcs, a.source = i ∧ e = Edge.between i (arcs.filter fun b => b.source = i) a.target := by
  rw [outgoing, Edge.mem_gather]
  simp only [List.mem_filter, decide_eq_true_eq, and_assoc]

theorem targets_assembled {i : StateId} (h : i < states.length) :
    (assembled states arcs start).targets i = ((arcs.filter fun a => a.source = i).map Arc.target).eraseDups := by
  rw [targets, edgesOf_assembled h, outgoing, Edge.targets_gather]

theorem mem_outgoing_label {e : Edge} {i : StateId} (h : e ∈ outgoing arcs i) {a : Symbol} :
    a ∈ e.label ↔ ⟨i, e.target, a⟩ ∈ arcs := by
  obtain ⟨b, -, -, rfl⟩ := mem_outgoing.mp h
  rw [Edge.mem_between]
  refine ⟨fun h => ?_, fun hmem => ?_⟩
  · rcases h with ⟨c, hc, ht, rfl⟩
    have hfrom : c ∈ arcs ∧ c.source = i := by simpa using hc
    rw [← ht, ← hfrom.2]
    exact hfrom.1
  · exact ⟨_, List.mem_filter.mpr ⟨hmem, by simp⟩, rfl, rfl⟩

/-- The steps of an assembled automaton are its arcs. -/
theorem step_assembled (h : ∀ a ∈ arcs, a.source < states.length) {i j : StateId} {a : Symbol} :
    (assembled states arcs start).Step i a j ↔ ⟨i, j, a⟩ ∈ arcs := by
  refine ⟨fun h => ?_, fun hmem => ?_⟩
  · rcases h with ⟨e, he, ha, rfl⟩
    have hi : i < states.length := size_assembled ▸ lt_of_mem_edgesOf he
    rw [edgesOf_assembled hi] at he
    exact (mem_outgoing_label he).mp ha
  · have hout := mem_outgoing.mpr ⟨_, hmem, rfl, rfl⟩
    refine ⟨_, (edgesOf_assembled (h _ hmem)).symm ▸ hout, (mem_outgoing_label hout).mpr hmem, rfl⟩

theorem Allowed.lt {a : Arc} (h : Allowed states a) : a.source < states.length := by
  obtain ⟨s, hs, -⟩ := h
  exact (List.getElem?_eq_some_iff.mp hs).1

theorem inRange_assembled (h : ∀ a ∈ arcs, a.target < states.length) : (assembled states arcs start).InRange := by
  intro i e he
  have hi : i < states.length := size_assembled ▸ lt_of_mem_edgesOf he
  rw [edgesOf_assembled hi] at he
  obtain ⟨a, ha, -, rfl⟩ := mem_outgoing.mp he
  rw [size_assembled]
  exact h a ha

theorem wellFormed_assembled (h : ∀ a ∈ arcs, Allowed states a)
    (hstart : start < states.length ∨ states = [] ∧ start = 0) : (assembled states arcs start).WellFormed where
  ids i s hs := by
    rw [state?_assembled] at hs
    obtain ⟨p, -, rfl⟩ := Option.map_eq_some_iff.mp hs
    rfl
  states i s hs := by
    rw [state?_assembled] at hs
    obtain ⟨p, hp, rfl⟩ := Option.map_eq_some_iff.mp hs
    constructor
    · intro e he
      obtain ⟨a, -, -, rfl⟩ := mem_outgoing.mp he
      rfl
    · intro e he hnone
      obtain ⟨a, ha, rfl, rfl⟩ := mem_outgoing.mp he
      have := (mem_outgoing_label (a := a.symbol) he).mpr ha
      rw [hnone] at this
      exact Label.not_mem_empty _ this
    · show ((outgoing arcs i).map Edge.target).Nodup
      rw [outgoing, Edge.targets_gather]
      exact nodup_eraseDups _
    · intro e he hsilent
      obtain ⟨q, hq, hkind⟩ := h _ ((mem_outgoing_label he).mp hsilent)
      rw [hp, Option.some.injEq] at hq
      exact hq ▸ hkind rfl
  start := by
    rcases hstart with hlt | ⟨rfl, hzero⟩
    · exact Or.inl (by simpa using hlt)
    · exact Or.inr ⟨rfl, hzero⟩

/-- Assembled automata agree when their states and starts do and their arcs have, state by state, the same first
    occurrences of targets and the same members. -/
theorem assembled_congr {arcs' : List Arc} (hmem : ∀ a, a ∈ arcs ↔ a ∈ arcs')
    (horder : ∀ i, ((arcs.filter fun a => a.source = i).map Arc.target).eraseDups =
      ((arcs'.filter fun a => a.source = i).map Arc.target).eraseDups) :
    assembled states arcs start = assembled states arcs' start := by
  have same : ∀ i, outgoing arcs i = outgoing arcs' i := by
    intro i
    rw [outgoing, outgoing, Edge.gather, Edge.gather, horder]
    refine List.map_congr_left fun t _ => ?_
    rw [Edge.between, Edge.between]
    congr 1
    ext x
    simp [hmem]
  rw [assembled, assembled]
  simp only [same]

end Automaton
end FiniteAutomata
