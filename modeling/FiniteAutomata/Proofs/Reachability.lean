import FiniteAutomata.Automaton.Path
import FiniteAutomata.Automaton.Walk
import FiniteAutomata.Automaton.WellFormed
import FiniteAutomata.Proofs.Explore

/-! A walk visits exactly what its roots lead to, and it succeeds exactly when all of that exists. Along edges
    that carry symbols, being led to is the same as being reached by the path of some word. -/

namespace FiniteAutomata
namespace Automaton

variable {fa : Automaton} {roots : List StateId} {i j k : StateId}

theorem lt_of_mem_edgesOf {e : Edge} (h : e ∈ fa.edgesOf i) : i < fa.size := by
  by_contra hi
  rw [edgesOf, Array.getElem?_eq_none (Nat.le_of_not_lt hi)] at h
  cases h

theorem lt_of_accepting (h : fa.accepting i = true) : i < fa.size := by
  by_contra hi
  rw [accepting, Array.getElem?_eq_none (Nat.le_of_not_lt hi)] at h
  cases h

/-! ### Leading -/

theorem mem_targets : j ∈ fa.targets i ↔ ∃ e ∈ fa.edgesOf i, e.target = j := List.mem_map

theorem lt_of_mem_targets (h : j ∈ fa.targets i) : i < fa.size := by
  obtain ⟨e, he, -⟩ := mem_targets.mp h
  exact lt_of_mem_edgesOf he

theorem Leads.lt (h : fa.Leads i j) (accepting : fa.accepting j = true) : i < fa.size := by
  cases h with
  | refl => exact lt_of_accepting accepting
  | step he _ _ => exact lt_of_mem_edgesOf he

theorem Leads.single (h : j ∈ fa.targets i) : fa.Leads i j := by
  obtain ⟨e, he, target⟩ := mem_targets.mp h
  exact .step he target (.refl j)

theorem Closed.leads {l : List StateId} (closed : Closed fa.targets l) (hi : i ∈ l) (h : fa.Leads i j) : j ∈ l := by
  induction h with
  | refl => exact hi
  | step he target _ ih => exact ih (closed _ hi _ (mem_targets.mpr ⟨_, he, target⟩))

/-- All that the state leads to exists. -/
def CompleteFrom (fa : Automaton) (i : StateId) : Prop := ∀ j, fa.Leads i j → j < fa.size

theorem CompleteFrom.lt (h : fa.CompleteFrom i) : i < fa.size := h i (.refl i)

theorem CompleteFrom.of_leads (h : fa.CompleteFrom i) (g : fa.Leads i j) : fa.CompleteFrom j :=
  fun k hk => h k (g.trans hk)

theorem InRange.completeFrom (h : fa.InRange) (hi : i < fa.size) : fa.CompleteFrom i := by
  intro j g
  induction g with
  | refl => exact hi
  | step he target _ ih => exact ih (target ▸ h _ _ he)

theorem InRange.step_lt {a : Symbol} (h : fa.InRange) (step : fa.Step i a j) : j < fa.size := by
  obtain ⟨e, he, -, rfl⟩ := step
  exact h i e he

/-! ### Walks -/

theorem order_singleton (fa : Automaton) (root : StateId) :
    fa.order [root] = explore fa.targets fa.size [] [root] := by
  rw [order_eq, eraseDups_eq_self (by simp)]

theorem leads_of_mem_order (h : j ∈ fa.order roots) : ∃ i ∈ roots, fa.Leads i j := by
  rw [order_eq] at h
  refine explore_induction (P := fun k => ∃ i ∈ roots, fa.Leads i k) ?_ ?_ j h
  · rintro k ⟨i, hi, g⟩ l hl
    exact ⟨i, hi, g.trans (.single hl)⟩
  · intro k hk
    exact ⟨k, by simpa using hk, .refl k⟩

theorem mem_order_of_mem (h : i ∈ roots) : i ∈ fa.order roots := by
  rw [order_eq]
  exact mem_explore_of_mem (by simpa using h)

theorem order_nodup (fa : Automaton) (roots : List StateId) : (fa.order roots).Nodup := by
  rw [order_eq]
  exact nodup_explore (nodup_eraseDups roots)

theorem order_closed (h : ∀ i ∈ fa.order roots, i < fa.size) : Closed fa.targets (fa.order roots) := by
  rw [order_eq] at h ⊢
  exact closed_explore (List.range fa.size) (fun i hi => List.mem_range.mpr (h i hi)) (by simp)
    (nodup_eraseDups roots) (by simp)

theorem mem_order (h : ∀ i ∈ roots, fa.CompleteFrom i) : j ∈ fa.order roots ↔ ∃ i ∈ roots, fa.Leads i j := by
  constructor
  · exact leads_of_mem_order
  · rintro ⟨i, hi, g⟩
    refine Closed.leads (order_closed fun k hk => ?_) (mem_order_of_mem hi) g
    obtain ⟨l, hl, hlk⟩ := leads_of_mem_order hk
    exact h l hl k hlk

theorem mem_order_root {root : StateId} (h : fa.CompleteFrom root) : j ∈ fa.order [root] ↔ fa.Leads root j := by
  rw [mem_order (by simpa using h)]
  simp

/-- A walk succeeds exactly when all that its roots lead to exists. -/
theorem walk_eq_ok_iff {v : Walk} :
    fa.walk roots = .ok v ↔ (∀ i ∈ roots, fa.CompleteFrom i) ∧ v = fa.collect (fa.order roots) := by
  have all : (fa.order roots).all (· < fa.size) = true ↔ ∀ i ∈ roots, fa.CompleteFrom i := by
    simp only [List.all_eq_true, decide_eq_true_eq]
    constructor
    · intro h i hi j g
      exact h j (Closed.leads (order_closed h) (mem_order_of_mem hi) g)
    · intro h j hj
      obtain ⟨i, hi, g⟩ := leads_of_mem_order hj
      exact h i hi j g
  rw [walk, ← all]
  by_cases h : (fa.order roots).all (· < fa.size) = true
  · simp [h, eq_comm]
  · simp [h]

/-- The walk from the start. -/
def seen (fa : Automaton) : Walk := fa.collect (fa.order [fa.start])

theorem view_eq (h : fa.CompleteFrom fa.start) : fa.view = .ok fa.seen := by
  rw [view, traverse, if_pos h.lt]
  exact walk_eq_ok_iff.mpr ⟨by simpa using h, rfl⟩

theorem view_eq_ok_iff (h : fa.start < fa.size) {v : Walk} :
    fa.view = .ok v ↔ fa.CompleteFrom fa.start ∧ v = fa.seen := by
  rw [view, traverse, if_pos h, walk_eq_ok_iff]
  simp [seen]

theorem view_of_size_le (h : fa.size ≤ fa.start) : fa.view = .ok {} := by
  rw [view, traverse, if_neg (Nat.not_lt.mpr h)]

theorem mem_seen (h : fa.CompleteFrom fa.start) : i ∈ fa.seen.states ↔ fa.Leads fa.start i := mem_order_root h

theorem seen_nodup (fa : Automaton) : fa.seen.states.Nodup := order_nodup fa [fa.start]

theorem seen_closed (h : fa.CompleteFrom fa.start) : Closed fa.targets fa.seen.states := by
  refine order_closed fun i hi => ?_
  obtain ⟨j, hj, g⟩ := leads_of_mem_order hi
  rw [List.mem_singleton.mp hj] at g
  exact h i g

theorem mem_seen_iff_reachable (h : fa.CompleteFrom fa.start) {i : StateId} :
    i ∈ fa.seen.states ↔ fa.Reachable i := by
  rw [mem_seen h, Reachable]
  simp [h.lt]

theorem mem_foldl_union {α : Type} {f : α → Label} {a : Symbol} (l : List α) (m : Label) :
    a ∈ l.foldl (fun m x => m ∪ f x) m ↔ a ∈ m ∨ ∃ x ∈ l, a ∈ f x := by
  induction l generalizing m with
  | nil => simp
  | cons x l ih =>
    rw [List.foldl_cons, ih]
    simp [or_assoc]

theorem mem_alphabetOf {edges : List Edge} {a : Symbol} : a ∈ alphabetOf edges ↔ ∃ e ∈ edges, a ∈ e.label := by
  rw [alphabetOf, mem_foldl_union]
  simp

/-- The symbols that a walk from one root collects. -/
theorem mem_alphabet_collect {root : StateId} (h : fa.CompleteFrom root) {a : Symbol} :
    a ∈ (fa.collect (fa.order [root])).alphabet ↔ ∃ i j, fa.Leads root i ∧ fa.Step i a j := by
  show a ∈ alphabetOf ((fa.order [root]).flatMap fa.edgesOf) ↔ _
  rw [mem_alphabetOf]
  refine ⟨fun given => ?_, fun given => ?_⟩
  · rcases given with ⟨e, he, ha⟩
    obtain ⟨i, hi, he⟩ := List.mem_flatMap.mp he
    exact ⟨i, e.target, (mem_order_root h).mp hi, e, he, ha, rfl⟩
  · rcases given with ⟨i, j, hi, e, he, ha, -⟩
    exact ⟨e, List.mem_flatMap.mpr ⟨i, (mem_order_root h).mpr hi, he⟩, ha⟩

theorem mem_seen_alphabet (h : fa.CompleteFrom fa.start) {a : Symbol} :
    a ∈ fa.seen.alphabet ↔ ∃ i j, fa.Leads fa.start i ∧ fa.Step i a j := mem_alphabet_collect h

theorem mem_seen_accepting (h : fa.CompleteFrom fa.start) :
    i ∈ fa.seen.accepting ↔ fa.Leads fa.start i ∧ fa.accepting i = true := by
  show i ∈ StateSet.ofList (fa.seen.states.filter fa.accepting) ↔ _
  rw [StateSet.mem_ofList, List.mem_filter, mem_seen h]

/-! ### Leading and paths -/

theorem Step.leads {a : Symbol} (h : fa.Step i a j) : fa.Leads i j := by
  obtain ⟨e, he, -, target⟩ := h
  exact .step he target (.refl j)

theorem Step.lt {a : Symbol} (h : fa.Step i a j) : i < fa.size := by
  obtain ⟨e, he, -, -⟩ := h
  exact lt_of_mem_edgesOf he

theorem WellFormed.source_of_mem_edgesOf (wf : fa.WellFormed) {e : Edge} (he : e ∈ fa.edgesOf i) : e.source = i := by
  obtain ⟨s, hs, he⟩ := mem_edgesOf.mp he
  rw [(wf.states i s hs).sources e he, wf.ids i s hs]

theorem WellFormed.exists_symbol (wf : fa.WellFormed) {e : Edge} (he : e ∈ fa.edgesOf i) : ∃ a, a ∈ e.label := by
  obtain ⟨s, hs, he⟩ := mem_edgesOf.mp he
  by_contra none
  exact (wf.states i s hs).labels e he (Label.ext fun a => by simpa using fun ha => none ⟨a, ha⟩)

theorem Leads.exists_path (wf : fa.WellFormed) (h : fa.Leads i j) : ∃ word, fa.Path i word j := by
  induction h with
  | refl i => exact ⟨[], .nil i⟩
  | step he target _ ih =>
    obtain ⟨word, path⟩ := ih
    obtain ⟨a, ha⟩ := wf.exists_symbol he
    cases a with
    | epsilon => exact ⟨word, .silent ⟨_, he, ha, target⟩ path⟩
    | char c => exact ⟨c :: word, .read ⟨_, he, ha, target⟩ path⟩

end Automaton
end FiniteAutomata
