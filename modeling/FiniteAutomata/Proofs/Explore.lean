import FiniteAutomata.Explore
import Mathlib.Data.List.Forall2
import Mathlib.Data.List.Induction

/-! What an exploration lists. Every value listed is led to by the values it began with, no value is listed
    twice, and with enough expansions the list is closed: it holds the successors of each of its values. The
    list depends on the order of first occurrences among successors only, and explorations of two systems that
    correspond value by value correspond place by place. -/

namespace FiniteAutomata

/-! ### First occurrences -/

section FirstOccurrences
variable {α β : Type} [DecidableEq α] [DecidableEq β]

theorem filter_eraseDups (p : α → Bool) : ∀ l : List α, (l.filter p).eraseDups = l.eraseDups.filter p
  | [] => rfl
  | x :: l => by
    have tail := filter_eraseDups p (l.filter fun y => !y == x)
    rw [List.filter_filter] at tail
    cases hx : p x with
    | true =>
      rw [List.filter_cons_of_pos hx, List.eraseDups_cons, List.eraseDups_cons, List.filter_cons_of_pos hx,
        List.filter_filter, ← tail]
      simp only [Bool.and_comm]
    | false =>
      rw [List.filter_cons_of_neg (by simp [hx]), List.eraseDups_cons, List.filter_cons_of_neg (by simp [hx]), ← tail]
      congr 1
      refine List.filter_congr fun y _ => ?_
      by_cases hy : y = x
      · simp [hy, hx]
      · simp [hy]
termination_by l => l.length
decreasing_by exact Nat.lt_succ_of_le (List.length_filter_le _ _)

theorem nodup_eraseDups : ∀ l : List α, l.eraseDups.Nodup
  | [] => by simp
  | x :: l => by
    rw [List.eraseDups_cons, filter_eraseDups, List.nodup_cons]
    exact ⟨fun h => by simp at h, (nodup_eraseDups l).filter _⟩

theorem eraseDups_eq_self : ∀ {l : List α}, l.Nodup → l.eraseDups = l
  | [], _ => rfl
  | x :: l, h => by
    obtain ⟨hx, hl⟩ := List.nodup_cons.mp h
    have same : (l.filter fun y => !y == x) = l := by
      refine List.filter_eq_self.mpr fun y hy => ?_
      have : y ≠ x := fun hyx => hx (hyx ▸ hy)
      simp [this]
    rw [List.eraseDups_cons, same, eraseDups_eq_self hl]

theorem eraseDups_concat (l : List α) (x : α) :
    (l ++ [x]).eraseDups = if x ∈ l then l.eraseDups else l.eraseDups ++ [x] := by
  rw [List.eraseDups_append]
  by_cases hx : x ∈ l
  · simp [List.removeAll, hx]
  · simp [List.removeAll, hx, List.eraseDups_cons]

/-- Repeated values add nothing to the first occurrences of what a list is mapped to. -/
theorem eraseDups_flatMap_eraseDups (f : α → List β) (l : List α) :
    (l.eraseDups.flatMap f).eraseDups = (l.flatMap f).eraseDups := by
  induction l using List.reverseRecOn with
  | nil => rfl
  | append_singleton l x ih =>
    rw [eraseDups_concat, List.flatMap_append, List.flatMap_singleton, List.eraseDups_append, ← ih]
    split
    · next hx =>
      have none : (f x).removeAll (l.flatMap f) = [] := by
        refine List.filter_eq_nil_iff.mpr fun y hy => ?_
        have : y ∈ l.flatMap f := List.mem_flatMap.mpr ⟨x, hx, hy⟩
        simp only [List.elem_eq_mem, this, decide_true, Bool.not_true, Bool.false_eq_true, not_false_eq_true]
      rw [none, List.eraseDups_nil, List.append_nil]
    · rw [List.flatMap_append, List.flatMap_singleton, List.eraseDups_append]
      congr 2
      refine List.filter_congr fun y _ => ?_
      simp [List.mem_flatMap]

/-- The values of a list that are not known yet, once each. -/
def newcomers (known l : List α) : List α := (l.filter fun x => x ∉ known).eraseDups

@[simp] theorem newcomers_nil (known : List α) : newcomers known [] = [] := by
  rw [newcomers, List.filter_nil, List.eraseDups_nil]

theorem mem_append_newcomers {known l : List α} {x : α} : x ∈ known ++ newcomers known l ↔ x ∈ known ++ l := by
  simp only [newcomers, List.mem_append, List.mem_eraseDups, List.mem_filter, decide_eq_true_eq]
  tauto

theorem mem_newcomers {known l : List α} {x : α} : x ∈ newcomers known l ↔ x ∈ l ∧ x ∉ known := by
  simp only [newcomers, List.mem_eraseDups, List.mem_filter, decide_eq_true_eq]

theorem nodup_append_newcomers {known : List α} (h : known.Nodup) (l : List α) : (known ++ newcomers known l).Nodup :=
  List.nodup_append.mpr ⟨h, nodup_eraseDups _, fun _ hx _ hy same => (mem_newcomers.mp hy).2 (same ▸ hx)⟩

theorem newcomers_concat (known l : List α) (x : α) :
    newcomers known (l ++ [x]) = if x ∈ known ++ l then newcomers known l else newcomers known l ++ [x] := by
  rw [newcomers, List.filter_append]
  by_cases old : x ∈ known
  · rw [if_pos (List.mem_append_left _ old), List.filter_cons_of_neg (by simpa using old), List.filter_nil,
      List.append_nil, newcomers]
  · rw [List.filter_cons_of_pos (by simpa using old), List.filter_nil, eraseDups_concat]
    simp only [List.mem_filter, List.mem_append, old, not_false_eq_true, decide_true, and_true, false_or, newcomers]

omit [DecidableEq α] in
/-- The first occurrences of a concatenation depend on the first occurrences of its parts. -/
theorem eraseDups_flatMap_congr {f g : α → List β} {l : List α} (h : ∀ x ∈ l, (f x).eraseDups = (g x).eraseDups) :
    (l.flatMap f).eraseDups = (l.flatMap g).eraseDups := by
  have members : ∀ {m m' : List β}, m.eraseDups = m'.eraseDups → ∀ y, y ∈ m ↔ y ∈ m' := by
    intro m m' same y
    rw [← List.mem_eraseDups, same, List.mem_eraseDups]
  have append : ∀ {m m' n n' : List β}, m.eraseDups = m'.eraseDups → n.eraseDups = n'.eraseDups →
      (m ++ n).eraseDups = (m' ++ n').eraseDups := by
    intro m m' n n' first second
    rw [List.eraseDups_append, List.eraseDups_append, first, List.removeAll, List.removeAll, filter_eraseDups,
      filter_eraseDups, second]
    congr 1
    refine List.filter_congr fun y _ => ?_
    simp only [List.elem_eq_mem, members first y]
  induction l with
  | nil => rfl
  | cons x l ih =>
    rw [List.flatMap_cons, List.flatMap_cons]
    exact append (h x List.mem_cons_self) (ih fun y hy => h y (List.mem_cons_of_mem _ hy))

theorem eraseDups_map_congr (f : α → β) {l l' : List α} (h : l.eraseDups = l'.eraseDups) :
    (l.map f).eraseDups = (l'.map f).eraseDups := by
  rw [List.map_eq_flatMap, List.map_eq_flatMap, ← eraseDups_flatMap_eraseDups, h, eraseDups_flatMap_eraseDups]

theorem eraseDups_filterMap_congr (f : α → Option β) {l l' : List α} (h : l.eraseDups = l'.eraseDups) :
    (l.filterMap f).eraseDups = (l'.filterMap f).eraseDups := by
  have unfolded : ∀ l : List α, l.filterMap f = l.flatMap fun x => (f x).toList := by
    intro l
    induction l with
    | nil => rfl
    | cons x l ih =>
      rw [List.flatMap_cons, ← ih]
      cases hx : f x with
      | none => rw [List.filterMap_cons_none hx]; rfl
      | some y => rw [List.filterMap_cons_some hx]; rfl
  rw [unfolded, unfolded, ← eraseDups_flatMap_eraseDups, h, eraseDups_flatMap_eraseDups]

omit [DecidableEq α] in
/-- A list taken any number of times has its own first occurrences. -/
theorem eraseDups_flatMap_const {l : List α} (h : l ≠ []) (m : List β) :
    (l.flatMap fun _ => m).eraseDups = m.eraseDups := by
  cases l with
  | nil => exact absurd rfl h
  | cons x l =>
    have none : (l.flatMap fun _ => m).removeAll m = [] := by
      refine List.filter_eq_nil_iff.mpr fun y hy => ?_
      obtain ⟨-, -, hy⟩ := List.mem_flatMap.mp hy
      simp [hy]
    rw [List.flatMap_cons, List.eraseDups_append, none, List.eraseDups_nil, List.append_nil]

omit [DecidableEq α] [DecidableEq β] in
/-- In a concatenation whose values name the place of their part, those that name a place are the part there. -/
theorem filter_flatMap_of_place {f : α → List β} {key : β → Nat} {l : List α}
    (h : ∀ i x, l[i]? = some x → ∀ y ∈ f x, key y = i) (i : Nat) :
    ((l.flatMap f).filter fun y => key y = i) = (l[i]?.map f).getD [] := by
  induction l using List.reverseRecOn with
  | nil => rfl
  | append_singleton l x ih =>
    have first : ∀ j z, l[j]? = some z → ∀ y ∈ f z, key y = j := fun j z hz y hy =>
      h j z (by rw [List.getElem?_append_left (List.getElem?_eq_some_iff.mp hz).1, hz]) y hy
    have last : ∀ y ∈ f x, key y = l.length := h l.length x (by simp)
    have none : i ≠ l.length → ((f x).filter fun y => key y = i) = [] := fun hne =>
      List.filter_eq_nil_iff.mpr fun y hy => by simpa [last y hy] using hne.symm
    rw [List.flatMap_append, List.flatMap_singleton, List.filter_append, ih first]
    rcases Nat.lt_trichotomy i l.length with hlt | rfl | hgt
    · rw [none (Nat.ne_of_lt hlt), List.append_nil, List.getElem?_append_left hlt]
    · have all : ((f x).filter fun y => key y = l.length) = f x :=
        List.filter_eq_self.mpr fun y hy => by simpa using last y hy
      rw [all, List.getElem?_eq_none (Nat.le_refl _), List.getElem?_concat_length]
      rfl
    · have outside : (l ++ [x])[i]? = Option.none := List.getElem?_eq_none (by rw [List.length_append]; exact hgt)
      rw [none (Nat.ne_of_gt hgt), List.append_nil, List.getElem?_eq_none (Nat.le_of_lt hgt), outside]

theorem forall₂_eraseDups {R : α → β → Prop} (unique : Relator.BiUnique R) :
    ∀ {l : List α} {l' : List β}, List.Forall₂ R l l' → List.Forall₂ R l.eraseDups l'.eraseDups
  | [], _, .nil => .nil
  | x :: l, y :: l', .cons hxy h => by
    rw [List.eraseDups_cons, List.eraseDups_cons, filter_eraseDups, filter_eraseDups]
    refine .cons hxy (List.rel_filter (fun a b hab => ?_) (forall₂_eraseDups unique h))
    have : a = x ↔ b = y := Relator.rel_eq unique hab hxy
    simp [this]

omit [DecidableEq α] [DecidableEq β] in
theorem map_fst_rows (f : α → β) (l : List α) : (l.map fun x => (x, f x)).map Prod.fst = l := by
  rw [List.map_map]
  exact List.map_id l

omit [DecidableEq α] in
/-- No value stands in two places. -/
theorem eq_of_getElem? {l : List α} {x : α} {i j : Nat} (nodup : l.Nodup) (hi : l[i]? = some x) (hj : l[j]? = some x) :
    i = j := (List.getElem?_inj (List.getElem?_eq_some_iff.mp hi).1 nodup).mp (hi.trans hj.symm)

theorem idxOf_of_getElem? {l : List α} {x : α} {i : Nat} (nodup : l.Nodup) (h : l[i]? = some x) : l.idxOf x = i :=
  eq_of_getElem? nodup (List.getElem?_idxOf (List.mem_of_getElem? h)) h

end FirstOccurrences

/-! ### Exploration -/

section Exploration
variable {α : Type} [DecidableEq α] {next : α → List α} {n : Nat} {done queue : List α}

/-- The list holds the successors of each of its values. -/
def Closed (next : α → List α) (l : List α) : Prop := ∀ x ∈ l, ∀ y ∈ next x, y ∈ l

theorem explore_cons (next : α → List α) (n : Nat) (done : List α) (x : α) (queue : List α) :
    explore next (n + 1) done (x :: queue) =
      explore next n (x :: done) (queue ++ newcomers ((x :: done).reverse ++ queue) (next x)) := by
  have same : ((next x).filter fun y => y ∉ x :: done ∧ y ∉ queue) =
      (next x).filter fun y => y ∉ (x :: done).reverse ++ queue := by
    refine List.filter_congr fun y _ => ?_
    simp only [List.mem_append, List.mem_reverse, not_or]
  rw [explore, newcomers, same]

/-- The same step with the values that are done in the order in which they were expanded. -/
theorem explore_concat (next : α → List α) (n : Nat) (done : List α) (x : α) (queue : List α) :
    explore next (n + 1) done.reverse (x :: queue) =
      explore next n (done ++ [x]).reverse (queue ++ newcomers (done ++ x :: queue) (next x)) := by
  have known : (x :: done.reverse).reverse ++ queue = done ++ x :: queue := by simp
  rw [explore_cons, known, List.reverse_concat]

theorem prefix_explore (next : α → List α) (n : Nat) (done queue : List α) :
    done.reverse ++ queue <+: explore next n done queue := by
  induction n generalizing done queue with
  | zero => exact List.prefix_rfl
  | succ n ih =>
    cases queue with
    | nil => simp only [explore, List.append_nil, List.prefix_rfl]
    | cons x queue =>
      rw [explore]
      refine List.IsPrefix.trans ?_ (ih _ _)
      simp only [List.reverse_cons, List.append_assoc, List.cons_append, List.nil_append,
        List.prefix_append_right_inj, List.cons_prefix_cons, true_and, List.prefix_append]

theorem head_explore {x : α} : (explore next n [] [x])[0]? = some x := by
  obtain ⟨rest, h⟩ := prefix_explore next n [] [x]
  rw [← h]
  rfl

theorem mem_explore_of_mem {x : α} (h : x ∈ done.reverse ++ queue) : x ∈ explore next n done queue :=
  (prefix_explore next n done queue).subset h

/-- What holds of the values an exploration begins with and passes to successors holds of all it lists. -/
theorem explore_induction {P : α → Prop} (kept : ∀ x, P x → ∀ y ∈ next x, P y)
    (h : ∀ x ∈ done.reverse ++ queue, P x) : ∀ x ∈ explore next n done queue, P x := by
  induction n generalizing done queue with
  | zero => simpa only [explore] using h
  | succ n ih =>
    cases queue with
    | nil => simpa only [explore, List.append_nil] using h
    | cons x queue =>
      rw [explore]
      refine ih fun y hy => ?_
      simp only [List.reverse_cons, List.append_assoc, List.cons_append, List.nil_append, List.mem_append,
        List.mem_cons] at hy h
      rcases hy with hy | rfl | hy | hy
      · exact h y (Or.inl hy)
      · exact h y (Or.inr (Or.inl rfl))
      · exact h y (Or.inr (Or.inr hy))
      · exact kept x (h x (Or.inr (Or.inl rfl))) y (List.mem_filter.mp (List.mem_eraseDups.mp hy)).1

theorem nodup_explore (h : (done.reverse ++ queue).Nodup) : (explore next n done queue).Nodup := by
  induction n generalizing done queue with
  | zero => simpa only [explore] using h
  | succ n ih =>
    cases queue with
    | nil => simpa only [explore, List.append_nil] using h
    | cons x queue =>
      rw [explore]
      have regroup : (x :: done).reverse ++
          (queue ++ ((next x).filter fun y => y ∉ x :: done ∧ y ∉ queue).eraseDups) =
          done.reverse ++ x :: queue ++ ((next x).filter fun y => y ∉ x :: done ∧ y ∉ queue).eraseDups := by simp
      refine ih (regroup ▸ List.nodup_append.mpr ⟨h, nodup_eraseDups _, fun y hy z hz hyz => ?_⟩)
      subst hyz
      have := List.mem_filter.mp (List.mem_eraseDups.mp hz)
      simp only [List.mem_append, List.mem_reverse, List.mem_cons, decide_eq_true_eq] at hy this
      grind

/-- An exploration that may expand as many values as there are lists a closed list. -/
theorem closed_explore (scope : List α) (bound : ∀ x ∈ explore next n done queue, x ∈ scope)
    (enough : scope.length ≤ n + done.length) (nodup : (done.reverse ++ queue).Nodup)
    (expanded : ∀ x ∈ done, ∀ y ∈ next x, y ∈ done.reverse ++ queue) :
    Closed next (explore next n done queue) := by
  induction n generalizing done queue with
  | zero =>
    -- All of the scope has been expanded, so nothing is left in the queue.
    simp only [explore] at bound ⊢
    have few := nodup.length_le_of_subset bound
    rw [List.length_append, List.length_reverse] at few
    have none : queue = [] := List.length_eq_zero_iff.mp (by omega)
    subst none
    intro x hx y hy
    exact expanded x (by simpa using hx) y hy
  | succ n ih =>
    cases queue with
    | nil =>
      simp only [explore]
      intro x hx y hy
      simpa using expanded x (List.mem_reverse.mp hx) y hy
    | cons x queue =>
      rw [explore] at bound ⊢
      refine ih bound (by rw [List.length_cons]; omega) ?_ fun z hz y hy => ?_
      · have once : (explore next 1 done (x :: queue)).Nodup := nodup_explore nodup
        exact once
      · rcases List.mem_cons.mp hz with rfl | hz
        · simp only [List.mem_append, List.mem_reverse, List.mem_eraseDups, List.mem_filter, decide_eq_true_eq]
          by_cases hd : y ∈ z :: done
          · exact Or.inl hd
          · by_cases hq : y ∈ queue
            · exact Or.inr (Or.inl hq)
            · exact Or.inr (Or.inr ⟨hy, hd, hq⟩)
        · have := expanded z hz y hy
          simp only [List.mem_append, List.mem_reverse, List.mem_cons] at this ⊢
          rcases this with h | rfl | h
          · exact Or.inl (Or.inr h)
          · exact Or.inl (Or.inl rfl)
          · exact Or.inr (Or.inl h)

/-! ### Independence of the number of expansions -/

theorem explore_of_closed (h : Closed next (done.reverse ++ queue)) :
    explore next n done queue = done.reverse ++ queue := by
  induction n generalizing done queue with
  | zero => rfl
  | succ n ih =>
    cases queue with
    | nil => simp [explore]
    | cons x queue =>
      have none : ((next x).filter fun y => decide (y ∉ x :: done ∧ y ∉ queue)) = [] := by
        refine List.filter_eq_nil_iff.mpr fun y hy => ?_
        have := h x (by simp) y hy
        simp only [List.mem_append, List.mem_reverse, List.mem_cons] at this
        simp only [List.mem_cons, decide_eq_true_eq]
        grind
      have regroup : (x :: done).reverse ++ queue = done.reverse ++ x :: queue := by simp
      rw [explore, none, List.eraseDups_nil, List.append_nil, ih (regroup ▸ h), regroup]

theorem explore_add (h : Closed next (explore next n done queue)) (k : Nat) :
    explore next (n + k) done queue = explore next n done queue := by
  induction n generalizing done queue with
  | zero => exact explore_of_closed h
  | succ n ih =>
    rw [Nat.add_right_comm]
    cases queue with
    | nil => simp only [explore]
    | cons x queue =>
      rw [explore] at h
      simp only [explore]
      exact ih h

/-! ### Corresponding explorations -/

/-- Only the first occurrences among successors count. -/
theorem explore_congr {next' : α → List α} {P : α → Prop} (kept : ∀ x, P x → ∀ y ∈ next x, P y)
    (same : ∀ x, P x → (next x).eraseDups = (next' x).eraseDups) (h : ∀ x ∈ queue, P x) :
    explore next n done queue = explore next' n done queue := by
  induction n generalizing done queue with
  | zero => rfl
  | succ n ih =>
    cases queue with
    | nil => rfl
    | cons x queue =>
      have hx := h x List.mem_cons_self
      simp only [explore, filter_eraseDups, same x hx]
      refine ih fun y hy => ?_
      rcases List.mem_append.mp hy with hy | hy
      · exact h y (List.mem_cons_of_mem _ hy)
      · have := (List.mem_filter.mp hy).1
        rw [← same x hx, List.mem_eraseDups] at this
        exact kept x hx y this

/-- Explorations along a one-to-one correspondence that successors keep. -/
theorem forall₂_explore {β : Type} [DecidableEq β] {next' : β → List β} {done' queue' : List β}
    {R : α → β → Prop} (unique : Relator.BiUnique R)
    (kept : ∀ x y, R x y → List.Forall₂ R (next x) (next' y)) (hdone : List.Forall₂ R done done')
    (hqueue : List.Forall₂ R queue queue') :
    List.Forall₂ R (explore next n done queue) (explore next' n done' queue') := by
  induction n generalizing done queue done' queue' with
  | zero =>
    simp only [explore]
    exact List.rel_append (List.rel_reverse hdone) hqueue
  | succ n ih =>
    cases hqueue with
    | nil =>
      simp only [explore]
      exact List.rel_reverse hdone
    | cons hxy hqueue =>
      simp only [explore]
      have known := List.Forall₂.cons hxy hdone
      refine ih known (List.rel_append hqueue (forall₂_eraseDups unique (List.rel_filter (fun a b hab => ?_)
        (kept _ _ hxy))))
      have := List.rel_mem unique hab known
      have := List.rel_mem unique hab hqueue
      simp only [decide_eq_true_eq]
      grind

/-- Explorations that run to their ends correspond whatever number of expansions each of them may take. -/
theorem forall₂_explore_of_closed {β : Type} [DecidableEq β] {next' : β → List β} {R : α → β → Prop} {x : α} {y : β}
    {m : Nat} (unique : Relator.BiUnique R) (kept : ∀ x y, R x y → List.Forall₂ R (next x) (next' y)) (h : R x y)
    (closed : Closed next (explore next n [] [x])) (closed' : Closed next' (explore next' m [] [y])) :
    List.Forall₂ R (explore next n [] [x]) (explore next' m [] [y]) := by
  -- Both may expand as many values as they like: a closed list does not grow.
  rw [← explore_add closed m, ← explore_add closed' n, Nat.add_comm m n]
  exact forall₂_explore unique kept .nil (.cons h .nil)

end Exploration
end FiniteAutomata
