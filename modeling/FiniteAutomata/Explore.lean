import FiniteAutomata.StateSet

/-! Breadth-first exploration of what a successor function leads to. The result lists every value found once,
    in the order of discovery, so a value's place in the list can serve as its number. Among state ids the same
    exploration is quicker with the set of those found at hand and a queue in two parts (`exploreIds_eq`). -/

namespace FiniteAutomata

/-- Everything found from `queue`, of which `done`, latest first, has been expanded already. A step expands the
    head of the queue and appends those of its successors that are new, in their order; at most the given
    number of values is expanded, and what is left in the queue then is listed last. -/
def explore {α : Type} [DecidableEq α] (next : α → List α) : Nat → List α → List α → List α
  | 0, done, queue => done.reverse ++ queue
  | _ + 1, done, [] => done.reverse
  | n + 1, done, x :: queue =>
    let fresh := (next x).filter fun y => y ∉ x :: done ∧ y ∉ queue
    explore next n (x :: done) (queue ++ fresh.eraseDups)

/-- Exploration that keeps what each value was expanded to. -/
def exploreWith {α β : Type} [DecidableEq α] (expand : α → β) (next : β → List α) :
    Nat → List (α × β) → List α → List (α × β)
  | 0, done, queue => done.reverse ++ queue.map fun x => (x, expand x)
  | _ + 1, done, [] => done.reverse
  | n + 1, done, x :: queue =>
    let y := expand x
    let known := x :: done.map Prod.fst
    let fresh := (next y).filter fun z => z ∉ known ∧ z ∉ queue
    exploreWith expand next n ((x, y) :: done) (queue ++ fresh.eraseDups)

theorem exploreWith_eq {α β : Type} [DecidableEq α] (expand : α → β) (next : β → List α) (n : Nat)
    (done queue : List α) :
    exploreWith expand next n (done.map fun x => (x, expand x)) queue =
      (explore (fun x => next (expand x)) n done queue).map fun x => (x, expand x) := by
  induction n generalizing done queue with
  | zero => simp [exploreWith, explore]
  | succ n ih =>
    cases queue with
    | nil => simp [exploreWith, explore]
    | cons x queue =>
      have known : (done.map fun x => (x, expand x)).map Prod.fst = done := by
        rw [List.map_map]
        exact List.map_id done
      simp only [exploreWith, explore, known]
      exact ih (x :: done) _

/-- Exploration of state ids. The queue is `front` and then `back`, latest first; `found` holds the ids that are
    done or in the queue. -/
def exploreIds (next : StateId → List StateId) :
    Nat → StateSet → List StateId → List StateId → List StateId → List StateId
  | 0, _, done, front, back => done.reverse ++ (front ++ back.reverse)
  | n + 1, found, done, x :: front, back =>
    let fresh := ((next x).filter fun y => y ∉ found).eraseDups
    exploreIds next n (fresh.foldl StateSet.insert found) (x :: done) front (fresh.reverse ++ back)
  | n + 1, found, done, [], back =>
    match back.reverse with
    | [] => done.reverse
    | x :: front =>
      let fresh := ((next x).filter fun y => y ∉ found).eraseDups
      exploreIds next n (fresh.foldl StateSet.insert found) (x :: done) front fresh.reverse

theorem exploreIds_eq (next : StateId → List StateId) (n : Nat) (found : StateSet)
    (done front back : List StateId) (h : ∀ i, i ∈ found ↔ i ∈ done ∨ i ∈ front ++ back.reverse) :
    exploreIds next n found done front back = explore next n done (front ++ back.reverse) := by
  have expand : ∀ (found : StateSet) (x : StateId) (done queue : List StateId),
      (∀ i, i ∈ found ↔ i ∈ done ∨ i ∈ x :: queue) →
      ((next x).filter fun y => decide (y ∉ found)) =
        ((next x).filter fun y => decide (y ∉ x :: done ∧ y ∉ queue)) ∧
      ∀ (fresh : List StateId) (i : StateId), i ∈ fresh.foldl StateSet.insert found ↔
        i ∈ x :: done ∨ i ∈ queue ++ fresh := by
    intro found x done queue h
    refine ⟨List.filter_congr fun y _ => decide_eq_decide.mpr ?_, fun fresh i => ?_⟩
    · rw [h, List.mem_cons, List.mem_cons]
      grind
    · rw [StateSet.mem_foldl_insert, h]
      simp only [List.mem_cons, List.mem_append]
      grind
  induction n generalizing found done front back with
  | zero => simp only [exploreIds, explore]
  | succ n ih =>
    cases front with
    | cons x front =>
      obtain ⟨fresh, kept⟩ := expand found x done (front ++ back.reverse) h
      simp only [exploreIds, explore, List.cons_append, fresh]
      rw [ih _ _ _ _ fun i => by rw [kept]; simp]
      simp
    | nil =>
      simp only [exploreIds, List.nil_append] at h ⊢
      split
      · next none => simp [none, explore]
      · next x front some =>
        rw [some] at h ⊢
        obtain ⟨fresh, kept⟩ := expand found x done front h
        simp only [explore, fresh]
        rw [ih _ _ _ _ fun i => by rw [kept]; simp]
        simp

/-- The set and all that `next` leads to from it, where at most the given number of ids is expanded. -/
def StateSet.reach (next : StateId → List StateId) (n : Nat) (s : StateSet) : StateSet :=
  StateSet.ofList (exploreIds next n s [] s.toList [])

theorem StateSet.mem_reach {next : StateId → List StateId} {n : Nat} {s : StateSet} {i : StateId} :
    i ∈ s.reach next n ↔ i ∈ explore next n [] s.toList := by
  rw [StateSet.reach, mem_ofList, exploreIds_eq _ _ _ _ _ _ fun i => by simp]
  simp

end FiniteAutomata
