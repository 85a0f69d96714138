import FiniteAutomata.Pairing
import FiniteAutomata.Proofs.Checked
import FiniteAutomata.Proofs.Renaming

/-! The loop over pairs of states. Between any two pairs both maps hold the pairs found so far, and these are one to one
    (`holding`): a target is refused exactly when its pair would break this. The pairs are found in the order of the
    exploration, so the loop ends with nothing left to compare, and it succeeds when the comparison does. What it holds
    then is the bijection and its inverse. -/

namespace FiniteAutomata
namespace Pairing

open Automaton (OneToOne)

variable {fa fb : Automaton} {pairs done queue : List (StateId × StateId)} {p : StateId × StateId} {i j : StateId}
  {n : Nat}

/-! ### Maps -/

theorem mem_of_lookup (h : pairs.lookup i = some j) : (i, j) ∈ pairs := by
  obtain ⟨first, rest, rfl, -⟩ := List.lookup_eq_some_iff.mp h
  exact List.mem_append_right _ List.mem_cons_self

theorem lookup_eq_some (unique : OneToOne pairs) (h : (i, j) ∈ pairs) : pairs.lookup i = some j := by
  have found : (pairs.lookup i).isSome = true := List.lookup_isSome_iff.mpr ⟨(i, j), h, beq_self_eq_true i⟩
  obtain ⟨k, found⟩ := Option.isSome_iff_exists.mp found
  have same : k = j := (unique _ (mem_of_lookup found) _ h).mp rfl
  rw [found, same]

theorem lookup_eq_none_iff : pairs.lookup i = none ↔ ∀ q ∈ pairs, q.1 ≠ i := by
  rw [List.lookup_eq_none_iff]
  simp only [bne_iff_ne, ne_comm]

theorem mem_map_swap : p ∈ pairs.map Prod.swap ↔ p.swap ∈ pairs :=
  List.mem_map_of_involutive Prod.swap_swap

theorem oneToOne_swap (unique : OneToOne pairs) : OneToOne (pairs.map Prod.swap) := fun p hp q hq =>
  (unique p.swap (mem_map_swap.mp hp) q.swap (mem_map_swap.mp hq)).symm

/-- A pair of ids that no other pair has keeps the pairs one to one. -/
theorem oneToOne_concat (unique : OneToOne pairs) (apart : ∀ q ∈ pairs, q.1 ≠ p.1 ∧ q.2 ≠ p.2) :
    OneToOne (pairs ++ [p]) := by
  intro q hq q' hq'
  obtain old | new := List.mem_append.mp hq
  · obtain old' | new' := List.mem_append.mp hq'
    · exact unique q old q' old'
    · obtain rfl := List.mem_singleton.mp new'
      exact iff_of_false (apart q old).1 (apart q old).2
  · obtain rfl := List.mem_singleton.mp new
    obtain old' | new' := List.mem_append.mp hq'
    · exact iff_of_false (apart q' old').1.symm (apart q' old').2.symm
    · obtain rfl := List.mem_singleton.mp new'
      exact iff_of_true rfl rfl

/-! ### Single pairs -/

/-- What the loop holds when it has compared the pairs `done`, latest first. -/
def holding (done queue : List (StateId × StateId)) : Pairing where
  forward := done.reverse ++ queue
  backward := (done.reverse ++ queue).map Prod.swap
  waiting := queue

/-- A pair that is known stays as it is. -/
theorem join_of_mem (unique : OneToOne (done.reverse ++ queue)) (mem : p ∈ done.reverse ++ queue) :
    (holding done queue).join p = some (holding done queue) := by
  have forward : (holding done queue).forward.lookup p.1 = some p.2 := lookup_eq_some unique mem
  have backward : (holding done queue).backward.lookup p.2 = some p.1 :=
    lookup_eq_some (oneToOne_swap unique) (mem_map_swap.mpr mem)
  rw [join, forward, backward]
  exact if_pos ⟨rfl, rfl⟩

/-- A new pair waits. -/
theorem join_of_not_mem (new : p ∉ done.reverse ++ queue) (unique : OneToOne (done.reverse ++ queue ++ [p])) :
    (holding done queue).join p = some (holding done (queue ++ [p])) := by
  have last : p ∈ done.reverse ++ queue ++ [p] := List.mem_append_right _ (List.mem_singleton_self p)
  have clash : ∀ q ∈ done.reverse ++ queue, (q.1 = p.1 ↔ q.2 = p.2) := fun q hq =>
    unique q (List.mem_append_left _ hq) p last
  have forward : (holding done queue).forward.lookup p.1 = none := lookup_eq_none_iff.mpr fun q hq same =>
    new (Prod.ext same ((clash q hq).mp same) ▸ hq)
  have backward : (holding done queue).backward.lookup p.2 = none := lookup_eq_none_iff.mpr fun q hq same => by
    have hq := mem_map_swap.mp hq
    exact new (Prod.ext ((clash _ hq).mpr same) same ▸ hq)
  rw [join, forward, backward]
  simp only [holding, List.append_assoc, List.map_append, List.map_singleton]

/-- A pair with an id that is in another pair is refused. -/
theorem join_of_clash (unique : OneToOne (done.reverse ++ queue)) (clash : ¬OneToOne (done.reverse ++ queue ++ [p])) :
    (holding done queue).join p = none := by
  rw [join]
  split
  · next j i forward backward =>
    refine if_neg fun same => clash (unique.mono ?_)
    have mem : p ∈ done.reverse ++ queue := by
      rw [← Prod.mk.eta (p := p), ← same.1]
      exact mem_of_lookup forward
    exact List.append_subset.mpr ⟨List.Subset.refl _, List.cons_subset.mpr ⟨mem, List.nil_subset _⟩⟩
  · next forward backward =>
    refine absurd (oneToOne_concat unique fun q hq => ⟨?_, ?_⟩) clash
    · exact lookup_eq_none_iff.mp forward q hq
    · exact lookup_eq_none_iff.mp backward q.swap (mem_map_swap.mpr hq)
  · rfl

/-! ### Rounds -/

/-- All pairs of a round are joined, unless they are not one to one. -/
theorem foldlM_join (unique : OneToOne (done.reverse ++ queue)) (more : List (StateId × StateId)) :
    (OneToOne (done.reverse ++ queue ++ more) → more.foldlM join (holding done queue) =
      some (holding done (queue ++ newcomers (done.reverse ++ queue) more))) ∧
    (¬OneToOne (done.reverse ++ queue ++ more) → more.foldlM join (holding done queue) = none) := by
  -- The last pair is joined to what the others have left.
  induction more using List.reverseRecOn with
  | nil =>
    rw [List.append_nil]
    refine ⟨fun _ => ?_, fun clash => absurd unique clash⟩
    rw [newcomers_nil, List.append_nil]
    rfl
  | append_singleton more p ih =>
    have known : ∀ q, q ∈ done.reverse ++ (queue ++ newcomers (done.reverse ++ queue) more) ↔
        q ∈ done.reverse ++ queue ++ more := fun q => by
      rw [← List.append_assoc, mem_append_newcomers]
    have known' : ∀ q, q ∈ done.reverse ++ (queue ++ newcomers (done.reverse ++ queue) more) ++ [p] ↔
        q ∈ done.reverse ++ queue ++ (more ++ [p]) := fun q => by
      rw [List.mem_append, known]
      simp only [List.mem_append, or_assoc]
    rw [List.foldlM_append]
    by_cases before : OneToOne (done.reverse ++ queue ++ more)
    · have unique' := before.mono fun q hq => (known q).mp hq
      rw [ih.1 before]
      show (_ → (join _ p >>= pure) = _) ∧ (_ → (join _ p >>= pure) = _)
      rw [bind_pure]
      refine ⟨fun after => ?_, fun clash => join_of_clash unique' fun after => clash ?_⟩
      · rw [newcomers_concat]
        split
        · next mem => exact join_of_mem unique' ((known p).mpr mem)
        · next new =>
          rw [← List.append_assoc]
          exact join_of_not_mem (fun mem => new ((known p).mp mem)) (after.mono fun q hq => (known' q).mp hq)
      · exact after.mono fun q hq => (known' q).mpr hq
    · rw [ih.2 before]
      refine ⟨fun after => absurd (after.mono ?_) before, fun _ => rfl⟩
      rw [← List.append_assoc]
      exact List.subset_append_left _ _

/-- The steps of two states, which have to be on the same symbols. -/
theorem foldlM_read (w : Pairing) : ∀ l l' : List (Symbol × StateId), l.length = l'.length →
    (l.zip l').foldlM read w = if l.map Prod.fst = l'.map Prod.fst
      then ((l.map Prod.snd).zip (l'.map Prod.snd)).foldlM join w else none := by
  intro l
  induction l generalizing w with
  | nil =>
    intro l' length
    obtain rfl := List.length_eq_zero_iff.mp length.symm
    rfl
  | cons x l ih =>
    intro l' length
    cases l' with
    | nil => cases length
    | cons y l' =>
      have length := Nat.succ.inj length
      rw [List.zip_cons_cons, List.foldlM_cons, read, List.map_cons, List.map_cons, List.map_cons, List.map_cons,
        List.zip_cons_cons, List.foldlM_cons]
      simp only [List.cons.injEq, fun w => ih w l' length]
      by_cases same : x.1 = y.1
      · rw [if_pos same]
        by_cases tails : l.map Prod.fst = l'.map Prod.fst
        · simp only [if_pos tails, if_pos (And.intro same tails)]
        · simp only [if_neg tails, if_neg fun both : _ ∧ _ => tails both.2]
          cases join w (x.2, y.2) <;> rfl
      · rw [if_neg same, if_neg fun both => same both.1]
        rfl

/-- A compatible pair joins the pairs that it forces. -/
theorem expand_stateAt (w : Pairing) (p : StateId × StateId) :
    w.expand (Checked.stateAt fa p.1) (Checked.stateAt fb p.2) =
      if fa.compatible fb p = true then (fa.forcedBy fb p).foldlM join w else none := by
  rw [expand, Checked.accepting_stateAt, Checked.accepting_stateAt, Checked.transitions_stateAt,
    Checked.transitions_stateAt]
  by_cases symbols : (fa.transitions p.1).map Prod.fst = (fb.transitions p.2).map Prod.fst
  · have lengths : (fa.transitions p.1).length = (fb.transitions p.2).length := by
      rw [← List.length_map Prod.fst, symbols, List.length_map]
    have compatible : fa.compatible fb p = true ↔ fa.accepting p.1 = fb.accepting p.2 := by
      simp [Automaton.compatible, symbols]
    simp only [lengths, and_true, foldlM_read w _ _ lengths, if_pos symbols, compatible]
    split
    · next agree => rw [Automaton.forcedBy, if_pos (compatible.mpr agree)]
    · rfl
  · have incompatible : ¬fa.compatible fb p = true := by simp [Automaton.compatible, symbols]
    rw [if_neg incompatible]
    split
    · next given => rw [foldlM_read w _ _ given.2, if_neg symbols]
    · rfl

/-! ### The loop -/

/-- How the loop ends that would list `pairs`: these are one to one, and those that were compared are compatible, or some
    pair is to blame. -/
inductive Ended (fa fb : Automaton) (n : Nat) (done pairs : List (StateId × StateId)) : Option Pairing → Prop where
  | found {done' queue' : List (StateId × StateId)} (listed : done'.reverse ++ queue' = pairs)
      (unique : OneToOne pairs) (compared : ∀ p ∈ done', p ∈ done ∨ fa.compatible fb p = true)
      (rounds : queue' = [] ∨ done'.length = done.length + n) : Ended fa fb n done pairs (some (holding done' queue'))
  | failed (blame : ¬((∀ p ∈ pairs, fa.compatible fb p = true) ∧ OneToOne pairs)) : Ended fa fb n done pairs none

/-- A compatible pair may be compared first. -/
theorem Ended.cons {outcome : Option Pairing} (h : Ended fa fb n (p :: done) pairs outcome)
    (compatible : fa.compatible fb p = true) : Ended fa fb (n + 1) done pairs outcome := by
  cases h with
  | found listed unique compared rounds =>
    refine .found listed unique (fun q hq => ?_) ?_
    · obtain known | agree := compared q hq
      · obtain rfl | known := List.mem_cons.mp known
        · exact Or.inr compatible
        · exact Or.inl known
      · exact Or.inr agree
    · rw [List.length_cons, Nat.add_assoc, Nat.add_comm 1 n] at rounds
      exact rounds
  | failed blame => exact .failed blame

/-- A round ends the loop or goes on to the next. -/
theorem loop_holding_cons (n : Nat) (done queue : List (StateId × StateId)) (exist : p.1 < fa.size ∧ p.2 < fb.size) :
    ((holding (p :: done) queue).expand (Checked.stateAt fa p.1) (Checked.stateAt fb p.2) = none →
      loop fa fb (n + 1) (holding done (p :: queue)) = .ok none) ∧
    ∀ {w}, (holding (p :: done) queue).expand (Checked.stateAt fa p.1) (Checked.stateAt fb p.2) = some w →
      loop fa fb (n + 1) (holding done (p :: queue)) = loop fa fb n w := by
  have begun : { holding done (p :: queue) with waiting := queue } = holding (p :: done) queue := by
    simp only [holding, List.reverse_cons, List.append_assoc, List.singleton_append]
  have waiting : (holding done (p :: queue)).waiting = p :: queue := rfl
  rw [loop, waiting]
  dsimp only
  rw [Checked.bind_eq (Checked.state_eq exist.1), Checked.bind_eq (Checked.state_eq exist.2), begun]
  refine ⟨fun none => ?_, fun some => ?_⟩
  · rw [none]
    rfl
  · rw [some]

/-- The loop lists what the exploration of forced pairs does, as long as no pair is to blame. -/
theorem loop_holding (unique : OneToOne (done.reverse ++ queue))
    (exist : ∀ p ∈ explore (fa.forcedBy fb) n done queue, p.1 < fa.size ∧ p.2 < fb.size) :
    ∃ outcome, loop fa fb n (holding done queue) = .ok outcome ∧
      Ended fa fb n done (explore (fa.forcedBy fb) n done queue) outcome := by
  -- On the number of rounds, each of which compares the first pair that waits.
  induction n generalizing done queue with
  | zero => exact ⟨_, rfl, .found rfl unique (fun p hp => Or.inl hp) (Or.inr rfl)⟩
  | succ n ih =>
    cases queue with
    | nil =>
      rw [List.append_nil] at unique
      exact ⟨_, rfl, .found (List.append_nil _) unique (fun p hp => Or.inl hp) (Or.inl rfl)⟩
    | cons p queue =>
      have here : p ∈ explore (fa.forcedBy fb) (n + 1) done (p :: queue) := mem_explore_of_mem (by simp)
      have regroup : (p :: done).reverse ++ queue = done.reverse ++ p :: queue := by simp
      obtain ⟨stop, go⟩ := loop_holding_cons n done queue (exist p here)
      have next := explore_cons (fa.forcedBy fb) n done p queue
      rw [← regroup] at unique
      obtain ⟨joined, refused⟩ := foldlM_join unique (fa.forcedBy fb p)
      rw [expand_stateAt] at stop go
      by_cases compatible : fa.compatible fb p = true
      · rw [if_pos compatible] at stop go
        by_cases after : OneToOne ((p :: done).reverse ++ queue ++ fa.forcedBy fb p)
        · have unique' : OneToOne ((p :: done).reverse ++
              (queue ++ newcomers ((p :: done).reverse ++ queue) (fa.forcedBy fb p))) := after.mono fun q hq =>
            mem_append_newcomers.mp (List.append_assoc _ _ _ ▸ hq)
          rw [go (joined after)]
          rw [next] at exist ⊢
          obtain ⟨outcome, ran, ended⟩ := ih unique' exist
          exact ⟨outcome, ran, ended.cons compatible⟩
        · refine ⟨none, stop (refused after), .failed fun given => after (given.2.mono fun q hq => ?_)⟩
          rw [next]
          refine mem_explore_of_mem ?_
          rw [← List.append_assoc]
          exact mem_append_newcomers.mpr hq
      · rw [if_neg compatible] at stop
        exact ⟨none, stop rfl, .failed fun given => compatible (given.1 p here)⟩

/-- With as many rounds as there are states to reach the loop succeeds when the forced pairs are compatible and one to one,
    and it holds all of them then, with nothing left to compare. -/
theorem Ended.spec {outcome : Option Pairing} (complete : fa.CompleteFrom fa.start)
    (enough : fa.seen.states.length ≤ n) (h : Ended fa fb n [] (fa.forcedPairs fb n) outcome) :
    (outcome.isSome = true ↔ (∀ p ∈ fa.forcedPairs fb fa.seen.states.length, fa.compatible fb p = true) ∧
      OneToOne (fa.forcedPairs fb fa.seen.states.length)) ∧
    ∀ w ∈ outcome, ∃ done, w = holding done [] ∧ done.reverse = fa.forcedPairs fb fa.seen.states.length := by
  have stable := Automaton.forcedPairs_eq_or fb complete enough
  cases h with
  | @found done' queue' listed unique compared rounds =>
    have final := stable.resolve_right fun clash => clash.1 unique
    have none : queue' = [] := by
      obtain none | all := rounds
      · exact none
      · -- As many pairs have been compared as there can be.
        have few := (Automaton.length_forcedPairs_le complete unique).trans enough
        rw [← listed, List.length_append, List.length_reverse, all, List.length_nil] at few
        exact List.length_eq_zero_iff.mp (by omega)
    subst none
    rw [List.append_nil, final] at listed
    rw [final] at unique
    refine ⟨iff_of_true rfl ⟨fun p hp => ?_, unique⟩, fun w hw => ⟨done', (Option.some.inj hw).symm, listed⟩⟩
    exact (compared p (List.mem_reverse.mp (listed ▸ hp))).resolve_left List.not_mem_nil
  | failed blame =>
    refine ⟨iff_of_false Bool.false_ne_true fun given => ?_, fun w hw => by cases hw⟩
    rw [stable.resolve_right fun clash => clash.2 given.2] at blame
    exact blame given

/-- With as many rounds the loop comes to the same answer as the comparison. -/
theorem build_spec (complete : fa.CompleteFrom fa.start) (complete' : fb.CompleteFrom fb.start)
    (enough : fa.seen.states.length ≤ n) : ∃ outcome, build fa fb n = .ok outcome ∧
      fa.isomorphic fb = .ok outcome.isSome ∧ ∀ w ∈ outcome, ∃ done, w = holding done [] ∧
        done.reverse = fa.forcedPairs fb fa.seen.states.length := by
  obtain ⟨same, answer, iff⟩ := Automaton.isomorphic_eq complete complete'
  have nonempty : ¬(fa.isEmpty || fb.isEmpty) = true := by
    rw [Automaton.isEmpty_eq_false complete.lt, Automaton.isEmpty_eq_false complete'.lt]
    exact Bool.false_ne_true
  rw [build, if_neg nonempty, Checked.bind_eq (Checked.view_eq complete), Checked.bind_eq (Checked.view_eq complete'),
    answer]
  by_cases lengths : fa.seen.states.length = fb.seen.states.length
  · have started : OneToOne [(fa.start, fb.start)] := by simp [OneToOne]
    obtain ⟨outcome, ran, ended⟩ : ∃ outcome, loop fa fb n (first fa fb) = .ok outcome ∧
        Ended fa fb n [] (fa.forcedPairs fb n) outcome :=
      loop_holding started (Checked.exist_of_mem_forcedPairs complete complete')
    obtain ⟨success, holds⟩ := ended.spec complete enough
    rw [and_iff_right lengths, ← success] at iff
    exact ⟨outcome, (if_neg (not_not_intro lengths)).trans ran, congrArg Except.ok (Bool.eq_iff_iff.mpr iff), holds⟩
  · have different : same = false := Bool.eq_false_iff.mpr fun given => lengths (iff.mp given).1
    exact ⟨none, if_pos lengths, congrArg Except.ok different, fun w hw => by cases hw⟩

end Pairing

namespace Automaton

/-- The comparison of two deterministic automata finds out whether a bijection between the states that are reached keeps
    the start, acceptance and the steps. With as many rounds as there are states to reach the loop finds out the same; if
    there is a bijection, nothing is left to compare, and the two maps are one and its inverse. What is not reached makes
    no difference, nor does the order of edges and symbols. -/
theorem isomorphic_eq_true_iff (ha : fa.Comparable) (hb : fb.Comparable) :
    ∃ v same, fa.view = .ok v ∧ fa.isomorphic fb = .ok same ∧ (same = true ↔ ∃ f, fa.Isomorphism fb f) ∧
      (∀ n, v.states.length ≤ n → ∃ outcome, Pairing.build fa fb n = .ok outcome ∧ outcome.isSome = same ∧
        ∀ w ∈ outcome, w.waiting = [] ∧ ∃ f, fa.Isomorphism fb f ∧
          ∀ i, fa.Reachable i → w.forward.lookup i = some (f i) ∧ w.backward.lookup (f i) = some i) ∧
      ∀ fa' fb' : Automaton, fa'.Comparable → fb'.Comparable → fa.SameReached fa' → fb.SameReached fb' →
        fa'.isomorphic fb' = .ok same := by
  obtain ⟨complete, -⟩ := ha.spec
  obtain ⟨complete', -⟩ := hb.spec
  obtain ⟨same, answer, iff⟩ := exists_isomorphic_iff ha hb
  refine ⟨fa.seen, same, view_eq complete, answer, iff, fun n enough => ?_, fun fa' fb' ha' hb' sameA sameB => ?_⟩
  · obtain ⟨outcome, ran, answer', holds⟩ := Pairing.build_spec complete complete' enough
    obtain rfl := Except.ok.inj (answer.symm.trans answer')
    refine ⟨outcome, ran, rfl, fun w hw => ?_⟩
    obtain ⟨done, rfl, listed⟩ := holds w hw
    have found : outcome.isSome = true := Option.isSome_iff_exists.mpr ⟨_, hw⟩
    obtain ⟨unique, f, iso, mem⟩ := exists_isomorphism_of_isomorphic ha hb (found ▸ answer)
    rw [← listed] at unique mem
    refine ⟨rfl, f, iso, fun i hi => ⟨?_, ?_⟩⟩
    · rw [Pairing.holding, List.append_nil]
      exact Pairing.lookup_eq_some unique (mem i hi)
    · rw [Pairing.holding, List.append_nil]
      exact Pairing.lookup_eq_some (Pairing.oneToOne_swap unique) (Pairing.mem_map_swap.mpr (mem i hi))
  · obtain ⟨same', answer', iff'⟩ := exists_isomorphic_iff ha' hb'
    have congr : (∃ f, fa.Isomorphism fb f) ↔ ∃ f, fa'.Isomorphism fb' f :=
      exists_congr fun f => isomorphism_congr ha ha' hb hb' sameA sameB
    rw [answer', Bool.eq_iff_iff.mpr (iff'.trans (congr.symm.trans iff.symm))]

/-- Two states that read the same two characters, and a third that nothing leads to. -/
def switching : Automaton :=
  assembled [(.dfa, false), (.dfa, true), (.dfa, true)]
    [⟨0, 1, .char 'a'⟩, ⟨0, 0, .char 'b'⟩, ⟨1, 0, .char 'a'⟩, ⟨1, 1, .char 'b'⟩, ⟨2, 0, .char 'c'⟩] 0

/-- The same two states, listed the other way round. -/
def switched : Automaton :=
  assembled [(.dfa, true), (.dfa, false)]
    [⟨1, 1, .char 'b'⟩, ⟨0, 1, .char 'a'⟩, ⟨0, 0, .char 'b'⟩, ⟨1, 0, .char 'a'⟩] 1

theorem isomorphic_switching : switching.Comparable ∧ switched.Comparable ∧ (∃ f, switching.Isomorphism switched f) ∧
    ∃ w, Pairing.build switching switched 2 = .ok (some w) ∧ w.waiting = [] ∧ w.forward.lookup 1 = some 0 ∧
      w.backward.lookup 0 = some 1 := by
  have ha : switching.Comparable := ⟨wellFormed_assembled (by decide) (Or.inl (by decide)), rfl, by decide +kernel⟩
  have hb : switched.Comparable := ⟨wellFormed_assembled (by decide) (Or.inl (by decide)), rfl, by decide +kernel⟩
  have answer : switching.isomorphic switched = .ok true := by decide +kernel
  have reached : (switching.view.map fun v => v.states.length) = .ok 2 := by decide +kernel
  have step : switching.Step 0 (.char 'a') 1 := (step_assembled (by decide)).mpr (by decide)
  obtain ⟨v, same, view, compared, iff, loop, -⟩ := isomorphic_eq_true_iff ha hb
  obtain rfl := Except.ok.inj (compared.symm.trans answer)
  rw [view] at reached
  obtain ⟨outcome, ran, found, holds⟩ := loop 2 (Nat.le_of_eq (Except.ok.inj reached))
  obtain ⟨w, rfl⟩ := Option.isSome_iff_exists.mp found
  obtain ⟨none, f, iso, maps⟩ := holds w rfl
  have first : switching.Reachable 0 := ⟨ha.start_lt, .refl 0⟩
  obtain ⟨forward, backward⟩ := maps 1 (first.step step)
  -- The start goes to the start, so its target goes to the target there.
  have start : f 0 = 1 := iso.start
  have image := (iso.step first (first.step step) 'a').mp step
  rw [start, switched, step_assembled (by decide)] at image
  have target : f 1 = 0 := by simpa using image
  rw [target] at forward backward
  exact ⟨ha, hb, iff.mp rfl, w, ran, none, forward, backward⟩

end Automaton
end FiniteAutomata
