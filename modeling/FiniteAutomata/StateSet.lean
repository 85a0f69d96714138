/-! Finite sets of state ids, held as the bits of one number: `i` is a member when bit `i` is set. Two sets
    with the same members are equal, so a set can stand for a state of a larger automaton. The list of
    members is ascending. -/

namespace FiniteAutomata

/-- The place of a state in its automaton, counted from zero. -/
abbrev StateId := Nat

/-- A finite set of state ids. -/
structure StateSet where
  /-- Bit `i` is set for each member `i`. -/
  bits : Nat := 0
  deriving DecidableEq, Repr

namespace StateSet

instance : EmptyCollection StateSet := ⟨⟨0⟩⟩
instance : Inhabited StateSet := ⟨∅⟩
instance : Membership StateId StateSet := ⟨fun s i => s.bits.testBit i = true⟩

instance (i : StateId) (s : StateSet) : Decidable (i ∈ s) :=
  inferInstanceAs (Decidable (s.bits.testBit i = true))

def insert (s : StateSet) (i : StateId) : StateSet := ⟨s.bits ||| 1 <<< i⟩

def union (s t : StateSet) : StateSet := ⟨s.bits ||| t.bits⟩

/-- The members of the first set that are not in the second. -/
def diff (s t : StateSet) : StateSet := ⟨s.bits ^^^ (s.bits &&& t.bits)⟩

instance : Union StateSet := ⟨union⟩
instance : SDiff StateSet := ⟨diff⟩
instance : Singleton StateId StateSet := ⟨insert ∅⟩

/-- The ids of a list, in any order and with repetitions. -/
def ofList (ids : List StateId) : StateSet := ids.foldl insert ∅

def isEmpty (s : StateSet) : Bool := s.bits == 0

/-- The set bits of a number, highest first; as many as the first argument at most. -/
def descending : Nat → Nat → List StateId
  | 0, _ => []
  | n + 1, bits => if bits = 0 then [] else bits.log2 :: descending n (bits % (1 <<< bits.log2))

/-- The members in ascending order. -/
def toList (s : StateSet) : List StateId := (descending (s.bits.log2 + 1) s.bits).reverse

def size (s : StateSet) : Nat := s.toList.length

/-! ### Membership -/

theorem mem_def {i : StateId} {s : StateSet} : i ∈ s ↔ s.bits.testBit i = true := Iff.rfl

@[ext] theorem ext {s t : StateSet} (h : ∀ i, i ∈ s ↔ i ∈ t) : s = t := by
  obtain ⟨a⟩ := s
  obtain ⟨b⟩ := t
  congr 1
  exact Nat.eq_of_testBit_eq fun i => Bool.eq_iff_iff.mpr (h i)

@[simp] theorem not_mem_empty (i : StateId) : i ∉ (∅ : StateSet) := by
  show ¬ Nat.testBit 0 i = true
  simp

@[simp] theorem mem_insert {i j : StateId} {s : StateSet} : i ∈ s.insert j ↔ i ∈ s ∨ i = j := by
  show (s.bits ||| 1 <<< j).testBit i = true ↔ s.bits.testBit i = true ∨ i = j
  rw [Nat.testBit_or, Nat.one_shiftLeft, Nat.testBit_two_pow, Bool.or_eq_true, decide_eq_true_iff, eq_comm (a := j)]

@[simp] theorem mem_singleton {i j : StateId} : i ∈ ({j} : StateSet) ↔ i = j := by
  show i ∈ (∅ : StateSet).insert j ↔ i = j
  simp

@[simp] theorem mem_union {i : StateId} {s t : StateSet} : i ∈ s ∪ t ↔ i ∈ s ∨ i ∈ t := by
  show (s.bits ||| t.bits).testBit i = true ↔ s.bits.testBit i = true ∨ t.bits.testBit i = true
  rw [Nat.testBit_or, Bool.or_eq_true]

@[simp] theorem mem_diff {i : StateId} {s t : StateSet} : i ∈ s \ t ↔ i ∈ s ∧ i ∉ t := by
  show (s.bits ^^^ (s.bits &&& t.bits)).testBit i = true ↔ s.bits.testBit i = true ∧ ¬ t.bits.testBit i = true
  rw [Nat.testBit_xor, Nat.testBit_and]
  cases s.bits.testBit i <;> cases t.bits.testBit i <;> simp

theorem mem_foldl_insert {i : StateId} (ids : List StateId) (s : StateSet) :
    i ∈ ids.foldl insert s ↔ i ∈ s ∨ i ∈ ids := by
  induction ids generalizing s with
  | nil => simp
  | cons j ids ih => rw [List.foldl_cons, ih, mem_insert, List.mem_cons, or_assoc]

@[simp] theorem mem_ofList {i : StateId} {ids : List StateId} : i ∈ ofList ids ↔ i ∈ ids := by
  simp [ofList, mem_foldl_insert]

@[simp] theorem isEmpty_iff {s : StateSet} : s.isEmpty = true ↔ s = ∅ := by
  obtain ⟨bits⟩ := s
  show (bits == 0) = true ↔ (⟨bits⟩ : StateSet) = ⟨0⟩
  simp

/-! ### The list of members -/

theorem mem_descending {i : StateId} (n bits : Nat) (h : bits < 1 <<< n) :
    i ∈ descending n bits ↔ bits.testBit i = true := by
  rw [Nat.one_shiftLeft] at h
  induction n generalizing bits with
  | zero =>
    have : bits = 0 := by omega
    simp [descending, this]
  | succ n ih =>
    unfold descending
    rw [Nat.one_shiftLeft]
    split
    · next hz => simp [hz]
    · next hz =>
      have hlog : bits.log2 ≤ n := Nat.le_of_lt_succ ((Nat.log2_lt hz).mpr h)
      have hlt : bits % 2 ^ bits.log2 < 2 ^ n :=
        Nat.lt_of_lt_of_le (Nat.mod_lt _ (Nat.two_pow_pos _)) (Nat.pow_le_pow_right (by omega) hlog)
      rw [List.mem_cons, ih _ hlt, Nat.testBit_mod_two_pow, Bool.and_eq_true, decide_eq_true_iff]
      constructor
      · rintro (rfl | ⟨-, hi⟩)
        · exact Nat.testBit_log2 hz
        · exact hi
      · intro hi
        rcases Nat.lt_trichotomy i bits.log2 with hlt | heq | hgt
        · exact Or.inr ⟨hlt, hi⟩
        · exact Or.inl heq
        · have := Nat.ge_two_pow_of_testBit hi
          have := (Nat.log2_lt hz).mp hgt
          omega

theorem descending_pairwise (n bits : Nat) : (descending n bits).Pairwise (· > ·) := by
  induction n generalizing bits with
  | zero => simp [descending]
  | succ n ih =>
    unfold descending
    split
    · simp
    · refine List.pairwise_cons.mpr ⟨fun j hj => ?_, ih _⟩
      refine descending_lt n _ _ (Nat.mod_lt _ ?_) j hj
      exact Nat.one_shiftLeft _ ▸ Nat.two_pow_pos _
where
  descending_lt (n bits k : Nat) (h : bits < 1 <<< k) : ∀ j ∈ descending n bits, j < k := by
    rw [Nat.one_shiftLeft] at h
    induction n generalizing bits with
    | zero => simp [descending]
    | succ n ih =>
      unfold descending
      split
      · simp
      · next hz =>
        intro j hj
        rcases List.mem_cons.mp hj with rfl | hj
        · exact (Nat.log2_lt hz).mpr h
        · refine ih _ (Nat.lt_of_le_of_lt (Nat.mod_le _ _) h) j hj

@[simp] theorem mem_toList {i : StateId} {s : StateSet} : i ∈ s.toList ↔ i ∈ s := by
  rw [toList, List.mem_reverse, mem_descending _ _ (Nat.one_shiftLeft _ ▸ Nat.lt_log2_self), mem_def]

theorem toList_pairwise (s : StateSet) : s.toList.Pairwise (· < ·) :=
  List.pairwise_reverse.mpr (descending_pairwise _ _)

theorem toList_nodup (s : StateSet) : s.toList.Nodup := s.toList_pairwise.imp Nat.ne_of_lt

/-! ### The number of members -/

theorem length_le_of_lt {ids : List StateId} {n : Nat} (nodup : ids.Nodup) (h : ∀ i ∈ ids, i < n) : ids.length ≤ n := by
  have few := nodup.length_le_of_subset fun i hi => List.mem_range.mpr (h i hi)
  rwa [List.length_range] at few

theorem size_le_length {s : StateSet} {ids : List StateId} (h : ∀ i ∈ s, i ∈ ids) : s.size ≤ ids.length :=
  s.toList_nodup.length_le_of_subset fun i hi => h i (mem_toList.mp hi)

theorem length_le_size {s : StateSet} {ids : List StateId} (nodup : ids.Nodup) (h : ∀ i ∈ ids, i ∈ s) :
    ids.length ≤ s.size :=
  nodup.length_le_of_subset fun i hi => mem_toList.mpr (h i hi)

theorem size_le {s : StateSet} {n : Nat} (h : ∀ i ∈ s, i < n) : s.size ≤ n :=
  length_le_of_lt s.toList_nodup fun i hi => h i (mem_toList.mp hi)

theorem size_lt_size {i : StateId} {s t : StateSet} (sub : ∀ j ∈ s, j ∈ t) (hi : i ∈ t) (new : i ∉ s) :
    s.size < t.size := by
  have nodup : (i :: s.toList).Nodup := List.nodup_cons.mpr ⟨fun old => new (mem_toList.mp old), s.toList_nodup⟩
  refine length_le_size nodup fun j hj => ?_
  rcases List.mem_cons.mp hj with rfl | hj
  · exact hi
  · exact sub j (mem_toList.mp hj)

end StateSet
end FiniteAutomata
