import FiniteAutomata.Symbol

/-! The set of symbols on an edge, kept as its ascending list. Two labels with the same symbols are equal, and
    every traversal of a label is in the order of symbols. -/

namespace FiniteAutomata

/-- A finite set of symbols. -/
structure Label where
  /-- The symbols in ascending order. -/
  toList : List Symbol := []
  sorted : toList.Pairwise (· < ·) := by simp
  deriving DecidableEq, Repr

namespace Label

instance : EmptyCollection Label := ⟨{}⟩
instance : Inhabited Label := ⟨∅⟩
instance : Membership Symbol Label := ⟨fun l a => a ∈ l.toList⟩

instance (a : Symbol) (l : Label) : Decidable (a ∈ l) := inferInstanceAs (Decidable (a ∈ l.toList))

/-- Adds a symbol to an ascending list, unless it is there. -/
def place (a : Symbol) : List Symbol → List Symbol
  | [] => [a]
  | b :: rest => if a < b then a :: b :: rest else if a = b then b :: rest else b :: place a rest

theorem mem_place {a x : Symbol} (l : List Symbol) : x ∈ place a l ↔ x = a ∨ x ∈ l := by
  induction l with
  | nil => simp [place]
  | cons b rest ih =>
    unfold place
    split
    · simp
    · split
      · next h => subst h; simp
      · simp only [List.mem_cons, ih]
        exact or_left_comm

theorem place_pairwise (a : Symbol) (l : List Symbol) (h : l.Pairwise (· < ·)) :
    (place a l).Pairwise (· < ·) := by
  induction l with
  | nil => simp [place]
  | cons b rest ih =>
    obtain ⟨hb, hrest⟩ := List.pairwise_cons.mp h
    unfold place
    split
    · next hab =>
      refine List.pairwise_cons.mpr ⟨fun x hx => ?_, h⟩
      rcases List.mem_cons.mp hx with rfl | hx
      · exact hab
      · exact Nat.lt_trans hab (hb x hx)
    · next hab =>
      split
      · exact h
      · next hne =>
        refine List.pairwise_cons.mpr ⟨fun x hx => ?_, ih hrest⟩
        rcases (mem_place rest).mp hx with rfl | hx
        · exact ((Symbol.lt_trichotomy x b).resolve_left hab).resolve_left hne
        · exact hb x hx

def insert (l : Label) (a : Symbol) : Label := ⟨place a l.toList, place_pairwise a l.toList l.sorted⟩

def union (l m : Label) : Label := m.toList.foldl insert l

instance : Union Label := ⟨union⟩
instance : Singleton Symbol Label := ⟨insert ∅⟩

/-- The symbols of a list, in any order and with repetitions. -/
def ofList (symbols : List Symbol) : Label := symbols.foldl insert ∅

/-- The characters of the label in ascending order. -/
def chars (l : Label) : List Char := l.toList.filterMap Symbol.char?

/-! ### Membership -/

theorem mem_def {a : Symbol} {l : Label} : a ∈ l ↔ a ∈ l.toList := Iff.rfl

@[simp] theorem mem_toList {a : Symbol} {l : Label} : a ∈ l.toList ↔ a ∈ l := Iff.rfl

@[simp] theorem not_mem_empty (a : Symbol) : a ∉ (∅ : Label) := List.not_mem_nil

@[simp] theorem mem_insert {a x : Symbol} {l : Label} : x ∈ l.insert a ↔ x = a ∨ x ∈ l := mem_place l.toList

@[simp] theorem mem_singleton {a x : Symbol} : x ∈ ({a} : Label) ↔ x = a := by
  show x ∈ (∅ : Label).insert a ↔ x = a
  simp

theorem mem_foldl_insert {x : Symbol} (symbols : List Symbol) (l : Label) :
    x ∈ symbols.foldl insert l ↔ x ∈ l ∨ x ∈ symbols := by
  induction symbols generalizing l with
  | nil => simp
  | cons a symbols ih =>
    rw [List.foldl_cons, ih, mem_insert, List.mem_cons, or_comm (a := x = a), or_assoc]

@[simp] theorem mem_union {x : Symbol} {l m : Label} : x ∈ l ∪ m ↔ x ∈ l ∨ x ∈ m :=
  mem_foldl_insert m.toList l

@[simp] theorem mem_ofList {x : Symbol} {symbols : List Symbol} : x ∈ ofList symbols ↔ x ∈ symbols := by
  simp [ofList, mem_foldl_insert]

@[simp] theorem mem_chars {c : Char} {l : Label} : c ∈ l.chars ↔ Symbol.char c ∈ l := by
  rw [chars, List.mem_filterMap]
  constructor
  · rintro ⟨a, ha, hc⟩
    cases a with
    | epsilon => exact absurd hc (by simp [Symbol.char?])
    | char d =>
      have : d = c := by simpa [Symbol.char?] using hc
      exact this ▸ ha
  · exact fun h => ⟨.char c, h, rfl⟩

@[ext] theorem ext {l m : Label} (h : ∀ a, a ∈ l ↔ a ∈ m) : l = m := by
  obtain ⟨xs, hx⟩ := l
  obtain ⟨ys, hy⟩ := m
  congr 1
  exact eq_of_sorted xs ys hx hy h
where
  eq_of_sorted : ∀ (xs ys : List Symbol), xs.Pairwise (· < ·) → ys.Pairwise (· < ·) →
      (∀ a, a ∈ xs ↔ a ∈ ys) → xs = ys
    | [], [], _, _, _ => rfl
    | [], y :: ys, _, _, h => absurd ((h y).mpr List.mem_cons_self) List.not_mem_nil
    | x :: xs, [], _, _, h => absurd ((h x).mp List.mem_cons_self) List.not_mem_nil
    | x :: xs, y :: ys, hx, hy, h => by
      obtain ⟨hx, hxs⟩ := List.pairwise_cons.mp hx
      obtain ⟨hy, hys⟩ := List.pairwise_cons.mp hy
      have hxy : x = y := by
        rcases List.mem_cons.mp ((h x).mp List.mem_cons_self) with rfl | hx'
        · rfl
        · rcases List.mem_cons.mp ((h y).mpr List.mem_cons_self) with rfl | hy'
          · rfl
          · exact absurd (Nat.lt_trans (hy x hx') (hx y hy')) (Nat.lt_irrefl _)
      subst hxy
      have tails : ∀ a, a ∈ xs ↔ a ∈ ys := fun a => by
        constructor
        · intro ha
          rcases List.mem_cons.mp ((h a).mp (List.mem_cons_of_mem _ ha)) with rfl | ha'
          · exact absurd (hx a ha) (Nat.lt_irrefl _)
          · exact ha'
        · intro ha
          rcases List.mem_cons.mp ((h a).mpr (List.mem_cons_of_mem _ ha)) with rfl | ha'
          · exact absurd (hy a ha) (Nat.lt_irrefl _)
          · exact ha'
      rw [eq_of_sorted xs ys hxs hys tails]

end Label
end FiniteAutomata
