import FiniteAutomata.Automaton.Render
import FiniteAutomata.Proofs.Checked

/-! The printed form of an automaton is unambiguous. A part of it is known from the text that begins with it, whatever
    other text comes after: a number ends before the first character that is no digit, what stands between quotes ends
    before the first quote that is not escaped, and a list ends where none of its items can begin. So is the whole, and
    no character of a label can be taken for the layout around it. -/

namespace FiniteAutomata

/-- What is shown of the things written is known from any text that begins with it and goes on as `rest` allows, and so
    is where the rest begins. -/
def Legible {α β : Type} (write : α → List Char) (shown : α → β) (rest : List Char → Prop) : Prop :=
  ∀ x y r s, rest r → rest s → write x ++ r = write y ++ s → shown x = shown y ∧ r = s

/-- The text may go on in any way. -/
def Anything (_ : List Char) : Prop := True

/-! ### Lists -/

namespace Legible

variable {α β : Type} {write : α → List Char} {shown : α → β} {item rest : List Char → Prop} {sep : List Char}

/-- Items one after the other. An item may be followed by another one or by the rest, and the rest does not begin as an
    item does. -/
theorem flatMap (h : Legible write shown item) (more : ∀ x r, item (write x ++ r)) (last : ∀ r, rest r → item r)
    (stop : ∀ x r, ¬rest (write x ++ r)) : Legible (List.flatMap write) (List.map shown) rest := by
  have follows : ∀ {r}, rest r → ∀ l : List α, item (l.flatMap write ++ r) := by
    intro r hr l
    cases l with
    | nil => exact last r hr
    | cons x l =>
      rw [List.flatMap_cons, List.append_assoc]
      exact more x _
  intro l
  induction l with
  | nil =>
    intro l' r s hr hs same
    cases l' with
    | nil => exact ⟨rfl, same⟩
    | cons y l' =>
      rw [List.flatMap_nil, List.nil_append, List.flatMap_cons, List.append_assoc] at same
      exact absurd (same ▸ hr) (stop y _)
  | cons x l ih =>
    intro l' r s hr hs same
    cases l' with
    | nil =>
      rw [List.flatMap_nil, List.nil_append, List.flatMap_cons, List.append_assoc] at same
      exact absurd (same ▸ hs) (stop x _)
    | cons y l' =>
      rw [List.flatMap_cons, List.flatMap_cons, List.append_assoc, List.append_assoc] at same
      obtain ⟨first, same⟩ := h x y _ _ (follows hr l) (follows hs l') same
      obtain ⟨others, same⟩ := ih l' r s hr hs same
      exact ⟨by rw [List.map_cons, List.map_cons, first, others], same⟩

theorem intercalate_cons (sep : List Char) (x : α) (l : List α) :
    sep.intercalate ((x :: l).map write) = write x ++ l.flatMap fun y => sep ++ write y := by
  induction l generalizing x with
  | nil => simp
  | cons y l ih =>
    rw [List.map_cons, List.map_cons, List.intercalate_cons_cons, ← List.map_cons, ih, List.flatMap_cons,
      List.append_assoc, List.append_assoc]

/-- Items with a separator between them. -/
theorem intercalate (h : Legible write shown item) (more : ∀ r, item (sep ++ r)) (last : ∀ r, rest r → item r)
    (stop : ∀ x r, ¬rest (write x ++ r)) (stop' : ∀ r, ¬rest (sep ++ r)) :
    Legible (fun l => sep.intercalate (l.map write)) (List.map shown) rest := by
  have items : Legible (fun y => sep ++ write y) shown item := fun x y r s hr hs same =>
    h x y r s hr hs (List.append_cancel_left (by simpa only [List.append_assoc] using same))
  have tails : Legible (List.flatMap fun y => sep ++ write y) (List.map shown) rest := by
    refine items.flatMap (fun x r => ?_) last fun x r => ?_
    · rw [List.append_assoc]
      exact more _
    · rw [List.append_assoc]
      exact stop' _
  have follows : ∀ {r}, rest r → ∀ l : List α, item ((l.flatMap fun y => sep ++ write y) ++ r) := by
    intro r hr l
    cases l with
    | nil => exact last r hr
    | cons y l =>
      rw [List.flatMap_cons, List.append_assoc, List.append_assoc]
      exact more _
  intro l l' r s hr hs same
  dsimp only at same
  cases l with
  | nil =>
    cases l' with
    | nil => exact ⟨rfl, same⟩
    | cons y l' =>
      rw [intercalate_cons, List.append_assoc] at same
      obtain rfl : r = write y ++ _ := same
      exact absurd hr (stop y _)
  | cons x l =>
    cases l' with
    | nil =>
      rw [intercalate_cons, List.append_assoc] at same
      obtain rfl : write x ++ _ = s := same
      exact absurd hs (stop x _)
    | cons y l' =>
      rw [intercalate_cons, intercalate_cons, List.append_assoc, List.append_assoc] at same
      obtain ⟨first, same⟩ := h x y _ _ (follows hr l) (follows hs l') same
      obtain ⟨others, same⟩ := tails l l' r s hr hs same
      exact ⟨by rw [List.map_cons, List.map_cons, first, others], same⟩

end Legible

/-! ### Numbers -/

namespace Text

variable {base n m : Nat} {c d : Char}

/-- A text that does not go on with a digit. -/
def NoDigit (base : Nat) (rest : List Char) : Prop := ∀ c ∈ rest.head?, ∀ d < base, d.digitChar ≠ c

theorem noDigit_cons {rest : List Char} (h : ∀ d < base, d.digitChar ≠ c) : NoDigit base (c :: rest) := by
  intro c' hc
  obtain rfl := Option.some.inj (Option.mem_def.mp hc)
  exact h

theorem exists_digit (two : 1 < base) (h : c ∈ Nat.toDigits base n) : ∃ d < base, d.digitChar = c := by
  induction n using Nat.strongRecOn with
  | ind n ih =>
    rw [Nat.toDigits_eq_if two] at h
    split at h
    · next small => exact ⟨n, small, (List.mem_singleton.mp h).symm⟩
    · next large =>
      rcases List.mem_append.mp h with h | h
      · exact ih (n / base) (Nat.div_lt_self (by omega) two) h
      · exact ⟨n % base, Nat.mod_lt n (by omega), (List.mem_singleton.mp h).symm⟩

theorem digitChar_inj (hn : n < 16) (hm : m < 16) (same : n.digitChar = m.digitChar) : n = m := by
  have all : ∀ i < 16, ∀ j < 16, Nat.digitChar i = Nat.digitChar j → i = j := by decide
  exact all n hn m hm same

/-- The last digit is the remainder, and those before it are the digits of the quotient. -/
theorem toDigits_inj (two : 1 < base) (most : base ≤ 16) (same : Nat.toDigits base n = Nat.toDigits base m) : n = m := by
  induction n using Nat.strongRecOn generalizing m with
  | ind n ih =>
    rw [Nat.toDigits_eq_if two, Nat.toDigits_eq_if two (n := m)] at same
    by_cases small : n < base <;> by_cases small' : m < base
    · rw [if_pos small, if_pos small'] at same
      exact digitChar_inj (by omega) (by omega) (List.singleton_inj.mp same)
    · rw [if_pos small, if_neg small'] at same
      rw [← List.nil_append [n.digitChar]] at same
      exact absurd (List.append_inj' same rfl).1.symm Nat.toDigits_ne_nil
    · rw [if_neg small, if_pos small'] at same
      rw [← List.nil_append [m.digitChar]] at same
      exact absurd (List.append_inj' same rfl).1 Nat.toDigits_ne_nil
    · rw [if_neg small, if_neg small'] at same
      have last : ∀ k, k % base < 16 := fun k => Nat.lt_of_lt_of_le (Nat.mod_lt k (by omega)) most
      obtain ⟨front, back⟩ := List.append_inj' same rfl
      have quotients := ih (n / base) (Nat.div_lt_self (by omega) two) front
      have remainders := digitChar_inj (last n) (last m) (List.singleton_inj.mp back)
      rw [← Nat.div_add_mod n base, ← Nat.div_add_mod m base, quotients, remainders]

/-- Digits end where something else begins. -/
theorem digits_append_inj {u v r s : List Char} (hu : ∀ c ∈ u, ∃ d < base, d.digitChar = c)
    (hv : ∀ c ∈ v, ∃ d < base, d.digitChar = c) (hr : NoDigit base r) (hs : NoDigit base s)
    (same : u ++ r = v ++ s) : u = v ∧ r = s := by
  have clash : ∀ {c x}, (∃ d < base, d.digitChar = c) → ¬NoDigit base (c :: x) := by
    rintro c x ⟨d, hd, digit⟩ none
    exact none c rfl d hd digit
  induction u generalizing v with
  | nil =>
    cases v with
    | nil => exact ⟨rfl, same⟩
    | cons c v =>
      obtain rfl : r = c :: (v ++ s) := same
      exact absurd hr (clash (hv c List.mem_cons_self))
  | cons c u ih =>
    cases v with
    | nil =>
      obtain rfl : c :: (u ++ r) = s := same
      exact absurd hs (clash (hu c List.mem_cons_self))
    | cons d v =>
      obtain ⟨rfl, tails⟩ := List.cons.inj same
      obtain ⟨rfl, rest⟩ := ih (fun c hc => hu c (List.mem_cons_of_mem _ hc)) (fun c hc => hv c (List.mem_cons_of_mem _ hc))
        tails
      exact ⟨rfl, rest⟩

/-- A number ends before the first character that is no digit. -/
theorem legible_toDigits (two : 1 < base) (most : base ≤ 16) : Legible (Nat.toDigits base) id (NoDigit base) := by
  intro n m r s hr hs same
  obtain ⟨digits, rest⟩ := digits_append_inj (fun _ hc => exists_digit two hc) (fun _ hc => exists_digit two hc) hr hs same
  exact ⟨toDigits_inj two most digits, rest⟩

theorem legible_decimal : Legible decimal id (NoDigit 10) := legible_toDigits (by decide) (by decide)

/-! ### Characters -/

/-- The characters with short escapes, each with what follows the backslash. -/
def shortEscapes : List (Char × Char) :=
  [('\x00', '0'), ('\t', 't'), ('\n', 'n'), ('\r', 'r'), ('\'', '\''), ('\\', '\\')]

/-- How a character may be written between the quotes. -/
inductive Escapes (c : Char) : List Char → Prop where
  | short {x : Char} (known : (c, x) ∈ shortEscapes) : Escapes c ['\\', x]
  | codePoint : Escapes c (codePointEscape c)
  | plain (backslash : c ≠ '\\') (quote : c ≠ '\'') : Escapes c [c]

theorem escapes_escaped (c : Char) : Escapes c (escaped c) := by
  rw [escaped]
  split_ifs with zero tab feed return' quote backslash hidden
  · exact .short (by subst zero; decide)
  · exact .short (by subst tab; decide)
  · exact .short (by subst feed; decide)
  · exact .short (by subst return'; decide)
  · exact .short (by subst quote; decide)
  · exact .short (by subst backslash; decide)
  · exact .codePoint
  · exact .plain backslash quote

theorem codePointEscape_append (c : Char) (r : List Char) :
    codePointEscape c ++ r = '\\' :: 'u' :: '{' :: (hexDigits c ++ '}' :: r) := by
  simp [codePointEscape]

/-- An escape is known from its first characters, and only a backslash begins one. -/
theorem Escapes.unique {u v r s : List Char} (hc : Escapes c u) (hd : Escapes d v) (same : u ++ r = v ++ s) :
    c = d ∧ r = s := by
  have other : ∀ {c}, (c, 'u') ∉ shortEscapes := by simp [shortEscapes]
  have once : ∀ p ∈ shortEscapes, ∀ q ∈ shortEscapes, p.2 = q.2 → p.1 = q.1 := by decide
  have closed : ∀ r, NoDigit 16 ('}' :: r) := fun r => noDigit_cons (by decide)
  cases hc with
  | short known =>
    cases hd with
    | short known' =>
      simp only [List.cons_append, List.nil_append, List.cons.injEq, true_and] at same
      exact ⟨once _ known _ known' same.1, same.2⟩
    | codePoint =>
      simp only [codePointEscape_append, List.cons_append, List.cons.injEq, true_and] at same
      exact absurd (same.1 ▸ known) other
    | plain backslash _ => exact absurd (List.cons.inj same).1.symm backslash
  | codePoint =>
    cases hd with
    | short known =>
      simp only [codePointEscape_append, List.cons_append, List.cons.injEq, true_and] at same
      exact absurd (same.1 ▸ known) other
    | codePoint =>
      simp only [codePointEscape_append, List.cons.injEq, true_and] at same
      obtain ⟨number, rest⟩ := legible_toDigits (by decide) (by decide) _ _ _ _ (closed r) (closed s) same
      exact ⟨Char.toNat_inj.mp number, (List.cons.inj rest).2⟩
    | plain backslash _ => exact absurd (List.cons.inj same).1.symm backslash
  | plain backslash _ =>
    cases hd with
    | short _ => exact absurd (List.cons.inj same).1 backslash
    | codePoint => exact absurd (List.cons.inj same).1 backslash
    | plain _ _ => exact List.cons.inj same

theorem legible_quoted : Legible quoted id Anything := by
  intro c d r s _ _ same
  simp only [quoted, List.append_assoc, List.cons_append, List.nil_append, List.cons.injEq, true_and] at same
  obtain ⟨char, rest⟩ := (escapes_escaped c).unique (escapes_escaped d) same
  exact ⟨char, (List.cons.inj rest).2⟩

end Text
end FiniteAutomata
