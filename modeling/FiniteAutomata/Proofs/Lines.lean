import FiniteAutomata.CommandLine.Contents

/-! Finding the lines of an input. In UTF-8 the bytes of a line feed and of a carriage return stand for nothing else, so
    the lines found among the bytes of a text are the bytes of its lines. Where one input ends with a line feed, the
    lines of another one behind it are found as if it stood alone. -/

namespace FiniteAutomata.Lines

variable {a b c : Char} {text line : List Char} {lines : List (List Char)} {bytes rest current : List UInt8}

/-! ### The bytes of a text -/

@[simp] theorem encode_nil : encode [] = [] := rfl

@[simp] theorem encode_append (s t : List Char) : encode (s ++ t) = encode s ++ encode t := List.flatMap_append

theorem encode_cons : encode (c :: text) = String.utf8EncodeChar c ++ encode text := List.flatMap_cons

@[simp] theorem encode_eq_nil_iff : encode text = [] ↔ text = [] := by
  cases text with
  | nil => simp
  | cons c text => simp [encode_cons, String.utf8EncodeChar_ne_nil]

/-- A line is read as a text when it holds the bytes of that text. -/
theorem decode?_eq_some_iff : decode? bytes = some text ↔ bytes = encode text := by
  have same : ∀ {bytes : List UInt8} {s : String}, s.toByteArray = ⟨bytes.toArray⟩ ↔ bytes = encode s.toList := by
    intro bytes s
    rw [← String.utf8Encode_toList, List.utf8Encode, ByteArray.ext_iff, List.data_toByteArray]
    exact ⟨fun h => (congrArg Array.toList h).symm, fun h => by rw [h]; rfl⟩
  rw [decode?, Option.map_eq_some_iff]
  constructor
  · rintro ⟨s, found, rfl⟩
    rw [String.fromUTF8?] at found
    split at found
    · obtain rfl := Option.some.inj found
      exact same.mp rfl
    · cases found
  · rintro rfl
    refine ⟨String.ofList text, ?_, String.toList_ofList⟩
    have held : (String.ofList text).toByteArray = ⟨(encode text).toArray⟩ := same.mpr (by rw [String.toList_ofList])
    rw [String.fromUTF8?, dif_pos (held ▸ (String.ofList text).isValidUTF8)]
    exact congrArg some (String.toByteArray_inj.mp held.symm)

/-- A byte of a character is its code point, or is above all ASCII. -/
theorem toNat_of_mem_utf8EncodeChar {b : UInt8} (h : b ∈ String.utf8EncodeChar c) :
    b.toNat = c.toNat ∨ 128 ≤ b.toNat := by
  have above : ∀ n, 128 ≤ n → n < 256 → 128 ≤ (UInt8.ofNat n).toNat := fun n low high => by
    rwa [UInt8.toNat_ofNat', Nat.mod_eq_of_lt high]
  have code : c.val.toNat = c.toNat := rfl
  simp only [String.utf8EncodeChar, code] at h
  split at h
  · rw [List.mem_singleton.mp h, UInt8.toNat_ofNat']
    omega
  · refine Or.inr ?_
    split at h
    · simp only [List.mem_cons, List.not_mem_nil, or_false] at h
      rcases h with rfl | rfl <;> exact above _ (by omega) (by omega)
    · split at h
      · simp only [List.mem_cons, List.not_mem_nil, or_false] at h
        rcases h with rfl | rfl | rfl <;> exact above _ (by omega) (by omega)
      · simp only [List.mem_cons, List.not_mem_nil, or_false] at h
        rcases h with rfl | rfl | rfl | rfl <;> exact above _ (by omega) (by omega)

theorem feed_mem_utf8EncodeChar_iff : 10 ∈ String.utf8EncodeChar c ↔ c = '\n' := by
  refine ⟨fun h => ?_, fun h => ?_⟩
  · rcases toNat_of_mem_utf8EncodeChar h with code | above
    · exact Char.toNat_inj.mp code.symm
    · exact absurd above (by decide)
  · subst h
    decide

theorem return_mem_utf8EncodeChar_iff : 13 ∈ String.utf8EncodeChar c ↔ c = '\r' := by
  refine ⟨fun h => ?_, fun h => ?_⟩
  · rcases toNat_of_mem_utf8EncodeChar h with code | above
    · exact Char.toNat_inj.mp code.symm
    · exact absurd above (by decide)
  · subst h
    decide

theorem feed_mem_encode_iff : 10 ∈ encode text ↔ '\n' ∈ text := by
  simp [encode, feed_mem_utf8EncodeChar_iff]

theorem getLast?_encode_eq_return_iff : (encode text).getLast? = some 13 ↔ text.getLast? = some '\r' := by
  rcases List.eq_nil_or_concat text with rfl | ⟨front, c, rfl⟩
  · simp
  · have last : (encode (front ++ [c])).getLast? = (String.utf8EncodeChar c).getLast? := by
      rw [encode_append, encode_cons, encode_nil, List.append_nil, List.getLast?_append,
        List.getLast?_eq_some_getLast String.utf8EncodeChar_ne_nil, Option.some_or]
    rw [List.concat_eq_append, last, List.getLast?_concat, Option.some.injEq]
    refine ⟨fun h => return_mem_utf8EncodeChar_iff.mp (List.mem_of_getLast? h), fun h => ?_⟩
    subst h
    decide

/-! ### The lines among some bytes -/

/-- Bytes without a line feed belong to the line so far. -/
theorem splitFrom_append_of_not_mem (h : 10 ∉ bytes) :
    splitFrom current (bytes ++ rest) = splitFrom (bytes.reverse ++ current) rest := by
  induction bytes generalizing current with
  | nil => rfl
  | cons b bytes ih =>
    rw [List.mem_cons, not_or] at h
    rw [List.cons_append, splitFrom, if_neg (Ne.symm h.1), ih h.2, List.reverse_cons, List.append_assoc]
    rfl

/-- Behind a line feed the lines are found anew. -/
theorem splitFrom_append_of_getLast? (h : bytes.getLast? = some 10) :
    splitFrom current (bytes ++ rest) = splitFrom current bytes ++ split rest := by
  induction bytes generalizing current with
  | nil => cases h
  | cons b bytes ih =>
    rw [List.cons_append, splitFrom, splitFrom]
    by_cases none : bytes = []
    · subst none
      obtain rfl : b = 10 := by simpa using h
      simp [splitFrom, split]
    · have h : bytes.getLast? = some 10 := by rwa [List.getLast?_cons_of_ne_nil none] at h
      split
      · rw [ih h, List.cons_append]
      · exact ih h

theorem Whole.split_append (h : Whole bytes) : split (bytes ++ rest) = split bytes ++ split rest := by
  rcases h with rfl | h
  · rfl
  · exact splitFrom_append_of_getLast? h

/-- One line with its line feed, and what comes behind it. -/
theorem split_append_feed (h : 10 ∉ bytes) : split (bytes ++ 10 :: rest) = ended bytes.reverse :: split rest := by
  rw [split, splitFrom_append_of_not_mem h, List.append_nil, splitFrom, if_pos rfl, split]

theorem split_of_not_mem (h : 10 ∉ bytes) (filled : bytes ≠ []) : split bytes = [bytes] := by
  have whole : splitFrom [] (bytes ++ []) = splitFrom (bytes.reverse ++ []) [] := splitFrom_append_of_not_mem h
  rw [List.append_nil, List.append_nil] at whole
  rw [split, whole, splitFrom]
  simp [filled]

theorem ended_reverse_of_getLast? (h : bytes.getLast? ≠ some 13) : ended bytes.reverse = bytes := by
  rw [← List.head?_reverse] at h
  unfold ended
  split
  · next before heq =>
    rw [heq] at h
    exact absurd rfl h
  · exact List.reverse_reverse bytes

theorem ended_reverse_return : ended (bytes ++ [13]).reverse = bytes := by
  simp [ended]

/-! ### The lines of a text -/

/-- The lines found among the bytes of a text hold the bytes of its lines. -/
theorem Contents.split_encode (h : Contents text lines) : split (encode text) = lines.map encode := by
  induction h with
  | nil => rfl
  | unfinished h filled =>
    exact split_of_not_mem (mt feed_mem_encode_iff.mp h) (mt encode_eq_nil_iff.mp filled)
  | @feed line text lines h bare _ ih =>
    have bytes : encode (line ++ '\n' :: text) = encode line ++ 10 :: encode text := encode_append _ _
    rw [bytes, split_append_feed (mt feed_mem_encode_iff.mp h), ih,
      ended_reverse_of_getLast? (mt getLast?_encode_eq_return_iff.mp bare), List.map_cons]
  | @returnFeed line text lines h _ ih =>
    have bytes : encode (line ++ '\r' :: '\n' :: text) = (encode line ++ [13]) ++ 10 :: encode text := by
      rw [encode_append, List.append_assoc]
      rfl
    have inside : 10 ∉ encode line ++ [13] := by
      simp [feed_mem_encode_iff, h]
    rw [bytes, split_append_feed inside, ih, ended_reverse_return, List.map_cons]

theorem encode_injective {s t : List Char} (h : encode s = encode t) : s = t :=
  Option.some.inj ((decode?_eq_some_iff.mpr rfl).symm.trans (decode?_eq_some_iff.mpr h))

/-- A text falls into lines in one way. -/
theorem Contents.unique {others : List (List Char)} (h : Contents text lines) (h' : Contents text others) :
    others = lines :=
  (List.map_inj_right fun _ _ => encode_injective).mp (h'.split_encode.symm.trans h.split_encode)

theorem exists_contents (text : List Char) : ∃ lines, Contents text lines := by
  by_cases h : '\n' ∈ text
  · obtain ⟨line, rest, split, inside⟩ := List.eq_append_cons_of_mem h
    have shorter : rest.length < text.length := by
      rw [split, List.length_append, List.length_cons]
      omega
    obtain ⟨lines, found⟩ := exists_contents rest
    rw [split]
    by_cases bare : line.getLast? = some '\r'
    · obtain ⟨front, rfl⟩ := List.getLast?_eq_some_iff.mp bare
      have inside : '\n' ∉ front := fun hmem => inside (List.mem_append_left _ hmem)
      rw [List.append_assoc]
      exact ⟨front :: lines, .returnFeed inside found⟩
    · exact ⟨line :: lines, .feed inside bare found⟩
  · by_cases filled : text = []
    · exact ⟨[], filled ▸ .nil⟩
    · exact ⟨[text], .unfinished h filled⟩
termination_by text.length

end FiniteAutomata.Lines
