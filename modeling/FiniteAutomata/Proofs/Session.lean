import FiniteAutomata.CommandLine.Session
import FiniteAutomata.Proofs.Faultless
import FiniteAutomata.Proofs.Lines

/-! A run line by line. Each pattern gets its text or the error of its own, so the reply to a line depends on that line
    alone, and a run over whole lines followed by further input is the one run and then the other. -/

namespace FiniteAutomata
namespace Session

variable {options : Options} {arguments : List String} {pattern : List Char} {text : List Char}
  {fa : Automaton} {lines rest parts : List (List UInt8)}
  {input line first last : List UInt8}

/-! ### One pattern -/

theorem exists_shown (usable : fa.Usable) (options : Options) : ∃ text, shown options fa = .ok text := by
  obtain ⟨m, applied, usable'⟩ := usable.apply options.stage options.strategy
  obtain ⟨letters, -, written⟩ := usable'.faultless.text
  rw [shown, Checked.bind_eq applied, Automaton.render, Checked.bind_eq written]
  exact ⟨_, rfl⟩

theorem exists_checked (usable : fa.Usable) : ∃ line, checked fa = .ok line := by
  obtain ⟨p, -, refined, usableP⟩ := usable.minimize .partition
  obtain ⟨r, -, reversed, usableR⟩ := usable.minimize .reversal
  obtain ⟨same, -, compared⟩ := usableP.faultless.isomorphic r usableR
  rw [checked, Checked.bind_eq refined, Checked.bind_eq reversed, Checked.bind_eq compared]
  exact ⟨_, rfl⟩

/-- A pattern is answered by a text or by its own error, never by a fault. -/
theorem exists_answer (options : Options) (pattern : List Char) :
    (∃ text, answer options pattern = .ok text) ∨ ∃ e, answer options pattern = .error (.pattern e) := by
  rcases Automaton.usable_ofPattern pattern with ⟨e, failed⟩ | ⟨fa, made, usable⟩
  · rw [answer, failed]
    exact Or.inr ⟨e, rfl⟩
  · obtain ⟨text, shown⟩ := exists_shown usable options
    obtain ⟨line, checked⟩ := exists_checked usable
    rw [answer, Checked.bind_eq made, shown, checked]
    cases options.check with
    | true => exact Or.inl ⟨_, rfl⟩
    | false => exact Or.inl ⟨_, rfl⟩

/-! ### Lines -/

theorem replies_append (h : ∀ line ∈ lines, (Lines.decode? line).isSome = true) : replies options (lines ++ rest) =
    ((replies options lines).1 ++ (replies options rest).1, (replies options rest).2) := by
  induction lines with
  | nil => rfl
  | cons line lines ih =>
    obtain ⟨decodable, h⟩ := List.forall_mem_cons.mp h
    obtain ⟨text, decoded⟩ := Option.isSome_iff_exists.mp decodable
    simp only [List.cons_append, replies, decoded, ih h]

theorem replies_finished (options : Options) (h : ∀ line ∈ lines, (Lines.decode? line).isSome = true) :
    (replies options lines).2 = .finished := by
  have whole : replies options (lines ++ []) = _ := replies_append h
  rw [List.append_nil] at whole
  exact congrArg Prod.snd whole

theorem replies_of_decode?_eq_none (options : Options) (h : Lines.decode? line = none) :
    replies options (line :: rest) = ([], .undecodable) := by
  rw [replies, h]

/-! ### Runs -/

theorem command_eq_run (accepted : Options.ofArguments arguments = .ok options) (reading : options.help = false)
    (input : List UInt8) : command arguments input = run options input := by
  simp only [command, ofArguments, accepted, reading, Bool.false_eq_true, if_false]

/-- Behind whole lines that are all UTF-8, a run adds what it writes on its own. -/
theorem run_append (whole : Lines.Whole first) (decodable : Lines.Decodable first) : run options (first ++ last) =
    { run options last with stdout := (run options first).stdout ++ (run options last).stdout } := by
  have finished := replies_finished options decodable
  unfold run
  rw [whole.split_append, replies_append decodable]
  generalize replies options (Lines.split first) = before at finished ⊢
  generalize replies options (Lines.split last) = after
  obtain ⟨texts, _⟩ := before
  obtain ⟨later, ending⟩ := after
  cases finished
  cases ending with
  | finished => simp only [String.join_append]
  | undecodable => simp only [String.join_append]

theorem run_of_decodable (h : Lines.Decodable input) : ∃ text, run options input = { stdout := text } := by
  have finished := replies_finished options h
  unfold run
  generalize replies options (Lines.split input) = found at finished ⊢
  obtain ⟨texts, _⟩ := found
  cases finished
  exact ⟨String.join texts, rfl⟩

/-- A line that is not UTF-8 ends the run at once. -/
theorem run_of_undecodable (found : Lines.split input = line :: rest) (h : Lines.decode? line = none) :
    run options input = { code := 1, stderr := "error: stream did not contain valid UTF-8\n" } := by
  rw [run, found, replies_of_decode?_eq_none options h]
  rfl

theorem run_flatten (h : ∀ part ∈ parts, Lines.Whole part ∧ Lines.Decodable part) :
    run options parts.flatten = { stdout := String.join (parts.map fun part => (run options part).stdout) } := by
  induction parts with
  | nil => rfl
  | cons part parts ih =>
    obtain ⟨⟨whole, decodable⟩, h⟩ := List.forall_mem_cons.mp h
    rw [List.flatten_cons, run_append whole decodable, ih h, List.map_cons, String.join_cons]

/-- The command on whole lines and what follows them writes what it writes on the one and then on the other, and ends as
    it does on the latter. So whole lines may be taken apart anywhere without a change to what any of them is answered;
    a line that is not UTF-8 ends the run behind the answers to all lines before it, and no pattern ends it. -/
theorem command_append (accepted : Options.ofArguments arguments = .ok options) (reading : options.help = false) :
    (∀ first last, Lines.Whole first → Lines.Decodable first → command arguments (first ++ last) =
      { command arguments last with
        stdout := (command arguments first).stdout ++ (command arguments last).stdout }) ∧
    (∀ parts : List (List UInt8), (∀ part ∈ parts, Lines.Whole part ∧ Lines.Decodable part) →
      command arguments parts.flatten =
        { stdout := String.join (parts.map fun part => (command arguments part).stdout) }) ∧
    (∀ first last line rest, Lines.Whole first → Lines.Decodable first →
      Lines.split last = line :: rest → Lines.decode? line = none → command arguments (first ++ last) =
        { code := 1
          stdout := (command arguments first).stdout
          stderr := "error: stream did not contain valid UTF-8\n" }) ∧
    (∀ input, Lines.Decodable input → ∃ text, command arguments input = { stdout := text }) ∧
    ∀ pattern, (∃ text, answer options pattern = .ok text) ∨ ∃ e, answer options pattern = .error (.pattern e) := by
  simp only [command_eq_run accepted reading]
  refine ⟨fun first last whole decodable => run_append whole decodable, fun parts h => run_flatten h,
    fun first last line rest whole decodable found undecodable => ?_, fun input h => run_of_decodable h,
    exists_answer options⟩
  rw [run_append whole decodable, run_of_undecodable found undecodable, String.append_empty]

/-- The lines `(` and `a`, and behind them a line that is not UTF-8. -/
theorem command_append_undecodable :
    Options.ofArguments ["--stage=nfa"] = .ok { stage := .nfa } ∧ Lines.Whole [40, 10, 97, 10] ∧
    Lines.Decodable [40, 10, 97, 10] ∧ Lines.split [255, 10, 98] = [[255], [98]] ∧ Lines.decode? [255] = none ∧
    command ["--stage=nfa"] ([40, 10, 97, 10] ++ [255, 10, 98]) =
      { code := 1
        stdout := "error: unmatched '(' at offset 0\nNFA:\nstart: 0\n  0 ['a'] -> 1;\n  1 (accepting)\n\n"
        stderr := "error: stream did not contain valid UTF-8\n" } := by
  have accepted : Options.ofArguments ["--stage=nfa"] = .ok { stage := .nfa } := rfl
  have whole : Lines.Whole [40, 10, 97, 10] := Or.inr rfl
  have decodable : Lines.Decodable [40, 10, 97, 10] := by unfold Lines.Decodable; decide +kernel
  have undecodable : Lines.decode? [255] = none := by decide +kernel
  have stopped := (command_append accepted rfl).2.2.1 _ [255, 10, 98] [255] [[98]] whole decodable rfl undecodable
  refine ⟨accepted, whole, decodable, rfl, undecodable, stopped.trans ?_⟩
  decide +kernel

/-! ### The patterns of a text -/

theorem patternOf_concat (line : List Char) : Lines.patternOf (line ++ ['\r']) = line := by
  rw [Lines.patternOf, if_pos List.getLast?_concat, List.dropLast_concat]

/-- A line is its own pattern, or has a carriage return behind the pattern. -/
theorem patternOf_cases (line : List Char) :
    (line.getLast? ≠ some '\r' ∧ Lines.patternOf line = line) ∨ line = Lines.patternOf line ++ ['\r'] := by
  by_cases h : line.getLast? = some '\r'
  · obtain ⟨front, rfl⟩ := List.getLast?_eq_some_iff.mp h
    rw [patternOf_concat]
    exact Or.inr rfl
  · exact Or.inl ⟨h, if_neg h⟩

theorem patternOf_eq_self_iff : Lines.patternOf pattern = pattern ↔ pattern.getLast? ≠ some '\r' := by
  refine ⟨fun same bare => ?_, fun h => if_neg h⟩
  obtain ⟨front, rfl⟩ := List.getLast?_eq_some_iff.mp bare
  rw [patternOf_concat] at same
  exact List.cons_ne_nil _ _ (List.self_eq_append_right.mp same)

theorem replies_map_encode (options : Options) (lines : List (List Char)) : replies options (lines.map Lines.encode) =
    (lines.map fun line => reply options (Lines.patternOf line), .finished) := by
  induction lines with
  | nil => rfl
  | cons line lines ih => simp only [List.map_cons, replies, Lines.decode?_eq_some_iff.mpr rfl, ih]

theorem run_encode {lines : List (List Char)} (h : Lines.Contents text lines) : run options (Lines.encode text) =
    { stdout := String.join (lines.map fun line => reply options (Lines.patternOf line)) } := by
  rw [run, h.split_encode, replies_map_encode]

/-- The command answers one pattern for each line of a text, in order. The pattern is the contents of the line, but lacks
    their last character if that is a carriage return. -/
theorem command_contents (accepted : Options.ofArguments arguments = .ok options) (reading : options.help = false)
    (decoded : Lines.decode? input = some text) :
    ∃ contents patterns, Lines.Contents text contents ∧ (∀ others, Lines.Contents text others → others = contents) ∧
      command arguments input = { stdout := String.join (patterns.map (reply options)) } ∧
      List.Forall₂ (fun line pattern =>
        (line.getLast? ≠ some '\r' ∧ pattern = line) ∨ line = pattern ++ ['\r']) contents patterns ∧
      (patterns = contents ↔ ∀ line ∈ contents, line.getLast? ≠ some '\r') := by
  obtain rfl := Lines.decode?_eq_some_iff.mp decoded
  obtain ⟨contents, found⟩ := Lines.exists_contents text
  refine ⟨contents, contents.map Lines.patternOf, found, fun others => found.unique, ?_, ?_, ?_⟩
  · rw [command_eq_run accepted reading, run_encode found, List.map_map]
    rfl
  · rw [List.forall₂_map_right_iff, List.forall₂_same]
    exact fun line _ => patternOf_cases line
  · have same : contents.map Lines.patternOf = contents.map id ↔ ∀ line ∈ contents, Lines.patternOf line = line :=
      List.map_inj_left
    rw [List.map_id] at same
    simp only [same, patternOf_eq_self_iff]

/-- Two lines, of which the first ends with a carriage return and a line feed. -/
theorem command_contents_returning :
    Options.ofArguments ["--stage=nfa"] = .ok { stage := .nfa } ∧
    Lines.decode? [40, 13, 10, 97] = some ['(', '\r', '\n', 'a'] ∧
    Lines.Contents ['(', '\r', '\n', 'a'] [['('], ['a']] ∧
    command ["--stage=nfa"] [40, 13, 10, 97] =
      { stdout := String.join ([['('], ['a']].map (reply { stage := .nfa })) } := by
  have accepted : Options.ofArguments ["--stage=nfa"] = .ok { stage := .nfa } := rfl
  have decoded : Lines.decode? [40, 13, 10, 97] = some ['(', '\r', '\n', 'a'] := by decide +kernel
  have contents : Lines.Contents (['('] ++ '\r' :: '\n' :: ['a']) [['('], ['a']] :=
    .returnFeed (by decide) (.unfinished (by decide) (by decide))
  obtain ⟨lines, patterns, -, only, written, -, same⟩ := command_contents accepted rfl decoded
  obtain rfl := only _ contents
  obtain rfl := same.mpr (by decide)
  exact ⟨accepted, decoded, contents, written⟩

/-- The contents of the only line are one carriage return, yet the pattern that is answered is empty. -/
theorem command_ne_contents :
    Options.ofArguments ["--stage=nfa"] = .ok { stage := .nfa } ∧
    Lines.decode? [13, 13, 10] = some ['\r', '\r', '\n'] ∧ Lines.Contents ['\r', '\r', '\n'] [['\r']] ∧
    command ["--stage=nfa"] [13, 13, 10] ≠ { stdout := String.join ([['\r']].map (reply { stage := .nfa })) } := by
  have contents : Lines.Contents (['\r'] ++ '\r' :: '\n' :: []) [['\r']] := .returnFeed (by decide) .nil
  exact ⟨rfl, by decide +kernel, contents, by decide +kernel⟩

end Session
end FiniteAutomata
