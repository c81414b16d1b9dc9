import StepAlgebra.CommandLine.Run
import StepAlgebra.Proofs.CommandLine.SuggestedMode

/-!
# Batches

Without an input among the arguments every line of the standard input is one. A run over all of
them prints what the runs over each of them print, and it succeeds if all of these do. This holds
for any reader of arguments.

* `splitLines_eq_splitOn` — the lines, as the library cuts a row at a separator;
* `Search.runText_cases` — a text is searched exactly if its value fits the mode;
* `output_runLines`, `success_runLines_iff` — what holds after one more line, for all lines;
* `batch_line_by_line` — the whole run.
-/

namespace StepAlgebra

/-! ## One text -/

/-- The text reads as a value that the mode of the search fits. -/
def Search.Accepts (s : Search) (input : String) : Prop :=
  ∃ v, Value.read input = .ok v ∧ s.mode.accepts v = true

theorem Search.runText_cases (s : Search) (input : String) :
    (s.Accepts input ∧ ∃ finding, s.runText input = .ok finding) ∨
      (¬s.Accepts input ∧ ∃ refusal, s.runText input = .error refusal) := by
  unfold runText Accepts
  cases hread : Value.read input with
  | error error =>
      rw [Mode.read_of_unread hread]
      exact .inr ⟨by simp, .unread error, rfl⟩
  | ok v =>
      by_cases fits : s.mode.accepts v = true
      · rw [Mode.read_of_accepts hread fits]
        exact .inl ⟨⟨v, rfl, fits⟩, s.run v, rfl⟩
      · rw [Mode.read_of_not_accepts hread fits]
        exact .inr ⟨by simpa using fits, _, rfl⟩

namespace CommandLine

variable {read : ArgumentReader} {arguments : List String} {a : Arguments} {line : List UInt8}
  {lines : List (List UInt8)} {s : String}

theorem success_runInput_iff (input : String) :
    (runInput a input).success = true ↔ (a.search input).Accepts input := by
  rw [runInput]
  rcases (a.search input).runText_cases input with ⟨accepts, _, found⟩ | ⟨refused, _, failed⟩
  · rw [found]
    exact iff_of_true rfl accepts
  · rw [failed]
    exact iff_of_false Bool.false_ne_true refused

theorem output_runInput_of_not_accepts {input : String} (h : ¬(a.search input).Accepts input) :
    (runInput a input).output = "" := by
  rw [runInput]
  rcases (a.search input).runText_cases input with ⟨accepts, -⟩ | ⟨-, _, failed⟩
  · exact absurd accepts h
  · rw [failed]

/-! ## One line -/

/-- The text of a line that is UTF-8. -/
def lineText? (line : List UInt8) : Option String :=
  String.fromUTF8? ⟨line.toArray⟩

theorem runLine_of_blank (h : Blank.trim s = "") : runLine a s = {} := by
  rw [runLine, h]
  rfl

theorem runLine_of_not_blank (h : Blank.trim s ≠ "") :
    runLine a s = runInput a (Blank.trim s) := by
  rw [runLine]
  exact if_neg (by simpa using h)

theorem success_runLine_iff :
    (runLine a s).success = true ↔
      (Blank.trim s ≠ "" → (a.search (Blank.trim s)).Accepts (Blank.trim s)) := by
  by_cases blank : Blank.trim s = ""
  · rw [runLine_of_blank blank]
    exact iff_of_true rfl fun filled => absurd blank filled
  · rw [runLine_of_not_blank blank, success_runInput_iff]
    exact ⟨fun accepts _ => accepts, fun accepts => accepts blank⟩

theorem output_runLine_of_not_accepts (h : ¬(a.search (Blank.trim s)).Accepts (Blank.trim s)) :
    (runLine a s).output = "" := by
  by_cases blank : Blank.trim s = ""
  · rw [runLine_of_blank blank]
  · rw [runLine_of_not_blank blank, output_runInput_of_not_accepts h]

/-! ## The lines -/

theorem splitLines_eq_splitOn (bytes : List UInt8) : splitLines bytes = bytes.splitOn 10 := by
  induction bytes with
  | nil => rfl
  | cons b bs ih =>
      rw [splitLines, List.splitOn_cons_eq_if_modifyHead, ih]
      by_cases feed : b = 10
      · rw [if_pos feed, if_pos (beq_iff_eq.mpr feed)]
      · rw [if_neg feed, if_neg (mt beq_iff_eq.mp feed)]
        obtain ⟨line, lines, hlines⟩ := List.exists_cons_of_ne_nil (List.splitOn_ne_nil 10 bs)
        rw [hlines]
        rfl

theorem feed_not_mem_of_mem_splitOn {bytes : List UInt8} (h : line ∈ bytes.splitOn 10) :
    10 ∉ line := by
  induction bytes generalizing line with
  | nil =>
      rw [List.mem_singleton.mp h]
      exact List.not_mem_nil
  | cons b bs ih =>
      obtain ⟨first, rest, hlines⟩ := List.exists_cons_of_ne_nil (List.splitOn_ne_nil 10 bs)
      rw [List.splitOn_cons_eq_if_modifyHead, hlines] at h
      rw [hlines] at ih
      by_cases feed : b = 10
      · rw [if_pos (beq_iff_eq.mpr feed)] at h
        rcases List.mem_cons.mp h with rfl | later
        · exact List.not_mem_nil
        · exact ih later
      · rw [if_neg (mt beq_iff_eq.mp feed), List.modifyHead_cons] at h
        rcases List.mem_cons.mp h with rfl | later
        · rw [List.mem_cons, not_or]
          exact ⟨Ne.symm feed, ih List.mem_cons_self⟩
        · exact ih (List.mem_cons_of_mem _ later)

theorem runLines_cons_of_text (h : lineText? line = some s) :
    runLines a (line :: lines) = (runLine a s).append (runLines a lines) := by
  rw [lineText?] at h
  rw [runLines, h]

theorem runLines_cons_of_no_text (h : lineText? line = none) :
    (runLines a (line :: lines)).output = "" ∧ (runLines a (line :: lines)).success = false := by
  rw [lineText?] at h
  rw [runLines, h]
  exact ⟨rfl, rfl⟩

theorem output_runLines_singleton (h : lineText? line = some s) :
    (runLines a [line]).output = (runLine a s).output := by
  rw [runLines_cons_of_text h]
  exact String.append_empty

/-- What the lines print is joined, up to the first that is not UTF-8. -/
theorem output_runLines (lines : List (List UInt8)) :
    (runLines a lines).output =
      String.join ((lines.takeWhile fun line => (lineText? line).isSome).map fun line =>
        (runLines a [line]).output) := by
  induction lines with
  | nil => rfl
  | cons line lines ih =>
      rw [List.takeWhile_cons]
      cases htext : lineText? line with
      | none => exact (runLines_cons_of_no_text htext).1
      | some s =>
          rw [Option.isSome_some, if_pos rfl, List.map_cons, String.join_cons, ← ih,
            output_runLines_singleton htext, runLines_cons_of_text htext]
          rfl

/-- All lines succeed exactly if each is UTF-8 and succeeds on its own. -/
theorem success_runLines_iff (lines : List (List UInt8)) :
    (runLines a lines).success = true ↔
      ∀ line ∈ lines, ∃ s, lineText? line = some s ∧ (runLine a s).success = true := by
  induction lines with
  | nil => exact iff_of_true rfl (List.forall_mem_nil _)
  | cons line lines ih =>
      rw [List.forall_mem_cons, ← ih]
      cases htext : lineText? line with
      | none =>
          rw [(runLines_cons_of_no_text htext).2]
          simp
      | some s =>
          rw [runLines_cons_of_text htext, Transcript.append, Bool.and_eq_true]
          simp

/-- A line that prints nothing may as well be left out. -/
theorem output_runLines_erase (htext : lineText? line = some s)
    (silent : (runLine a s).output = "") (before after : List (List UInt8)) :
    (runLines a (before ++ line :: after)).output = (runLines a (before ++ after)).output := by
  induction before with
  | nil =>
      rw [List.nil_append, runLines_cons_of_text htext, Transcript.append, silent]
      exact String.empty_append
  | cons first before ih =>
      rw [List.cons_append, List.cons_append]
      cases hfirst : lineText? first with
      | none => rw [(runLines_cons_of_no_text hfirst).1, (runLines_cons_of_no_text hfirst).1]
      | some text =>
          rw [runLines_cons_of_text hfirst, runLines_cons_of_text hfirst]
          exact congrArg ((runLine a text).output ++ ·) ih

/-- Lines put together with line feeds print what they do; for no lines, an empty one is read. -/
theorem output_runLines_intercalate (h : ∀ line ∈ lines, 10 ∉ line) :
    (runLines a (List.splitOn 10 ([10].intercalate lines))).output =
      (runLines a lines).output := by
  cases lines with
  | nil => rfl
  | cons line lines => rw [List.splitOn_intercalate 10 h (List.cons_ne_nil _ _)]

/-! ## The run -/

theorem runWith_of_piped (accepted : read arguments = .ok a) (piped : a.input = none)
    (stdin : List UInt8) :
    runWith read arguments stdin =
      (runLines a (stdin.splitOn 10), exitCode (runLines a (stdin.splitOn 10))) := by
  rw [runWith, plan, accepted, ← splitLines_eq_splitOn]
  simp only [piped]

theorem exitCode_eq_zero_iff (t : Transcript) : exitCode t = 0 ↔ t.success = true := by
  rw [exitCode]
  cases t.success <;> decide

/-- What a run prints for the bytes of its standard input. -/
def printed (read : ArgumentReader) (arguments : List String) (stdin : List UInt8) : String :=
  (runWith read arguments stdin).1.output

/-- However arguments are read, where they name no input a run over many lines is the runs over
each of them.

What is printed is what each line alone prints, in order and up to the first that is not UTF-8; a
line alone prints what its text does as an input, without the blanks around it, and nothing if it is
blank. A line that does not read or does not fit the mode prints nothing, and without it the same is
printed. The exit code is zero exactly if every line is UTF-8 and every line that is not blank reads
as a value that the mode fits. -/
theorem batch_line_by_line (accepted : read arguments = .ok a) (piped : a.input = none)
    (stdin : List UInt8) :
    printed read arguments stdin =
        String.join (((stdin.splitOn 10).takeWhile fun line => (lineText? line).isSome).map
          (printed read arguments)) ∧
      (∀ line ∈ stdin.splitOn 10, ∀ s, lineText? line = some s →
        printed read arguments line =
          if Blank.trim s = "" then "" else (runInput a (Blank.trim s)).output) ∧
      (∀ before line after s, stdin.splitOn 10 = before ++ line :: after →
        lineText? line = some s → ¬(a.search (Blank.trim s)).Accepts (Blank.trim s) →
        printed read arguments line = "" ∧
          printed read arguments ([10].intercalate (before ++ after)) =
            printed read arguments stdin) ∧
      ((runWith read arguments stdin).2 = 0 ↔
        ∀ line ∈ stdin.splitOn 10, ∃ s, lineText? line = some s ∧
          (Blank.trim s ≠ "" → (a.search (Blank.trim s)).Accepts (Blank.trim s))) := by
  have all (bytes : List UInt8) :
      printed read arguments bytes = (runLines a (bytes.splitOn 10)).output := by
    rw [printed, runWith_of_piped accepted piped]
  have unfed : ∀ line ∈ stdin.splitOn 10, 10 ∉ line :=
    fun _ => feed_not_mem_of_mem_splitOn
  have alone : ∀ line ∈ stdin.splitOn 10,
      printed read arguments line = (runLines a [line]).output := by
    intro line mem
    rw [all, List.splitOn_eq_singleton (unfed line mem)]
  refine ⟨?joined, ?alone, ?refused, ?code⟩
  case joined =>
    rw [all, output_runLines]
    refine congrArg String.join (List.map_congr_left fun line mem => ?_)
    exact (alone line ((List.takeWhile_sublist _).subset mem)).symm
  case alone =>
    intro line mem s htext
    rw [alone line mem, output_runLines_singleton htext]
    split
    · next blank => rw [runLine_of_blank blank]
    · next filled => rw [runLine_of_not_blank filled]
  case refused =>
    intro before line after s hlines htext refused
    rw [hlines] at unfed alone
    have silent : (runLine a s).output = "" := output_runLine_of_not_accepts refused
    constructor
    · rw [alone line List.mem_append_cons_self, output_runLines_singleton htext, silent]
    · have kept : ∀ line ∈ before ++ after, 10 ∉ line := by
        intro line mem
        refine unfed line ?_
        rcases List.mem_append.mp mem with early | late
        · exact List.mem_append_left _ early
        · exact List.mem_append_right _ (List.mem_cons_of_mem _ late)
      rw [all, all, output_runLines_intercalate kept, hlines, output_runLines_erase htext silent]
  case code =>
    rw [runWith_of_piped accepted piped, exitCode_eq_zero_iff, success_runLines_iff]
    simp only [success_runLine_iff]

/-- Two lines, `x` and a closing parenthesis that does not read. -/
theorem batch_line_by_line_of_parenthesis :
    let arguments := ["-r", "always"]
    let stdin : List UInt8 := [120, 10, 41]
    printed standardReader arguments stdin = printed standardReader arguments [120] ∧
      (run arguments stdin).2 ≠ 0 := by
  intro arguments stdin
  have refused (a : Arguments) : ¬(a.search (Blank.trim ")")).Accepts (Blank.trim ")") := by
    rintro ⟨v, hread, -⟩
    have unread : (Value.read (Blank.trim ")")).isOk = false := by decide +kernel
    rw [hread] at unread
    cases unread
  have closing : lineText? [41] = some ")" := by decide +kernel
  have accepted : standardReader arguments = .ok { rounding := some .always } := rfl
  obtain ⟨-, -, erased, code⟩ := batch_line_by_line accepted rfl stdin
  constructor
  · exact (erased [[120]] [41] [] ")" (by decide +kernel) closing (refused _)).2.symm
  · intro zero
    obtain ⟨s, text, accepts⟩ := code.mp zero [41] (by decide +kernel)
    obtain rfl : ")" = s := Option.some.inj (closing.symm.trans text)
    exact refused _ (accepts (by decide +kernel))

end CommandLine

end StepAlgebra
