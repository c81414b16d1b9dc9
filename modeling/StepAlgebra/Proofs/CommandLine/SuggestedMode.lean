import StepAlgebra.CommandLine.Arguments
import StepAlgebra.Proofs.Formula.Soundness
import StepAlgebra.Proofs.Step.Grouping
import StepAlgebra.Proofs.Token.LongestMatch

/-!
# The suggested mode fits

Without a mode on the command line one is chosen by looking for an equals sign in the text, long
before the text is read. The reader decides by its grammar. Both see the same: an equals sign is a
token of its own wherever it stands, and only the production for equations takes one.

* `Token.mem_scan_equals_iff` — the characters and the tokens that are equals signs;
* `Grammar.ne_equals_of_derives` — below statements no production derives one;
* `CommandLine.suggested_mode_fits` — what this says about an input without a mode.
-/

namespace StepAlgebra

/-! ## Tokens -/

namespace TokenKind

variable {kind : TokenKind} {cs : List Char}

theorem equals_not_mem_digits (h : Lexer.IsRow Digit.isWrittenBy cs) : '=' ∉ cs :=
  fun mem => absurd (h.2 '=' mem) (by decide)

theorem equals_not_mem_superscripts (h : Lexer.IsRow Superscript.isDigit cs) : '=' ∉ cs :=
  fun mem => absurd (h.2 '=' mem) (by decide)

theorem equals_not_mem_number (h : Matches kind cs)
    (number : kind ∈ [TokenKind.integer, .decimal, .scientific]) : '=' ∉ cs := by
  have digits {row : List Char} (h : Lexer.IsRow Digit.isWrittenBy row) : '=' ∉ row :=
    equals_not_mem_digits h
  simp only [List.mem_cons, List.not_mem_nil, or_false] at number
  rcases number with rfl | rfl | rfl
  · exact digits (matches_integer.mp h)
  · obtain ⟨whole, places, rfl, hwhole, hplaces⟩ := matches_decimal.mp h
    simp [digits hwhole, digits hplaces]
  · obtain ⟨whole, places, sign, power, rfl, hwhole, hplaces, hsign, hpower⟩ :=
      matches_scientific.mp h
    have unplaced : '=' ∉ places := by
      rcases hplaces with rfl | ⟨ds, rfl, hds⟩
      · exact List.not_mem_nil
      · simp [digits hds]
    have unsigned : '=' ∉ sign := by
      rcases hsign with rfl | rfl <;> decide
    simp [digits hwhole, unplaced, unsigned, equals_not_mem_superscripts hpower]

/-- No rule but its own matches a text with an equals sign in it. -/
theorem eq_equals_of_matches (h : Matches kind cs) (mem : '=' ∈ cs) : kind = .equals := by
  obtain ⟨c, cs, rfl⟩ := List.exists_cons_of_ne_nil (List.ne_nil_of_mem mem)
  rcases matches_cases h with ⟨-, row⟩ | ⟨number, -⟩ | ⟨-, row⟩ | ⟨rfl, symbol, -⟩
  · exact absurd (row.2 '=' mem) (by decide)
  · exact absurd mem (equals_not_mem_number h number)
  · exact absurd mem (equals_not_mem_superscripts row)
  · obtain rfl := List.mem_singleton.mp mem
    exact symbol.symm

theorem matches_equals : Matches .equals cs ↔ cs = ['='] := by
  rw [Matches, show TokenKind.rule .equals = Lexer.oneOf "=" from rfl, Lexer.mem_oneOf]
  simp

end TokenKind

namespace Lexer

/-- An equals sign is a piece of its own. -/
theorem mem_piece_equals_iff (c : Char) (cs : List Char) :
    '=' ∈ (piece c cs).lexeme ↔ (piece c cs).kind = .equals := by
  by_cases known : (piece c cs).kind = .unknown
  · obtain ⟨alone, none⟩ := alone_of_unknown known
    rw [known, alone, List.mem_singleton]
    refine ⟨?_, by simp⟩
    rintro rfl
    exact absurd ⟨.equals, ['='], by simp, by simp, TokenKind.matches_equals.mpr rfl⟩ none
  · have matched := matches_piece known
    refine ⟨TokenKind.eq_equals_of_matches matched, fun equals => ?_⟩
    rw [equals] at matched
    rw [TokenKind.matches_equals.mp matched]
    exact List.mem_singleton_self _

theorem mem_scan_equals_iff (offset : Nat) (cs : List Char) :
    '=' ∈ cs ↔ ∃ t ∈ scan offset cs, t.kind = .equals := by
  induction offset, cs using scan.induct with
  | case1 offset => simp [scan_nil]
  | case2 offset c cs lexeme stop ih =>
      rw [scan, ← piece_append c cs, List.mem_append, mem_piece_equals_iff, ih]
      simp only [List.mem_cons, exists_eq_or_imp]
      rfl

end Lexer

/-- A text has an equals sign in it exactly where one of its tokens is one. -/
theorem Token.mem_scan_equals_iff (input : String) :
    '=' ∈ input.toList ↔ ∃ t ∈ (scan input).filter (!·.isBlank), t.kind = .equals := by
  rw [Lexer.mem_scan_equals_iff 0, ← Token.scan]
  refine exists_congr fun t => ?_
  rw [List.mem_filter, and_assoc]
  refine and_congr_right fun _ => ⟨fun equals => ⟨?_, equals⟩, And.right⟩
  rw [isBlank, equals]
  rfl

/-! ## The grammar -/

theorem Token.IsSign.ne_equals {t : Token} (h : t.IsSign) : t.kind ≠ .equals := by
  rcases h with plus | minus
  · rw [plus]
    decide
  · rw [minus]
    decide

/-- Statements aside, no production derives an equals sign. -/
theorem Grammar.ne_equals_of_derives {k : Production} {a : List Token} (h : Derives k a) :
    k ≠ .statement → ∀ t ∈ a, t.kind ≠ .equals := by
  -- by induction on the derivation: the tokens that a rule names itself are all of another kind
  induction h with
  | formula | equation => exact fun other => absurd rfl other
  | noTerms | noFactors => exact fun _ => List.forall_mem_nil _
  | sum _ _ iha ihb | product _ _ iha ihb | juxtaposed _ _ iha ihb =>
      exact fun _ => List.forall_mem_append.mpr ⟨iha (by simp), ihb (by simp)⟩
  | bare _ ih | mixedAtom _ ih | fractionAtom _ ih | numberAtom _ ih | rootAtom _ ih
  | groupAtom _ ih | unsigned _ ih => exact fun _ => ih (by simp)
  | signedSum hsign _ _ iha ihb | term hsign _ _ iha ihb =>
      refine fun _ => List.forall_mem_cons.mpr ⟨hsign.ne_equals, ?_⟩
      exact List.forall_mem_append.mpr ⟨iha (by simp), ihb (by simp)⟩
  | multiplied hkind _ _ iha ihb | indexedRoot hkind _ _ iha ihb =>
      refine fun _ => List.forall_mem_cons.mpr ⟨by simp [hkind], ?_⟩
      exact List.forall_mem_append.mpr ⟨iha (by simp), ihb (by simp)⟩
  | raised _ hkind _ ih =>
      refine fun _ => List.forall_mem_append.mpr ⟨ih (by simp), ?_⟩
      simp [hkind]
  | nameAtom hkind | integer hkind | decimal hkind | scientific hkind => simp [hkind]
  | mixed hinteger _ hdivide _ iha ihb =>
      refine fun _ => List.forall_mem_cons.mpr ⟨by simp [hinteger], ?_⟩
      refine List.forall_mem_append.mpr ⟨iha (by simp), ?_⟩
      exact List.forall_mem_cons.mpr ⟨by simp [hdivide], ihb (by simp)⟩
  | fraction _ hdivide _ iha ihb =>
      refine fun _ => List.forall_mem_append.mpr ⟨iha (by simp), ?_⟩
      exact List.forall_mem_cons.mpr ⟨by simp [hdivide], ihb (by simp)⟩
  | root hradical _ ih =>
      exact fun _ => List.forall_mem_cons.mpr ⟨by simp [hradical], ih (by simp)⟩
  | index hopening hinteger _ _ hclosing => simp [hopening, hinteger, hclosing]
  | group hopening _ hclosing ih | numericGroup hopening _ hclosing ih =>
      refine fun _ => List.forall_mem_cons.mpr ⟨by simp [hopening], ?_⟩
      refine List.forall_mem_append.mpr ⟨ih (by simp), ?_⟩
      simp [hclosing]
  | signed hsign _ ih =>
      exact fun _ => List.forall_mem_cons.mpr ⟨hsign.ne_equals, ih (by simp)⟩

/-- An equation is what is read where one of the tokens is an equals sign. -/
theorem Statement.IsDerived.isEquation_iff {s : Statement} {a : List Token} (h : s.IsDerived a) :
    (Value.ofStatement s).isEquation = true ↔ ∃ t ∈ a, t.kind = .equals := by
  cases s with
  | formula f =>
      constructor
      · intro equation
        cases equation
      · rintro ⟨t, ht, equals⟩
        exact absurd equals (Grammar.ne_equals_of_derives h (by simp) t ht)
  | equation left right place =>
      obtain ⟨left, equals, right, rfl, -, hequals, -⟩ := h
      exact ⟨fun _ => ⟨equals, List.mem_append_cons_self, hequals⟩, fun _ => rfl⟩

/-- What is read is an equation exactly if there is an equals sign in the text. -/
theorem Value.isEquation_iff_of_read {input : String} {v : Value} (h : Value.read input = .ok v) :
    v.isEquation = true ↔ '=' ∈ input.toList := by
  obtain ⟨s, hs, rfl⟩ := map_eq_ok_iff.mp h
  rw [Token.mem_scan_equals_iff]
  exact (Statement.isDerived_of_read hs).1.isEquation_iff

/-! ## Modes -/

namespace Mode

variable {mode : Mode} {input : String} {v : Value} {error : ReadError}

theorem read_of_unread (h : Value.read input = .error error) :
    mode.read input = .error (.unread error) := by
  rw [read, h]

theorem read_of_accepts (h : Value.read input = .ok v) (fits : mode.accepts v = true) :
    mode.read input = .ok v := by
  rw [read, h]
  exact if_pos fits

theorem read_of_not_accepts (h : Value.read input = .ok v) (misfits : ¬mode.accepts v = true) :
    mode.read input =
      .error (.mismatch mode v.isEquation (some ⟨0, input.utf8ByteSize⟩)) := by
  rw [read, h]
  exact if_neg misfits

/-- The mode that a text asks for accepts what is read from it. -/
theorem suggested_accepts (h : Value.read input = .ok v) :
    (suggested input).accepts v = true := by
  have shape := Value.isEquation_iff_of_read h
  unfold suggested accepts
  by_cases equals : '=' ∈ input.toList
  · rw [if_pos (List.contains_iff_mem.mpr equals), shape.mpr equals]
    rfl
  · rw [if_neg (by simpa using equals), Bool.eq_false_iff.mpr fun h => equals (shape.mp h)]
    rfl

end Mode

/-! ## The command line -/

/-- Where no mode is set an input is searched, or it is no statement; its shape is never refused.
For whatever is read is an equation exactly if there is an equals sign in the text. -/
theorem CommandLine.suggested_mode_fits (a : Arguments) (unset : a.mode = none)
    (input : String) :
    ((∃ v, Value.read input = .ok v ∧ (a.search input).mode.read input = .ok v ∧
          (a.search input).runText input = .ok ((a.search input).run v)) ∨
        ∃ error, Value.read input = .error error ∧
          (a.search input).mode.read input = .error (.unread error) ∧
          (a.search input).runText input = .error (.unread error)) ∧
      ∀ v, Value.read input = .ok v → (v.isEquation = true ↔ '=' ∈ input.toList) := by
  refine ⟨?_, fun v => Value.isEquation_iff_of_read⟩
  have mode : (a.search input).mode = Mode.suggested input := by
    rw [Arguments.search, unset]
    rfl
  rw [Search.runText, mode]
  cases hread : Value.read input with
  | ok v =>
      have fits := Mode.read_of_accepts hread (Mode.suggested_accepts hread)
      rw [fits]
      exact .inl ⟨v, rfl, rfl, rfl⟩
  | error error =>
      rw [Mode.read_of_unread hread]
      exact .inr ⟨error, rfl, rfl, rfl⟩

/-- Without a mode an equation is searched; to factor it is refused. -/
theorem CommandLine.suggested_mode_fits_of_equation :
    let input := "4(x+1)=√[3](8)"
    let unset : Arguments := { rounding := some .always }
    let factoring : Arguments := { unset with mode := some .factor }
    (∃ v, (unset.search input).mode.read input = .ok v ∧ v.isEquation = true) ∧
      ((factoring.search input).mode.read input).isOk = false := by
  intro input unset factoring
  refine ⟨?_, by decide +kernel⟩
  obtain ⟨⟨v, hread, hmode, -⟩ | ⟨error, hread, -⟩, shape⟩ := suggested_mode_fits unset rfl input
  · exact ⟨v, hmode, (shape v hread).mpr (by decide)⟩
  · have accepted : (Value.read input).isOk = true := by decide +kernel
    rw [hread] at accepted
    cases accepted

end StepAlgebra
