import Mathlib.Data.Set.List
import StepAlgebra.Formula.Parser
import StepAlgebra.Proofs.Formula.Grammar
import StepAlgebra.Proofs.Token.LongestMatch

/-!
# How tokens are spelled

The lexeme of a token that was cut from a text has the form that its kind asks for. So the readers
of exponents, powers of ten and indices refuse a token for one reason only, a number that is out of
range.

* `Token.isSpelled_of_mem_scan` — every token of a text is spelled as its kind is;
* `Token.isSome_read?_iff`, `Token.isSome_ofScientificText?_iff`, `Token.isSome_index?_iff` — which
  tokens are read.
-/

namespace StepAlgebra

/-- The rule of its kind matches the lexeme of a token. -/
def Token.IsSpelled (t : Token) : Prop :=
  t.kind ≠ .unknown → t.kind.Matches t.lexeme.toList

/-! ## Rows of digits -/

namespace Lexer

variable {cs : List Char}

theorem IsRow.exists_digits (h : IsRow Digit.isWrittenBy cs) :
    ∃ ds : Digits, cs = ds.map Digit.toChar ∧ ds ≠ [] := by
  have among : cs ∈ Set.range (List.map Digit.toChar) := by
    rw [Set.range_list_map]
    intro c hc
    obtain ⟨d, rfl⟩ := Digit.exists_toChar (h.2 c hc)
    exact ⟨d, rfl⟩
  obtain ⟨ds, rfl⟩ := among
  exact ⟨ds, rfl, fun none => h.1 (by rw [none, List.map_nil])⟩

theorem IsRow.exists_superscripts (h : IsRow Superscript.isDigit cs) :
    ∃ ds : Digits, cs = ds.map Superscript.ofDigit ∧ ds ≠ [] := by
  have among : cs ∈ Set.range (List.map Superscript.ofDigit) := by
    rw [Set.range_list_map]
    intro c hc
    obtain ⟨d, rfl⟩ := Superscript.exists_ofDigit (h.2 c hc)
    exact ⟨d, rfl⟩
  obtain ⟨ds, rfl⟩ := among
  exact ⟨ds, rfl, fun none => h.1 (by rw [none, List.map_nil])⟩

/-- What is read from digits, and perhaps a point and more digits, has digits in both places. -/
theorem digits_of_ofDecimalText {whole places : List Char} (hwhole : IsRow Digit.isWrittenBy whole)
    (hplaces : places = [] ∨ ∃ ds, places = '.' :: ds ∧ IsRow Digit.isWrittenBy ds) :
    (Numeral.ofDecimalText (whole ++ places)).whole ≠ [] ∧
      (Numeral.ofDecimalText (whole ++ places)).places ≠ some [] := by
  obtain ⟨ds, rfl, some⟩ := hwhole.exists_digits
  rcases hplaces with rfl | ⟨row, rfl, hrow⟩
  · have read := Numeral.ofDecimalText_append ⟨ds, none, none⟩
    simp only [Numeral.placesChars] at read
    rw [read]
    exact ⟨some, by simp⟩
  · obtain ⟨es, rfl, some'⟩ := hrow.exists_digits
    have read := Numeral.ofDecimalText_append ⟨ds, .some es, none⟩
    simp only [Numeral.placesChars] at read
    rw [read]
    exact ⟨some, by simpa using some'⟩

/-- Digits and a point are no part of a power of ten. -/
theorem plain_of_mantissa {c : Char} (h : c = '.' ∨ Digit.isWrittenBy c = true) :
    c ≠ '*' ∧ Superscript.digit? c = none := by
  rcases h with rfl | digit
  · decide
  · obtain ⟨d, rfl⟩ := Digit.exists_toChar digit
    revert d
    decide

theorem plain_of_places {whole places : List Char} (hwhole : IsRow Digit.isWrittenBy whole)
    (hplaces : places = [] ∨ ∃ ds, places = '.' :: ds ∧ IsRow Digit.isWrittenBy ds) :
    ∀ c ∈ whole ++ places, c ≠ '*' ∧ Superscript.digit? c = none := by
  intro c hc
  rcases List.mem_append.mp hc with hc | hc
  · exact plain_of_mantissa (.inr (hwhole.2 c hc))
  · rcases hplaces with rfl | ⟨row, rfl, hrow⟩
    · cases hc
    · exact plain_of_mantissa ((List.mem_cons.mp hc).imp_right (hrow.2 c))

end Lexer

namespace Token

open Lexer

variable {t : Token}

/-- Every token of a text is spelled as its kind is. -/
theorem isSpelled_of_mem_scan {offset : Nat} {cs : List Char} (h : t ∈ Lexer.scan offset cs) :
    t.IsSpelled := by
  induction offset, cs using Lexer.scan.induct with
  | case1 offset =>
      rw [Lexer.scan] at h
      cases h
  | case2 offset c cs lexeme stop ih =>
      rw [Lexer.scan] at h
      rcases List.mem_cons.mp h with rfl | h
      · intro known
        rw [String.toList_ofList]
        exact Lexer.matches_piece known
      · exact ih h

theorem IsSpelled.exists_digits (spelled : t.IsSpelled) (kind : t.kind = .integer) :
    ∃ ds : Digits, t.lexeme.toList = ds.map Digit.toChar ∧ ds ≠ [] := by
  rw [IsSpelled, kind] at spelled
  exact (TokenKind.matches_integer.mp (spelled (by decide))).exists_digits

theorem IsSpelled.exists_superscripts (spelled : t.IsSpelled) (kind : t.kind = .superscript) :
    ∃ ds : Digits, t.lexeme.toList = ds.map Superscript.ofDigit ∧ ds ≠ [] := by
  rw [IsSpelled, kind] at spelled
  exact (TokenKind.matches_superscript.mp (spelled (by decide))).exists_superscripts

/-- A name is one letter. -/
theorem IsSpelled.exists_letter (spelled : t.IsSpelled) (kind : t.kind = .name) :
    ∃ c : Char, t.lexeme.toList = [c] ∧ c.isAlpha = true := by
  rw [IsSpelled, kind] at spelled
  obtain ⟨c, hc, hlexeme⟩ := Lexer.mem_oneOf.mp (spelled (by decide))
  exact ⟨c, hlexeme, (Lexer.mem_letters c).mp hc⟩

/-! ## What is read -/

theorem read?_eq (spelled : t.IsSpelled) (kind : t.kind = .superscript) :
    Superscript.read? t.lexeme = Superscript.fit? t.exponent := by
  obtain ⟨ds, hds, some⟩ := spelled.exists_superscripts kind
  have text : t.lexeme = String.ofList (ds.map Superscript.ofDigit) :=
    String.toList_injective (hds.trans String.toList_ofList.symm)
  rw [exponent, hds, Superscript.filterMap_map_ofDigit, text, Superscript.read?_map_ofDigit some]

/-- An exponent is read if it fits. -/
theorem isSome_read?_iff (spelled : t.IsSpelled) (kind : t.kind = .superscript) :
    (Superscript.read? t.lexeme).isSome = true ↔ t.exponent ≤ 4294967295 := by
  rw [read?_eq spelled kind, Superscript.isSome_fit?_iff]
  exact Nat.lt_succ_iff

/-- The exponent that is read is the one that is written. -/
theorem toNat_of_read? (spelled : t.IsSpelled) (kind : t.kind = .superscript) {e : UInt32}
    (h : Superscript.read? t.lexeme = some e) : e.toNat = t.exponent := by
  rw [read?_eq spelled kind] at h
  exact (Superscript.fit?_eq_some_iff.mp h).symm

/-- A power of ten is read if it fits. -/
theorem isSome_power?_iff {sign : List Char} {ds : Digits} (some : ds ≠ [])
    (hsign : sign = [] ∨ sign = ['⁻']) :
    (Numeral.power? (sign ++ ds.map Superscript.ofDigit)).isSome = true ↔
      ds.value ≤ 2147483647 := by
  have size : UInt32.size = 4294967296 := rfl
  have read := Superscript.read?_map_ofDigit some
  rcases hsign with rfl | rfl
  · obtain ⟨d, others, rfl⟩ := List.exists_cons_of_ne_nil some
    rw [List.nil_append, Numeral.power?, read]
    · by_cases fits : Digits.value (d :: others) < UInt32.size
      · simp only [Superscript.fit?_of_lt fits, Bool.false_eq_true, if_false, Option.isSome_ite]
        rw [UInt32.toNat_ofNat_of_lt' fits]
      · simp only [Superscript.fit?_of_le (Nat.le_of_not_lt fits), Option.isSome_none,
          Bool.false_eq_true, false_iff]
        omega
    · intro digits minus
      exact Superscript.ofDigit_ne_minus d (List.cons.inj minus).1
  · simp only [List.singleton_append, Numeral.power?, read]
    by_cases fits : Digits.value ds < UInt32.size
    · simp only [Superscript.fit?_of_lt fits, if_true, Option.isSome_ite]
      rw [UInt32.toNat_ofNat_of_lt' fits]
    · simp only [Superscript.fit?_of_le (Nat.le_of_not_lt fits), Option.isSome_none,
        Bool.false_eq_true, false_iff]
      omega

/-- A number in scientific notation is read if the power of ten fits. -/
theorem isSome_ofScientificText?_iff (spelled : t.IsSpelled) (kind : t.kind = .scientific) :
    (Numeral.ofScientificText? t.lexeme.toList).isSome = true ↔ t.exponent ≤ 2147483647 := by
  rw [IsSpelled, kind] at spelled
  obtain ⟨whole, places, sign, power, hlexeme, hwhole, hplaces, hsign, hpower⟩ :=
    TokenKind.matches_scientific.mp (spelled (by decide))
  obtain ⟨ds, rfl, some⟩ := hpower.exists_superscripts
  rw [← List.append_assoc] at hlexeme
  have plain := plain_of_places hwhole hplaces
  generalize whole ++ places = mantissa at hlexeme plain
  have before : ∀ c ∈ mantissa, decide (c ≠ '*') = true :=
    fun c hc => decide_eq_true (plain c hc).1
  have digits : t.exponent = ds.value := by
    have unraised : mantissa.filterMap Superscript.digit? = [] :=
      List.filterMap_eq_nil_iff.mpr fun c hc => (plain c hc).2
    have unsigned : sign.filterMap Superscript.digit? = [] := by
      rcases hsign with rfl | rfl <;> rfl
    have ten : ['*', '1', '0'].filterMap Superscript.digit? = [] := rfl
    have split : t.lexeme.toList =
        mantissa ++ (['*', '1', '0'] ++ (sign ++ ds.map Superscript.ofDigit)) := hlexeme
    simp only [exponent, split, List.filterMap_append, unraised, unsigned, ten, List.nil_append,
      Superscript.filterMap_map_ofDigit]
  rw [Numeral.ofScientificText?, Option.isSome_map, hlexeme, List.dropWhile_append_of_pos before,
    digits]
  exact isSome_power?_iff some hsign

theorem isCanonical_of_integer (spelled : t.IsSpelled) (kind : t.kind = .integer) :
    (Numeral.ofDecimalText t.lexeme.toList).IsCanonical ∧
      (Numeral.ofDecimalText t.lexeme.toList).isWhole = true := by
  obtain ⟨ds, hds, some⟩ := spelled.exists_digits kind
  have read := Numeral.ofDecimalText_append ⟨ds, none, none⟩
  simp only [Numeral.placesChars, List.append_nil] at read
  rw [hds, read]
  exact ⟨⟨some, by simp, by simp⟩, rfl⟩

theorem isCanonical_of_decimal (spelled : t.IsSpelled) (kind : t.kind = .decimal) :
    (Numeral.ofDecimalText t.lexeme.toList).IsCanonical := by
  rw [IsSpelled, kind] at spelled
  obtain ⟨whole, places, hlexeme, hwhole, hplaces⟩ :=
    TokenKind.matches_decimal.mp (spelled (by decide))
  rw [hlexeme]
  obtain ⟨some, some'⟩ := digits_of_ofDecimalText hwhole (.inr ⟨places, rfl, hplaces⟩)
  exact ⟨some, some', by simp [Numeral.power_ofDecimalText]⟩

theorem isCanonical_of_scientific (spelled : t.IsSpelled) (kind : t.kind = .scientific)
    {n : Numeral} (h : Numeral.ofScientificText? t.lexeme.toList = some n) : n.IsCanonical := by
  have power := Numeral.power_ne_of_ofScientificText? h
  rw [IsSpelled, kind] at spelled
  obtain ⟨whole, places, sign, row, hlexeme, hwhole, hplaces, -⟩ :=
    TokenKind.matches_scientific.mp (spelled (by decide))
  obtain ⟨some, some'⟩ := digits_of_ofDecimalText hwhole hplaces
  have mantissa : t.lexeme.toList.takeWhile (· ≠ '*') = whole ++ places := by
    have before : ∀ c ∈ whole ++ places, decide (c ≠ '*') = true :=
      fun c hc => decide_eq_true (plain_of_places hwhole hplaces c hc).1
    rw [hlexeme, ← List.append_assoc, List.takeWhile_append_of_pos before]
    simp
  obtain ⟨z, -, rfl⟩ := Option.map_eq_some_iff.mp h
  rw [mantissa] at power ⊢
  exact ⟨some, some', power⟩

/-- An index is read if it is two at least and fits. -/
theorem isSome_index?_iff (spelled : t.IsSpelled) (kind : t.kind = .integer) :
    (Cursor.index? t).isSome = true ↔ 2 ≤ t.digitValue ∧ t.digitValue ≤ 4294967295 := by
  obtain ⟨ds, hds, some⟩ := spelled.exists_digits kind
  have text : t.lexeme = ds.text :=
    String.toList_injective (hds.trans (Digits.toList_text ds).symm)
  have size : UInt32.size = 4294967296 := rfl
  rw [digitValue, hds, Digits.ofChars_map_toChar, Cursor.index?, text, Digits.number?_text some]
  simp only [Option.isSome_ite]
  omega

end Token

end StepAlgebra
