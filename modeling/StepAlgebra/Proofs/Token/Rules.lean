import Mathlib.Computability.RegularExpressions
import StepAlgebra.Proofs.Text.Superscript
import StepAlgebra.Token.Lexer

/-!
# The rules of tokens

Each kind of token has a rule, a regular expression over characters. The rules know nothing of how
a text is cut; here they are only tied to the tests for characters that cutting is done by.

* `TokenKind.rule` — the rules;
* `TokenKind.Matches` — the texts that a rule matches;
* `TokenKind.matches_integer`, `TokenKind.matches_decimal`, `TokenKind.matches_scientific`, … —
  what these texts look like.
-/

namespace StepAlgebra

open RegularExpression

namespace Lexer

/-- One of the characters of a text. -/
def oneOf (s : String) : RegularExpression Char :=
  (s.toList.map char).sum

/-- An expression once or more. -/
def oneOrMore (r : RegularExpression Char) : RegularExpression Char :=
  r * star r

/-- An expression once or not at all. -/
def optional (r : RegularExpression Char) : RegularExpression Char :=
  1 + r

/-- Decimal digits. -/
def digitRow : RegularExpression Char :=
  oneOrMore (oneOf "0123456789")

/-- Superscript digits. -/
def superscriptRow : RegularExpression Char :=
  oneOrMore (oneOf "⁰¹²³⁴⁵⁶⁷⁸⁹")

end Lexer

open Lexer

/-- The rule of a kind of token. Unknown characters have none. -/
def TokenKind.rule : TokenKind → RegularExpression Char
  | .blank => oneOrMore (oneOf " \t\n\r")
  | .equals => oneOf "="
  | .plus => oneOf "+"
  | .minus => oneOf "-−"
  | .times => oneOf "*·×"
  | .divide => oneOf "/"
  | .radical => oneOf "√"
  | .scientific =>
      digitRow * (optional (char '.' * digitRow) *
        (char '*' * (char '1' * (char '0' * (optional (char '⁻') * superscriptRow)))))
  | .decimal => digitRow * (char '.' * digitRow)
  | .integer => digitRow
  | .superscript => superscriptRow
  | .name => oneOf "abcdefghijklmnopqrstuvwxyzABCDEFGHIJKLMNOPQRSTUVWXYZ"
  | .openParen => oneOf "("
  | .closeParen => oneOf ")"
  | .openSquare => oneOf "["
  | .closeSquare => oneOf "]"
  | .unknown => 0

/-- The rule of a kind matches the whole of a text. -/
def TokenKind.Matches (kind : TokenKind) (cs : List Char) : Prop :=
  cs ∈ kind.rule.matches'

example : (TokenKind.rule .scientific).rmatch "3.0*10⁻⁷".toList = true := by decide

namespace Lexer

variable {cs : List Char} {c : Char} {r r' : RegularExpression Char} {p : Char → Bool}

/-- One character or more, all of one sort. -/
def IsRow (p : Char → Bool) (cs : List Char) : Prop :=
  cs ≠ [] ∧ ∀ c ∈ cs, p c = true

theorem IsRow.head {row rest : List Char} (h : IsRow p row) (split : c :: cs = row ++ rest) :
    p c = true := by
  obtain ⟨d, ds, rfl⟩ := List.exists_cons_of_ne_nil h.1
  obtain ⟨rfl, -⟩ := List.cons.inj split
  exact h.2 c List.mem_cons_self

/-! ## What expressions match -/

theorem mem_oneOf {s : String} : cs ∈ (oneOf s).matches' ↔ ∃ c ∈ s.toList, cs = [c] := by
  unfold oneOf
  induction s.toList with
  | nil => simp [matches'_zero]
  | cons c others ih =>
      rw [List.map_cons, List.sum_cons, matches'_add, Language.mem_add, ih, matches'_char]
      simp only [List.mem_cons, exists_eq_or_imp]
      exact Iff.rfl

theorem mem_oneOrMore (h : ∀ cs, cs ∈ r.matches' ↔ ∃ c, p c = true ∧ cs = [c]) :
    cs ∈ (oneOrMore r).matches' ↔ IsRow p cs := by
  rw [oneOrMore, matches'_mul, matches'_star, Language.mem_mul]
  constructor
  · rintro ⟨a, ha, b, hb, rfl⟩
    obtain ⟨c, hc, rfl⟩ := (h a).mp ha
    obtain ⟨rows, rfl, hrows⟩ := Language.mem_kstar.mp hb
    refine ⟨by simp, List.forall_mem_cons.mpr ⟨hc, ?_⟩⟩
    intro d hd
    obtain ⟨row, hrow, hd⟩ := List.mem_flatten.mp hd
    obtain ⟨d', hd', rfl⟩ := (h row).mp (hrows row hrow)
    rwa [List.mem_singleton.mp hd]
  · rintro ⟨some, all⟩
    obtain ⟨c, cs, rfl⟩ := List.exists_cons_of_ne_nil some
    obtain ⟨hc, hcs⟩ := List.forall_mem_cons.mp all
    refine ⟨[c], (h [c]).mpr ⟨c, hc, rfl⟩, cs, Language.mem_kstar.mpr ?_, rfl⟩
    refine ⟨cs.map fun d => [d], by rw [← List.flatMap_def, List.flatMap_singleton'], ?_⟩
    intro row hrow
    obtain ⟨d, hd, rfl⟩ := List.mem_map.mp hrow
    exact (h [d]).mpr ⟨d, hcs d hd, rfl⟩

/-- A row of the characters of a text, told by a test for these characters. -/
theorem mem_oneOrMore_oneOf {s : String} (h : ∀ c, c ∈ s.toList ↔ p c = true) :
    cs ∈ (oneOrMore (oneOf s)).matches' ↔ IsRow p cs := by
  refine mem_oneOrMore fun cs => ?_
  rw [mem_oneOf]
  exact exists_congr fun c => and_congr_left' (h c)

theorem mem_char : cs ∈ (char c).matches' ↔ cs = [c] :=
  Iff.rfl

theorem mem_optional : cs ∈ (optional r).matches' ↔ cs = [] ∨ cs ∈ r.matches' := by
  rw [optional, matches'_add, Language.mem_add, matches'_epsilon, Language.mem_one]

theorem mem_mul : cs ∈ (r * r').matches' ↔
    ∃ a b, cs = a ++ b ∧ a ∈ r.matches' ∧ b ∈ r'.matches' := by
  rw [matches'_mul, Language.mem_mul]
  constructor
  · rintro ⟨a, ha, b, hb, rfl⟩
    exact ⟨a, b, rfl, ha, hb⟩
  · rintro ⟨a, b, rfl, ha, hb⟩
    exact ⟨a, ha, b, hb, rfl⟩

/-! ## Sorts of characters -/

theorem mem_blanks (c : Char) : c ∈ " \t\n\r".toList ↔ isBlank c = true := by
  simp [isBlank, or_assoc]

theorem mem_digits (c : Char) : c ∈ "0123456789".toList ↔ Digit.isWrittenBy c = true := by
  constructor
  · revert c
    exact List.forall_iff_forall_mem.mp (by decide)
  · intro h
    obtain ⟨d, rfl⟩ := Digit.exists_toChar h
    revert d
    decide

theorem mem_superscripts (c : Char) :
    c ∈ "⁰¹²³⁴⁵⁶⁷⁸⁹".toList ↔ Superscript.isDigit c = true := by
  constructor
  · revert c
    exact List.forall_iff_forall_mem.mp (by decide)
  · intro h
    obtain ⟨d, rfl⟩ := Superscript.exists_ofDigit h
    revert d
    decide

theorem mem_letters (c : Char) :
    c ∈ "abcdefghijklmnopqrstuvwxyzABCDEFGHIJKLMNOPQRSTUVWXYZ".toList ↔ isLetter c = true := by
  constructor
  · revert c
    exact List.forall_iff_forall_mem.mp (by decide)
  · intro h
    have among : ∀ n < 128, isLetter (Char.ofNat n) = true →
        Char.ofNat n ∈ "abcdefghijklmnopqrstuvwxyzABCDEFGHIJKLMNOPQRSTUVWXYZ".toList := by
      decide
    have ascii : c.toNat < 128 := by
      have upTo : ∀ last : Char, last.toNat < 128 → c.val ≤ last.val → c.toNat < 128 :=
        fun _ ascii low => Nat.lt_of_le_of_lt (UInt32.le_iff_toNat_le.mp low) ascii
      rcases Bool.or_eq_true_iff.mp h with upper | lower
      · exact upTo 'Z' (by decide) (of_decide_eq_true upper).2
      · exact upTo 'z' (by decide) (of_decide_eq_true (Bool.and_eq_true_iff.mp lower).2)
    have listed := among c.toNat ascii
    rw [Char.ofNat_toNat] at listed
    exact listed h

theorem mem_digitRow : cs ∈ digitRow.matches' ↔ IsRow Digit.isWrittenBy cs :=
  mem_oneOrMore_oneOf mem_digits

theorem mem_superscriptRow : cs ∈ superscriptRow.matches' ↔ IsRow Superscript.isDigit cs :=
  mem_oneOrMore_oneOf mem_superscripts

end Lexer

/-! ## What the rules match -/

namespace TokenKind

variable {cs : List Char}

theorem matches_blank : Matches .blank cs ↔ IsRow isBlank cs :=
  mem_oneOrMore_oneOf mem_blanks

theorem matches_superscript : Matches .superscript cs ↔ IsRow Superscript.isDigit cs :=
  mem_superscriptRow

theorem matches_integer : Matches .integer cs ↔ IsRow Digit.isWrittenBy cs :=
  mem_digitRow

theorem matches_decimal : Matches .decimal cs ↔
    ∃ whole places, cs = whole ++ '.' :: places ∧ IsRow Digit.isWrittenBy whole ∧
      IsRow Digit.isWrittenBy places := by
  show cs ∈ (digitRow * (char '.' * digitRow)).matches' ↔ _
  simp only [mem_mul, mem_char, mem_digitRow]
  constructor
  · rintro ⟨whole, _, rfl, hwhole, _, places, rfl, rfl, hplaces⟩
    exact ⟨whole, places, rfl, hwhole, hplaces⟩
  · rintro ⟨whole, places, rfl, hwhole, hplaces⟩
    exact ⟨whole, _, rfl, hwhole, _, places, rfl, rfl, hplaces⟩

theorem matches_scientific : Matches .scientific cs ↔
    ∃ whole places sign power,
      cs = whole ++ (places ++ '*' :: '1' :: '0' :: (sign ++ power)) ∧
        IsRow Digit.isWrittenBy whole ∧
        (places = [] ∨ ∃ ds, places = '.' :: ds ∧ IsRow Digit.isWrittenBy ds) ∧
        (sign = [] ∨ sign = ['⁻']) ∧ IsRow Superscript.isDigit power := by
  show cs ∈ (digitRow * (optional (char '.' * digitRow) * (char '*' * (char '1' * (char '0' *
    (optional (char '⁻') * superscriptRow)))))).matches' ↔ _
  simp only [mem_mul, mem_char, mem_optional, mem_digitRow, mem_superscriptRow]
  constructor
  · rintro ⟨whole, _, rfl, hwhole, places, _, rfl, hplaces, _, _, rfl, rfl, _, _, rfl, rfl, _, _,
      rfl, rfl, sign, power, rfl, hsign, hpower⟩
    refine ⟨whole, places, sign, power, rfl, hwhole, ?_, hsign, hpower⟩
    refine hplaces.imp_right ?_
    rintro ⟨_, ds, rfl, rfl, hds⟩
    exact ⟨ds, rfl, hds⟩
  · rintro ⟨whole, places, sign, power, rfl, hwhole, hplaces, hsign, hpower⟩
    refine ⟨whole, _, rfl, hwhole, places, _, rfl, ?_, _, _, rfl, rfl, _, _, rfl, rfl, _, _, rfl,
      rfl, sign, power, rfl, hsign, hpower⟩
    refine hplaces.imp_right ?_
    rintro ⟨ds, rfl, hds⟩
    exact ⟨_, ds, rfl, rfl, hds⟩

/-! Rules for single characters -/

section

variable {c : Char} {s : String} {kind : TokenKind}

theorem matches_of_mem (rule : kind.rule = oneOf s) (h : c ∈ s.toList) : Matches kind [c] := by
  rw [Matches, rule]
  exact mem_oneOf.mpr ⟨c, h, rfl⟩

theorem matches_oneOf (rule : kind.rule = oneOf s)
    (all : s.toList.all (symbolKind · == kind) = true) (h : Matches kind (c :: cs)) :
    cs = [] ∧ symbolKind c = kind := by
  rw [Matches, rule] at h
  obtain ⟨d, hd, split⟩ := mem_oneOf.mp h
  obtain ⟨rfl, rfl⟩ := List.cons.inj split
  exact ⟨rfl, beq_iff_eq.mp (List.all_eq_true.mp all c hd)⟩

/-- What a rule matches is a row of blanks, a number, a row of superscript digits, or a character on
its own. -/
theorem matches_cases (h : Matches kind (c :: cs)) :
    kind = .blank ∧ IsRow isBlank (c :: cs) ∨
      kind ∈ [TokenKind.integer, .decimal, .scientific] ∧ Digit.isWrittenBy c = true ∨
      kind = .superscript ∧ IsRow Superscript.isDigit (c :: cs) ∨
      cs = [] ∧ symbolKind c = kind ∧ kind ≠ .unknown := by
  cases kind with
  | blank => exact .inl ⟨rfl, matches_blank.mp h⟩
  | superscript => exact .inr (.inr (.inl ⟨rfl, matches_superscript.mp h⟩))
  | integer =>
      exact .inr (.inl ⟨by simp, (matches_integer.mp h).2 c List.mem_cons_self⟩)
  | decimal =>
      obtain ⟨whole, places, split, hwhole, -⟩ := matches_decimal.mp h
      exact .inr (.inl ⟨by simp, hwhole.head split⟩)
  | scientific =>
      obtain ⟨whole, places, sign, power, split, hwhole, -⟩ := matches_scientific.mp h
      exact .inr (.inl ⟨by simp, hwhole.head split⟩)
  | unknown => exact h.elim
  | equals | plus | minus | times | divide | radical | name | openParen | closeParen |
    openSquare | closeSquare =>
      obtain ⟨alone, kind⟩ := matches_oneOf rfl rfl h
      exact .inr (.inr (.inr ⟨alone, kind, by decide⟩))

/-- The rule of a character's own kind matches it, unless it is unknown. -/
theorem matches_symbolKind (known : symbolKind c ≠ .unknown) : Matches (symbolKind c) [c] := by
  revert known
  unfold symbolKind
  split
  case h_14 =>
    split
    · next letter => exact fun _ => matches_of_mem rfl ((mem_letters c).mpr letter)
    · exact fun known => absurd rfl known
  all_goals exact fun _ => matches_of_mem rfl (by decide)

end

end TokenKind

end StepAlgebra
