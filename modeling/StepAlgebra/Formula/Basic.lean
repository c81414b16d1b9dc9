import StepAlgebra.Numeral
import StepAlgebra.Text.Span

/-!
# Formulas

The tree that a text is read into. It keeps the groups, signs and places of the text, which the
values of the library forget.
-/

namespace StepAlgebra

/-- A formula as written, every node with its place in the text. -/
inductive Formula where
  /-- A number, such as `2.68`. -/
  | literal (numeral : Numeral) (span : Span)
  /-- A variable, such as `x`. -/
  | symbol (name : Char) (span : Span)
  /-- A quotient of two groups, such as `(1)/(3)`. -/
  | fraction (top bottom : Formula) (span : Span)
  /-- A whole number directly in front of a fraction of literals, such as `2(1)/(4)`. -/
  | mixed (numeral : Numeral) (numeralSpan : Span) (top bottom : Formula)
      (fractionSpan span : Span)
  /-- A radical with its index, if that is written, such as `√[3](8)`. -/
  | root (index : Option UInt32) (radicand : Formula) (span : Span)
  /-- A formula in parentheses. -/
  | group (inner : Formula) (span : Span)
  /-- An atom under a superscript exponent, such as `y²`. -/
  | power (base : Formula) (exponent : UInt32) (exponentSpan span : Span)
  /-- Two or more factors. -/
  | product (factors : List Formula) (span : Span)
  /-- A product with a sign in front of it; the sign is true for `+`. -/
  | signed (positive : Bool) (operand : Formula) (span : Span)
  /-- Two or more terms; subtracted ones are signed. -/
  | sum (terms : List Formula) (span : Span)

namespace Formula

/-- The place of a formula in the text. -/
def span : Formula → Span
  | literal _ s | symbol _ s | fraction _ _ s | mixed _ _ _ _ _ s | root _ _ s | group _ s
  | power _ _ _ s | product _ s | signed _ _ s | sum _ s => s

/-- The place of a row of formulas, from the first to the last. -/
def rowSpan (row : List Formula) : Span :=
  match row.head?, row.getLast? with
  | some first, some last => first.span.through last.span
  | _, _ => Span.point 0

/-- The product of a row of factors; a single factor stands for itself. -/
def ofFactors : List Formula → Formula
  | [factor] => factor
  | factors => product factors (rowSpan factors)

/-- The sum of a row of terms; a single term stands for itself. -/
def ofTerms : List Formula → Formula
  | [term] => term
  | terms => sum terms (rowSpan terms)

/-- A number literal, with or without a sign. -/
def isSignedLiteral : Formula → Bool
  | literal _ _ => true
  | signed _ (literal _ _) _ => true
  | _ => false

mutual

/-- Tells whether the text of a formula starts with a digit. -/
def startsWithDigit : Formula → Bool
  | literal _ _ | mixed _ _ _ _ _ _ => true
  | power base _ _ _ => base.startsWithDigit
  | product factors _ => rowStartsWithDigit factors
  | _ => false

/-- Tells whether the text of the first formula of a row starts with a digit. -/
def rowStartsWithDigit : List Formula → Bool
  | [] => false
  | first :: _ => first.startsWithDigit

end

end Formula

/-- A complete input: a formula, or an equation of two. -/
inductive Statement where
  | formula (f : Formula)
  | equation (left right : Formula) (span : Span)

/-- The place of a statement in the text. -/
def Statement.span : Statement → Span
  | formula f => f.span
  | equation _ _ s => s

end StepAlgebra
