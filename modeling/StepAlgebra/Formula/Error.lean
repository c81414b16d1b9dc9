import StepAlgebra.Text.Report
import StepAlgebra.Token

/-!
# What can be wrong with a text

The causes for which a text is refused, each with the places it points at, and their reports.
-/

namespace StepAlgebra

/-- Why a text is not a statement. -/
inductive ReadError where
  /-- The text stops where more is needed. -/
  | endOfInput (place : Span)
  /-- Something is left after a complete statement. -/
  | trailingInput (place : Span)
  /-- A token stands where only others may. -/
  | unexpectedToken (place : Span) (expected : List TokenKind) (found : TokenKind)
  /-- An opening parenthesis is never closed. -/
  | unclosedParen (place : Span)
  /-- A closing parenthesis closes nothing. -/
  | unopenedParen (place : Span)
  /-- An exponent or a power of ten is out of range. -/
  | exponentTooLarge (place : Span)
  /-- The index of a radical is below two or out of range. -/
  | invalidIndex (place : Span)
  /-- An equation has a second equals sign. -/
  | chainedEquation (first another : Span)
  /-- A whole number stands before a fraction that is not made of literals. -/
  | notMixed (place : Span)
  deriving DecidableEq

/-- The words for a refused text. -/
def ReadError.report : ReadError → Report
  | endOfInput place =>
      { message := "unexpected end of input"
        labels := [(place, "you might need to add another term here")] }
  | trailingInput place =>
      { message := "expected end of input"
        labels := [(place, "I could not understand the remaining input here")] }
  | unexpectedToken place expected found =>
      { message := "unexpected token"
        labels := [(place, "expected one of: " ++ ", ".intercalate (expected.map TokenKind.label))]
        help := some ("found " ++ found.label) }
  | unclosedParen place =>
      { message := "unclosed parenthesis"
        labels := [(place, "this parenthesis")]
        help := some "add a closing parenthesis `)` somewhere after this" }
  | unopenedParen place =>
      { message := "unclosed parenthesis"
        labels := [(place, "this parenthesis")]
        help := some "add an opening parenthesis `(` somewhere before this" }
  | exponentTooLarge place =>
      { message := "exponent is too large"
        labels := [(place, "this exponent")]
        help := some "exponents can be at most 4294967295" }
  | invalidIndex place =>
      { message := "invalid index for a radical"
        labels := [(place, "this index")]
        help := some "the index must be a whole number of at least 2" }
  | chainedEquation first another =>
      { message := "too many equals signs"
        labels := [(first, "the first `=`"), (another, "another `=`")]
        help := some "an equation has exactly two sides" }
  | notMixed place =>
      { message := "an internal non-fatal error occurred while parsing"
        labels := [(place, "here")]
        help := some "you should never see this error; please report this as a bug" }

end StepAlgebra
