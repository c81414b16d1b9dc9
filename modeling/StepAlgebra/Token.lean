import StepAlgebra.Text.Span

/-!
# Tokens

The pieces that a formula is written with. A token remembers the text it was read from and where
that text stands.
-/

namespace StepAlgebra

/-- What a token stands for. -/
inductive TokenKind where
  | blank
  | equals
  | plus
  | minus
  | times
  | divide
  | radical
  | scientific
  | decimal
  | integer
  | superscript
  | name
  | openParen
  | closeParen
  | openSquare
  | closeSquare
  | unknown
  deriving DecidableEq

/-- The name of a kind in messages. -/
def TokenKind.label : TokenKind → String
  | .blank => "Whitespace"
  | .equals => "Eq"
  | .plus => "Add"
  | .minus => "Sub"
  | .times => "Mul"
  | .divide => "Div"
  | .radical => "Radical"
  | .scientific => "Scientific"
  | .decimal => "Float"
  | .integer => "Int"
  | .superscript => "Superscript"
  | .name => "Name"
  | .openParen => "OpenParen"
  | .closeParen => "CloseParen"
  | .openSquare => "OpenSquare"
  | .closeSquare => "CloseSquare"
  | .unknown => "Unknown"

/-- A piece of the text, with its kind and its place. -/
structure Token where
  kind : TokenKind
  lexeme : String
  span : Span
  deriving DecidableEq

/-- Blank tokens separate others and mean nothing themselves. -/
def Token.isBlank (t : Token) : Bool :=
  t.kind == .blank

end StepAlgebra
