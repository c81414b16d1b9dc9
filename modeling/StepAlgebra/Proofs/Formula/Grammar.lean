import StepAlgebra.Digits
import StepAlgebra.Text.Superscript
import StepAlgebra.Token

/-!
# The grammar of formulas

The rows of tokens that a text may be made of, blanks aside:

    statement    ::= sum ("=" sum)?
    sum          ::= sign? product (sign product)*
    product      ::= factor ("*"? factor)*
    factor       ::= atom superscript?
    atom         ::= mixed | fraction | number | name | root | group
    mixed        ::= integer numericGroup "/" numericGroup
    fraction     ::= group "/" group
    root         ::= "√" index? atom
    index        ::= "[" integer "]"
    group        ::= "(" sum ")"
    numericGroup ::= "(" sign? number ")"
    number       ::= integer | decimal | scientific

Exponents, powers of ten and indices are bounded by what 32 bits hold. The grammar is ambiguous: in
`2(1)/(4)` an integer stands before a fraction, which is a mixed number or a product.

* `Grammar.Derives` — the rows that a production derives.
-/

namespace StepAlgebra

namespace Token

/-- The number that the superscript digits of a token write. -/
def exponent (t : Token) : Nat :=
  Digits.value (t.lexeme.toList.filterMap Superscript.digit?)

/-- The number that the digits of a token write. -/
def digitValue (t : Token) : Nat :=
  Digits.value (Digits.ofChars t.lexeme.toList)

/-- A plus or minus sign. -/
def IsSign (t : Token) : Prop :=
  t.kind = .plus ∨ t.kind = .minus

end Token

namespace Grammar

/-- The productions of the grammar. A star stands for a production of its own: `terms` are what
follows the first product of a sum, `factors` what follows the first factor of a product. -/
inductive Production where
  | statement
  | sum
  | terms
  | product
  | factors
  | factor
  | atom
  | mixed
  | fraction
  | root
  | index
  | group
  | numericGroup
  | numeric
  | number

/-- The rows of tokens that a production derives. -/
inductive Derives : Production → List Token → Prop
  | formula {a : List Token} : Derives .sum a → Derives .statement a
  | equation {a b : List Token} {equals : Token} : Derives .sum a → equals.kind = .equals →
      Derives .sum b → Derives .statement (a ++ equals :: b)
  | sum {a b : List Token} : Derives .product a → Derives .terms b → Derives .sum (a ++ b)
  | signedSum {sign : Token} {a b : List Token} : sign.IsSign → Derives .product a →
      Derives .terms b → Derives .sum (sign :: (a ++ b))
  | noTerms : Derives .terms []
  | term {sign : Token} {a b : List Token} : sign.IsSign → Derives .product a →
      Derives .terms b → Derives .terms (sign :: (a ++ b))
  | product {a b : List Token} : Derives .factor a → Derives .factors b →
      Derives .product (a ++ b)
  | noFactors : Derives .factors []
  | juxtaposed {a b : List Token} : Derives .factor a → Derives .factors b →
      Derives .factors (a ++ b)
  | multiplied {times : Token} {a b : List Token} : times.kind = .times → Derives .factor a →
      Derives .factors b → Derives .factors (times :: (a ++ b))
  | bare {a : List Token} : Derives .atom a → Derives .factor a
  | raised {a : List Token} {superscript : Token} : Derives .atom a →
      superscript.kind = .superscript → superscript.exponent ≤ 4294967295 →
      Derives .factor (a ++ [superscript])
  | mixedAtom {a : List Token} : Derives .mixed a → Derives .atom a
  | fractionAtom {a : List Token} : Derives .fraction a → Derives .atom a
  | numberAtom {a : List Token} : Derives .number a → Derives .atom a
  | nameAtom {name : Token} : name.kind = .name → Derives .atom [name]
  | rootAtom {a : List Token} : Derives .root a → Derives .atom a
  | groupAtom {a : List Token} : Derives .group a → Derives .atom a
  | mixed {integer divide : Token} {a b : List Token} : integer.kind = .integer →
      Derives .numericGroup a → divide.kind = .divide → Derives .numericGroup b →
      Derives .mixed (integer :: (a ++ divide :: b))
  | fraction {a b : List Token} {divide : Token} : Derives .group a → divide.kind = .divide →
      Derives .group b → Derives .fraction (a ++ divide :: b)
  | root {radical : Token} {a : List Token} : radical.kind = .radical → Derives .atom a →
      Derives .root (radical :: a)
  | indexedRoot {radical : Token} {a b : List Token} : radical.kind = .radical →
      Derives .index a → Derives .atom b → Derives .root (radical :: (a ++ b))
  | index {opening integer closing : Token} : opening.kind = .openSquare →
      integer.kind = .integer → 2 ≤ integer.digitValue → integer.digitValue ≤ 4294967295 →
      closing.kind = .closeSquare → Derives .index [opening, integer, closing]
  | group {opening closing : Token} {a : List Token} : opening.kind = .openParen →
      Derives .sum a → closing.kind = .closeParen → Derives .group (opening :: (a ++ [closing]))
  | numericGroup {opening closing : Token} {a : List Token} : opening.kind = .openParen →
      Derives .numeric a → closing.kind = .closeParen →
      Derives .numericGroup (opening :: (a ++ [closing]))
  | unsigned {a : List Token} : Derives .number a → Derives .numeric a
  | signed {sign : Token} {a : List Token} : sign.IsSign → Derives .number a →
      Derives .numeric (sign :: a)
  | integer {t : Token} : t.kind = .integer → Derives .number [t]
  | decimal {t : Token} : t.kind = .decimal → Derives .number [t]
  | scientific {t : Token} : t.kind = .scientific → t.exponent ≤ 2147483647 →
      Derives .number [t]

end Grammar

end StepAlgebra
