import StepAlgebra.Particle.Basic

/-!
# Writing particles

The one form in which a value is written. Parentheses stand where reading the text would otherwise
build another value.
-/

namespace StepAlgebra

/-- A minus sign, or nothing. -/
def signText (positive : Bool) : String :=
  if positive then "" else "-"

/-- A superscript exponent, or nothing for the exponent one. -/
def exponentText (exponent : UInt32) : String :=
  if exponent = 1 then "" else Superscript.ofNat exponent.toNat

/-- A text in parentheses, if they are needed. -/
def wrapText (needed : Bool) (s : String) : String :=
  if needed then "(" ++ s ++ ")" else s

/-- The index of a radical in square brackets, or nothing for a square root. -/
def indexText (index : UInt32) : String :=
  if index = 2 then "" else "[" ++ Digits.natText index.toNat ++ "]"

namespace Particle

/-- A number, which runs together with another number. -/
def isNumber (p : Particle) : Bool :=
  match p.body with
  | .number _ => true
  | _ => false

/-- A factor needs parentheses if it is negative, if it is a number after a number, or if it is a
compound with the exponent one. -/
def needsParens (p : Particle) (afterNumber : Bool) : Bool :=
  !p.positive ||
    match p.body with
    | .fraction _ _ | .mixed _ _ _ | .term _ | .expression _ => p.exponent == 1
    | .number _ => afterNumber
    | .symbol _ | .root _ _ => false

/-- A term of an expression needs parentheses if it would otherwise run into the expression. -/
def mergesIntoSum (p : Particle) : Bool :=
  match p.body with
  | .expression _ => p.positive && p.exponent == 1
  | _ => false

/-- Only a single factor stands under an exponent without parentheses of its own. -/
def isLoneFactor (factors : List Particle) (exponent : UInt32) : Bool :=
  exponent != 1 && factors.length == 1

mutual

/-- The text of a particle. -/
def text : Particle → String
  | ⟨s, b, e⟩ => signText s ++ bodyText s e b ++ exponentText e

/-- The text of a body between its sign and its exponent. -/
def bodyText (s : Bool) (e : UInt32) : Body → String
  | .number n => wrapText (e != 1 && n.isScientific) n.text
  | .fraction top bottom => wrapText (e != 1) ("(" ++ text top ++ ")/(" ++ text bottom ++ ")")
  | .mixed n top bottom =>
      wrapText (e != 1) (n.text ++ "(" ++ text top ++ ")/(" ++ text bottom ++ ")")
  | .symbol name => String.singleton name
  | .term factors => wrapText (e != 1) (factorsText (isLoneFactor factors e) false factors)
  | .expression terms => wrapText (!s || e != 1) (termsText true terms)
  | .root index radicand => "√" ++ indexText index ++ "(" ++ text radicand ++ ")"

/-- The text of a row of factors; a lone one keeps no parentheses of its own. -/
def factorsText (isLone afterNumber : Bool) : List Particle → String
  | [] => ""
  | p :: ps =>
      wrapText (!isLone && p.needsParens afterNumber) (text p)
        ++ factorsText isLone p.isNumber ps

/-- The text of a row of terms, with a plus sign in front of each positive one but the first. -/
def termsText (isFirst : Bool) : List Particle → String
  | [] => ""
  | p :: ps =>
      (if !isFirst && p.positive then "+" else "") ++ wrapText p.mergesIntoSum (text p)
        ++ termsText false ps

end

/-- The texts of several particles, separated by commas. -/
def listText (ps : List Particle) : String :=
  ", ".intercalate (ps.map text)

end Particle

/-- The text of a number. -/
def Number.text (n : Number) : String :=
  n.particle.text

/-- The text of a value. -/
def Value.text : Value → String
  | .particle p => p.text
  | .equation left right => left.text ++ "=" ++ right.text

end StepAlgebra
