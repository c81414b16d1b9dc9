import StepAlgebra.Numeral

/-!
# Particles

The nodes of an algebraic value. Every particle is a body raised to an exponent and then given a
sign, so `-x²` is the negation of a square. Changing the sign or the exponent never looks inside
the body.
-/

namespace StepAlgebra

/-- Something raised to an exponent and then given a sign. -/
structure Powered (α : Type) where
  /-- True unless there is a minus sign in front. -/
  positive : Bool
  body : α
  exponent : UInt32

namespace Powered

variable {α : Type}

/-- The same body under another sign and exponent. -/
def withSignAndExponent (p : Powered α) (positive : Bool) (exponent : UInt32) : Powered α :=
  { p with positive, exponent }

/-- The same body and exponent under another sign. -/
def withSign (p : Powered α) (positive : Bool) : Powered α :=
  { p with positive }

/-- The same sign and body under another exponent. -/
def withExponent (p : Powered α) (exponent : UInt32) : Powered α :=
  { p with exponent }

/-- The same body and exponent under the opposite sign. -/
def negate (p : Powered α) : Powered α :=
  { p with positive := !p.positive }

end Powered

/-- What a particle is apart from its sign and exponent. -/
inductive Body where
  /-- A number, such as `2.68`. -/
  | number (numeral : Numeral)
  /-- A quotient, such as `(x+1)/(2)`. -/
  | fraction (top bottom : Powered Body)
  /-- A numeral and a fraction under one sign, such as `2(1)/(4)`. -/
  | mixed (numeral : Numeral) (top bottom : Powered Body)
  /-- A variable, such as `x`. -/
  | symbol (name : Char)
  /-- Factors that are multiplied, such as `2xy`. -/
  | term (factors : List (Powered Body))
  /-- Terms that are added, such as `2x-4`. -/
  | expression (terms : List (Powered Body))
  /-- A radical, such as `√[3](8)`. -/
  | root (index : UInt32) (radicand : Powered Body)

/-- A node of an algebraic value. -/
abbrev Particle := Powered Body

/-- A number with its sign and exponent. -/
abbrev Number := Powered Numeral

/-- Which sort of value something is. -/
inductive Level where
  | number
  | fraction
  | mixed
  | symbol
  | term
  | expression
  | root
  | equation
  deriving DecidableEq

/-- The level of a body. -/
def Body.level : Body → Level
  | number _ => .number
  | fraction _ _ => .fraction
  | mixed _ _ _ => .mixed
  | symbol _ => .symbol
  | term _ => .term
  | expression _ => .expression
  | root _ _ => .root

/-- A body with a plus sign and the exponent one. -/
def Body.plain (b : Body) : Particle :=
  ⟨true, b, 1⟩

namespace Number

/-- A positive number with the exponent one. -/
def plain (n : Numeral) : Number :=
  ⟨true, n, 1⟩

/-- The number as a particle. -/
def particle (n : Number) : Particle :=
  ⟨n.positive, .number n.body, n.exponent⟩

end Number

namespace Particle

/-- The level of a particle. -/
def level (p : Particle) : Level :=
  p.body.level

/-- The number `0`. -/
def zero : Particle :=
  (Body.number .zero).plain

/-- The number `1` under a sign. -/
def unit (positive : Bool) : Particle :=
  ⟨positive, .number .one, 1⟩

/-- A particle as a number, if it is one. -/
def number? (p : Particle) : Option Number :=
  match p.body with
  | .number n => some ⟨p.positive, n, p.exponent⟩
  | _ => none

/-- A number with the exponent one, as a sign and a numeral. -/
def plainNumber? (p : Particle) : Option (Bool × Numeral) :=
  match p.body with
  | .number n => if p.exponent = 1 then some (p.positive, n) else none
  | _ => none

/-- The number zero, under any sign and exponent. -/
def isZero (p : Particle) : Bool :=
  match p.body with
  | .number n => n.isZero
  | _ => false

/-- The number one with the exponent one, under any sign. -/
def isOne (p : Particle) : Bool :=
  match p.body with
  | .number n => n.isOne && p.exponent == 1
  | _ => false

/-- A constant that arithmetic can work with: a number, a mixed number, or a fraction of two
numbers with the exponent one, itself with the exponent one. -/
def isConstant (p : Particle) : Bool :=
  p.exponent == 1 &&
    match p.body with
    | .number _ | .mixed _ _ _ => true
    | .fraction top bottom => (plainNumber? top).isSome && (plainNumber? bottom).isSome
    | _ => false

/-- Puts an outer sign and exponent on a particle that is the only child of what carried them.
If one of the two exponents is one the particle takes both itself, and an odd power keeps its own
sign; else it becomes the only factor of a term. -/
def foldInto (p : Particle) (positive : Bool) (exponent : UInt32) : Particle :=
  if exponent = 1 then
    p.withSign (positive == p.positive)
  else if p.exponent = 1 then
    let oddNegative := !p.positive && exponent % 2 == 1
    p.withSignAndExponent (positive != oddNegative) exponent
  else
    ⟨positive, .term [p], exponent⟩

/-- The direct parts of a particle, in the order that paths count them. -/
def children (p : Particle) : List Particle :=
  match p.body with
  | .fraction top bottom => [top, bottom]
  | .term factors => factors
  | .expression terms => terms
  | .root _ radicand => [radicand]
  | .number _ | .mixed _ _ _ | .symbol _ => []

end Particle

/-- An algebraic value: a particle, or an equation of two. -/
inductive Value where
  | particle (p : Particle)
  | equation (left right : Particle)

namespace Value

/-- The level of a value. -/
def level : Value → Level
  | particle p => p.level
  | equation _ _ => .equation

/-- Tells an equation from a particle. -/
def isEquation : Value → Bool
  | particle _ => false
  | equation _ _ => true

end Value

end StepAlgebra
