import StepAlgebra.Particle.Equality
import StepAlgebra.Search.Mode

/-!
# Finished values

When a search may stop. Simplified particles are numbers, variables, reduced fractions and mixed
numbers, a number times a variable, and the sum of one of these products and a number.
-/

namespace StepAlgebra.Particle

/-- The value of a positive whole number with the exponent one and at least one digit. -/
def magnitude? (p : Particle) : Option Nat :=
  match p.plainNumber? with
  | some (true, n) => if n.isWhole && !n.whole.isEmpty then some n.whole.value else none
  | _ => none

/-- The values of the top and bottom of a fraction in lowest terms. -/
def reducedParts? (top bottom : Particle) : Option (Nat × Nat) :=
  match top.magnitude?, bottom.magnitude? with
  | some t, some b => if b ≠ 1 ∧ t ≠ 0 ∧ Nat.gcd t b = 1 then some (t, b) else none
  | _, _ => none

/-- A number with the exponent one. -/
def isPlainNumber (p : Particle) : Bool :=
  p.plainNumber?.isSome

/-- A variable with a plus sign and the exponent one. -/
def isPlainSymbol (p : Particle) : Bool :=
  p.positive && p.exponent == 1 && p.level == .symbol

/-- A variable, or a positive number times a positive variable, with no exponent anywhere; the
sign in front does not count. -/
def isMonomial (p : Particle) : Bool :=
  p.exponent == 1 &&
    match p.body with
    | .symbol _ => true
    | .term [c, x] => Powered.positive c && isPlainNumber c && isPlainSymbol x
    | _ => false

/-- Tells whether nothing is left to simplify. -/
def isSimplified (p : Particle) : Bool :=
  match p.body with
  | .number _ => p.exponent == 1
  | .symbol _ => true
  | .fraction top bottom => p.exponent == 1 && (reducedParts? top bottom).isSome
  | .mixed _ top bottom =>
      p.exponent == 1 &&
        match reducedParts? top bottom with
        | some (t, b) => t < b
        | none => false
  | .term _ => p.isMonomial
  | .expression [a, b] =>
      p.positive && p.exponent == 1 &&
        ((isMonomial a && isPlainNumber b) || (isPlainNumber a && isMonomial b))
  | .expression _ | .root _ _ => false

end StepAlgebra.Particle

namespace StepAlgebra.Value

/-- Tells whether a value is what a mode asks for. -/
def isFinished (mode : Mode) (v : Value) : Bool :=
  match mode, v with
  | .solve, equation left right =>
      left.same right || (left.isSimplified && right.isSimplified)
  | .simplify, particle p => p.isSimplified
  | .factor, particle p => p.level == .term
  | _, _ => false

end StepAlgebra.Value
