import StepAlgebra.Arithmetic.Rounding
import StepAlgebra.Failure

/-!
# Sums and products of numbers

Numbers are computed with exactly and rounded once, by a policy. The exponents of the operands do
not count. A result is in scientific notation if an operand is, or if it ends in zeros that are
not written.
-/

namespace StepAlgebra.Number

/-- Writes the rounded result of an operation on two numbers. -/
def finish (a b : Number) (rounded : Option Decimal) : Except Failure Number :=
  match rounded.bind (·.toNumber? (a.body.isScientific || b.body.isScientific)) with
  | some n => .ok n
  | none => .error (.tooLarge a.particle b.particle)

/-- The sum of two numbers. -/
def add (policy : Rounding) (a b : Number) : Except Failure Number :=
  finish a b (((Decimal.ofNumber a).add? (Decimal.ofNumber b)).bind (policy.sum? a b))

/-- The product of two numbers. -/
def multiply (policy : Rounding) (a b : Number) : Except Failure Number :=
  finish a b (policy.product? a b ((Decimal.ofNumber a).mul (Decimal.ofNumber b)))

end StepAlgebra.Number
