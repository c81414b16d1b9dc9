import StepAlgebra.Arithmetic.Decimal

/-!
# Rounding policies

How sums and products of numbers are rounded. Where the rules of significant figures apply, a sum
keeps the fewest decimal places of its operands and a product the fewest significant digits;
elsewhere results are exact.
-/

namespace StepAlgebra

/-- When results are rounded, and how. -/
inductive Rounding where
  /-- The rules of significant figures apply always. -/
  | always
  /-- They apply unless both operands are whole. -/
  | decimals
  /-- They apply if an operand is in scientific notation. -/
  | scientific
  /-- They never apply; at most so many decimal places are kept. -/
  | places (limit : UInt32)
  deriving DecidableEq

namespace Rounding

/-- Tells whether the rules of significant figures apply to two operands. -/
def appliesTo (policy : Rounding) (a b : Numeral) : Bool :=
  match policy with
  | always => true
  | decimals => !(a.isWhole && b.isWhole)
  | scientific => a.isScientific || b.isScientific
  | places _ => false

/-- The name of a policy on the command line. -/
def name : Rounding → String
  | always => "always"
  | decimals => "decimals"
  | scientific => "scientific"
  | places limit => Digits.natText limit.toNat

/-- The policy of a name: one of three words, or a number of decimal places. -/
def ofName? (s : String) : Option Rounding :=
  match s with
  | "always" => some always
  | "decimals" => some decimals
  | "scientific" => some scientific
  | _ => (naturalBelow? UInt32.size s).map fun n => places (UInt32.ofNat n)

/-- What is said about a name that is no policy. -/
def unknownName (s : String) : String :=
  "unknown rounding policy `" ++ s
    ++ "`; expected `always`, `decimals`, `scientific`, or a number of decimal places"

/-- The rounded form of the exact sum of two numbers. -/
def sum? (policy : Rounding) (a b : Number) (exact : Decimal) : Option Decimal :=
  match policy with
  | places limit => exact.withScale? (min exact.scale limit.toNat)
  | _ =>
      if policy.appliesTo a.body b.body then
        exact.withScale? (min (Decimal.ofNumber a).scale (Decimal.ofNumber b).scale)
      else
        some exact

/-- The rounded form of the exact product of two numbers. -/
def product? (policy : Rounding) (a b : Number) (exact : Decimal) : Option Decimal :=
  match policy with
  | places limit => exact.withScale? (min exact.scale limit.toNat)
  | _ =>
      if policy.appliesTo a.body b.body then
        exact.withPrecision? (min (Decimal.ofNumber a).precision (Decimal.ofNumber b).precision)
      else
        some exact

end Rounding

end StepAlgebra
