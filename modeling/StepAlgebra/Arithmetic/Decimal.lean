import StepAlgebra.Particle.Basic

/-!
# Exact decimals

A decimal is an integer with a scale, the number of its decimal places. A negative scale stands
for trailing zeros that are not written: `2.4*10⁴` is 24 at scale -3. Sums and products are exact;
only a change to a smaller scale rounds, and then a half goes away from zero.
-/

namespace StepAlgebra

/-- The value `unscaled × 10 ^ (-scale)`.

A scale of 64 bits would do as well, and no bound is ever met. A number that is written has the
length of its places less a 32-bit power of ten for its scale, a sum has one of two such scales and
a product both together; the result is written as a number before it is used again. -/
structure Decimal where
  unscaled : Int
  scale : Int
  deriving DecidableEq

namespace Decimal

/-- The most digits that a change of scale may add to a decimal. -/
def maxPadding : Nat := 4096

/-- A power of ten. -/
def tenPow (n : Nat) : Nat :=
  Nat.pow 10 n

/-- The quotient rounded to the nearest integer, a half away from zero. -/
def divRound (n : Int) (d : Nat) : Int :=
  let magnitude := (2 * n.natAbs + d) / (2 * d)
  if n < 0 then -magnitude else magnitude

/-- The decimal that a signed numeral writes. -/
def ofNumeral (positive : Bool) (n : Numeral) : Decimal :=
  let magnitude : Int := n.digits.value
  let power : Int := match n.power with
    | some power => power.toInt
    | none => 0
  { unscaled := if positive then magnitude else -magnitude
    scale := (n.places.getD []).length - power }

/-- The decimal that a number writes; its exponent does not count. -/
def ofNumber (n : Number) : Decimal :=
  ofNumeral n.positive n.body

/-- Tells whether a decimal is zero. -/
def isZero (d : Decimal) : Bool :=
  d.unscaled == 0

/-- The digits of a decimal without its sign and point. -/
def digits (d : Decimal) : Digits :=
  Digits.ofNat d.unscaled.natAbs

/-- The number of significant digits: leading zeros do not count, trailing ones do, and zero has
one digit. A count of 32 bits would do as well: it falls short only from a row of four thousand
million digits on. -/
def precision (d : Decimal) : Nat :=
  d.digits.length

/-- The decimal at another scale, rounded if places are dropped. Dropping more places than there
are digits leaves zero; adding more than `maxPadding` is refused. -/
def withScale? (d : Decimal) (scale : Int) : Option Decimal :=
  if d.scale ≤ scale then
    let shift := (scale - d.scale).toNat
    if shift ≤ maxPadding then some ⟨d.unscaled * tenPow shift, scale⟩ else none
  else
    let shift := (d.scale - scale).toNat
    if d.precision < shift then
      some ⟨0, scale⟩
    else
      some ⟨divRound d.unscaled (tenPow shift), scale⟩

/-- The decimal rounded to at most so many significant digits. -/
def withPrecision? (d : Decimal) (precision : Nat) : Option Decimal :=
  if d.precision ≤ precision then
    some d
  else
    d.withScale? (d.scale - (d.precision - precision : Nat))

/-- The exact sum, at the larger scale, unless the scales are too far apart. -/
def add? (a b : Decimal) : Option Decimal :=
  let scale := max a.scale b.scale
  (a.withScale? scale).bind fun a =>
    (b.withScale? scale).map fun b => ⟨a.unscaled + b.unscaled, scale⟩

/-- The exact product. -/
def mul (a b : Decimal) : Decimal :=
  ⟨a.unscaled * b.unscaled, a.scale + b.scale⟩

/-- A power of ten, if it is a 32-bit integer. -/
def power? (z : Int) : Option Int32 :=
  if -2147483648 ≤ z ∧ z ≤ 2147483647 then some (Int32.ofInt z) else none

/-- Decimal places, or none at all. -/
def places? : Digits → Option Digits
  | [] => none
  | places => some places

/-- Digits in scientific notation, with one of them before the point. -/
def scientific? (digits : Digits) (scale : Int) : Option Numeral :=
  (power? (digits.length - 1 - scale)).map fun power =>
    ⟨digits.take 1, places? (digits.drop 1), some power⟩

/-- Digits with the last `scale` of them after the point, and at least one before it. -/
def positional (digits : Digits) (scale : Nat) : Numeral :=
  let padded := List.replicate (scale + 1 - digits.length) (.ofNat 0) ++ digits
  let cut := padded.length - scale
  ⟨padded.take cut, places? (padded.drop cut), none⟩

/-- The number that writes a decimal, in scientific notation if that is asked for or if the scale
is negative. Zero is always `0`. A power of ten that is no 32-bit integer is refused. -/
def toNumber? (d : Decimal) (scientific : Bool) : Option Number :=
  if d.isZero then
    some (.plain .zero)
  else
    let numeral :=
      if scientific || d.scale < 0 then
        scientific? d.digits d.scale
      else
        some (positional d.digits d.scale.toNat)
    numeral.map fun numeral => ⟨decide (0 < d.unscaled), numeral, 1⟩

end Decimal

end StepAlgebra
