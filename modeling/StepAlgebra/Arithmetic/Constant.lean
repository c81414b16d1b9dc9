import StepAlgebra.Arithmetic.Number

/-!
# Sums and products of constants

Constants are numbers, fractions of numbers and mixed numbers. Two numbers always have a sum. The
other constants are added part by part, and only where no denominator has to change and no mixed
number would have to change the sign of one of its parts.
-/

namespace StepAlgebra

/-- The numeral of an integer's size. -/
def Numeral.ofMagnitude (z : Int) : Numeral :=
  if z = 0 then .zero else .ofNat z.natAbs

/-- The whole number of an integer. -/
def Particle.ofInt (z : Int) : Particle :=
  ⟨decide (0 ≤ z), .number (.ofMagnitude z), 1⟩

/-- A fraction or mixed number of whole numbers: a signed whole part and a signed top over a
bottom, so `-2(1)/(4)` has the parts -2, -1 and `4`. -/
structure WholeParts where
  whole : Int
  top : Int
  bottom : Numeral

namespace WholeParts

/-- The integer of a whole numeral under a sign. -/
def signed (positive : Bool) (n : Numeral) : Int :=
  if positive then n.whole.value else -n.whole.value

/-- A positive whole number with the exponent one, as a numeral. -/
def wholeNumeral? (p : Particle) : Option Numeral :=
  match p.plainNumber? with
  | some (true, n) => if n.isWhole then some n else none
  | _ => none

/-- The parts of a fraction of positive whole numbers under a sign. -/
def ofFraction? (positive : Bool) (top bottom : Particle) : Option WholeParts :=
  match wholeNumeral? top, wholeNumeral? bottom with
  | some t, some b => some ⟨0, signed positive t, b⟩
  | _, _ => none

/-- The parts of a mixed number of positive whole numbers under a sign. -/
def ofMixed? (positive : Bool) (n : Numeral) (top bottom : Particle) : Option WholeParts :=
  if n.isWhole then
    (ofFraction? positive top bottom).map fun parts => { parts with whole := signed positive n }
  else
    none

/-- The fraction of a signed top over a bottom. It is `0` if the top is, and `1` or `-1` if the
top is written like the bottom. -/
def fraction (top : Int) (bottom : Numeral) : Particle :=
  if top = 0 then
    .zero
  else
    let magnitude := Numeral.ofMagnitude top
    if magnitude = bottom then
      .unit (decide (0 < top))
    else
      ⟨decide (0 < top), .fraction (Body.number magnitude).plain (Body.number bottom).plain, 1⟩

/-- The mixed number of a whole part and a top over a bottom, whose own signs do not count. -/
def mixed (positive : Bool) (whole top : Int) (bottom : Numeral) : Particle :=
  ⟨positive, .mixed (.ofMagnitude whole) (Body.number (.ofMagnitude top)).plain
    (Body.number bottom).plain, 1⟩

/-- The sum of two fractions. -/
def addFractions? (a b : WholeParts) : Option Particle :=
  if a.bottom = b.bottom then some (fraction (a.top + b.top) a.bottom) else none

/-- The sum of a number and a fraction that has the given parts. -/
def addToFraction? (positive : Bool) (n : Numeral) (f : Particle) (parts : WholeParts) :
    Option Particle :=
  if !n.isWhole || positive != f.positive then
    none
  else if n.isZero then
    some f
  else
    some (mixed f.positive (signed true n) parts.top parts.bottom)

/-- The sum of a number and a mixed number under a sign. -/
def addToMixed? (positive : Bool) (n : Numeral) (mixedPositive : Bool) (parts : WholeParts) :
    Option Particle :=
  if !n.isWhole then
    none
  else
    let whole := signed positive n + parts.whole
    if whole = 0 then
      some (fraction parts.top parts.bottom)
    else if decide (0 < whole) = mixedPositive then
      some (mixed mixedPositive whole parts.top parts.bottom)
    else
      none

/-- The sum of a fraction and a mixed number under a sign. -/
def addFractionToMixed? (f m : WholeParts) (mixedPositive : Bool) : Option Particle :=
  if f.bottom = m.bottom then
    let top := f.top + m.top
    if top = 0 then
      some (.ofInt m.whole)
    else if decide (0 < top) = mixedPositive then
      some (mixed mixedPositive m.whole top m.bottom)
    else
      none
  else
    none

/-- The sum of two mixed numbers under their signs. The whole parts decide the sign of the sum, so
the tops have to agree with it. -/
def addMixed? (a b : WholeParts) (aPositive bPositive : Bool) : Option Particle :=
  if a.bottom = b.bottom then
    let whole := a.whole + b.whole
    let top := a.top + b.top
    if aPositive = bPositive ∨ whole = 0 ∨ top = 0 ∨ (0 < top ↔ 0 < whole) then
      if top = 0 then
        some (.ofInt whole)
      else if whole = 0 then
        some (fraction top a.bottom)
      else
        some (mixed (decide (0 < whole)) whole top a.bottom)
    else
      none
  else
    none

end WholeParts

namespace Particle

open WholeParts

/-- The sum of two constants that are not both numbers, if it can be written without changing a
denominator or the sign of a part. -/
def addExact? (a b : Particle) : Option Particle :=
  match a.body, b.body with
  | .fraction t u, .fraction v w =>
      (ofFraction? a.positive t u).bind fun p =>
        (ofFraction? b.positive v w).bind fun q => addFractions? p q
  | .number n, .fraction t u =>
      (ofFraction? b.positive t u).bind fun q => addToFraction? a.positive n b q
  | .fraction t u, .number n =>
      (ofFraction? a.positive t u).bind fun p => addToFraction? b.positive n a p
  | .number n, .mixed m t u =>
      (ofMixed? b.positive m t u).bind fun q => addToMixed? a.positive n b.positive q
  | .mixed m t u, .number n =>
      (ofMixed? a.positive m t u).bind fun p => addToMixed? b.positive n a.positive p
  | .fraction t u, .mixed m v w =>
      (ofFraction? a.positive t u).bind fun p =>
        (ofMixed? b.positive m v w).bind fun q => addFractionToMixed? p q b.positive
  | .mixed m t u, .fraction v w =>
      (ofFraction? b.positive v w).bind fun q =>
        (ofMixed? a.positive m t u).bind fun p => addFractionToMixed? q p a.positive
  | .mixed m t u, .mixed n v w =>
      (ofMixed? a.positive m t u).bind fun p =>
        (ofMixed? b.positive n v w).bind fun q => addMixed? p q a.positive b.positive
  | _, _ => none

/-- Tells whether two constants have a sum that is one constant. -/
def areCombinable (a b : Particle) : Bool :=
  a.isConstant && b.isConstant &&
    match a.body, b.body with
    | .number _, .number _ => true
    | _, _ => (addExact? a b).isSome

/-- The sum of two constants. -/
def addConstants (policy : Rounding) (a b : Particle) : Except Failure Particle :=
  if a.isConstant && b.isConstant then
    match a.body, b.body with
    | .number m, .number n =>
        (Number.add policy ⟨a.positive, m, a.exponent⟩ ⟨b.positive, n, b.exponent⟩).map
          Number.particle
    | _, _ =>
        match addExact? a b with
        | some sum => .ok sum
        | none => .error (.notCombinable a b)
  else
    .error (.notCombinable a b)

/-- A quotient of two numbers under a sign. -/
structure Ratio where
  positive : Bool
  top : Number
  bottom : Number

/-- A constant as a ratio, if it is no mixed number. A number is a ratio over one. -/
def ratio? (p : Particle) : Option Ratio :=
  match p.body with
  | .number n => some ⟨p.positive, .plain n, .plain .one⟩
  | .fraction top bottom =>
      match plainNumber? top, plainNumber? bottom with
      | some (s, t), some (r, b) => some ⟨p.positive, ⟨s, t, 1⟩, ⟨r, b, 1⟩⟩
      | _, _ => none
  | _ => none

/-- The product of two ratios: the tops are multiplied, and the bottoms. A product with the top
zero is `0`. -/
def Ratio.multiply (policy : Rounding) (a b : Ratio) : Except Failure Particle :=
  match Number.multiply policy a.top b.top with
  | .error e => .error e
  | .ok top =>
      if top.body.isZero then
        .ok .zero
      else
        match Number.multiply policy a.bottom b.bottom with
        | .error e => .error e
        | .ok bottom =>
            let positive := (a.positive == b.positive) == (top.positive == bottom.positive)
            .ok ⟨positive, .fraction (Body.number top.body).plain (Body.number bottom.body).plain,
              1⟩

/-- The product of two constants, neither of which is a mixed number. -/
def multiplyConstants (policy : Rounding) (a b : Particle) : Except Failure Particle :=
  if a.isConstant && b.isConstant then
    match a.body, b.body with
    | .number m, .number n =>
        (Number.multiply policy ⟨a.positive, m, a.exponent⟩ ⟨b.positive, n, b.exponent⟩).map
          Number.particle
    | _, _ =>
        match a.ratio?, b.ratio? with
        | some p, some q => p.multiply policy q
        | _, _ => .error (.notMultipliable a b)
  else
    .error (.notMultipliable a b)

end Particle

end StepAlgebra
