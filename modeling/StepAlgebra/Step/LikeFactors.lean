import StepAlgebra.Arithmetic.Constant
import StepAlgebra.Step.Explanation
import StepAlgebra.Step.Grouping

/-!
# Like factors

Two factors of a term are multiplied if they are constants other than mixed numbers, or if they
differ in sign and exponent only. `2xx` is `2x²`, and `2*(2)/(3)` is `(4)/(3)`.
-/

namespace StepAlgebra.Particle

/-- A constant that can be multiplied; a mixed number would have to become a fraction first. -/
def isFactorConstant (p : Particle) : Bool :=
  p.isConstant && p.level != .mixed

/-- Tells whether two factors can be multiplied into one. -/
def areMultipliable (p q : Particle) : Bool :=
  p.body.same q.body || (p.isFactorConstant && q.isFactorConstant)

/-- The sum of two exponents, if it fits in 32 bits. -/
def addExponents? (m n : UInt32) : Option UInt32 :=
  if m.toNat + n.toNat < UInt32.size then some (m + n) else none

/-- The product of two factors. Constants are multiplied by arithmetic; else the exponents are
added, and the product is negative if exactly one factor is. -/
def multiply (policy : Rounding) (p q : Particle) : Except Failure Particle :=
  if p.isFactorConstant && q.isFactorConstant then
    multiplyConstants policy p q
  else if p.body.same q.body then
    match addExponents? p.exponent q.exponent with
    | some exponent => .ok (p.withSignAndExponent (p.positive == q.positive) exponent)
    | none => .error (.tooLarge p q)
  else
    .error (.notMultipliable p q)

/-- The factors of a term in classes that are multiplied into one each. -/
def likeFactors (factors : List Particle) : List (Class Particle) :=
  Class.group areMultipliable factors

/-- How many factors of a term would go by multiplying. -/
def excess (factors : List Particle) : Nat :=
  factors.length - (likeFactors factors).length

/-- A class of factors with their product. -/
structure Product where
  members : List Particle
  product : Particle

/-- Multiplies each class of factors. -/
def products (policy : Rounding) (factors : List Particle) : Except Failure (List Product) :=
  (likeFactors factors).mapM fun c =>
    (c.join (multiply policy)).map fun product => ⟨c.members, product⟩

/-- The term of some products under the sign and exponent of the one they come from. A product
that is zero makes the whole term zero, and a single product takes the sign and exponent
itself. -/
def ofFactors (positive : Bool) (exponent : UInt32) (factors : List Particle) : Particle :=
  if factors.any isZero then
    zero
  else
    match factors with
    | [factor] => factor.foldInto positive exponent
    | _ => ⟨positive, .term factors, exponent⟩

/-- What is said about the products of a term. -/
def explainProducts (p : Particle) (products : List Product) : Explanation :=
  [.words "In the term ", .value (.particle p), .words " we need to multiply.\n"]
    ++ ((products.filter (1 < ·.members.length)).flatMap fun r =>
      Explanation.combination "Multiply" r.members r.product)
    ++ if products.any (·.product.isZero) then
        [.words "One of the factors is 0, so the term is 0.\n"]
      else
        []

/-- Multiplies the like factors of a term. -/
def multiplyFactors (policy : Rounding) (p : Particle) (factors : List Particle) :
    Except Failure Step :=
  if excess factors = 0 then
    .error (.notApplicable .multiply (.particle p))
  else
    (products policy factors).map fun results =>
      { rule := .multiply
        explanation := explainProducts p results
        result := .particle (ofFactors p.positive p.exponent (results.map Product.product)) }

end StepAlgebra.Particle
