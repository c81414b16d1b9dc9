import StepAlgebra.Arithmetic.Constant
import StepAlgebra.Step.Explanation
import StepAlgebra.Step.Grouping

/-!
# Like terms

Two terms of an expression are alike if they are constants that can be added, if they differ in
their sign only, or if they are the same factors under coefficients that can be added. `2x+3x` is
`5x`, `4x+5x-8x` is `x`, and `x-x` is `0`.
-/

namespace StepAlgebra.Particle

/-- The coefficient of a row of factors: the first factor, if it is a constant. -/
def coefficient? : List Particle → Option Particle
  | [] => none
  | factor :: _ => if factor.isConstant then some factor else none

/-- The factors after the coefficient, or all factors without one. -/
def variableFactors : List Particle → List Particle
  | [] => []
  | factor :: others => if factor.isConstant then others else factor :: others

/-- The coefficient of a term with the sign of the term on it; one, if none is written. -/
def signedCoefficient (positive : Bool) (factors : List Particle) : Particle :=
  match coefficient? factors with
  | some c => c.withSign (c.positive == positive)
  | none => unit positive

/-- The only factor after the coefficient, if there are just these two. -/
def bareFactor? (factors : List Particle) : Option Particle :=
  match factors with
  | [c, factor] => if c.isConstant then some factor else none
  | _ => none

/-- Tells whether `p` is a coefficient times exactly `q` apart from the sign of `q`, such as `2x`
and `x`, and the coefficient can be raised or lowered by one. -/
def isMultipleOf (p q : Particle) : Bool :=
  match p.body with
  | .term factors =>
      match bareFactor? factors with
      | some factor =>
          p.exponent == 1 && factor.positive && factor.exponent == q.exponent
            && factor.body.same q.body
            && areCombinable (signedCoefficient p.positive factors) (unit q.positive)
      | none => false
  | _ => false

/-- Tells whether two terms have the same factors under coefficients that can be added. -/
def haveLikeFactors (p q : Particle) : Bool :=
  match p.body, q.body with
  | .term ps, .term qs =>
      p.exponent == 1 && q.exponent == 1 && sameRow (variableFactors ps) (variableFactors qs)
        && areCombinable (signedCoefficient p.positive ps) (signedCoefficient q.positive qs)
  | _, _ => false

/-- Tells whether two particles differ in their signs at most. -/
def agreeUpToSign (p q : Particle) : Bool :=
  p.exponent == q.exponent && p.body.same q.body

/-- Tells whether two particles are like terms. -/
def areLikeTerms (p q : Particle) : Bool :=
  agreeUpToSign p q || haveLikeFactors p q || isMultipleOf p q || isMultipleOf q p
    || areCombinable p q

/-- A coefficient of one is not written, and a single factor then stands for itself. -/
def withCoefficient (coefficient : Particle) (factors : List Particle) : Particle :=
  if coefficient.isOne then
    match factors with
    | [factor] => factor.withSign (coefficient.positive == factor.positive)
    | _ => ⟨coefficient.positive, .term factors, 1⟩
  else
    ⟨coefficient.positive, .term (coefficient.withSign true :: factors), 1⟩

/-- Factors under the sum of two coefficients. -/
def scaleBySum (policy : Rounding) (c d : Particle) (factors : List Particle) :
    Except Failure Particle :=
  (addConstants policy c d).map fun sum =>
    if sum.isZero then zero else withCoefficient sum factors

/-- The factors and the signed coefficient of a term. -/
def parts (p : Particle) : List Particle × Particle :=
  match p.body with
  | .term factors => (factors, signedCoefficient p.positive factors)
  | _ => ([], unit p.positive)

/-- Twice a particle, as a term. -/
def double (p : Particle) : Particle :=
  ⟨p.positive, .term [(Body.number ⟨[.ofNat 2], none, none⟩).plain, p.withSign true], 1⟩

/-- The sum of two like terms. Zero leaves the other as it is, whatever that is. -/
def combine (policy : Rounding) (p q : Particle) : Except Failure Particle :=
  if p.isZero then
    .ok q
  else if q.isZero then
    .ok p
  else if areCombinable p q then
    addConstants policy p q
  else if haveLikeFactors p q then
    scaleBySum policy p.parts.2 q.parts.2 (variableFactors p.parts.1)
  else if isMultipleOf p q then
    scaleBySum policy p.parts.2 (unit q.positive) (p.parts.1.drop 1)
  else if isMultipleOf q p then
    scaleBySum policy q.parts.2 (unit p.positive) (q.parts.1.drop 1)
  else if agreeUpToSign p q then
    .ok (if p.positive = q.positive then p.double else zero)
  else
    .error (.notCombinable p q)

/-- The terms of an expression in classes of like terms. -/
def likeTerms (terms : List Particle) : List (Class Particle) :=
  Class.group areLikeTerms terms

/-! ## Adding up a class -/

/-- What one pass over a class of like terms has added up, and what it has put off. -/
structure Tally (length : Nat) where
  /-- The sum so far. -/
  sum : Particle
  /-- The terms that went into the sum after the first. -/
  added : List Particle
  /-- The terms that the sum could not take. -/
  deferred : List Particle
  deferred_length : deferred.length ≤ length

/-- Adds to a sum each of the terms that it can take when its turn comes. -/
def tally (policy : Rounding) (sum : Particle) :
    (terms : List Particle) → Except Failure (Tally terms.length)
  | [] => .ok ⟨sum, [], [], Nat.le_refl _⟩
  | term :: terms =>
      if sum.isZero || areLikeTerms sum term then
        match combine policy sum term with
        | .error e => .error e
        | .ok sum =>
            (tally policy sum terms).map fun t =>
              ⟨t.sum, term :: t.added, t.deferred, Nat.le_succ_of_le t.deferred_length⟩
      else
        (tally policy sum terms).map fun t =>
          ⟨t.sum, t.added, term :: t.deferred, Nat.succ_le_succ t.deferred_length⟩

/-- A sum with the terms that went into it. -/
structure Subtotal where
  members : List Particle
  sum : Particle

/-- Adds up a class of like terms. Every member is a like term of the first, but not always of the
running sum: in `2(1)/(4)-1-2` the sum `1(1)/(4)` cannot take `-2`. What is put off is added up in
the same way afterwards. -/
def subtotals (policy : Rounding) : List Particle → Except Failure (List Subtotal)
  | [] => .ok []
  | first :: others =>
      match tally policy first others with
      | .error e => .error e
      | .ok t =>
          (subtotals policy t.deferred).map fun more => ⟨first :: t.added, t.sum⟩ :: more
termination_by terms => terms.length
decreasing_by exact Nat.lt_succ_of_le t.deferred_length

/-- Adds up all terms of an expression. -/
def allSubtotals (policy : Rounding) (terms : List Particle) :
    Except Failure (List Subtotal) :=
  ((likeTerms terms).mapM fun c => subtotals policy c.members).map List.flatten

/-- The expression of some terms under the sign and exponent of the one they come from. No terms
are zero, and a single term takes the sign and exponent itself. -/
def ofTerms (positive : Bool) (exponent : UInt32) : List Particle → Particle
  | [] => if exponent = 1 then zero else zero.withSignAndExponent positive exponent
  | [term] => term.foldInto positive exponent
  | terms => ⟨positive, .expression terms, exponent⟩

/-- What is said about the sums of an expression. -/
def explainSums (p : Particle) (sums : List Subtotal) : Explanation :=
  [.words "We need to combine like terms here, in the expression ", .value (.particle p),
      .words ".\n"]
    ++ (sums.filter (1 < ·.members.length)).flatMap fun s =>
      Explanation.combination "Combine" s.members s.sum

/-- Adds the like terms of an expression. -/
def combineLikeTerms (policy : Rounding) (p : Particle) (terms : List Particle) :
    Except Failure Step :=
  (allSubtotals policy terms).map fun sums =>
    let kept := (sums.map Subtotal.sum).filter (!·.isZero)
    { rule := .combineLikeTerms
      explanation := explainSums p sums
      result := .particle (ofTerms p.positive p.exponent kept) }

end StepAlgebra.Particle
