import StepAlgebra.Formula.Parser
import StepAlgebra.Particle.Basic

/-!
# Values of formulas

A formula is turned into a value by forgetting its groups and places. A sign in front of a product
negates the whole particle, and an exponent on a negative or already raised particle makes it the
only factor of a term, so `(-x)²` and `-x²` stay apart.
-/

namespace StepAlgebra

/-- A particle under an exponent written on it. -/
def Particle.raise (p : Particle) (exponent : UInt32) : Particle :=
  if p.positive ∧ p.exponent = 1 then
    p.withExponent exponent
  else
    ⟨true, .term [p], exponent⟩

mutual

/-- The particle that a formula stands for. -/
def Particle.ofFormula : Formula → Particle
  | .literal numeral _ => (Body.number numeral).plain
  | .symbol name _ => (Body.symbol name).plain
  | .fraction top bottom _ => (Body.fraction (ofFormula top) (ofFormula bottom)).plain
  | .mixed numeral _ top bottom _ _ =>
      (Body.mixed numeral (ofFormula top) (ofFormula bottom)).plain
  | .root index radicand _ => (Body.root (index.getD 2) (ofFormula radicand)).plain
  | .group inner _ => ofFormula inner
  | .power base exponent _ _ => (ofFormula base).raise exponent
  | .product factors _ => (Body.term (ofRow factors)).plain
  | .signed positive operand _ =>
      if positive then ofFormula operand else (ofFormula operand).negate
  | .sum terms _ => (Body.expression (ofRow terms)).plain

/-- The particles that a row of formulas stands for. -/
def Particle.ofRow : List Formula → List Particle
  | [] => []
  | f :: fs => ofFormula f :: ofRow fs

end

namespace Value

/-- The value that a statement stands for. -/
def ofStatement : Statement → Value
  | .formula f => .particle (.ofFormula f)
  | .equation left right _ => .equation (.ofFormula left) (.ofFormula right)

/-- Reads a text as a value. -/
def read (input : String) : Except ReadError Value :=
  (Statement.read input).map ofStatement

/-- Tells whether a text reads as a value of the given level. -/
def readsAs (input : String) (level : Level) : Bool :=
  match read input with
  | .ok v => v.level == level
  | .error _ => false

end Value

end StepAlgebra
