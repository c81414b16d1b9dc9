import StepAlgebra.Particle.Basic

/-!
# Equality of particles

Two particles are the same when they are built in the same way from the same parts in the same
order. The sign of zero is the one thing that does not count. `Body.same` leaves the outermost
sign and exponent out of the comparison, which is what like terms and like factors are found by.
-/

namespace StepAlgebra

/-- Signs agree when they are equal, or when they stand before the number zero. -/
def Body.signsAgree (b : Body) (first second : Bool) : Bool :=
  first == second ||
    match b with
    | .number n => n.isZero
    | _ => false

mutual

/-- Equality apart from the outermost sign and exponent. -/
def Body.same : Body → Body → Bool
  | .number m, .number n => m == n
  | .fraction a b, .fraction c d => Particle.same a c && Particle.same b d
  | .mixed m a b, .mixed n c d => m == n && Particle.same a c && Particle.same b d
  | .symbol x, .symbol y => x == y
  | .term ps, .term qs => Particle.sameRow ps qs
  | .expression ps, .expression qs => Particle.sameRow ps qs
  | .root m p, .root n q => m == n && Particle.same p q
  | _, _ => false

/-- Equality of particles. -/
def Particle.same : Particle → Particle → Bool
  | ⟨s, b, m⟩, ⟨t, c, n⟩ => b.signsAgree s t && m == n && b.same c

/-- Equality of rows of particles. -/
def Particle.sameRow : List Particle → List Particle → Bool
  | [], [] => true
  | p :: ps, q :: qs => Particle.same p q && Particle.sameRow ps qs
  | _, _ => false

end

/-- Equality of values. -/
def Value.same : Value → Value → Bool
  | .particle p, .particle q => p.same q
  | .equation a b, .equation c d => a.same c && b.same d
  | _, _ => false

end StepAlgebra
