import StepAlgebra.Particle.Basic

/-!
# Titles of rules

What a solution and a failure tell about a rule without what it does: its name, and the level of
the parts that it simplifies.
-/

namespace StepAlgebra

/-- What a rule is called, and the level of the parts that it simplifies. -/
structure Rule.Title where
  name : String
  level : Level
  deriving DecidableEq

namespace Rule.Title

/-- Adding the like terms of an expression. -/
def combineLikeTerms : Title :=
  ⟨"combine like terms", .expression⟩

/-- Multiplying the factors of a term. -/
def multiply : Title :=
  ⟨"multiply", .term⟩

end Rule.Title

end StepAlgebra
