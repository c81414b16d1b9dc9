import StepAlgebra.Step.LikeFactors
import StepAlgebra.Step.LikeTerms

/-!
# Rules

A rule scores a value before it is applied: 0 if it has nothing to do there, 7 for a single
opportunity, 9 for several.
-/

namespace StepAlgebra

namespace Value

/-- The factors of a value, if it is a term. -/
def factors? : Value → Option (List Particle)
  | .particle ⟨_, .term factors, _⟩ => some factors
  | _ => none

/-- The terms of a value, if it is an expression. -/
def terms? : Value → Option (List Particle)
  | .particle ⟨_, .expression terms, _⟩ => some terms
  | _ => none

/-- How many factors would go by multiplying: of the value itself if it is a term, else of each
term in it. -/
def excesses (v : Value) : List Nat :=
  match v.factors? with
  | some factors => [Particle.excess factors]
  | none => (v.resources .term).filterMap fun (_, part) => part.factors?.map Particle.excess

/-- The path to the first of the terms with the greatest excess, if one has any. -/
def mostExcessive? (v : Value) : Option (Path × Value) :=
  let scored := (v.resources .term).filterMap fun (path, part) =>
    part.factors?.map fun factors => ((path, part), Particle.excess factors)
  let best := scored.foldl (fun best candidate =>
    if candidate.2 > (best.map Prod.snd).getD 0 then some candidate else best)
    (none : Option ((Path × Value) × Nat))
  best.map Prod.fst

/-- How much adding like terms would simplify a value. -/
def sumScore (v : Value) : Nat :=
  match v.terms? with
  | none => 0
  | some terms =>
      match terms.length - (Particle.likeTerms terms).length with
      | 0 => 0
      | 1 => 7
      | _ => 9

/-- How much multiplying like factors would simplify a value. -/
def productScore (v : Value) : Nat :=
  let excesses := v.excesses
  let total := excesses.foldl Nat.add 0
  if excesses.any (2 ≤ ·) || 3 ≤ total then 9
  else if total = 0 then 0
  else 7

/-- Adds the like terms of an expression. -/
def combineLikeTerms (policy : Rounding) (v : Value) : Except Failure Step :=
  match v with
  | .particle ⟨s, .expression terms, e⟩ =>
      Particle.combineLikeTerms policy ⟨s, .expression terms, e⟩ terms
  | v => .error (.notApplicable .combineLikeTerms v)

/-- Multiplies the like factors of a term, also of one inside another value. -/
def multiply (policy : Rounding) (v : Value) : Except Failure Step :=
  match v with
  | .particle ⟨s, .term factors, e⟩ =>
      Particle.multiplyFactors policy ⟨s, .term factors, e⟩ factors
  | v =>
      match v.mostExcessive? with
      | some (path, .particle ⟨s, .term factors, e⟩) =>
          match Particle.multiplyFactors policy ⟨s, .term factors, e⟩ factors with
          | .error failure => .error failure
          | .ok step => (v.splice path step.result).map fun result => { step with result }
      | _ => .error (.notApplicable .multiply v)

end Value

/-- A way of simplifying the parts of one level. A search works with any rules, of which two are
given here. -/
structure Rule extends Rule.Title where
  /-- How much the rule would simplify a value, from 0 to 9. -/
  score : Value → Nat
  /-- Simplifies a value; results are rounded by a policy. -/
  apply : Rounding → Value → Except Failure Step

namespace Rule

/-- Adds the like terms of an expression. -/
def combineLikeTerms : Rule where
  toTitle := .combineLikeTerms
  score := Value.sumScore
  apply := Value.combineLikeTerms

/-- Multiplies the factors of a term. -/
def multiply : Rule where
  toTitle := .multiply
  score := Value.productScore
  apply := Value.multiply

/-- The rules that a search tries, in order. -/
def roster : List Rule :=
  [combineLikeTerms, multiply]

end Rule

end StepAlgebra
