import StepAlgebra.Particle.Equality

/-!
# Paths

A part of a value is addressed by the numbers of the children that lead to it; the sides of an
equation are its children 0 and 1.

* `nodes` lists every part with its path, each before the parts inside it.
* `get?` follows a path, and `replaceAt?` puts another value in place of what it leads to.
* `find?` gives the first path to a part that is the same as a target.
-/

namespace StepAlgebra

/-- The numbers of the children to follow, from the outside in. -/
abbrev Path := List Nat

/-- A path in the written form `[0, 1]`. -/
def Path.text (path : Path) : String :=
  "[" ++ ", ".intercalate (path.map Digits.natText) ++ "]"

/-- Puts a child's number in front of paths that start at that child. -/
def Path.under {α : Type} (i : Nat) (below : List (Path × α)) : List (Path × α) :=
  below.map fun (path, part) => (i :: path, part)

namespace Particle

/-- The particle with other children; the right number of them is expected. -/
def withChildren (p : Particle) (children : List Particle) : Particle :=
  match p.body, children with
  | .fraction _ _, [top, bottom] => { p with body := .fraction top bottom }
  | .term _, factors => { p with body := .term factors }
  | .expression _, terms => { p with body := .expression terms }
  | .root index _, [radicand] => { p with body := .root index radicand }
  | _, _ => p

/-- The part that a path leads to. -/
def get? (p : Particle) : Path → Option Particle
  | [] => some p
  | i :: path => p.children[i]?.bind fun child => get? child path

/-- The particle with another part at the end of a path. -/
def replaceAt? (p : Particle) (path : Path) (new : Particle) : Option Particle :=
  match path with
  | [] => some new
  | i :: path => p.children[i]?.bind fun child =>
      (replaceAt? child path new).map fun child => p.withChildren (p.children.set i child)

mutual

/-- Every part of a particle with its path, each before the parts inside it. -/
def nodes : Particle → List (Path × Particle)
  | ⟨positive, body, exponent⟩ => ([], ⟨positive, body, exponent⟩) :: nodesOfBody body

/-- Every part inside a body with its path. -/
def nodesOfBody : Body → List (Path × Particle)
  | .number _ | .mixed _ _ _ | .symbol _ => []
  | .fraction top bottom => Path.under 0 (nodes top) ++ Path.under 1 (nodes bottom)
  | .term factors => nodesOfRow 0 factors
  | .expression terms => nodesOfRow 0 terms
  | .root _ radicand => Path.under 0 (nodes radicand)

/-- Every part of a row of children, the first of which has the given number. -/
def nodesOfRow (i : Nat) : List Particle → List (Path × Particle)
  | [] => []
  | p :: ps => Path.under i (nodes p) ++ nodesOfRow (i + 1) ps

end

end Particle

namespace Value

/-- The part that a path leads to. -/
def get? : Value → Path → Option Value
  | v, [] => some v
  | particle p, path => (p.get? path).map particle
  | equation left right, i :: path =>
      [left, right][i]?.bind fun side => (side.get? path).map particle

/-- The value with another part at the end of a path. Only a whole value can be replaced by an
equation. -/
def replaceAt? (v : Value) (path : Path) (new : Value) : Option Value :=
  match path, new with
  | [], new => some new
  | _ :: _, equation _ _ => none
  | i :: path, particle new =>
      match v with
      | particle p => (p.replaceAt? (i :: path) new).map particle
      | equation left right =>
          match i with
          | 0 => (left.replaceAt? path new).map fun left => equation left right
          | 1 => (right.replaceAt? path new).map fun right => equation left right
          | _ => none

/-- Every part of a value with its path, each before the parts inside it. -/
def nodes : Value → List (Path × Value)
  | particle p => p.nodes.map fun (path, part) => (path, particle part)
  | equation left right =>
      ([], equation left right) ::
        (Path.under 0 left.nodes ++ Path.under 1 right.nodes).map
          fun (path, part) => (path, particle part)

/-- The parts of one level, with their paths. -/
def resources (v : Value) (level : Level) : List (Path × Value) :=
  v.nodes.filter fun (_, part) => part.level == level

/-- The path to the first part that is the same as the target. -/
def find? (v target : Value) : Option Path :=
  (v.nodes.find? fun (_, part) => part.same target).map Prod.fst

/-- The value with its first part that is the same as `old` replaced. -/
def replace? (v old new : Value) : Option Value :=
  (v.find? old).bind fun path => v.replaceAt? path new

end Value

end StepAlgebra
