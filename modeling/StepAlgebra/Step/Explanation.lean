import StepAlgebra.Particle.Printer
import StepAlgebra.Step.Title

/-!
# Explanations

Why a step was taken, told in words and in the values that the words are about.
-/

namespace StepAlgebra

/-- A piece of an explanation. -/
inductive Fragment where
  /-- Words. -/
  | words (s : String)
  /-- A value that the words are about. -/
  | value (v : Value)
  /-- Several particles, written with commas between them. -/
  | list (ps : List Particle)

/-- The text of a fragment. -/
def Fragment.text : Fragment → String
  | words s => s
  | value v => v.text
  | list ps => Particle.listText ps

/-- Fragments in the order of reading. -/
abbrev Explanation := List Fragment

namespace Explanation

/-- The text of an explanation. -/
def text (e : Explanation) : String :=
  String.join (e.map Fragment.text)

/-- Says that several particles were turned into one. -/
def combination (verb : String) (members : List Particle) (result : Particle) : Explanation :=
  [.words (verb ++ " "), .list members, .words " to get ", .value (.particle result),
    .words ".\n"]

end Explanation

/-- One application of a rule. -/
structure Step where
  rule : Rule.Title
  explanation : Explanation
  /-- The value after the step. -/
  result : Value

end StepAlgebra
