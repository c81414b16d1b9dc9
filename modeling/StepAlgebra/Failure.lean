import StepAlgebra.Particle.Printer
import StepAlgebra.Step.Title
import StepAlgebra.Text.Report
import StepAlgebra.Value.Path

/-!
# What can go wrong in computing

The causes for which arithmetic or a step is refused, and their reports. All but the last are
never caused by what a user writes, since a rule is only applied where it scores.
-/

namespace StepAlgebra

/-- Why two particles are not computed with, or a value is not simplified. -/
inductive Failure where
  /-- Two particles are not like terms. -/
  | notCombinable (left right : Particle)
  /-- Two particles are not like factors. -/
  | notMultipliable (left right : Particle)
  /-- A path leads nowhere, or an equation would become a part of another value. -/
  | invalidSplice (path : Path) (value : Value)
  /-- A rule has nothing to do in a value. -/
  | notApplicable (rule : Rule.Title) (value : Value)
  /-- A result has no written form. -/
  | tooLarge (left right : Particle)

namespace Failure

private def bugHelp : Option String :=
  some "this is a bug; please report it along with your input"

/-- The words for a failure. -/
def report : Failure → Report
  | notCombinable left right =>
      { message := "internal error: `" ++ left.text ++ "` and `" ++ right.text
          ++ "` cannot be combined"
        help := bugHelp }
  | notMultipliable left right =>
      { message := "internal error: `" ++ left.text ++ "` and `" ++ right.text
          ++ "` cannot be multiplied"
        help := bugHelp }
  | invalidSplice path value =>
      { message := "internal error: nothing to replace at path " ++ path.text ++ " in `"
          ++ value.text ++ "`"
        help := bugHelp }
  | notApplicable rule value =>
      { message := "internal error: `" ++ rule.name ++ "` does not apply to `" ++ value.text
          ++ "`"
        help := bugHelp }
  | tooLarge left right =>
      { message := "`" ++ left.text ++ "` and `" ++ right.text
          ++ "` combine into a value too large to represent"
        help := some "try the input with smaller exponents" }

end Failure

/-- The value with another part at the end of a path. -/
def Value.splice (v : Value) (path : Path) (new : Value) : Except Failure Value :=
  match v.replaceAt? path new with
  | some spliced => .ok spliced
  | none => .error (.invalidSplice path v)

end StepAlgebra
