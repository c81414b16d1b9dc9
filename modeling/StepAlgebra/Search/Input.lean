import StepAlgebra.Search.Solver
import StepAlgebra.Value.OfFormula

/-!
# Inputs of a search

A search accepts a text that reads as a value of the shape that its mode works on. Without a mode,
an equals sign in the text decides which one is meant.
-/

namespace StepAlgebra

/-- Why an input is not searched. -/
inductive Refusal where
  /-- The text is no statement. -/
  | unread (error : ReadError)
  /-- The mode does not work on values of this shape; the place is that of the text, if any. -/
  | mismatch (mode : Mode) (isEquation : Bool) (place : Option Span)

/-- The words for a refused input. -/
def Refusal.report : Refusal → Report
  | unread error => error.report
  | mismatch mode isEquation place =>
      let label := if isEquation then "this is an equation" else "this has no = sign"
      { message := "cannot " ++ mode.name ++ " this input"
        labels := place.toList.map fun place => (place, label)
        help := some (
          if isEquation then
            "only `solve` accepts an equation; use `--mode solve`"
          else
            "`solve` needs an equation such as `2x=4`") }

namespace Mode

/-- Refuses a value that a mode does not fit. -/
def check (mode : Mode) (v : Value) (place : Option Span) : Except Refusal Value :=
  if mode.accepts v then .ok v else .error (.mismatch mode v.isEquation place)

/-- Reads a text as a value that a mode fits. -/
def read (mode : Mode) (input : String) : Except Refusal Value :=
  match Value.read input with
  | .error error => .error (.unread error)
  | .ok v => mode.check v (some ⟨0, input.utf8ByteSize⟩)

/-- The mode that a text asks for by itself. -/
def suggested (input : String) : Mode :=
  if input.toList.contains '=' then solve else simplify

end Mode

/-- Searches for a finished value of a text. -/
def Search.runText (s : Search) (input : String) : Except Refusal Finding :=
  (s.mode.read input).map s.run

end StepAlgebra
