import StepAlgebra.Particle.Basic

/-!
# Modes

What a search is asked for, and which inputs it accepts for that.
-/

namespace StepAlgebra

/-- What to do with an input. -/
inductive Mode where
  /-- Finish both sides of an equation. -/
  | solve
  /-- Simplify an expression. -/
  | simplify
  /-- Turn an expression into a single term. -/
  | factor
  deriving DecidableEq

namespace Mode

/-- The name of a mode on the command line. -/
def name : Mode → String
  | solve => "solve"
  | simplify => "simplify"
  | factor => "factor"

/-- The mode of a name. -/
def ofName? : String → Option Mode
  | "solve" => some solve
  | "simplify" => some simplify
  | "factor" => some factor
  | _ => none

/-- What is said about a name that is no mode. -/
def unknownName (s : String) : String :=
  "unknown mode `" ++ s ++ "`; expected `solve`, `simplify`, or `factor`"

/-- Only solving works on an equation, and it works on nothing else. -/
def acceptsEquation : Mode → Bool
  | solve => true
  | simplify | factor => false

/-- Tells whether a mode fits a value. -/
def accepts (mode : Mode) (v : Value) : Bool :=
  mode.acceptsEquation == v.isEquation

end Mode

end StepAlgebra
