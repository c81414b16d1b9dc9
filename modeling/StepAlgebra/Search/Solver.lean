import StepAlgebra.Step.Rule
import StepAlgebra.Search.Finished

/-!
# The search for a solution

A search goes in rounds. It starts from the input alone; each round looks for a finished value
among the solutions at hand, and if there is none takes every possible step from every one of
them. So the first finished value is one with the fewest steps.

The solutions at hand do not depend on each other: taking their steps one after another, or all at
once with the results put together in order, is the same search. It keeps no log.
-/

namespace StepAlgebra

/-- An input and the steps taken from it. The result of each step is the whole value after it. -/
structure Solution where
  input : Value
  steps : List Step

namespace Solution

/-- The solution with no steps. -/
def start (input : Value) : Solution :=
  ⟨input, []⟩

/-- The value after the last step. -/
def current (s : Solution) : Value :=
  match s.steps.getLast? with
  | some step => step.result
  | none => s.input

/-- The solution with one more step. -/
def push (s : Solution) (step : Step) : Solution :=
  { s with steps := s.steps ++ [step] }

end Solution

/-- Why a search gave up. -/
inductive GiveUp where
  /-- There was no step left to take. -/
  | exhausted
  /-- There were steps left, but no rounds. -/
  | roundCap
  deriving DecidableEq

/-- What a search has found. -/
inductive Finding where
  | solved (solution : Solution)
  | unsolved (rounds : Nat) (reason : GiveUp)

/-- What a search is to do, and how. -/
structure Search where
  mode : Mode
  rounding : Rounding := .decimals
  /-- The most rounds of steps that are taken. -/
  maxRounds : Nat := 25
  /-- A rule is applied only where it scores above this. -/
  threshold : Nat := 3
  /-- The rules that are tried, in order. -/
  roster : List Rule := Rule.roster

namespace Search

/-- Applies a rule to a part of a value and puts the result in its place. -/
def stepAt (s : Search) (rule : Rule) (v : Value) (path : Path) (part : Value) :
    Except Failure Step :=
  match rule.apply s.rounding part with
  | .error failure => .error failure
  | .ok step => (v.splice path step.result).map fun result => { step with result }

/-- The step that a rule takes at a part of a value, if the rule scores and succeeds there. -/
def step? (s : Search) (rule : Rule) (v : Value) (path : Path) (part : Value) : Option Step :=
  if s.threshold < rule.score part then
    match s.stepAt rule v path part with
    | .ok step => some step
    | .error _ => none
  else
    none

/-- Every step from a value, in the order of the rules and then of the parts. -/
def steps (s : Search) (v : Value) : List Step :=
  s.roster.flatMap fun rule =>
    (v.resources rule.level).filterMap fun (path, part) => s.step? rule v path part

/-- Every solution that is one step longer than one of these. -/
def expand (s : Search) (frontier : List Solution) : List Solution :=
  frontier.flatMap fun solution => (s.steps solution.current).map solution.push

/-- What can be said of a frontier after some rounds without taking another step: that it holds a
finished value, or that nothing is left in it. -/
def conclude? (s : Search) (frontier : List Solution) (done : Nat) : Option Finding :=
  match frontier.find? fun solution => solution.current.isFinished s.mode with
  | some solution => some (.solved solution)
  | none => if frontier.isEmpty then some (.unsolved done .exhausted) else none

/-- Goes on from a frontier, after some rounds, for at most so many more. -/
def rounds (s : Search) (frontier : List Solution) (done : Nat) : (left : Nat) → Finding
  | 0 => (s.conclude? frontier done).getD (.unsolved done .roundCap)
  | left + 1 =>
      match s.conclude? frontier done with
      | some finding => finding
      | none => rounds s (s.expand frontier) (done + 1) left

/-- Searches for a finished value. -/
def run (s : Search) (input : Value) : Finding :=
  s.rounds [Solution.start input] 0 s.maxRounds

end Search

end StepAlgebra
