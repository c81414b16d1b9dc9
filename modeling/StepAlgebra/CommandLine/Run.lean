import StepAlgebra.CommandLine.Arguments
import StepAlgebra.Text.Blank

/-!
# Running the command line

The arguments name one input, or else every line of the standard input is one. Each is searched on
its own; what is written for one does not depend on the others.

How arguments are read is a parameter of the run: a reader gives what they ask for, or else ends the
run with a text and a code of its own. `standardReader` is one for the options in their usual
notation. A prompt for a terminal is no part of a run.
-/

namespace StepAlgebra.CommandLine

/-- What a run writes, and how it ends. -/
structure Transcript where
  /-- The text for the standard output. -/
  output : String := ""
  /-- The text for the standard error. -/
  complaints : String := ""
  /-- True unless some input was refused. -/
  success : Bool := true

namespace Transcript

/-- One transcript after another; together they succeed if both do. -/
def append (first second : Transcript) : Transcript :=
  { output := first.output ++ second.output
    complaints := first.complaints ++ second.complaints
    success := first.success && second.success }

end Transcript

/-- The text for a step: its explanation, then the whole value after it. -/
def stepText (step : Step) : String :=
  Explanation.text step.explanation ++ "  " ++ step.result.text ++ "\n"

/-- The text for what a search has found. -/
def findingText : Finding → String
  | .solved solution =>
      if solution.steps.isEmpty then
        solution.current.text ++ " is already solved.\n"
      else
        String.join (solution.steps.map stepText)
  | .unsolved _ _ => "no solution found\n"

/-- Searches one input. -/
def runInput (a : Arguments) (input : String) : Transcript :=
  match (a.search input).runText input with
  | .ok finding => { output := findingText finding }
  | .error refusal => { complaints := refusal.report.text, success := false }

/-- Searches one line, without the blanks around it; a blank line is no input. -/
def runLine (a : Arguments) (line : String) : Transcript :=
  let input := Blank.trim line
  if input.isEmpty then {} else runInput a input

/-- Bytes cut at the line feeds. -/
def splitLines : List UInt8 → List (List UInt8)
  | [] => [[]]
  | b :: bs =>
      if b = 10 then
        [] :: splitLines bs
      else
        match splitLines bs with
        | line :: lines => (b :: line) :: lines
        | [] => [[b]]

/-- Searches line after line. A line that is not UTF-8 is refused, and so are all after it. -/
def runLines (a : Arguments) : List (List UInt8) → Transcript
  | [] => {}
  | line :: lines =>
      match String.fromUTF8? ⟨line.toArray⟩ with
      | none => { complaints := "error: the input is not UTF-8\n", success := false }
      | some s => (runLine a s).append (runLines a lines)

/-- Reads arguments as what they ask for, or else gives what to write instead and the code to end
with. -/
abbrev ArgumentReader :=
  List String → Except (Transcript × UInt8) Arguments

/-- What is written for arguments that are not run, and the code that ends the run. The help says
no more than how the program is called. -/
def Stop.ending : Stop → Transcript × UInt8
  | .help => ({ output := "Usage: solve4x [OPTIONS] [INPUT]\n" }, 0)
  | .version => ({ output := "solve4x 0.1.0\n" }, 0)
  | .misuse =>
      ({ complaints := "error: the arguments are not understood\n", success := false }, 2)

/-- Reads the options in their usual notation. -/
def standardReader : ArgumentReader :=
  fun arguments => (Arguments.read arguments).mapError Stop.ending

/-- What is to be done for the arguments. -/
inductive Plan where
  /-- Write this and end with this code. -/
  | finish (transcript : Transcript) (code : UInt8)
  /-- Search the lines of the standard input. -/
  | batch (a : Arguments)

/-- The code that a transcript ends with. -/
def exitCode (t : Transcript) : UInt8 :=
  if t.success then 0 else 1

/-- Decides what to do for the arguments. -/
def plan (read : ArgumentReader) (arguments : List String) : Plan :=
  match read arguments with
  | .error (t, code) => .finish t code
  | .ok a =>
      match a.input with
      | some input => let t := runInput a input; .finish t (exitCode t)
      | none => .batch a

/-- The whole run for the arguments and the bytes of the standard input. -/
def runWith (read : ArgumentReader) (arguments : List String) (stdin : List UInt8) :
    Transcript × UInt8 :=
  match plan read arguments with
  | .finish t code => (t, code)
  | .batch a => let t := runLines a (splitLines stdin); (t, exitCode t)

/-- The run with the standard reader. -/
def run (arguments : List String) (stdin : List UInt8) : Transcript × UInt8 :=
  runWith standardReader arguments stdin

end StepAlgebra.CommandLine
