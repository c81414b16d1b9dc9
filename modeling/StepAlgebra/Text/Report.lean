import StepAlgebra.Digits
import StepAlgebra.Text.Span

/-!
# Reports

What a failure tells the reader: a message, labels on regions of the text, and sometimes help. They
are written plainly, line by line; the lines of the input with frames and colours around them are
left to what shows a report.
-/

namespace StepAlgebra

/-- The words that describe a failure. -/
structure Report where
  /-- What is wrong. -/
  message : String
  /-- What stands at each region that the failure points at. -/
  labels : List (Span × String) := []
  /-- What to do about it. -/
  help : Option String := none

namespace Report

private def labelLines (labels : List (Span × String)) : List String :=
  labels.map fun (span, label) =>
    "  at " ++ Digits.natText span.start ++ ".." ++ Digits.natText span.stop ++ ": " ++ label

/-- The report as lines of text. -/
def text (r : Report) : String :=
  let help := r.help.toList.map fun help => "  help: " ++ help
  "\n".intercalate (("error: " ++ r.message) :: labelLines r.labels ++ help) ++ "\n"

end Report

end StepAlgebra
