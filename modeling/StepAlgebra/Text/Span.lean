/-!
# Spans

Regions of the text, measured in bytes of its UTF-8 form.
-/

namespace StepAlgebra

/-- The bytes from `start` up to, but not including, `stop`. -/
structure Span where
  start : Nat
  stop : Nat
  deriving DecidableEq

namespace Span

/-- The empty span at an offset. -/
def point (offset : Nat) : Span :=
  ⟨offset, offset⟩

/-- The span that runs from the start of the first to the end of the second. -/
def through (first last : Span) : Span :=
  ⟨first.start, last.stop⟩

end Span

end StepAlgebra
