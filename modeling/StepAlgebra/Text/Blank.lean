/-!
# Blank characters

The characters with the Unicode property White_Space, and trimming by it.
-/

namespace StepAlgebra.Blank

/-- The code points with the property White_Space, as closed ranges in increasing order. -/
def ranges : List (Nat × Nat) :=
  [(0x9, 0xd), (0x20, 0x20), (0x85, 0x85), (0xa0, 0xa0), (0x1680, 0x1680), (0x2000, 0x200a),
    (0x2028, 0x2029), (0x202f, 0x202f), (0x205f, 0x205f), (0x3000, 0x3000)]

/-- A character is blank when its code point lies in one of the ranges. -/
def isBlank (c : Char) : Bool :=
  ranges.any fun (low, high) => low ≤ c.toNat && c.toNat ≤ high

/-- A text without the blanks at its two ends. -/
def trim (s : String) : String :=
  let tail := s.toList.dropWhile isBlank
  String.ofList (tail.reverse.dropWhile isBlank).reverse

end StepAlgebra.Blank
