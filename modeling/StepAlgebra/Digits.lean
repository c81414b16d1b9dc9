/-!
# Decimal digits

Digits as they are written, most significant first. A digit text keeps its leading zeros and may
be empty; its value forgets them.

* `Digits.value` reads a natural number off the digits.
* `Digits.ofNat` writes a natural number with no superfluous zero.
* `Digits.number?` reads a text that consists of digits alone.
-/

namespace StepAlgebra

/-- A decimal digit. -/
abbrev Digit := Fin 10

/-- Digits in the order of writing, most significant first. -/
abbrev Digits := List Digit

namespace Digit

/-- The digit of a number below ten; the last digit of any other. -/
def ofNat (n : Nat) : Digit :=
  Fin.ofNat 10 n

/-- The character that writes a digit. -/
def toChar (d : Digit) : Char :=
  Char.ofNat ('0'.toNat + d.val)

/-- The digit that a character writes, if it is one of `0` to `9`. -/
def ofChar? (c : Char) : Option Digit :=
  if h : '0'.toNat ≤ c.toNat ∧ c.toNat - '0'.toNat < 10 then
    some ⟨c.toNat - '0'.toNat, h.2⟩
  else
    none

/-- A character is a decimal digit when it writes one. -/
def isWrittenBy (c : Char) : Bool :=
  (ofChar? c).isSome

end Digit

namespace Digits

/-- The digits as text. -/
def text (ds : Digits) : String :=
  String.ofList (ds.map Digit.toChar)

/-- The digits among the characters of a text. -/
def ofChars (cs : List Char) : Digits :=
  cs.filterMap Digit.ofChar?

/-- The natural number that the digits write in base ten; no digits write zero. -/
def value (ds : Digits) : Nat :=
  ds.foldl (fun n d => 10 * n + d.val) 0

/-- Puts the digits of a number in front of those already written. -/
def prepend (n : Nat) (written : Digits) : Digits :=
  if n < 10 then
    Digit.ofNat n :: written
  else
    prepend (n / 10) (Digit.ofNat n :: written)
termination_by n

/-- The digits that write a natural number; zero is written by the digit zero. -/
def ofNat (n : Nat) : Digits :=
  prepend n []

/-- The text of a natural number. -/
def natText (n : Nat) : String :=
  text (ofNat n)

/-- The number written by a text of one or more digits and nothing else. -/
def number? (s : String) : Option Nat :=
  match s.toList with
  | [] => none
  | cs => (cs.mapM Digit.ofChar?).map value

end Digits

/-- The number written by digits, after an optional plus sign, if it is below the bound. -/
def naturalBelow? (bound : Nat) (s : String) : Option Nat :=
  let digits := match s.toList with
    | '+' :: cs => String.ofList cs
    | _ => s
  (Digits.number? digits).filter (· < bound)

end StepAlgebra
