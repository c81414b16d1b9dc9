import StepAlgebra.Digits

/-!
# Superscripts

Exponents are written in superscript digits. Reading accepts superfluous zeros and refuses a value
that does not fit in 32 bits; writing has one form for each number.
-/

namespace StepAlgebra.Superscript

/-- The superscript minus sign, which stands before a negative power of ten. -/
def minus : Char := '⁻'

/-- The superscript form of a digit. -/
def ofDigit : Digit → Char
  | 0 => '⁰'
  | 1 => '¹'
  | 2 => '²'
  | 3 => '³'
  | 4 => '⁴'
  | 5 => '⁵'
  | 6 => '⁶'
  | 7 => '⁷'
  | 8 => '⁸'
  | 9 => '⁹'

/-- The digit whose superscript form a character is. -/
def digit? : Char → Option Digit
  | '⁰' => some (.ofNat 0)
  | '¹' => some (.ofNat 1)
  | '²' => some (.ofNat 2)
  | '³' => some (.ofNat 3)
  | '⁴' => some (.ofNat 4)
  | '⁵' => some (.ofNat 5)
  | '⁶' => some (.ofNat 6)
  | '⁷' => some (.ofNat 7)
  | '⁸' => some (.ofNat 8)
  | '⁹' => some (.ofNat 9)
  | _ => none

/-- A character is a superscript digit when it is the form of one. -/
def isDigit (c : Char) : Bool :=
  (digit? c).isSome

/-- Raises one character: digits and the minus sign have a superscript form, all else is kept. -/
def raiseChar (c : Char) : Char :=
  match Digit.ofChar? c with
  | some d => ofDigit d
  | none => if c = '-' then minus else c

/-- Raises every character of a text. -/
def raise (s : String) : String :=
  String.ofList (s.toList.map raiseChar)

/-- A natural number in superscript digits. -/
def ofNat (n : Nat) : String :=
  String.ofList ((Digits.ofNat n).map ofDigit)

/-- An integer in superscript digits, after a superscript minus sign if it is negative. -/
def ofInt (z : Int) : String :=
  let magnitude := ofNat z.natAbs
  if z < 0 then String.singleton minus ++ magnitude else magnitude

/-- A natural number in 32 bits, if it fits. -/
def fit? (n : Nat) : Option UInt32 :=
  if n < UInt32.size then some (UInt32.ofNat n) else none

/-- The number that one more superscript digit makes of the number in front of it. Both the number
moved up by a place and the sum with the digit have to fit. -/
def append? (n : UInt32) (c : Char) : Option UInt32 := do
  let d ← digit? c
  let tens ← fit? (n.toNat * 10)
  fit? (tens.toNat + d.val)

/-- The number written by one or more superscript digits, if it fits in 32 bits. -/
def read? (s : String) : Option UInt32 :=
  match s.toList with
  | [] => none
  | cs => cs.foldlM append? 0

end StepAlgebra.Superscript
