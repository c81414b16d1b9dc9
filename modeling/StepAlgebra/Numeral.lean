import StepAlgebra.Text.Superscript

/-!
# Numerals

Unsigned numbers as they are written: whole digits, decimal places after a point, a power of ten
in scientific notation. A numeral is never turned into a binary float, so it is written back
exactly as it was read.
-/

namespace StepAlgebra

/-- A number as written, without a sign. -/
structure Numeral where
  /-- The digits before the point. -/
  whole : Digits
  /-- The digits after the point, if there is one. -/
  places : Option Digits := none
  /-- The power of ten in scientific notation. -/
  power : Option Int32 := none
  deriving DecidableEq

namespace Numeral

/-- The whole numeral of a natural number. -/
def ofNat (n : Nat) : Numeral :=
  ⟨Digits.ofNat n, none, none⟩

/-- The numeral `0`. -/
def zero : Numeral :=
  ⟨[.ofNat 0], none, none⟩

/-- The numeral `1`. -/
def one : Numeral :=
  ⟨[.ofNat 1], none, none⟩

/-- A whole numeral has neither a point nor a power of ten. -/
def isWhole (n : Numeral) : Bool :=
  n.places.isNone && n.power.isNone

/-- A numeral is scientific when it is written with a power of ten. -/
def isScientific (n : Numeral) : Bool :=
  n.power.isSome

/-- All digits, those before the point first. -/
def digits (n : Numeral) : Digits :=
  n.whole ++ n.places.getD []

/-- A numeral is zero when every digit of it is. -/
def isZero (n : Numeral) : Bool :=
  n.digits.all (· == .ofNat 0)

/-- A numeral is one when it is whole and writes `1`, leading zeros aside. -/
def isOne (n : Numeral) : Bool :=
  n.isWhole && n.whole.dropWhile (· == .ofNat 0) == [.ofNat 1]

/-- The numeral as text. -/
def text (n : Numeral) : String :=
  n.whole.text
    ++ (match n.places with
        | some places => "." ++ places.text
        | none => "")
    ++ (match n.power with
        | some power => "*10" ++ Superscript.ofInt power.toInt
        | none => "")

/-! ## Reading the texts of number tokens -/

/-- Reads digits with an optional point among them. -/
def ofDecimalText (s : List Char) : Numeral :=
  match s.dropWhile (· ≠ '.') with
  | [] => ⟨Digits.ofChars s, none, none⟩
  | _ :: places => ⟨Digits.ofChars (s.takeWhile (· ≠ '.')), some (Digits.ofChars places), none⟩

/-- Reads a power of ten, which has to be at most the largest 32-bit integer in size. -/
def power? (s : List Char) : Option Int32 :=
  let (negative, digits) := match s with
    | '⁻' :: digits => (true, digits)
    | _ => (false, s)
  match Superscript.read? (String.ofList digits) with
  | some n =>
      if n.toNat ≤ 2147483647 then
        some (Int32.ofInt (if negative then -n.toNat else n.toNat))
      else
        none
  | none => none

/-- Reads a number in scientific notation, such as `3.0*10⁷`. -/
def ofScientificText? (s : List Char) : Option Numeral :=
  let mantissa := ofDecimalText (s.takeWhile (· ≠ '*'))
  (power? ((s.dropWhile (· ≠ '*')).drop 3)).map fun power =>
    ⟨mantissa.whole, mantissa.places, some power⟩

end Numeral

end StepAlgebra
