import StepAlgebra.Formula.Basic

/-!
# Writing formulas

A formula is written with its own groups and signs. Factors are written side by side, with `*`
only where two numbers would otherwise run together.
-/

namespace StepAlgebra

/-- The index of a radical in square brackets, if there is one. -/
def Formula.indexText : Option UInt32 → String
  | some index => "[" ++ Digits.natText index.toNat ++ "]"
  | none => ""

namespace Formula

/-- A term with a minus sign in front. -/
def isSubtracted : Formula → Bool
  | signed false _ _ => true
  | _ => false

mutual

/-- The text of a formula. -/
def text : Formula → String
  | literal numeral _ => numeral.text
  | symbol name _ => String.singleton name
  | fraction top bottom _ => "(" ++ top.text ++ ")/(" ++ bottom.text ++ ")"
  | mixed numeral _ top bottom _ _ =>
      numeral.text ++ "(" ++ top.text ++ ")/(" ++ bottom.text ++ ")"
  | root index radicand _ => "√" ++ indexText index ++ radicand.text
  | group inner _ => "(" ++ inner.text ++ ")"
  | power base exponent _ _ => base.text ++ Superscript.ofNat exponent.toNat
  | product factors _ => factorsText factors
  | signed positive operand _ => (if positive then "+" else "-") ++ operand.text
  | sum terms _ => termsText terms

/-- The text of a row of factors. -/
def factorsText : List Formula → String
  | [] => ""
  | first :: others => first.text ++ moreFactorsText others

/-- The text of the factors that follow another. -/
def moreFactorsText : List Formula → String
  | [] => ""
  | factor :: others =>
      (if factor.startsWithDigit then "*" else "") ++ factor.text ++ moreFactorsText others

/-- The text of a row of terms. -/
def termsText : List Formula → String
  | [] => ""
  | first :: others => first.text ++ moreTermsText others

/-- The text of the terms that follow another; a minus sign separates by itself. -/
def moreTermsText : List Formula → String
  | [] => ""
  | term :: others =>
      (if term.isSubtracted then "" else "+") ++ term.text ++ moreTermsText others

end

end Formula

/-- The text of a statement. -/
def Statement.text : Statement → String
  | formula f => f.text
  | equation left right _ => left.text ++ "=" ++ right.text

end StepAlgebra
