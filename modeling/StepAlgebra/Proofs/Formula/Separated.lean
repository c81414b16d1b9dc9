import StepAlgebra.Formula.Printer
import StepAlgebra.Proofs.Formula.Built

/-!
# Parts that keep apart

A formula is written without blanks, and with a multiplication sign only in front of a digit. Three
pairs of neighbours run together in that text: a whole number and a quotient of literals become a
mixed number, a number and a power of ten become one number in scientific notation, and the
exponent over a number in scientific notation becomes a part of it.

* `Formula.unplaced`, `Statement.unplaced` — what is left of a tree without its places;
* `Formula.staysApart` — two factors that do not run together;
* `Formula.isSeparated`, `Statement.isSeparated` — trees in which no parts do.
-/

namespace StepAlgebra

/-- The numeral `10`. -/
def Numeral.ten : Numeral :=
  ⟨[.ofNat 1, .ofNat 0], none, none⟩

namespace Formula

/-! ## Trees without places -/

mutual

/-- A formula with every place forgotten. -/
def unplaced : Formula → Formula
  | literal n _ => literal n (Span.point 0)
  | symbol name _ => symbol name (Span.point 0)
  | fraction top bottom _ => fraction top.unplaced bottom.unplaced (Span.point 0)
  | mixed n _ top bottom _ _ =>
      mixed n (Span.point 0) top.unplaced bottom.unplaced (Span.point 0) (Span.point 0)
  | root index radicand _ => root index radicand.unplaced (Span.point 0)
  | group inner _ => group inner.unplaced (Span.point 0)
  | power base exponent _ _ => power base.unplaced exponent (Span.point 0) (Span.point 0)
  | product factors _ => product (unplacedRow factors) (Span.point 0)
  | signed positive operand _ => signed positive operand.unplaced (Span.point 0)
  | sum terms _ => sum (unplacedRow terms) (Span.point 0)

/-- A row of formulas with every place forgotten. -/
def unplacedRow : List Formula → List Formula
  | [] => []
  | f :: fs => f.unplaced :: unplacedRow fs

end

/-- The second formula differs from the first in its places at most. -/
def Like (f g : Formula) : Prop :=
  g.unplaced = f.unplaced

/-- The same of two rows. -/
def LikeRow (fs gs : List Formula) : Prop :=
  unplacedRow gs = unplacedRow fs

variable {f g top bottom : Formula} {fs gs : List Formula} {span span' : Span}

theorem Like.symm (h : Like f g) : Like g f :=
  Eq.symm h

theorem like_fraction : Like (.fraction f top span) (.fraction g bottom span') ↔
    Like f g ∧ Like top bottom := by
  show fraction g.unplaced bottom.unplaced _ = fraction f.unplaced top.unplaced _ ↔ _
  simp only [fraction.injEq, and_true, Like]

theorem like_mixed {m n : Numeral} {span₁ span₂ span₁' span₂' : Span} :
    Like (.mixed m span₁ f top span₂ span) (.mixed n span₁' g bottom span₂' span') ↔
      n = m ∧ Like f g ∧ Like top bottom := by
  show mixed n _ g.unplaced bottom.unplaced _ _ = mixed m _ f.unplaced top.unplaced _ _ ↔ _
  simp only [mixed.injEq, and_true, true_and, Like]

theorem like_root {i j : Option UInt32} :
    Like (.root i f span) (.root j g span') ↔ j = i ∧ Like f g := by
  show root j g.unplaced _ = root i f.unplaced _ ↔ _
  simp only [root.injEq, and_true, Like]

theorem like_group : Like (.group f span) (.group g span') ↔ Like f g := by
  show group g.unplaced _ = group f.unplaced _ ↔ _
  simp only [group.injEq, and_true, Like]

theorem like_power {e e' : UInt32} {span₁ span₁' : Span} :
    Like (.power f e span₁ span) (.power g e' span₁' span') ↔ Like f g ∧ e' = e := by
  show power g.unplaced e' _ _ = power f.unplaced e _ _ ↔ _
  simp only [power.injEq, and_true, Like]

theorem like_product : Like (.product fs span) (.product gs span') ↔ LikeRow fs gs := by
  show product (unplacedRow gs) _ = product (unplacedRow fs) _ ↔ _
  simp only [product.injEq, and_true, LikeRow]

theorem like_signed {positive positive' : Bool} :
    Like (.signed positive f span) (.signed positive' g span') ↔
      positive' = positive ∧ Like f g := by
  show signed positive' g.unplaced _ = signed positive f.unplaced _ ↔ _
  simp only [signed.injEq, and_true, Like]

theorem like_sum : Like (.sum fs span) (.sum gs span') ↔ LikeRow fs gs := by
  show sum (unplacedRow gs) _ = sum (unplacedRow fs) _ ↔ _
  simp only [sum.injEq, and_true, LikeRow]

theorem likeRow_cons : LikeRow (f :: fs) (g :: gs) ↔ Like f g ∧ LikeRow fs gs := by
  show g.unplaced :: unplacedRow gs = f.unplaced :: unplacedRow fs ↔ _
  simp only [List.cons.injEq, Like, LikeRow]

theorem isSignedLiteral_unplaced (f : Formula) :
    f.unplaced.isSignedLiteral = f.isSignedLiteral := by
  cases f with
  | signed positive operand => cases operand <;> rfl
  | literal | symbol | fraction | mixed | root | group | power | product | sum => rfl

theorem Like.isSignedLiteral (h : Like f g) : g.isSignedLiteral = f.isSignedLiteral := by
  rw [← isSignedLiteral_unplaced g, show g.unplaced = f.unplaced from h, isSignedLiteral_unplaced]

theorem length_unplacedRow (fs : List Formula) : (unplacedRow fs).length = fs.length := by
  induction fs with
  | nil => rfl
  | cons f fs ih => rw [unplacedRow, List.length_cons, List.length_cons, ih]

theorem LikeRow.length_eq (h : LikeRow fs gs) : gs.length = fs.length := by
  rw [← length_unplacedRow gs, show unplacedRow gs = unplacedRow fs from h, length_unplacedRow]

/-- Rows that are alike make up products that are. -/
theorem LikeRow.ofFactors (h : LikeRow fs gs) :
    Like (Formula.ofFactors fs) (Formula.ofFactors gs) := by
  match fs, gs with
  | [], [] => rfl
  | [f], [g] => exact (likeRow_cons.mp h).1
  | _ :: _ :: _, _ :: _ :: _ => exact like_product.mpr h
  | [], _ :: _ | _ :: _, [] | [_], _ :: _ :: _ | _ :: _ :: _, [_] => cases h.length_eq

/-- Rows that are alike make up sums that are. -/
theorem LikeRow.ofTerms (h : LikeRow fs gs) :
    Like (Formula.ofTerms fs) (Formula.ofTerms gs) := by
  match fs, gs with
  | [], [] => rfl
  | [f], [g] => exact (likeRow_cons.mp h).1
  | _ :: _ :: _, _ :: _ :: _ => exact like_sum.mpr h
  | [], _ :: _ | _ :: _, [] | [_], _ :: _ :: _ | _ :: _ :: _, [_] => cases h.length_eq

/-! ## Neighbours -/

/-- The number that an atom is written with at its end. A radical ends as what is under it does. -/
def lastNumber? : Formula → Option Numeral
  | literal n _ => some n
  | root _ radicand _ => lastNumber? radicand
  | _ => none

/-- A quotient of literals, or a power of one. Behind a whole number it is the fraction of a mixed
number. -/
def isNumericQuotient : Formula → Bool
  | fraction top bottom _ => top.isSignedLiteral && bottom.isSignedLiteral
  | power base _ _ _ => base.isNumericQuotient
  | _ => false

/-- A power of the number that is written `10`. Behind a number it makes scientific notation. -/
def isPowerOfTen : Formula → Bool
  | power (literal n _) _ _ _ => n == .ten
  | _ => false

/-- The texts of two factors do not run together. -/
def staysApart (f g : Formula) : Bool :=
  match f.lastNumber? with
  | none => true
  | some n => !(n.isWhole && g.isNumericQuotient) && (n.isScientific || !g.isPowerOfTen)

mutual

/-- No parts of a formula run together in its text. -/
def isSeparated : Formula → Bool
  | literal _ _ | symbol _ _ | mixed _ _ _ _ _ _ => true
  | fraction top bottom _ => top.isSeparated && bottom.isSeparated
  | root _ radicand _ => radicand.isSeparated
  | group inner _ => inner.isSeparated
  | power base _ _ _ => base.isSeparated && !base.lastNumber?.any Numeral.isScientific
  | product factors _ => factorsAreSeparated factors
  | signed _ operand _ => operand.isSeparated
  | sum terms _ => termsAreSeparated terms

/-- No parts of a row of factors run together, and no two neighbours. -/
def factorsAreSeparated : List Formula → Bool
  | [] => true
  | f :: fs => f.isSeparated && fs.head?.all f.staysApart && factorsAreSeparated fs

/-- No parts of the formulas in a row run together. -/
def termsAreSeparated : List Formula → Bool
  | [] => true
  | f :: fs => f.isSeparated && termsAreSeparated fs

end

theorem isSeparated_of_factors (h : factorsAreSeparated fs = true) :
    ∀ f ∈ fs, f.isSeparated = true := by
  induction fs with
  | nil => exact List.forall_mem_nil _
  | cons f fs ih =>
      simp only [factorsAreSeparated, Bool.and_eq_true] at h
      exact List.forall_mem_cons.mpr ⟨h.1.1, ih h.2⟩

theorem isSeparated_of_terms (h : termsAreSeparated fs = true) :
    ∀ f ∈ fs, f.isSeparated = true := by
  induction fs with
  | nil => exact List.forall_mem_nil _
  | cons f fs ih =>
      simp only [termsAreSeparated, Bool.and_eq_true] at h
      exact List.forall_mem_cons.mpr ⟨h.1, ih h.2⟩

theorem isSeparated_of_isSignedLiteral (h : f.isSignedLiteral = true) : f.isSeparated = true := by
  cases f with
  | literal => rfl
  | signed positive operand =>
      cases operand with
      | literal => rfl
      | symbol | fraction | mixed | root | group | power | product | signed | sum => cases h
  | symbol | fraction | mixed | root | group | power | product | sum => cases h

end Formula

namespace Statement

/-- A statement with every place forgotten. -/
def unplaced : Statement → Statement
  | formula f => formula f.unplaced
  | equation left right _ => equation left.unplaced right.unplaced (Span.point 0)

/-- The second statement differs from the first in its places at most. -/
def Alike (s s' : Statement) : Prop :=
  s'.unplaced = s.unplaced

theorem alike_formula {f g : Formula} : Alike (.formula f) (.formula g) ↔ f.Like g := by
  show formula g.unplaced = formula f.unplaced ↔ _
  rw [formula.injEq, Formula.Like]

theorem alike_equation {f g f' g' : Formula} {span span' : Span} :
    Alike (.equation f g span) (.equation f' g' span') ↔ f.Like f' ∧ g.Like g' := by
  show equation f'.unplaced g'.unplaced _ = equation f.unplaced g.unplaced _ ↔ _
  simp only [equation.injEq, and_true, Formula.Like]

/-- No parts of a statement run together in its text. -/
def isSeparated : Statement → Bool
  | formula f => f.isSeparated
  | equation left right _ => left.isSeparated && right.isSeparated

end Statement

end StepAlgebra
