import StepAlgebra.Proofs.Particle.Meaning
import StepAlgebra.Value.OfFormula

/-!
# What formulas mean

A formula has a number of its own, by the usual rules of the notation: digits count by their
places, a sign belongs to the whole product behind it, and an exponent to the atom in front of it.
Nothing here knows how a value keeps signs and exponents, or that it has no groups.

* `Formula.meaning` — the number that a formula means;
* `Particle.meaning_raise` — an exponent applies to the particle it is written on, sign and all;
* `Value.conversion_keeps_meaning` — a value means what the formula does that it comes from.
-/

namespace StepAlgebra

namespace Digits

/-- The part of one that digits behind a point write: tenths, hundredths and so on. -/
def afterPoint : Digits → ℚ
  | [] => 0
  | d :: ds => (d.val + afterPoint ds) / 10

theorem value_append_eq_afterPoint (ds es : Digits) :
    (value (ds ++ es) : ℚ) = (ds.value + es.afterPoint) * 10 ^ es.length := by
  have places : (es.value : ℚ) = es.afterPoint * 10 ^ es.length := by
    induction es with
    | nil => simp [afterPoint]
    | cons d es ih =>
        rw [value_cons, afterPoint, List.length_cons]
        push_cast
        rw [ih]
        ring
  rw [value_append]
  push_cast
  rw [places]
  ring

end Digits

/-- The number that a numeral writes, place by place. -/
def Numeral.placeValue (n : Numeral) : ℚ :=
  (n.whole.value + (n.places.getD []).afterPoint) * 10 ^ n.power.elim 0 Int32.toInt

theorem Numeral.meaning_eq_placeValue (n : Numeral) : n.meaning = n.placeValue := by
  have ten : (10 : ℚ) ≠ 0 := by norm_num
  rw [meaning, digits, Digits.value_append_eq_afterPoint, placeValue, zpow_sub₀ ten, zpow_natCast,
    mul_assoc, mul_div_cancel₀ _ (pow_ne_zero _ ten)]

/-! ## Formulas and statements -/

namespace Formula

mutual

/-- The number that a formula means. A radical without an index is a square root. -/
def meaning (a : Assignment) : Formula → ℚ
  | literal n _ => n.placeValue
  | symbol name _ => a.symbol name
  | fraction top bottom _ => meaning a top / meaning a bottom
  | mixed n _ top bottom _ _ => n.placeValue + meaning a top / meaning a bottom
  | root index radicand _ => a.root (index.getD 2) (meaning a radicand)
  | group inner _ => meaning a inner
  | power base exponent _ _ => meaning a base ^ exponent.toNat
  | product factors _ => (meanings a factors).prod
  | signed positive operand _ => if positive then meaning a operand else -meaning a operand
  | sum terms _ => (meanings a terms).sum

/-- The numbers that the formulas of a row mean. -/
def meanings (a : Assignment) : List Formula → List ℚ
  | [] => []
  | f :: fs => meaning a f :: meanings a fs

end

end Formula

/-- What stands on its own in a statement: a formula, or the two sides of an equation. -/
def Statement.sides : Statement → List Formula
  | formula f => [f]
  | equation left right _ => [left, right]

/-- What stands on its own in a value: a particle, or the two sides of an equation. -/
def Value.sides : Value → List Particle
  | particle p => [p]
  | equation left right => [left, right]

/-! ## Signs and exponents -/

namespace Particle

variable {a : Assignment}

theorem meaning_negate (p : Particle) : meaning a p.negate = -p.meaning a := by
  rw [meaning_eq, meaning_eq p]
  simp only [Powered.negate]
  rw [sgn_not, neg_mul]

/-- An exponent applies to all of what it is written on, so the sign under it is raised too. -/
theorem meaning_raise (p : Particle) (exponent : UInt32) :
    (p.raise exponent).meaning a = p.meaning a ^ exponent.toNat := by
  unfold raise
  split
  · next plain =>
    obtain ⟨positive, one⟩ := plain
    rw [meaning_eq, meaning_eq p, positive, one, show (1 : UInt32).toNat = 1 from rfl]
    simp only [Powered.withExponent, positive, sgn_true, one_mul, pow_one]
  · rw [meaning, bodyMeaning, rowProduct, rowProduct, sgn_true, one_mul, mul_one]

/-! ## Conversion -/

theorem meaning_plain_body (b : Body) : b.plain.meaning a = bodyMeaning a b := by
  rw [Body.plain, meaning_plain, sgn_true, one_mul]

mutual

/-- A particle means what the formula does that it comes from. -/
theorem meaning_ofFormula (a : Assignment) :
    (f : Formula) → (ofFormula f).meaning a = f.meaning a
  | .literal n _ => by
      rw [ofFormula, meaning_plain_body, bodyMeaning, Formula.meaning, n.meaning_eq_placeValue]
  | .symbol name _ => by
      rw [ofFormula, meaning_plain_body, bodyMeaning, Formula.meaning]
  | .fraction top bottom _ => by
      rw [ofFormula, meaning_plain_body, bodyMeaning, Formula.meaning, meaning_ofFormula a top,
        meaning_ofFormula a bottom]
  | .mixed n _ top bottom _ _ => by
      rw [ofFormula, meaning_plain_body, bodyMeaning, Formula.meaning, n.meaning_eq_placeValue,
        meaning_ofFormula a top, meaning_ofFormula a bottom]
  | .root index radicand _ => by
      rw [ofFormula, meaning_plain_body, bodyMeaning, Formula.meaning, meaning_ofFormula a radicand]
  | .group inner _ => by
      rw [ofFormula, Formula.meaning, meaning_ofFormula a inner]
  | .power base exponent _ _ => by
      rw [ofFormula, meaning_raise, Formula.meaning, meaning_ofFormula a base]
  | .product factors _ => by
      rw [ofFormula, meaning_plain_body, bodyMeaning, Formula.meaning, rowProduct_eq,
        map_meaning_ofRow a factors]
  | .signed positive operand _ => by
      rw [ofFormula, Formula.meaning]
      split
      · exact meaning_ofFormula a operand
      · rw [meaning_negate, meaning_ofFormula a operand]
  | .sum terms _ => by
      rw [ofFormula, meaning_plain_body, bodyMeaning, Formula.meaning, rowSum_eq,
        map_meaning_ofRow a terms]

/-- Rows of formulas mean what the rows of particles do that they become. -/
theorem map_meaning_ofRow (a : Assignment) :
    (fs : List Formula) → (ofRow fs).map (meaning a) = Formula.meanings a fs
  | [] => by rw [ofRow, Formula.meanings, List.map_nil]
  | f :: fs => by
      rw [ofRow, Formula.meanings, List.map_cons, meaning_ofFormula a f, map_meaning_ofRow a fs]

end

end Particle

/-- Whatever the variables and roots stand for, a value means what the statement does that it comes
from, an equation side by side; and so does every part of a statement and the particle that it
becomes. -/
theorem Value.conversion_keeps_meaning (a : Assignment) :
    (∀ s : Statement, (ofStatement s).sides.map (Particle.meaning a) =
      s.sides.map (Formula.meaning a)) ∧
        ∀ f : Formula, (Particle.ofFormula f).meaning a = f.meaning a := by
  refine ⟨fun s => ?_, Particle.meaning_ofFormula a⟩
  cases s with
  | formula f => exact congrArg (fun x => [x]) (Particle.meaning_ofFormula a f)
  | equation left right place =>
      simp only [ofStatement, sides, Statement.sides, List.map_cons, List.map_nil,
        Particle.meaning_ofFormula]

end StepAlgebra
