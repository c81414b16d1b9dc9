import StepAlgebra.Proofs.Arithmetic.Negation
import StepAlgebra.Proofs.Step.Commutative
import StepAlgebra.Proofs.Step.Progress

/-!
# Signs in sums and products of terms

A sign stands on a particle, on the coefficient of a term or on a constant. Wherever it stands, two
terms under the other signs have the sum under the other sign, a product changes its sign with one of
its factors, and a term added to its own negation leaves zero, through whichever rule it is reached.

* `Particle.areLikeTerms_negate`, `Particle.combine_negate`, `Particle.multiply_negate` — terms and
  factors under the other sign;
* `Particle.signs_are_symmetric` — the test and both operations;
* `Particle.negation_cancels` — opposite terms, and zero as a term.
-/

namespace StepAlgebra.Particle

variable {policy : Rounding} {p q : Particle}

/-- Opposite particles are the negation of each other, as the sign of zero does not count. -/
theorem same_negate_of_opposite (h : Opposite p q) : q.same p.negate = true := by
  cases h with
  | negate => exact same_refl _
  | zero => rfl

/-! ## Tests -/

variable (p q)

theorem signedCoefficient_not (s : Bool) (factors : List Particle) :
    signedCoefficient (!s) factors = (signedCoefficient s factors).negate := by
  unfold signedCoefficient
  split
  · next c _ =>
    cases hc : c.positive <;> simp [Powered.negate, Powered.withSign]
  · rfl

theorem unit_not (s : Bool) : unit (!s) = (unit s).negate := rfl

theorem agreeUpToSign_negate : agreeUpToSign p.negate q.negate = agreeUpToSign p q := rfl

theorem haveLikeFactors_negate : haveLikeFactors p.negate q.negate = haveLikeFactors p q := by
  obtain ⟨s, b, e⟩ := p
  obtain ⟨t, c, f⟩ := q
  show haveLikeFactors ⟨!s, b, e⟩ ⟨!t, c, f⟩ = _
  cases b <;> cases c <;> try rfl
  case term.term ps qs =>
    simp only [haveLikeFactors, signedCoefficient_not, areCombinable_negate]

theorem isMultipleOf_negate : isMultipleOf p.negate q.negate = isMultipleOf p q := by
  obtain ⟨s, b, e⟩ := p
  obtain ⟨t, c, f⟩ := q
  show isMultipleOf ⟨!s, b, e⟩ ⟨!t, c, f⟩ = _
  cases b <;> try rfl
  case term factors =>
    simp only [isMultipleOf, signedCoefficient_not, unit_not, areCombinable_negate]

theorem areLikeTerms_negate : areLikeTerms p.negate q.negate = areLikeTerms p q := by
  simp only [areLikeTerms, agreeUpToSign_negate, haveLikeFactors_negate, isMultipleOf_negate,
    areCombinable_negate]

/-! ## Sums -/

theorem withCoefficient_negate (c : Particle) (factors : List Particle) :
    withCoefficient c.negate factors = (withCoefficient c factors).negate := by
  have one : isOne c.negate = c.isOne := rfl
  unfold withCoefficient
  rw [one]
  split
  · split
    · next factor =>
      have sign : (c.negate.positive == factor.positive) = !(c.positive == factor.positive) := by
        cases hc : c.positive <;> simp [Powered.negate, hc]
      rw [sign]
      rfl
    · rfl
  · rfl

theorem scaleBySum_negate (c d : Particle) (factors : List Particle) :
    Agree Opposite (scaleBySum policy c d factors)
      (scaleBySum policy c.negate d.negate factors) := by
  refine (addConstants_negate policy c d).map fun sum sum' opposite => ?_
  cases opposite with
  | negate =>
      have zeros : isZero sum.negate = sum.isZero := rfl
      rw [zeros, withCoefficient_negate]
      split
      · exact .zero
      · exact .negate _
  | zero => exact .zero

theorem parts_negate : parts p.negate = (p.parts.1, p.parts.2.negate) := by
  obtain ⟨s, b, e⟩ := p
  cases b with
  | term factors => exact congrArg (Prod.mk factors) (signedCoefficient_not s factors)
  | number | fraction | mixed | symbol | expression | root => rfl

/-- Two terms under the other signs have the sum under the other sign. -/
theorem combine_negate (policy : Rounding) :
    Agree Opposite (combine policy p q) (combine policy p.negate q.negate) := by
  have zeros (x : Particle) : isZero x.negate = x.isZero := rfl
  have signs : (p.negate.positive = q.negate.positive) ↔ (p.positive = q.positive) :=
    ⟨Bool.not_inj, congrArg not⟩
  have unitOf (x : Particle) : unit x.negate.positive = (unit x.positive).negate := rfl
  have doubled : double p.negate = p.double.negate := rfl
  unfold combine
  simp only [zeros, areCombinable_negate, haveLikeFactors_negate, isMultipleOf_negate,
    agreeUpToSign_negate, parts_negate, unitOf, signs, doubled]
  split
  · exact .ok (.negate q)
  split
  · exact .ok (.negate p)
  split
  · exact addConstants_negate policy p q
  split
  · exact scaleBySum_negate _ _ _
  split
  · exact scaleBySum_negate _ _ _
  split
  · exact scaleBySum_negate _ _ _
  split
  · split
    · exact .ok (.negate _)
    · exact .ok .zero
  · exact .error rfl

/-! ## Products -/

/-- A product changes its sign with one of its factors. -/
theorem multiply_negate (policy : Rounding) :
    Agree Opposite (multiply policy p q) (multiply policy p.negate q) := by
  have factorConstant : isFactorConstant p.negate = p.isFactorConstant := rfl
  have body : p.negate.body = p.body := rfl
  have exponent : p.negate.exponent = p.exponent := rfl
  have sign : (p.negate.positive == q.positive) = !(p.positive == q.positive) := by
    cases hp : p.positive <;> simp [Powered.negate, hp]
  unfold multiply
  rw [factorConstant, body, exponent, sign]
  split
  · exact multiplyConstants_negate policy p q
  split
  · split
    · exact .ok (.negate _)
    · exact .error rfl
  · exact .error rfl

/-! ## Both operations -/

/-- Two terms are alike under the other signs exactly if they are, and then they have the negated
sum. So has a product of which one factor is negated. Where there is no result there is none under
the other signs either, for the same reason. -/
theorem signs_are_symmetric (policy : Rounding) :
    areLikeTerms p.negate q.negate = areLikeTerms p q ∧
      Agree (fun r s => s.same r.negate = true) (combine policy p q)
        (combine policy p.negate q.negate) ∧
      Agree (fun r s => s.same r.negate = true) (multiply policy p q)
        (multiply policy p.negate q) :=
  ⟨areLikeTerms_negate p q, (combine_negate p q policy).imp fun _ _ => same_negate_of_opposite,
    (multiply_negate p q policy).imp fun _ _ => same_negate_of_opposite⟩

/-! ## Opposite terms -/

variable {p q}

/-- A multiple has another body than what it is a multiple of. -/
theorem not_isMultipleOf_of_body (h : p.body = q.body) : isMultipleOf p q = false := by
  rw [Bool.eq_false_iff]
  intro multiple
  have lighter := weight_lt_of_isMultipleOf multiple
  rw [weight_eq, weight_eq p, h] at lighter
  exact Nat.lt_irrefl _ lighter

theorem agreeUpToSign_negate_self (p : Particle) : agreeUpToSign p p.negate = true := by
  have exponent : p.negate.exponent = p.exponent := rfl
  have body : p.negate.body = p.body := rfl
  rw [agreeUpToSign, exponent, body, beq_self_eq_true, Bool.true_and]
  exact body_same_refl fun part _ => same_refl part

/-- A term and its negation leave `0`, unless they are zero and the second is left as it is. -/
theorem combine_negate_self (policy : Rounding) (p : Particle) :
    combine policy p p.negate = .ok (if p.isZero then p.negate else zero) := by
  have zeros : isZero p.negate = p.isZero := rfl
  unfold combine
  by_cases zero : p.isZero = true
  · rw [if_pos zero, if_pos zero]
  rw [zeros, if_neg zero, if_neg zero, if_neg zero]
  split
  · next constants => exact addConstants_negate_self constants
  split
  · -- the coefficients are opposite constants, and the factors vanish with their sum
    next like =>
    have coefficients := areCombinable_of_haveLikeFactors like
    rw [parts_negate] at coefficients ⊢
    rw [scaleBySum, addConstants_negate_self coefficients]
    rfl
  have left : isMultipleOf p p.negate = false := not_isMultipleOf_of_body rfl
  have right : isMultipleOf p.negate p = false := not_isMultipleOf_of_body rfl
  have signs : p.positive ≠ p.negate.positive := (Bool.not_ne_self _).symm
  rw [left, right, if_neg Bool.false_ne_true, if_neg Bool.false_ne_true,
    if_pos (agreeUpToSign_negate_self p), if_neg signs]

/-- Every particle and its negation add up to zero, and a zero of any form is neutral on either
side, all of this under every policy. -/
theorem negation_cancels (policy : Rounding) (p : Particle) :
    (∃ r, combine policy p p.negate = .ok r ∧ r.isZero = true ∧ (p.isZero = false → r = zero)) ∧
      ∀ z : Particle, z.isZero = true →
        combine policy z p = .ok p ∧
          ∃ r, combine policy p z = .ok r ∧ (p.isZero = false → r = p) := by
  constructor
  · refine ⟨_, combine_negate_self policy p, ?_, fun nonzero => by rw [nonzero]; rfl⟩
    by_cases zero : p.isZero = true
    · rw [if_pos zero]
      exact zero
    · rw [if_neg zero]
      rfl
  · intro z hz
    refine ⟨by rw [combine, if_pos hz], ?_⟩
    by_cases zero : p.isZero = true
    · exact ⟨z, by rw [combine, if_pos zero], fun nonzero => absurd zero (by simp [nonzero])⟩
    · exact ⟨p, by rw [combine, if_neg zero, if_pos hz], fun _ => rfl⟩

/-- A fraction with a part that is not whole, which no rule for constants takes, and a zero with a
minus sign and a decimal place. -/
theorem negation_cancels_of_decimal_fraction :
    let p := (Body.fraction (Body.number ⟨[1], some [5], none⟩).plain
      (Body.number ⟨[4], none, none⟩).plain).plain
    let z : Particle := ⟨false, .number ⟨[0], some [0], none⟩, 1⟩
    areCombinable p p.negate = false ∧ z.isZero = true ∧ combine .always p p.negate = .ok zero ∧
      combine .always z p = .ok p ∧ combine .always p z = .ok p := by
  intro p z
  obtain ⟨⟨r, cancelled, -, hr⟩, neutral⟩ := negation_cancels .always p
  obtain ⟨left, r', right, hr'⟩ := neutral z rfl
  obtain rfl := hr rfl
  obtain rfl := hr' rfl
  exact ⟨by decide, rfl, cancelled, left, right⟩

end StepAlgebra.Particle
