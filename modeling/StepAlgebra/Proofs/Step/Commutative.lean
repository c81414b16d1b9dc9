import StepAlgebra.Proofs.Arithmetic.Commutative
import StepAlgebra.Proofs.Particle.Equality
import StepAlgebra.Proofs.Step.LikeTerms
import StepAlgebra.Step.LikeFactors

/-!
# Adding terms and multiplying factors is commutative

The rules for two terms are tried one after the other, and the parts that both terms share are taken
from the left one. Neither shows in the sum: a rule applies to two terms in either order, the shared
parts are the same, and only one of two terms can be a multiple of the other.

* `Particle.isMultipleOf_asymm` — a multiple is heavier than what it is a multiple of;
* `Particle.areLikeTerms_comm`, `Particle.areMultipliable_comm` — the tests;
* `Particle.operations_commute` — the tests and the operations in either order.
-/

namespace StepAlgebra.Particle

variable {policy : Rounding} {p q : Particle}

/-! ## Tests -/

theorem agreeUpToSign_comm (p q : Particle) : agreeUpToSign p q = agreeUpToSign q p := by
  rw [agreeUpToSign, agreeUpToSign, BEq.comm, Body.same_comm]

theorem haveLikeFactors_comm (p q : Particle) : haveLikeFactors p q = haveLikeFactors q p := by
  obtain ⟨s, b, e⟩ := p
  obtain ⟨t, c, f⟩ := q
  cases b <;> cases c <;> try rfl
  case term.term ps qs =>
    simp only [haveLikeFactors]
    rw [sameRow_comm, areCombinable_comm, Bool.and_comm (e == 1)]

/-- A multiple is heavier than what it is a multiple of. -/
theorem weight_lt_of_isMultipleOf (h : isMultipleOf p q = true) :
    q.weight true < p.weight true := by
  obtain ⟨s, c, factor, rfl, -, -, -, same⟩ := isMultipleOf_eq_true h
  have bodies : bodyWeight true factor.body = bodyWeight true q.body := bodyWeight_of_same same
  rw [weight_eq q, ← bodies, ← weight_eq factor]
  simp only [weight, bodyWeight, rowWeight, List.length_cons, List.length_nil]
  omega

/-- Two terms are not multiples of each other. -/
theorem isMultipleOf_asymm (h : isMultipleOf p q = true) : isMultipleOf q p = false := by
  rw [Bool.eq_false_iff]
  intro both
  have below := weight_lt_of_isMultipleOf h
  have above := weight_lt_of_isMultipleOf both
  omega

theorem areLikeTerms_comm (p q : Particle) : areLikeTerms p q = areLikeTerms q p := by
  unfold areLikeTerms
  rw [agreeUpToSign_comm p q, haveLikeFactors_comm p q, areCombinable_comm p q,
    Bool.or_right_comm (agreeUpToSign q p || haveLikeFactors q p)]

theorem areMultipliable_comm (p q : Particle) : areMultipliable p q = areMultipliable q p := by
  rw [areMultipliable, areMultipliable, Body.same_comm, Bool.and_comm]

/-! ## Sums -/

/-- Particles that are the same stay so if both change their sign or neither does. -/
theorem same_withSign (h : p.same q = true) (s : Bool) :
    same (p.withSign (s == p.positive)) (q.withSign (s == q.positive)) = true := by
  obtain ⟨signs, exponents, bodies⟩ := same_iff.mp h
  refine same_iff.mpr ⟨?_, exponents, bodies⟩
  simp only [Body.signsAgree, Bool.or_eq_true, beq_iff_eq] at signs ⊢
  exact signs.imp_left (congrArg (s == ·))

theorem same_term {ps qs : List Particle} (h : sameRow ps qs = true) (s : Bool) (e : UInt32) :
    same ⟨s, .term ps, e⟩ ⟨s, .term qs, e⟩ = true :=
  same_iff.mpr ⟨by simp [Body.signsAgree], rfl, h⟩

theorem withCoefficient_same {ps qs : List Particle} (h : sameRow ps qs = true) (c : Particle) :
    (withCoefficient c ps).same (withCoefficient c qs) = true := by
  unfold withCoefficient
  by_cases one : c.isOne = true
  · rw [if_pos one, if_pos one]
    -- a factor on its own is returned for the term of it
    match ps, qs, h with
    | [], [], _ => exact same_term rfl c.positive 1
    | [p], [q], h =>
        rw [sameRow, Bool.and_eq_true] at h
        exact same_withSign h.1 c.positive
    | _ :: _ :: _, _ :: _ :: _, h => exact same_term h c.positive 1
    | [_], _ :: _ :: _, h | _ :: _ :: _, [_], h => simp [sameRow] at h
  · rw [if_neg one, if_neg one]
    refine same_term ?_ c.positive 1
    rw [sameRow, same_refl, h, Bool.and_self]

theorem scaleBySum_agree {ps qs : List Particle} (h : sameRow ps qs = true) (c d : Particle) :
    Agree (fun r s => r.same s = true) (scaleBySum policy c d ps) (scaleBySum policy d c qs) := by
  refine (addConstants_agree policy c d).map ?_
  rintro sum _ rfl
  split
  · exact same_refl zero
  · exact withCoefficient_same h sum

theorem double_same (exponents : p.exponent = q.exponent) (bodies : p.body.same q.body = true)
    (signs : p.positive = q.positive) : p.double.same q.double = true := by
  have unsigned : same (p.withSign true) (q.withSign true) = true :=
    same_iff.mpr ⟨by simp [Body.signsAgree, Powered.withSign], exponents, bodies⟩
  rw [double, double, signs]
  refine same_term ?_ q.positive 1
  rw [sameRow, sameRow, sameRow, same_refl, unsigned]
  rfl

/-- Two terms that are not both zero have one sum. -/
theorem combine_agree (nonzero : ¬(p.isZero = true ∧ q.isZero = true)) :
    Agree (fun r s => r.same s = true) (combine policy p q) (combine policy q p) := by
  unfold combine
  rw [areCombinable_comm q p, haveLikeFactors_comm q p, agreeUpToSign_comm q p]
  by_cases left : p.isZero = true
  · have right : ¬q.isZero = true := fun right => nonzero ⟨left, right⟩
    rw [if_pos left, if_neg right, if_pos left]
    exact .ok (same_refl q)
  rw [if_neg left]
  by_cases right : q.isZero = true
  · rw [if_pos right, if_pos right]
    exact .ok (same_refl p)
  rw [if_neg right, if_neg right, if_neg left]
  by_cases constants : areCombinable p q = true
  · rw [if_pos constants, if_pos constants]
    refine (addConstants_agree policy p q).imp ?_
    rintro sum _ rfl
    exact same_refl sum
  rw [if_neg constants, if_neg constants]
  by_cases like : haveLikeFactors p q = true
  · rw [if_pos like, if_pos like]
    obtain ⟨s, ps, t, qs, rfl, rfl, same⟩ := haveLikeFactors_eq_true like
    exact scaleBySum_agree same _ _
  rw [if_neg like, if_neg like]
  -- which of the two is the multiple does not depend on the order
  by_cases multiple : isMultipleOf p q = true
  · rw [if_pos multiple, isMultipleOf_asymm multiple, if_neg Bool.false_ne_true, if_pos multiple]
    exact .refl same_refl _
  rw [if_neg multiple, if_neg multiple]
  by_cases multiple' : isMultipleOf q p = true
  · rw [if_pos multiple', if_pos multiple']
    exact .refl same_refl _
  rw [if_neg multiple', if_neg multiple']
  by_cases agree : agreeUpToSign p q = true
  · rw [if_pos agree, if_pos agree]
    simp only [agreeUpToSign, Bool.and_eq_true, beq_iff_eq] at agree
    by_cases signs : p.positive = q.positive
    · rw [if_pos signs, if_pos signs.symm]
      exact .ok (double_same agree.1 agree.2 signs)
    · rw [if_neg signs, if_neg (Ne.symm signs)]
      exact .ok (same_refl zero)
  · rw [if_neg agree, if_neg agree]
    exact .error rfl

/-! ## Products -/

theorem addExponents?_comm (m n : UInt32) : addExponents? m n = addExponents? n m := by
  rw [addExponents?, addExponents?, Nat.add_comm, UInt32.add_comm]

/-- Two factors have one product. -/
theorem multiply_agree (policy : Rounding) (p q : Particle) :
    Agree (fun r s => r.same s = true) (multiply policy p q) (multiply policy q p) := by
  unfold multiply
  rw [Bool.and_comm q.isFactorConstant, Body.same_comm q.body, addExponents?_comm q.exponent,
    Bool.beq_comm (a := q.positive)]
  split
  · refine (multiplyConstants_agree policy p q).imp ?_
    rintro product _ rfl
    exact same_refl product
  split
  · next bodies =>
    split
    · next e _ =>
      exact .ok (same_iff.mpr ⟨by simp [Body.signsAgree, Powered.withSignAndExponent], rfl, bodies⟩)
    · exact .error rfl
  · exact .error rfl

/-! ## Both operations -/

/-- The tests for like terms and for like factors do not depend on the order of the two particles,
and neither do their sum, unless both are zero, and their product: there are two results and they
are the same, or two failures of one kind. -/
theorem operations_commute (policy : Rounding) (p q : Particle) :
    areLikeTerms p q = areLikeTerms q p ∧ areMultipliable p q = areMultipliable q p ∧
      (¬(p.isZero = true ∧ q.isZero = true) →
        Agree (fun r s => r.same s = true) (combine policy p q) (combine policy q p)) ∧
      Agree (fun r s => r.same s = true) (multiply policy p q) (multiply policy q p) :=
  ⟨areLikeTerms_comm p q, areMultipliable_comm p q, combine_agree, multiply_agree policy p q⟩

/-- A multiple of `x` and the negated `x` itself. -/
theorem operations_commute_of_multiple :
    let x := (Body.symbol 'x').plain
    let p := (Body.term [(Body.number ⟨[2], none, none⟩).plain, x]).plain
    let q := x.negate
    (combine .decimals p q).isOk = true ∧
      Agree (fun r s => r.same s = true) (combine .decimals p q) (combine .decimals q p) := by
  intro x p q
  exact ⟨by decide +kernel, (operations_commute .decimals p q).2.2.1 (by decide)⟩

end StepAlgebra.Particle
