import StepAlgebra.Proofs.Step.Grouping
import StepAlgebra.Step.LikeTerms

/-!
# How like terms are added up

What can happen when two like terms are added, when a class of them is added up, and when an
expression is. Statements about sums are proved by induction over these relations and unfold
nothing.

* `Particle.Combined` — the ways in which two terms become one;
* `Particle.Tallied`, `Particle.Totalled` — one pass over a class, and all passes;
* `Particle.combineLikeTerms_eq_ok` — the result of a step is made of the subtotals of its classes.
-/

namespace StepAlgebra.Particle

variable {policy : Rounding} {p q r : Particle}

/-! ## Two terms -/

/-- The ways in which the sum of two terms comes about. -/
inductive Combined (policy : Rounding) : Particle → Particle → Particle → Prop
  | zeroLeft {p q : Particle} : p.isZero = true → Combined policy p q q
  | zeroRight {p q : Particle} : q.isZero = true → Combined policy p q p
  | constants {p q r : Particle} : addConstants policy p q = .ok r → Combined policy p q r
  | likeFactors {s t : Bool} {ps qs : List Particle} {r : Particle} :
      sameRow (variableFactors ps) (variableFactors qs) = true →
      scaleBySum policy (signedCoefficient s ps) (signedCoefficient t qs) (variableFactors ps)
        = .ok r →
      Combined policy ⟨s, .term ps, 1⟩ ⟨t, .term qs, 1⟩ r
  | multipleLeft {s : Bool} {c factor q r : Particle} :
      factor.positive = true → factor.exponent = q.exponent → factor.body.same q.body = true →
      scaleBySum policy (c.withSign (c.positive == s)) (unit q.positive) [factor] = .ok r →
      Combined policy ⟨s, .term [c, factor], 1⟩ q r
  | multipleRight {s : Bool} {c factor p r : Particle} :
      factor.positive = true → factor.exponent = p.exponent → factor.body.same p.body = true →
      scaleBySum policy (c.withSign (c.positive == s)) (unit p.positive) [factor] = .ok r →
      Combined policy p ⟨s, .term [c, factor], 1⟩ r
  | double {p q : Particle} : p.exponent = q.exponent → p.body.same q.body = true →
      p.positive = q.positive → Combined policy p q p.double
  | cancel {p q : Particle} : p.exponent = q.exponent → p.body.same q.body = true →
      p.positive = (!q.positive) → Combined policy p q zero

theorem haveLikeFactors_eq_true (h : haveLikeFactors p q = true) :
    ∃ s ps t qs, p = ⟨s, .term ps, 1⟩ ∧ q = ⟨t, .term qs, 1⟩ ∧
      sameRow (variableFactors ps) (variableFactors qs) = true := by
  obtain ⟨s, b, e⟩ := p
  obtain ⟨t, c, f⟩ := q
  unfold haveLikeFactors at h
  split at h
  · next ps qs hb hc =>
    simp only [Bool.and_eq_true, beq_iff_eq] at h
    obtain ⟨⟨⟨he, hf⟩, same⟩, -⟩ := h
    obtain rfl : b = .term ps := hb
    obtain rfl : c = .term qs := hc
    exact ⟨s, ps, t, qs, by rw [he], by rw [hf], same⟩
  · cases h

theorem isMultipleOf_eq_true (h : isMultipleOf p q = true) :
    ∃ s c factor, p = ⟨s, .term [c, factor], 1⟩ ∧ isConstant c = true ∧
      factor.positive = true ∧ factor.exponent = q.exponent ∧
      factor.body.same q.body = true := by
  obtain ⟨s, b, e⟩ := p
  unfold isMultipleOf at h
  split at h
  · next factors hb =>
    obtain rfl : b = .term factors := hb
    split at h
    · next factor bare =>
      simp only [Bool.and_eq_true, beq_iff_eq] at h
      obtain ⟨⟨⟨⟨one, positive⟩, exponent⟩, same⟩, -⟩ := h
      unfold bareFactor? at bare
      split at bare
      · next c factor' =>
        simp only [Option.ite_none_right_eq_some, Option.some.injEq] at bare
        obtain ⟨constant, rfl⟩ := bare
        exact ⟨s, c, factor', by rw [one], constant, positive, exponent, same⟩
      · cases bare
    · cases h
  · cases h

theorem combined_of_combine (h : combine policy p q = .ok r) : Combined policy p q r := by
  unfold combine at h
  split at h
  · next zero =>
    obtain rfl := Except.ok.inj h
    exact .zeroLeft zero
  split at h
  · next zero =>
    obtain rfl := Except.ok.inj h
    exact .zeroRight zero
  split at h
  · exact .constants h
  split at h
  · next like =>
    obtain ⟨s, ps, t, qs, rfl, rfl, same⟩ := haveLikeFactors_eq_true like
    exact .likeFactors same h
  split at h
  · next multiple =>
    obtain ⟨s, c, factor, rfl, constant, positive, exponent, same⟩ := isMultipleOf_eq_true multiple
    simp only [parts, signedCoefficient, coefficient?, constant, if_true] at h
    exact .multipleLeft positive exponent same h
  split at h
  · next multiple =>
    obtain ⟨s, c, factor, rfl, constant, positive, exponent, same⟩ := isMultipleOf_eq_true multiple
    simp only [parts, signedCoefficient, coefficient?, constant, if_true] at h
    exact .multipleRight positive exponent same h
  split at h
  · next agree =>
    simp only [agreeUpToSign, Bool.and_eq_true, beq_iff_eq] at agree
    obtain rfl := Except.ok.inj h
    split
    · next signs => exact .double agree.1 agree.2 signs
    · next signs => exact .cancel agree.1 agree.2 (Bool.eq_not_of_ne signs)
  · cases h

/-- Scaled factors vanish with the sum of the coefficients, or stand under it. -/
theorem scaleBySum_eq_ok {c d : Particle} {factors : List Particle}
    (h : scaleBySum policy c d factors = .ok r) :
    ∃ sum, addConstants policy c d = .ok sum ∧
      ((sum.isZero = true ∧ r = zero) ∨ r = withCoefficient sum factors) := by
  obtain ⟨sum, hsum, hr⟩ := map_eq_ok_iff.mp h
  refine ⟨sum, hsum, ?_⟩
  split at hr
  · next vanishes => exact .inl ⟨vanishes, hr.symm⟩
  · exact .inr hr.symm

/-! ## Classes -/

/-- One pass over like terms: each is added to the sum or put off. -/
inductive Tallied (policy : Rounding) :
    Particle → List Particle → Particle → List Particle → List Particle → Prop
  | done (sum : Particle) : Tallied policy sum [] sum [] []
  | add {sum term next total : Particle} {terms added deferred : List Particle} :
      (sum.isZero || areLikeTerms sum term) = true → combine policy sum term = .ok next →
      Tallied policy next terms total added deferred →
      Tallied policy sum (term :: terms) total (term :: added) deferred
  | defer {sum term total : Particle} {terms added deferred : List Particle} :
      (sum.isZero || areLikeTerms sum term) = false →
      Tallied policy sum terms total added deferred →
      Tallied policy sum (term :: terms) total added (term :: deferred)

/-- All passes over a class, each with the members that it adds up and their sum. -/
inductive Totalled (policy : Rounding) : List Particle → List Subtotal → Prop
  | done : Totalled policy [] []
  | pass {first sum : Particle} {others added deferred : List Particle} {more : List Subtotal} :
      Tallied policy first others sum added deferred → Totalled policy deferred more →
      Totalled policy (first :: others) (⟨first :: added, sum⟩ :: more)

theorem tallied_of_tally {sum : Particle} {terms : List Particle} {t : Tally terms.length}
    (h : tally policy sum terms = .ok t) :
    Tallied policy sum terms t.sum t.added t.deferred := by
  induction terms generalizing sum with
  | nil =>
      obtain rfl := Except.ok.inj h
      exact .done sum
  | cons term terms ih =>
      rw [tally] at h
      split at h
      · next takes =>
        split at h
        · cases h
        · next next combined =>
          obtain ⟨t', ht', rfl⟩ := map_eq_ok_iff.mp h
          exact .add takes combined (ih ht')
      · next refuses =>
        obtain ⟨t', ht', rfl⟩ := map_eq_ok_iff.mp h
        exact .defer (Bool.eq_false_iff.mpr refuses) (ih ht')

theorem totalled_of_subtotals {terms : List Particle} {sums : List Subtotal}
    (h : subtotals policy terms = .ok sums) : Totalled policy terms sums := by
  induction terms using subtotals.induct policy generalizing sums with
  | case1 =>
      rw [subtotals] at h
      obtain rfl := Except.ok.inj h
      exact .done
  | case2 first others failure failed =>
      rw [subtotals, failed] at h
      cases h
  | case3 first others t tallied ih =>
      rw [subtotals, tallied] at h
      obtain ⟨more, hmore, rfl⟩ := map_eq_ok_iff.mp h
      exact .pass (tallied_of_tally tallied) (ih hmore)

/-! ## Expressions -/

/-- The subtotals of an expression are those of its classes, one class after the other. -/
theorem allSubtotals_eq_ok {terms : List Particle} {sums : List Subtotal}
    (h : allSubtotals policy terms = .ok sums) :
    ∃ rows, List.Forall₂ (fun c row => Totalled policy c.members row) (likeTerms terms) rows ∧
      sums = rows.flatten := by
  obtain ⟨rows, hrows, rfl⟩ := map_eq_ok_iff.mp h
  exact ⟨rows, (mapM_eq_ok_iff.mp hrows).imp fun _ _ h => totalled_of_subtotals h, rfl⟩

/-- The sums that stay in an expression. -/
def keptSums (sums : List Subtotal) : List Particle :=
  (sums.map Subtotal.sum).filter (!·.isZero)

theorem combineLikeTerms_eq_ok {terms : List Particle} {step : Step}
    (h : combineLikeTerms policy p terms = .ok step) :
    ∃ sums, allSubtotals policy terms = .ok sums ∧
      step.result = .particle (ofTerms p.positive p.exponent (keptSums sums)) := by
  obtain ⟨sums, hsums, rfl⟩ := map_eq_ok_iff.mp h
  exact ⟨sums, hsums, rfl⟩

end StepAlgebra.Particle
