import Mathlib.Algebra.BigOperators.Ring.List
import Mathlib.Tactic.LinearCombination
import StepAlgebra.Proofs.Arithmetic.Constant
import StepAlgebra.Proofs.Particle.Meaning
import StepAlgebra.Proofs.Step.Rewriting

/-!
# Steps keep what a value means

The arms by which two terms are added, the passes over a class and the collapses of an expression
are taken one after the other; so are the two ways of multiplying. Each takes exact particles to
exact ones, and the sum or product of their meanings to the meaning of the result.

* `Particle.Combined.represents`, `Particle.Totalled.represents` — additions;
* `Particle.Multiplied.represents` — multiplications;
* `Particle.Rewritten.keeps`, `Particle.Swap.keeps` — a rewritten particle means the same and is
  still exact, and so does one with a child that was.
-/

namespace StepAlgebra

namespace Particle

variable {policy : Rounding} {a : Assignment} {p q r : Particle} {x y : ℚ}

/-! ## Rows -/

/-- Every particle of a row is exact. -/
def RowIsExact (policy : Rounding) (ps : List Particle) : Prop :=
  ∀ p ∈ ps, p.IsExact policy

theorem rowIsExact_cons {ps : List Particle} :
    RowIsExact policy (p :: ps) ↔ p.IsExact policy ∧ RowIsExact policy ps :=
  List.forall_mem_cons

theorem rowIsExact_singleton : RowIsExact policy [p] ↔ p.IsExact policy :=
  List.forall_mem_singleton

theorem rowIsExact_append {ps qs : List Particle} :
    RowIsExact policy (ps ++ qs) ↔ RowIsExact policy ps ∧ RowIsExact policy qs :=
  List.forall_mem_append

theorem RowIsExact.perm {ps qs : List Particle} (h : RowIsExact policy ps) (perm : ps.Perm qs) :
    RowIsExact policy qs :=
  fun p hp => h p (perm.mem_iff.mpr hp)

theorem isExact_term {s : Bool} {factors : List Particle} {e : UInt32} :
    IsExact policy ⟨s, .term factors, e⟩ ↔ e ≠ 0 ∧ RowIsExact policy factors := by
  rw [isExact_iff]
  simp [Body.numeral?, Body.parts, RowIsExact]

/-- A term with the exponent one is exact when its factors are. -/
theorem RowIsExact.term {factors : List Particle} (h : RowIsExact policy factors) (s : Bool) :
    IsExact policy ⟨s, .term factors, 1⟩ :=
  isExact_term.mpr ⟨by decide, h⟩

theorem isExact_expression {s : Bool} {terms : List Particle} {e : UInt32} :
    IsExact policy ⟨s, .expression terms, e⟩ ↔ e ≠ 0 ∧ RowIsExact policy terms := by
  rw [isExact_iff]
  simp [Body.numeral?, Body.parts, RowIsExact]

theorem rowSum_append (ps qs : List Particle) :
    rowSum a (ps ++ qs) = rowSum a ps + rowSum a qs := by
  rw [rowSum_eq, rowSum_eq, rowSum_eq, List.map_append, List.sum_append]

theorem rowProduct_append (ps qs : List Particle) :
    rowProduct a (ps ++ qs) = rowProduct a ps * rowProduct a qs := by
  rw [rowProduct_eq, rowProduct_eq, rowProduct_eq, List.map_append, List.prod_append]

theorem rowSum_perm {ps qs : List Particle} (perm : ps.Perm qs) : rowSum a ps = rowSum a qs := by
  rw [rowSum_eq, rowSum_eq]
  exact (perm.map _).sum_eq

theorem rowProduct_perm {ps qs : List Particle} (perm : ps.Perm qs) :
    rowProduct a ps = rowProduct a qs := by
  rw [rowProduct_eq, rowProduct_eq]
  exact (perm.map _).prod_eq

theorem Represents.isZero (h : Represents policy a p x) (zero : p.isZero = true) : x = 0 := by
  rw [← h.meaning, meaning_of_isZero zero h.exact.exponent]

theorem represents_zero (exact : policy.IsExact) : Represents policy a zero 0 :=
  ⟨isWholeConstant_zero.isExact exact, meaning_zero⟩

theorem represents_unit (exact : policy.IsExact) (s : Bool) :
    Represents policy a (unit s) (sgn s) :=
  ⟨(isWholeConstant_unit s).isExact exact, meaning_unit s⟩

/-! ## Coefficients -/

theorem represents_withSign (h : Represents policy a p x) (s : Bool) :
    Represents policy a (p.withSign s) (sgn s * (sgn p.positive * x)) :=
  ⟨h.exact.withHead h.exact.exponent, by rw [meaning_withSign, h.meaning]⟩

theorem rowIsExact_variableFactors {factors : List Particle} (h : RowIsExact policy factors) :
    RowIsExact policy (variableFactors factors) := by
  intro factor hfactor
  cases factors with
  | nil => cases hfactor
  | cons first others =>
      rw [variableFactors] at hfactor
      split at hfactor
      · exact h factor (List.mem_cons_of_mem _ hfactor)
      · exact h factor hfactor

/-- A term is its signed coefficient times the factors after it. -/
theorem represents_signedCoefficient (exact : policy.IsExact) (s : Bool) {factors : List Particle}
    (h : RowIsExact policy factors) :
    ∃ c, Represents policy a (signedCoefficient s factors) c ∧
      meaning a ⟨s, .term factors, 1⟩ = c * rowProduct a (variableFactors factors) := by
  rw [meaning_plain, bodyMeaning]
  cases factors with
  | nil => exact ⟨sgn s, represents_unit exact s, rfl⟩
  | cons first others =>
      -- a constant first factor takes up the sign of the term
      by_cases constant : isConstant first = true
      · have hfirst : Represents policy a first (first.meaning a) :=
          ⟨h first List.mem_cons_self, rfl⟩
        have signed : signedCoefficient s (first :: others) =
            first.withSign (first.positive == s) := by
          simp only [signedCoefficient, coefficient?, constant, if_true]
        refine ⟨sgn s * first.meaning a, ?_, ?_⟩
        · rw [signed]
          have hsigned := represents_withSign hfirst (first.positive == s)
          rwa [sgn_beq, mul_comm (sgn first.positive), mul_assoc, sgn_mul_cancel] at hsigned
        · rw [variableFactors, if_pos constant, rowProduct, mul_assoc]
      · refine ⟨sgn s, ?_, ?_⟩
        · have signed : signedCoefficient s (first :: others) = unit s := by
            simp only [signedCoefficient, coefficient?, constant, if_false, Bool.false_eq_true]
          rw [signed]
          exact represents_unit exact s
        · rw [variableFactors, if_neg constant]

theorem meaning_of_isOne (h : p.isOne = true) : p.meaning a = sgn p.positive := by
  obtain ⟨s, b, e⟩ := p
  cases b with
  | number n =>
      simp only [isOne, Bool.and_eq_true, beq_iff_eq] at h
      obtain ⟨one, rfl⟩ := h
      rw [meaning_number, Numeral.meaning_of_isOne one, mul_one]
  | _ => simp [isOne] at h

theorem withCoefficient_represents {c : Particle} {factors : List Particle}
    (hc : Represents policy a c x) (h : RowIsExact policy factors) :
    Represents policy a (withCoefficient c factors) (x * rowProduct a factors) := by
  unfold withCoefficient
  split
  · next one =>
    have hx : x = sgn c.positive := by rw [← hc.meaning, meaning_of_isOne one]
    split
    · next factor =>
      -- a single factor is not wrapped in a term
      have hfactor : Represents policy a factor (factor.meaning a) :=
        ⟨h factor List.mem_cons_self, rfl⟩
      have signed := represents_withSign hfactor (c.positive == factor.positive)
      rw [sgn_beq, mul_assoc, sgn_mul_cancel] at signed
      rwa [rowProduct, rowProduct, mul_one, hx]
    · refine ⟨h.term _, ?_⟩
      rw [meaning_plain, bodyMeaning, hx]
  · have bare := represents_withSign hc true
    refine ⟨(rowIsExact_cons.mpr ⟨bare.exact, h⟩).term _, ?_⟩
    rw [meaning_plain, bodyMeaning, rowProduct, bare.meaning, sgn_true, one_mul, mul_assoc,
      sgn_mul_cancel]

theorem scaleBySum_represents (exact : policy.IsExact) {c d : Particle} {factors : List Particle}
    (hc : Represents policy a c x) (hd : Represents policy a d y)
    (hfactors : RowIsExact policy factors) (h : scaleBySum policy c d factors = .ok r) :
    Represents policy a r ((x + y) * rowProduct a factors) := by
  obtain ⟨sum, hsum, hr⟩ := scaleBySum_eq_ok h
  have total := addConstants_represents exact hc hd hsum
  rcases hr with ⟨vanishes, rfl⟩ | rfl
  · rw [total.isZero vanishes, zero_mul]
    exact represents_zero exact
  · exact withCoefficient_represents total hfactors

/-! ## Two terms -/

/-- Particles that agree up to their signs mean the same up to these. -/
theorem meaning_of_agree (hp : p.IsExact policy) (exponent : p.exponent = q.exponent)
    (same : p.body.same q.body = true) :
    q.meaning a = sgn q.positive * (sgn p.positive * p.meaning a) := by
  rw [meaning_eq q, meaning_eq p, ← meaning_of_body_same same hp.powers, exponent,
    sgn_mul_cancel]

/-- A coefficient and a factor with a plus sign, plus one more of that factor. -/
theorem multiple_represents (exact : policy.IsExact) {s : Bool} {c factor : Particle}
    (hp : Represents policy a ⟨s, .term [c, factor], 1⟩ x) (hq : Represents policy a q y)
    (positive : factor.positive = true) (exponent : factor.exponent = q.exponent)
    (same : factor.body.same q.body = true)
    (h : scaleBySum policy (c.withSign (c.positive == s)) (unit q.positive) [factor] = .ok r) :
    Represents policy a r (x + y) := by
  obtain ⟨-, row⟩ := isExact_term.mp hp.exact
  have hc : Represents policy a c (c.meaning a) := ⟨row c (by simp), rfl⟩
  have hfactor : factor.IsExact policy := row factor (by simp)
  have signed := represents_withSign hc (c.positive == s)
  have sum := scaleBySum_represents exact signed (represents_unit exact q.positive)
    (rowIsExact_singleton.mpr hfactor) h
  have single := meaning_of_agree (a := a) hfactor exponent same
  rw [positive, sgn_true, one_mul] at single
  have total : x + y = sgn s * (c.meaning a * (factor.meaning a * 1)) +
      sgn q.positive * factor.meaning a := by
    rw [← hp.meaning, ← hq.meaning, single, meaning_plain, bodyMeaning, rowProduct, rowProduct,
      rowProduct]
  rw [total]
  convert sum using 1
  rw [rowProduct, rowProduct, sgn_beq]
  linear_combination (-sgn s * c.meaning a * factor.meaning a) * sgn_mul_self c.positive

/-- Two terms with the same factors after their coefficients. -/
theorem likeFactors_represents (exact : policy.IsExact) {s t : Bool} {ps qs : List Particle}
    (hp : Represents policy a ⟨s, .term ps, 1⟩ x) (hq : Represents policy a ⟨t, .term qs, 1⟩ y)
    (same : sameRow (variableFactors ps) (variableFactors qs) = true)
    (h : scaleBySum policy (signedCoefficient s ps) (signedCoefficient t qs) (variableFactors ps)
      = .ok r) :
    Represents policy a r (x + y) := by
  obtain ⟨-, prow⟩ := isExact_term.mp hp.exact
  obtain ⟨-, qrow⟩ := isExact_term.mp hq.exact
  obtain ⟨c, hc, hpc⟩ := represents_signedCoefficient (a := a) exact s prow
  obtain ⟨d, hd, hqd⟩ := represents_signedCoefficient (a := a) exact t qrow
  have bare := rowIsExact_variableFactors prow
  have factors : rowProduct a (variableFactors ps) = rowProduct a (variableFactors qs) := by
    rw [rowProduct_eq, rowProduct_eq, map_meaning_of_sameRow same]
    exact fun p hp q same => meaning_of_same same (bare p hp).powers
  have sum := scaleBySum_represents exact hc hd bare h
  rwa [add_mul, ← hpc, factors, ← hqd, hp.meaning, hq.meaning] at sum

/-- Two of the same are written with the coefficient two. -/
theorem double_represents (exact : policy.IsExact) (hp : Represents policy a p x) :
    Represents policy a (double p) (x + x) := by
  have two : Represents policy a (Body.number ⟨[.ofNat 2], none, none⟩).plain 2 := by
    refine ⟨isExact_number (exact.fits_whole rfl), ?_⟩
    rw [meaning_plain_number, Numeral.meaning_whole rfl]
    rfl
  have bare := represents_withSign hp true
  have row : RowIsExact policy [(Body.number ⟨[.ofNat 2], none, none⟩).plain, p.withSign true] :=
    rowIsExact_cons.mpr ⟨two.exact, rowIsExact_singleton.mpr bare.exact⟩
  refine ⟨row.term _, ?_⟩
  rw [double, meaning_plain, bodyMeaning, rowProduct, rowProduct, rowProduct, two.meaning,
    bare.meaning, sgn_true, one_mul, mul_one]
  linear_combination (2 * x) * sgn_mul_self p.positive

/-- Adding two exact terms is exact, whichever way it goes. -/
theorem Combined.represents (h : Combined policy p q r) (exact : policy.IsExact)
    (hp : Represents policy a p x) (hq : Represents policy a q y) :
    Represents policy a r (x + y) := by
  cases h with
  | zeroLeft vanishes =>
      rw [hp.isZero vanishes, zero_add]
      exact hq
  | zeroRight vanishes =>
      rw [hq.isZero vanishes, add_zero]
      exact hp
  | constants h => exact addConstants_represents exact hp hq h
  | likeFactors same h => exact likeFactors_represents exact hp hq same h
  | multipleLeft positive exponent same h =>
      exact multiple_represents exact hp hq positive exponent same h
  | multipleRight positive exponent same h =>
      rw [add_comm]
      exact multiple_represents exact hq hp positive exponent same h
  | double exponent same signs =>
      have other := meaning_of_agree (a := a) hp.exact exponent same
      rw [← signs, sgn_mul_cancel, hp.meaning, hq.meaning] at other
      rw [other]
      exact double_represents exact hp
  | cancel exponent same signs =>
      have other := meaning_of_agree (a := a) hp.exact exponent same
      rw [signs, sgn_not, neg_mul, mul_neg, sgn_mul_cancel, hp.meaning, hq.meaning] at other
      rw [other, add_neg_cancel]
      exact represents_zero exact

/-! ## Classes of terms -/

/-- A pass over exact terms splits their sum into what was added up and what was put off. -/
theorem Tallied.represents {sum total : Particle} {terms added deferred : List Particle}
    (h : Tallied policy sum terms total added deferred) (exact : policy.IsExact)
    (hsum : sum.IsExact policy) (hterms : RowIsExact policy terms) :
    total.IsExact policy ∧ RowIsExact policy deferred ∧
      total.meaning a + rowSum a deferred = sum.meaning a + rowSum a terms := by
  -- over the terms in order: the running sum and what is put off have a constant total
  induction h with
  | done => exact ⟨hsum, hterms, rfl⟩
  | add _ combined _ ih =>
      obtain ⟨hterm, hterms⟩ := rowIsExact_cons.mp hterms
      obtain ⟨hnext, hmeaning⟩ := (combined_of_combine combined).represents (a := a) exact
        ⟨hsum, rfl⟩ ⟨hterm, rfl⟩
      obtain ⟨htotal, hdeferred, split⟩ := ih hnext hterms
      refine ⟨htotal, hdeferred, ?_⟩
      rw [split, hmeaning, rowSum, add_assoc]
  | defer _ _ ih =>
      obtain ⟨hterm, hterms⟩ := rowIsExact_cons.mp hterms
      obtain ⟨htotal, hdeferred, split⟩ := ih hsum hterms
      refine ⟨htotal, rowIsExact_cons.mpr ⟨hterm, hdeferred⟩, ?_⟩
      rw [rowSum, rowSum, add_left_comm, split, add_left_comm]

/-- The subtotals of exact terms are exact and have their sum. -/
theorem Totalled.represents {terms : List Particle} {sums : List Subtotal}
    (h : Totalled policy terms sums) (exact : policy.IsExact)
    (hterms : RowIsExact policy terms) :
    RowIsExact policy (sums.map Subtotal.sum) ∧
      rowSum a (sums.map Subtotal.sum) = rowSum a terms := by
  induction h with
  | done => exact ⟨hterms, rfl⟩
  | pass tallied _ ih =>
      obtain ⟨hfirst, hothers⟩ := rowIsExact_cons.mp hterms
      obtain ⟨htotal, hdeferred, split⟩ := tallied.represents (a := a) exact hfirst hothers
      obtain ⟨hsums, hmeaning⟩ := ih hdeferred
      refine ⟨rowIsExact_cons.mpr ⟨htotal, hsums⟩, ?_⟩
      rw [List.map_cons, rowSum, rowSum, hmeaning, split]

/-! ## Expressions -/

theorem subtotals_represent {classes : List (Class Particle)} {rows : List (List Subtotal)}
    (h : List.Forall₂ (fun c row => Totalled policy c.members row) classes rows)
    (exact : policy.IsExact) (hmembers : RowIsExact policy (classes.flatMap Class.members)) :
    RowIsExact policy (rows.flatten.map Subtotal.sum) ∧
      rowSum a (rows.flatten.map Subtotal.sum) = rowSum a (classes.flatMap Class.members) := by
  induction h with
  | nil => exact ⟨hmembers, rfl⟩
  | cons totalled _ ih =>
      rw [List.flatMap_cons, rowIsExact_append] at hmembers
      obtain ⟨hrow, hmeaning⟩ := totalled.represents (a := a) exact hmembers.1
      obtain ⟨hrows, hmeanings⟩ := ih hmembers.2
      rw [List.flatMap_cons, List.flatten_cons, List.map_append, rowIsExact_append, rowSum_append,
        rowSum_append, hmeaning, hmeanings]
      exact ⟨⟨hrow, hrows⟩, rfl⟩

/-- Sums that are zero may be left out. -/
theorem rowSum_filter_isZero {ps : List Particle} (h : RowIsExact policy ps) :
    rowSum a (ps.filter (!·.isZero)) = rowSum a ps := by
  induction ps with
  | nil => rfl
  | cons p ps ih =>
      obtain ⟨hp, hps⟩ := rowIsExact_cons.mp h
      rw [List.filter_cons, rowSum]
      split
      · rw [rowSum, ih hps]
      · next dropped =>
        have vanishes : p.isZero = true := by simpa using dropped
        rw [ih hps, meaning_of_isZero vanishes hp.exponent, zero_add]

theorem foldInto_represents (h : Represents policy a p x) {e : UInt32} (he : e ≠ 0) (s : Bool) :
    Represents policy a (p.foldInto s e) (sgn s * x ^ e.toNat) := by
  refine ⟨?_, by rw [meaning_foldInto, h.meaning]⟩
  unfold foldInto
  split
  · exact h.exact.withHead h.exact.exponent
  · split
    · exact h.exact.withHead he
    · exact isExact_term.mpr ⟨he, rowIsExact_singleton.mpr h.exact⟩

/-- Some terms under an outer sign and exponent, however many they are. -/
theorem ofTerms_represents (exact : policy.IsExact) {terms : List Particle}
    (h : RowIsExact policy terms) {e : UInt32} (he : e ≠ 0) (s : Bool) :
    Represents policy a (ofTerms s e terms) (sgn s * rowSum a terms ^ e.toNat) := by
  unfold ofTerms
  split
  · have nothing := represents_zero (a := a) exact
    rw [rowSum, zero_pow (toNat_ne_zero he), mul_zero]
    split
    · exact nothing
    · refine ⟨nothing.exact.withHead he, meaning_of_isZero rfl he⟩
  · next term =>
    rw [rowSum, rowSum, add_zero]
    exact foldInto_represents ⟨h term List.mem_cons_self, rfl⟩ he s
  · exact ⟨isExact_expression.mpr ⟨he, h⟩, by rw [meaning, bodyMeaning]⟩

theorem sums_represent (exact : policy.IsExact) {s : Bool} {terms : List Particle} {e : UInt32}
    {sums : List Subtotal} (hp : IsExact policy ⟨s, .expression terms, e⟩)
    (h : allSubtotals policy terms = .ok sums) :
    Represents policy a (ofTerms s e (keptSums sums)) (meaning a ⟨s, .expression terms, e⟩) := by
  obtain ⟨he, hterms⟩ := isExact_expression.mp hp
  obtain ⟨rows, hrows, rfl⟩ := allSubtotals_eq_ok h
  have members := Class.members_group_perm areLikeTerms terms
  obtain ⟨hsums, hmeaning⟩ := subtotals_represent (a := a) hrows exact (hterms.perm members.symm)
  have kept : RowIsExact policy (keptSums rows.flatten) :=
    fun p hp => hsums p (List.mem_of_mem_filter hp)
  have result := ofTerms_represents (a := a) exact kept he s
  rwa [keptSums, rowSum_filter_isZero hsums, hmeaning, likeTerms, rowSum_perm members] at result

/-! ## Terms -/

/-- Multiplying two exact factors is exact, by arithmetic or by exponents. -/
theorem multiply_represents (exact : policy.IsExact) (hp : Represents policy a p x)
    (hq : Represents policy a q y) (h : multiply policy p q = .ok r) :
    Represents policy a r (x * y) := by
  rcases multiply_eq_ok h with constants | ⟨same, e, he, rfl⟩
  · exact multiplyConstants_represents exact hp hq constants
  · have sum := addExponents?_eq_some he
    -- the sum of the exponents did not wrap around to zero
    have positive : e ≠ 0 := by
      rintro rfl
      have := toNat_ne_zero hp.exact.exponent
      have : (0 : UInt32).toNat = 0 := rfl
      omega
    refine ⟨hp.exact.withHead positive, ?_⟩
    have bodies := meaning_of_body_same (a := a) same hp.exact.powers
    rw [← hp.meaning, ← hq.meaning, meaning_eq p, meaning_eq q, ← bodies, meaning_eq]
    simp only [Powered.withSignAndExponent]
    rw [sgn_beq, sum, pow_add]
    ring

theorem Multiplied.represents {factors : List Particle} (h : Multiplied policy p factors r)
    (exact : policy.IsExact) (hp : p.IsExact policy) (hfactors : RowIsExact policy factors) :
    Represents policy a r (p.meaning a * rowProduct a factors) := by
  induction h with
  | done => exact ⟨hp, (mul_one _).symm⟩
  | next multiplied _ ih =>
      obtain ⟨hfactor, hfactors⟩ := rowIsExact_cons.mp hfactors
      obtain ⟨hnext, hmeaning⟩ := multiply_represents (a := a) exact ⟨hp, rfl⟩ ⟨hfactor, rfl⟩
        multiplied
      have product := ih hnext hfactors
      rwa [hmeaning, mul_assoc, ← rowProduct] at product

theorem products_represent {classes : List (Class Particle)} {products : List Particle}
    (h : List.Forall₂ (fun c product => Multiplied policy c.first c.others product) classes
      products)
    (exact : policy.IsExact) (hmembers : RowIsExact policy (classes.flatMap Class.members)) :
    RowIsExact policy products ∧
      rowProduct a products = rowProduct a (classes.flatMap Class.members) := by
  induction h with
  | nil => exact ⟨hmembers, rfl⟩
  | cons multiplied _ ih =>
      rw [List.flatMap_cons, rowIsExact_append] at hmembers
      obtain ⟨hfirst, hothers⟩ := rowIsExact_cons.mp hmembers.1
      obtain ⟨hproduct, hmeaning⟩ := multiplied.represents (a := a) exact hfirst hothers
      obtain ⟨hproducts, hmeanings⟩ := ih hmembers.2
      refine ⟨rowIsExact_cons.mpr ⟨hproduct, hproducts⟩, ?_⟩
      rw [List.flatMap_cons, rowProduct_append, rowProduct, hmeaning, hmeanings, Class.members,
        rowProduct]

/-- One factor that is zero makes a product zero. -/
theorem rowProduct_of_any_isZero {factors : List Particle} (h : RowIsExact policy factors)
    (vanishes : factors.any isZero = true) : rowProduct a factors = 0 := by
  obtain ⟨factor, hfactor, zero⟩ := List.any_eq_true.mp vanishes
  rw [rowProduct_eq]
  refine List.prod_eq_zero (List.mem_map.mpr ⟨factor, hfactor, ?_⟩)
  exact meaning_of_isZero zero (h factor hfactor).exponent

/-- Some factors under an outer sign and exponent, however many they are. -/
theorem ofFactors_represents (exact : policy.IsExact) {factors : List Particle}
    (h : RowIsExact policy factors) {e : UInt32} (he : e ≠ 0) (s : Bool) :
    Represents policy a (ofFactors s e factors) (sgn s * rowProduct a factors ^ e.toNat) := by
  unfold ofFactors
  split
  · next vanishes =>
    rw [rowProduct_of_any_isZero h vanishes, zero_pow (toNat_ne_zero he), mul_zero]
    exact represents_zero exact
  · split
    · next factor _ =>
      rw [rowProduct, rowProduct, mul_one]
      exact foldInto_represents ⟨h factor List.mem_cons_self, rfl⟩ he s
    · exact ⟨isExact_term.mpr ⟨he, h⟩, by rw [meaning, bodyMeaning]⟩

theorem products_represent_term (exact : policy.IsExact) {s : Bool} {factors : List Particle}
    {e : UInt32} {results : List Product} (hp : IsExact policy ⟨s, .term factors, e⟩)
    (h : products policy factors = .ok results) :
    Represents policy a (ofFactors s e (results.map Product.product))
      (meaning a ⟨s, .term factors, e⟩) := by
  obtain ⟨he, hfactors⟩ := isExact_term.mp hp
  have members := Class.members_group_perm areMultipliable factors
  obtain ⟨hproducts, hmeaning⟩ := products_represent (a := a) (products_eq_ok h) exact
    (hfactors.perm members.symm)
  have result := ofFactors_represents (a := a) exact hproducts he s
  rwa [hmeaning, likeFactors, rowProduct_perm members] at result

/-! ## Rewriting -/

/-- An exact particle turns into an exact one of the same meaning. -/
def Keeps (policy : Rounding) (a : Assignment) (p q : Particle) : Prop :=
  p.IsExact policy → Represents policy a q (p.meaning a)

/-- A rewritten particle means the same and is still exact. -/
theorem Rewritten.keeps (h : p.Rewritten policy q) (exact : policy.IsExact) :
    Keeps policy a p q := by
  intro hp
  cases h with
  | sums _ hsums => exact sums_represent exact hp hsums
  | products _ hproducts => exact products_represent_term exact hp hproducts

theorem rowIsExact_swap {old new : Particle} {before after : List Particle}
    (h : RowIsExact policy (before ++ old :: after))
    (hnew : old.IsExact policy → new.IsExact policy) :
    RowIsExact policy (before ++ new :: after) := by
  rw [rowIsExact_append, rowIsExact_cons] at h ⊢
  exact ⟨h.1, hnew h.2.1, h.2.2⟩

/-- A swapped child that is exact leaves the particle around it exact. -/
theorem Swap.isExact {old new : Particle} (swap : Swap old new p q) (hp : p.IsExact policy)
    (hnew : old.IsExact policy → new.IsExact policy) : q.IsExact policy := by
  cases swap with
  | top | bottom | radicand =>
      rw [isExact_iff] at hp ⊢
      simp_all [Body.parts, Body.numeral?]
  | factor =>
      obtain ⟨exponent, row⟩ := isExact_term.mp hp
      exact isExact_term.mpr ⟨exponent, rowIsExact_swap row hnew⟩
  | term =>
      obtain ⟨exponent, row⟩ := isExact_expression.mp hp
      exact isExact_expression.mpr ⟨exponent, rowIsExact_swap row hnew⟩

/-- A child may be replaced by what keeps its meaning. -/
theorem Swap.keeps {old new : Particle} (swap : Swap old new p q)
    (h : Keeps policy a old new) : Keeps policy a p q := by
  intro hp
  have hold : old.IsExact policy := by
    cases swap with
    | top | bottom | radicand => exact hp.part (by simp [Body.parts])
    | factor | term => exact hp.part (by simp [Body.parts])
  refine ⟨swap.isExact hp fun hold => (h hold).exact, ?_⟩
  exact (swap.meaning_eq (h hold).meaning.symm).symm

end Particle

end StepAlgebra
