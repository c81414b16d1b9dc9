import StepAlgebra.Proofs.Arithmetic.Number
import StepAlgebra.Proofs.Step.Commutative
import StepAlgebra.Step.Rule

/-!
# Sums of monomials

A monomial is a number, a power of a variable, or a product of these with the number first. Being
like terms is not transitive, but on monomials it is: they are like terms if they have the same
powers in the same order. Adding two of them keeps the powers, whatever becomes of the number, so a
class is added up in one pass and no two of the sums are alike.

* `Particle.IsMonomialIn` — monomials with their powers;
* `Particle.IsMonomialIn.areLikeTerms_iff` — which of them are alike;
* `Particle.IsMonomialIn.combine` — what the sum of two is;
* `Value.combineLikeTerms_leaves_unlike` — adding like terms once is enough.
-/

namespace StepAlgebra.Particle

/-- A power of a variable. -/
def power (v : Char × UInt32) : Particle :=
  ⟨true, .symbol v.1, v.2⟩

/-- A number times powers of variables, or two or more powers without a number. -/
inductive IsProduct (vs : List (Char × UInt32)) : List Particle → Prop
  | scaled {t : Bool} {n : Numeral} : vs ≠ [] → IsProduct vs (⟨t, .number n, 1⟩ :: vs.map power)
  | bare : 2 ≤ vs.length → IsProduct vs (vs.map power)

/-- A number, a power of a variable, or a product, under either sign, with its powers. -/
inductive IsMonomialIn : List (Char × UInt32) → Particle → Prop
  | number {s : Bool} {n : Numeral} : IsMonomialIn [] ⟨s, .number n, 1⟩
  | symbol {s : Bool} {x : Char} {e : UInt32} : IsMonomialIn [(x, e)] ⟨s, .symbol x, e⟩
  | term {s : Bool} {vs : List (Char × UInt32)} {factors : List Particle} :
      IsProduct vs factors → IsMonomialIn vs ⟨s, .term factors, 1⟩

variable {policy : Rounding} {s t : Bool} {m n : Numeral} {x y : Char} {e f : UInt32}
  {vs ws : List (Char × UInt32)} {ps qs : List Particle} {p q r : Particle}

/-! ## Constants -/

@[simp] theorem isConstant_number : isConstant ⟨s, .number n, 1⟩ = true :=
  rfl

@[simp] theorem isConstant_symbol : isConstant ⟨s, .symbol x, e⟩ = false :=
  Bool.and_false _

@[simp] theorem isConstant_term : isConstant ⟨s, .term ps, e⟩ = false :=
  Bool.and_false _

@[simp] theorem areCombinable_numbers :
    areCombinable ⟨s, .number m, 1⟩ ⟨t, .number n, 1⟩ = true :=
  rfl

@[simp] theorem areCombinable_symbol_left : areCombinable ⟨s, .symbol x, e⟩ q = false := by
  rw [areCombinable, isConstant_symbol, Bool.false_and, Bool.false_and]

@[simp] theorem areCombinable_symbol_right : areCombinable p ⟨s, .symbol x, e⟩ = false := by
  rw [areCombinable, isConstant_symbol, Bool.and_false, Bool.false_and]

@[simp] theorem areCombinable_term_left : areCombinable ⟨s, .term ps, e⟩ q = false := by
  rw [areCombinable, isConstant_term, Bool.false_and, Bool.false_and]

@[simp] theorem areCombinable_term_right : areCombinable p ⟨s, .term ps, e⟩ = false := by
  rw [areCombinable, isConstant_term, Bool.and_false, Bool.false_and]

/-! ## Powers -/

@[simp] theorem power_positive (v : Char × UInt32) : (power v).positive = true :=
  rfl

@[simp] theorem power_body (v : Char × UInt32) : (power v).body = .symbol v.1 :=
  rfl

@[simp] theorem power_exponent (v : Char × UInt32) : (power v).exponent = v.2 :=
  rfl

@[simp] theorem isConstant_power (v : Char × UInt32) : isConstant (power v) = false :=
  isConstant_symbol

theorem same_power (v w : Char × UInt32) : (power v).same (power w) = decide (v = w) := by
  obtain ⟨x, e⟩ := v
  obtain ⟨y, f⟩ := w
  simp [power, Particle.same, Body.same, Body.signsAgree, Bool.and_comm (decide (e = f)),
    Bool.decide_and, beq_eq_decide]

theorem sameRow_powers (vs ws : List (Char × UInt32)) :
    sameRow (vs.map power) (ws.map power) = decide (vs = ws) := by
  induction vs generalizing ws with
  | nil => cases ws <;> rfl
  | cons v vs ih =>
      cases ws with
      | nil => rfl
      | cons w ws => simp [sameRow, same_power, ih]

namespace IsProduct

section

variable (h : IsProduct vs ps)
include h

theorem ne_nil : vs ≠ [] := by
  cases h with
  | scaled some => exact some
  | bare several => exact List.ne_nil_of_length_pos (Nat.lt_of_lt_of_le Nat.zero_lt_two several)

theorem variableFactors_eq : variableFactors ps = vs.map power := by
  cases h with
  | scaled => rfl
  | bare several =>
      obtain ⟨v, vs, rfl⟩ := List.exists_cons_of_ne_nil (ne_nil (.bare several))
      simp [variableFactors]

/-- The coefficient of a product is a number. -/
theorem exists_signedCoefficient (s : Bool) :
    ∃ t n, signedCoefficient s ps = ⟨t, .number n, 1⟩ := by
  cases h with
  | scaled => exact ⟨_, _, rfl⟩
  | bare several =>
      obtain ⟨v, vs, rfl⟩ := List.exists_cons_of_ne_nil (ne_nil (.bare several))
      exact ⟨s, .one, by simp [signedCoefficient, coefficient?, unit]⟩

/-- A product is a multiple of a power if that is its only one. -/
theorem isMultipleOf_iff :
    isMultipleOf ⟨s, .term ps, 1⟩ q = true ↔ ∃ x, q.body = .symbol x ∧ vs = [(x, q.exponent)] := by
  obtain ⟨t, b, e⟩ := q
  obtain ⟨r, c, coefficient⟩ := h.exists_signedCoefficient s
  cases h with
  | scaled some =>
      obtain _ | ⟨v, _ | ⟨w, us⟩⟩ := vs
      · exact absurd rfl some
      · simp only [List.map_cons, List.map_nil] at coefficient ⊢
        cases b <;>
          simp [isMultipleOf, bareFactor?, coefficient, Body.same, unit, Prod.ext_iff, and_comm]
      · simp [isMultipleOf, bareFactor?]
  | bare several =>
      -- without a number there are two powers at least, and neither is a coefficient
      obtain _ | ⟨v, _ | ⟨w, _ | ⟨u, us⟩⟩⟩ := vs
      · simp at several
      · simp at several
      · simp [isMultipleOf, bareFactor?]
      · simp [isMultipleOf, bareFactor?]

end

section

variable (hp : IsProduct vs ps) (hq : IsProduct ws qs)
include hp hq

theorem haveLikeFactors_iff :
    haveLikeFactors ⟨s, .term ps, 1⟩ ⟨t, .term qs, 1⟩ = true ↔ vs = ws := by
  obtain ⟨u, m, coefficientP⟩ := hp.exists_signedCoefficient s
  obtain ⟨v, n, coefficientQ⟩ := hq.exists_signedCoefficient t
  simp [haveLikeFactors, hp.variableFactors_eq, hq.variableFactors_eq, sameRow_powers,
    coefficientP, coefficientQ]

/-- Equal products are of equal powers. -/
theorem eq_of_sameRow (h : sameRow ps qs = true) : vs = ws := by
  -- a number is no power, so both have a number in front or neither has
  cases hp with
  | scaled =>
      cases hq with
      | scaled =>
          rw [sameRow, Bool.and_eq_true, sameRow_powers, decide_eq_true_iff] at h
          exact h.2
      | bare several =>
          obtain ⟨w, ws, rfl⟩ := List.exists_cons_of_ne_nil (ne_nil (.bare several))
          simp [sameRow, Particle.same, Body.same, power] at h
  | bare several =>
      cases hq with
      | scaled =>
          obtain ⟨v, vs, rfl⟩ := List.exists_cons_of_ne_nil (ne_nil (.bare several))
          simp [sameRow, Particle.same, Body.same, power] at h
      | bare => rwa [sameRow_powers, decide_eq_true_iff] at h

end

end IsProduct

/-! ## Like monomials -/

@[simp] theorem isMultipleOf_number : isMultipleOf ⟨s, .number n, e⟩ q = false :=
  rfl

@[simp] theorem isMultipleOf_symbol : isMultipleOf ⟨s, .symbol x, e⟩ q = false :=
  rfl

/-- Monomials are like terms if they have the same powers. -/
theorem IsMonomialIn.areLikeTerms_iff (hp : IsMonomialIn vs p) (hq : IsMonomialIn ws q) :
    areLikeTerms p q = true ↔ vs = ws := by
  unfold areLikeTerms agreeUpToSign
  cases hp with
  | number =>
      cases hq with
      | number => simp
      | symbol => simp [Body.same, haveLikeFactors]
      | term hq => simp [Body.same, haveLikeFactors, hq.isMultipleOf_iff, hq.ne_nil.symm]
  | symbol =>
      cases hq with
      | number => simp [Body.same, haveLikeFactors]
      | symbol => simp [Body.same, haveLikeFactors, and_comm]
      | term hq => simp [Body.same, haveLikeFactors, hq.isMultipleOf_iff, eq_comm]
  | term hp =>
      cases hq with
      | number => simp [Body.same, haveLikeFactors, hp.isMultipleOf_iff, hp.ne_nil]
      | symbol => simp [Body.same, haveLikeFactors, hp.isMultipleOf_iff]
      | term hq =>
          simpa [Body.same, hp.haveLikeFactors_iff hq, hp.isMultipleOf_iff,
            hq.isMultipleOf_iff] using hp.eq_of_sameRow hq

/-! ## Sums of like monomials -/

/-- What like monomials add up to: one more of them, or zero. -/
def IsSumOf (vs : List (Char × UInt32)) (p : Particle) : Prop :=
  p.isZero = true ∨ IsMonomialIn vs p

theorem isSumOf_zero : IsSumOf vs zero :=
  .inl rfl

/-- The sum of two numbers is a number. -/
theorem addConstants_numbers
    (h : addConstants policy ⟨s, .number m, 1⟩ ⟨t, .number n, 1⟩ = .ok r) :
    ∃ u l, r = ⟨u, .number l, 1⟩ := by
  obtain ⟨sum, hsum, rfl⟩ := map_eq_ok_iff.mp h
  obtain ⟨d, -, written⟩ := Number.finish_eq_ok hsum
  have one : sum.exponent = 1 := (Decimal.toNumber?_meaning written).2
  exact ⟨sum.positive, sum.body, by rw [Number.particle, one]⟩

/-- A number times powers is a monomial, also where the number is not written. -/
theorem isMonomialIn_withCoefficient (powers : vs ≠ []) :
    IsMonomialIn vs (withCoefficient ⟨s, .number n, 1⟩ (vs.map power)) := by
  unfold withCoefficient
  split
  · match vs with
    | [] => exact absurd rfl powers
    | [v] => exact .symbol
    | v :: w :: vs => exact .term (.bare (by simp))
  · exact .term (.scaled powers)

theorem isSumOf_of_scaleBySum (powers : vs ≠ [])
    (h : scaleBySum policy ⟨s, .number m, 1⟩ ⟨t, .number n, 1⟩ (vs.map power) = .ok r) :
    IsSumOf vs r := by
  obtain ⟨sum, hsum, vanishes | rfl⟩ := scaleBySum_eq_ok h
  · rw [vanishes.2]
    exact isSumOf_zero
  · obtain ⟨u, l, rfl⟩ := addConstants_numbers hsum
    exact .inr (isMonomialIn_withCoefficient powers)

/-- Numbers are added. -/
theorem combine_numbers (hp : isZero ⟨s, .number m, 1⟩ = false)
    (hq : isZero ⟨t, .number n, 1⟩ = false) :
    combine policy ⟨s, .number m, 1⟩ ⟨t, .number n, 1⟩ =
      addConstants policy ⟨s, .number m, 1⟩ ⟨t, .number n, 1⟩ := by
  simp [combine, hp, hq]

theorem combine_symbols : combine policy ⟨s, .symbol x, e⟩ ⟨t, .symbol x, e⟩ =
    .ok (if s = t then double ⟨s, .symbol x, e⟩ else zero) := by
  simp [combine, isZero, haveLikeFactors, agreeUpToSign, Body.same]

namespace IsProduct

/-- The coefficients of like products are added. -/
theorem combine_terms (hp : IsProduct vs ps) (hq : IsProduct vs qs) :
    combine policy ⟨s, .term ps, 1⟩ ⟨t, .term qs, 1⟩ =
      scaleBySum policy (signedCoefficient s ps) (signedCoefficient t qs) (vs.map power) := by
  simp [combine, isZero, hp.haveLikeFactors_iff hq, parts, hp.variableFactors_eq]

theorem isMultipleOf_power (h : IsProduct [(x, e)] ps) :
    isMultipleOf ⟨s, .term ps, 1⟩ ⟨t, .symbol x, e⟩ = true :=
  h.isMultipleOf_iff.mpr ⟨x, rfl, rfl⟩

theorem drop_one {v : Char × UInt32} (h : IsProduct [v] ps) : ps.drop 1 = [power v] := by
  cases h with
  | scaled => rfl
  | bare several => simp at several

/-- A power alone counts once. -/
theorem combine_term_symbol (h : IsProduct [(x, e)] ps) :
    combine policy ⟨s, .term ps, 1⟩ ⟨t, .symbol x, e⟩ =
      scaleBySum policy (signedCoefficient s ps) (unit t) [power (x, e)] := by
  simp [combine, isZero, haveLikeFactors, h.isMultipleOf_power, parts, h.drop_one]

theorem combine_symbol_term (h : IsProduct [(x, e)] ps) :
    combine policy ⟨t, .symbol x, e⟩ ⟨s, .term ps, 1⟩ =
      scaleBySum policy (signedCoefficient s ps) (unit t) [power (x, e)] := by
  simp [combine, isZero, haveLikeFactors, h.isMultipleOf_power, parts, h.drop_one]

end IsProduct

/-- The sum of like monomials is one of them, or zero. -/
theorem IsMonomialIn.combine (hp : IsMonomialIn vs p) (hq : IsMonomialIn vs q)
    (h : combine policy p q = .ok r) : IsSumOf vs r := by
  by_cases zeroP : p.isZero = true
  · obtain rfl : q = r := by simpa [Particle.combine, zeroP] using h
    exact .inr hq
  by_cases zeroQ : q.isZero = true
  · obtain rfl : p = r := by simpa [Particle.combine, zeroP, zeroQ] using h
    exact .inr hp
  cases hp with
  | number =>
      cases hq with
      | number =>
          rw [combine_numbers (by simpa using zeroP) (by simpa using zeroQ)] at h
          obtain ⟨u, l, rfl⟩ := addConstants_numbers h
          exact .inr .number
      | term hq => exact absurd rfl hq.ne_nil
  | @symbol s x e =>
      cases hq with
      | @symbol t =>
          rw [combine_symbols] at h
          obtain rfl := Except.ok.inj h
          split
          · exact .inr (.term (.scaled (List.cons_ne_nil _ _)))
          · exact isSumOf_zero
      | @term t _ qs hq =>
          rw [hq.combine_symbol_term] at h
          obtain ⟨u, n, coefficient⟩ := hq.exists_signedCoefficient t
          rw [coefficient] at h
          exact isSumOf_of_scaleBySum (List.cons_ne_nil _ _) h
  | @term s _ ps hp =>
      obtain ⟨u, m, coefficientP⟩ := hp.exists_signedCoefficient s
      cases hq with
      | number => exact absurd rfl hp.ne_nil
      | @symbol t x e =>
          rw [hp.combine_term_symbol, coefficientP] at h
          exact isSumOf_of_scaleBySum (List.cons_ne_nil _ _) h
      | @term t _ qs hq =>
          obtain ⟨v, n, coefficientQ⟩ := hq.exists_signedCoefficient t
          rw [hp.combine_terms hq, coefficientP, coefficientQ] at h
          exact isSumOf_of_scaleBySum hp.ne_nil h

/-! ## Classes of monomials -/

/-- Like monomials are added up in one pass. -/
theorem Tallied.isSumOf {sum total : Particle} {terms added deferred : List Particle}
    (h : Tallied policy sum terms total added deferred) (start : IsSumOf vs sum)
    (monomials : ∀ p ∈ terms, IsMonomialIn vs p) : deferred = [] ∧ IsSumOf vs total := by
  induction h with
  | done => exact ⟨rfl, start⟩
  | @add sum term next _ _ _ _ _ combined _ ih =>
      obtain ⟨here, later⟩ := List.forall_mem_cons.mp monomials
      refine ih ?_ later
      rcases start with vanishes | monomial
      · obtain rfl : term = next := by simpa [combine, vanishes] using combined
        exact .inr here
      · exact monomial.combine here combined
  | defer refuses _ _ =>
      obtain ⟨here, -⟩ := List.forall_mem_cons.mp monomials
      rw [Bool.or_eq_false_iff] at refuses
      rcases start with vanishes | monomial
      · rw [vanishes] at refuses
        cases refuses.1
      · rw [(monomial.areLikeTerms_iff here).mpr rfl] at refuses
        cases refuses.2

/-- A class of like monomials has one subtotal. -/
theorem Totalled.isSumOf {first : Particle} {others : List Particle} {sums : List Subtotal}
    (h : Totalled policy (first :: others) sums) (here : IsMonomialIn vs first)
    (later : ∀ p ∈ others, IsMonomialIn vs p) : ∃ t, sums = [t] ∧ IsSumOf vs t.sum := by
  cases h with
  | pass tallied totalled =>
      obtain ⟨rfl, isSum⟩ := tallied.isSumOf (.inr here) later
      cases totalled
      exact ⟨_, rfl, isSum⟩

section

variable {terms : List Particle} {sums : List Subtotal}

/-- The subtotal of a class of monomials keeps the powers of the class. -/
theorem forall₂_isSumOf (monomials : ∀ p ∈ terms, ∃ vs, IsMonomialIn vs p)
    (h : allSubtotals policy terms = .ok sums) :
    List.Forall₂ (fun c t => ∃ vs, IsMonomialIn vs c.first ∧ IsSumOf vs t.sum) (likeTerms terms)
      sums := by
  have members := Class.members_group_perm areLikeTerms terms
  obtain ⟨rows, hrows, rfl⟩ := allSubtotals_eq_ok h
  have each : ∀ c ∈ likeTerms terms, ∀ row, Totalled policy c.members row →
      ∃ t, row = [t] ∧ ∃ vs, IsMonomialIn vs c.first ∧ IsSumOf vs t.sum := by
    intro c hc row totalled
    have monomial : ∀ p ∈ c.members, ∃ vs, IsMonomialIn vs p := fun p hp =>
      monomials p (members.subset (List.mem_flatMap.mpr ⟨c, hc, hp⟩))
    obtain ⟨vs, first⟩ := monomial c.first List.mem_cons_self
    have others : ∀ p ∈ c.others, IsMonomialIn vs p := by
      intro p hp
      obtain ⟨ws, other⟩ := monomial p (List.mem_cons_of_mem _ hp)
      obtain rfl := (first.areLikeTerms_iff other).mp (Class.related_of_mem_group hc hp)
      exact other
    obtain ⟨t, rfl, isSum⟩ := totalled.isSumOf first others
    exact ⟨t, rfl, vs, first, isSum⟩
  exact forall₂_flatten hrows each

/-- Subtotals that are kept are of different powers. -/
theorem keptSums_unlike (monomials : ∀ p ∈ terms, ∃ vs, IsMonomialIn vs p)
    (h : allSubtotals policy terms = .ok sums) :
    (keptSums sums).Pairwise fun p q => areLikeTerms p q = false := by
  rw [keptSums, List.pairwise_filter, List.pairwise_map]
  refine pairwise_of_forall₂ (forall₂_isSumOf monomials h) ?_
    (Class.unrelated_group areLikeTerms terms)
  rintro c d t u ⟨vs, firstC, isSumT⟩ ⟨ws, firstD, isSumU⟩ unrelated keptT keptU
  have sumT := isSumT.resolve_left (by simpa using keptT)
  have sumU := isSumU.resolve_left (by simpa using keptU)
  rw [← Bool.not_eq_true, firstC.areLikeTerms_iff firstD] at unrelated
  rwa [← Bool.not_eq_true, sumT.areLikeTerms_iff sumU]

theorem exists_isMonomialIn_of_mem_keptSums (monomials : ∀ p ∈ terms, ∃ vs, IsMonomialIn vs p)
    (h : allSubtotals policy terms = .ok sums) : ∀ p ∈ keptSums sums, ∃ vs, IsMonomialIn vs p := by
  intro p hp
  obtain ⟨mem, kept⟩ := List.mem_filter.mp hp
  obtain ⟨t, ht, rfl⟩ := List.mem_map.mp mem
  obtain ⟨c, -, vs, -, isSum⟩ := exists_of_forall₂_mem (forall₂_isSumOf monomials h) ht
  exact ⟨vs, isSum.resolve_left (by simpa using kept)⟩

end

end StepAlgebra.Particle

namespace StepAlgebra.Value

open Particle

variable {policy : Rounding} {s : Bool} {e : UInt32} {terms : List Particle} {step : Step}

/-- Where no two terms are alike there is nothing to add up. -/
theorem sumScore_of_unlike {v : Value} (unlike : ∀ terms, v.terms? = some terms →
    terms.Pairwise fun p q => areLikeTerms p q = false) : v.sumScore = 0 := by
  unfold sumScore
  split
  · rfl
  · next terms hterms =>
    rw [likeTerms, Class.group_of_unrelated (unlike terms hterms), List.length_map, Nat.sub_self]
    rfl

theorem terms?_foldInto {p : Particle} (h : (particle p).terms? = none) (s : Bool) (e : UInt32) :
    (particle (p.foldInto s e)).terms? = none := by
  obtain ⟨t, b, f⟩ := p
  have body (t : Bool) (f : UInt32) : (particle ⟨t, b, f⟩).terms? = none := by
    cases b with
    | expression => cases h
    | _ => rfl
  unfold foldInto
  split
  · exact body _ _
  · split
    · exact body _ _
    · rfl

/-- The terms that are left stay as they are, and a single one brings no others. -/
theorem eq_of_terms?_ofTerms {kept terms : List Particle} {s : Bool} {e : UInt32}
    (h : ∀ p ∈ kept, (particle p).terms? = none)
    (hterms : (particle (ofTerms s e kept)).terms? = some terms) : terms = kept := by
  match kept with
  | [] =>
      have zero : (particle (ofTerms s e [])).terms? = none := by
        rw [ofTerms]
        split <;> rfl
      rw [zero] at hterms
      cases hterms
  | [p] =>
      rw [ofTerms, terms?_foldInto (h p List.mem_cons_self)] at hterms
      cases hterms
  | p :: q :: kept => exact (Option.some.inj hterms).symm

/-- Adding the like terms of a sum of monomials leaves none that are alike, whatever the policy
rounds. -/
theorem combineLikeTerms_leaves_unlike (policy : Rounding) (s : Bool) (terms : List Particle)
    (e : UInt32) (monomials : ∀ p ∈ terms, ∃ vs, IsMonomialIn vs p) :
    let v := Value.particle ⟨s, .expression terms, e⟩
    ∀ step, v.combineLikeTerms policy = .ok step →
      step.result.sumScore = 0 ∧ ∀ sums, step.result.terms? = some sums →
        sums.Pairwise fun p q => areLikeTerms p q = false := by
  intro v step h
  obtain ⟨subtotals, hsubtotals, result⟩ := combineLikeTerms_eq_ok h
  have unlike : ∀ sums, step.result.terms? = some sums →
      sums.Pairwise fun p q => areLikeTerms p q = false := by
    intro sums hsums
    rw [result] at hsums
    have kept : ∀ p ∈ keptSums subtotals, (particle p).terms? = none := by
      intro p hp
      obtain ⟨vs, monomial⟩ := exists_isMonomialIn_of_mem_keptSums monomials hsubtotals p hp
      cases monomial <;> rfl
    rw [eq_of_terms?_ofTerms kept hsums]
    exact keptSums_unlike monomials hsubtotals
  exact ⟨sumScore_of_unlike unlike, unlike⟩

/-- In `2x+3y²-2x+7-x+2xy²+y²` the first class vanishes before its last term, which is left. -/
theorem combineLikeTerms_leaves_unlike_of_cancellation :
    let number := fun (d : Digit) => (Body.number ⟨[d], none, none⟩).plain
    let x := (Body.symbol 'x').plain
    let squared : Particle := ⟨true, .symbol 'y', 2⟩
    let double := (Body.term [number 2, x]).plain
    let terms := [double, (Body.term [number 3, squared]).plain, double.negate, number 7, x.negate,
      (Body.term [number 2, x, squared]).plain, squared]
    let v := Value.particle (Body.expression terms).plain
    (∀ p ∈ terms, ∃ vs, IsMonomialIn vs p) ∧ ∃ step, v.combineLikeTerms .scientific = .ok step ∧
      step.result.sumScore = 0 := by
  intro number x squared double terms v
  have scaled (s : Bool) (d : Digit) {vs : List (Char × UInt32)} (powers : vs ≠ []) :
      IsMonomialIn vs ⟨s, .term (number d :: vs.map power), 1⟩ :=
    .term (.scaled powers)
  have monomials : ∀ p ∈ terms, ∃ vs, IsMonomialIn vs p := by
    intro p hp
    simp only [terms, List.mem_cons, List.not_mem_nil, or_false] at hp
    rcases hp with rfl | rfl | rfl | rfl | rfl | rfl | rfl
    · exact ⟨[('x', 1)], scaled true 2 (List.cons_ne_nil _ _)⟩
    · exact ⟨[('y', 2)], scaled true 3 (List.cons_ne_nil _ _)⟩
    · exact ⟨[('x', 1)], scaled false 2 (List.cons_ne_nil _ _)⟩
    · exact ⟨[], .number⟩
    · exact ⟨[('x', 1)], .symbol⟩
    · exact ⟨[('x', 1), ('y', 2)], scaled true 2 (List.cons_ne_nil _ _)⟩
    · exact ⟨[('y', 2)], .symbol⟩
  have succeeds : (v.combineLikeTerms .scientific).isOk = true := by decide +kernel
  obtain ⟨step, happly⟩ := exists_ok_of_isOk succeeds
  exact ⟨monomials, step, happly,
    (combineLikeTerms_leaves_unlike .scientific true terms 1 monomials step happly).1⟩

end StepAlgebra.Value
