import StepAlgebra.Proofs.Arithmetic.Commutative
import StepAlgebra.Proofs.Arithmetic.Constant
import StepAlgebra.Proofs.Arithmetic.Plain

/-!
# Constants over one denominator

Fractions and mixed numbers are added over a denominator that they share, and their sum is over that
denominator again. No policy is asked for this. Positive constants over one denominator always have
a sum, which is another one.

* `Particle.IsOver` — whole numbers, fractions and mixed numbers over a denominator;
* `Particle.IsPositiveOver` — those with a plus sign;
* `Particle.sums_by_parts_are_exact` — a sum of constants that are not both numbers;
* `Particle.IsPositiveOver.exists_addConstants` — positive constants are added under every policy.
-/

namespace StepAlgebra

/-- A whole number, a fraction with positive whole parts, or a mixed number of a whole numeral and
such a fraction, over the denominator `d`. Parts are positive if they have no minus sign. -/
inductive Particle.IsOver (d : Numeral) : Particle → Prop
  | number (s : Bool) {n : Numeral} : n.isWhole = true → IsOver d ⟨s, .number n, 1⟩
  | fraction (s : Bool) {t : Numeral} : t.isWhole = true → d.isWhole = true →
      IsOver d ⟨s, .fraction (Body.number t).plain (Body.number d).plain, 1⟩
  | mixed (s : Bool) {n t : Numeral} : n.isWhole = true → t.isWhole = true → d.isWhole = true →
      IsOver d ⟨s, .mixed n (Body.number t).plain (Body.number d).plain, 1⟩

/-! ## Sums over the denominator -/

namespace WholeParts

open Particle

variable {d n : Numeral} {f m : WholeParts} {r : Particle} {s : Bool}

theorem isOver_of_ofFraction? {top bottom : Particle} (h : ofFraction? s top bottom = some f) :
    f.bottom.isWhole = true ∧ IsOver f.bottom ⟨s, .fraction top bottom, 1⟩ := by
  obtain ⟨t, b, wholeTop, wholeBottom, rfl, rfl, rfl⟩ := ofFraction?_eq_some h
  exact ⟨wholeBottom, .fraction s wholeTop wholeBottom⟩

theorem isOver_of_ofMixed? {top bottom : Particle} (h : ofMixed? s n top bottom = some m) :
    m.bottom.isWhole = true ∧ IsOver m.bottom ⟨s, .mixed n top bottom, 1⟩ := by
  simp only [ofMixed?, Option.ite_none_right_eq_some, Option.map_eq_some_iff] at h
  obtain ⟨whole, f, hf, rfl⟩ := h
  obtain ⟨t, b, wholeTop, wholeBottom, rfl, rfl, rfl⟩ := ofFraction?_eq_some hf
  exact ⟨wholeBottom, .mixed s whole wholeTop wholeBottom⟩

theorem isOver_ofInt (z : Int) : (ofInt z).IsOver d :=
  .number _ (Numeral.isWhole_ofMagnitude z)

theorem isOver_fraction (top : Int) (hd : d.isWhole = true) : (fraction top d).IsOver d := by
  unfold fraction
  split
  · exact .number true rfl
  · dsimp only
    split
    · exact .number _ rfl
    · exact .fraction _ (Numeral.isWhole_ofMagnitude top) hd

theorem isOver_mixed (s : Bool) (whole top : Int) (hd : d.isWhole = true) :
    (mixed s whole top d).IsOver d :=
  .mixed s (Numeral.isWhole_ofMagnitude whole) (Numeral.isWhole_ofMagnitude top) hd

theorem IsResult.isOver (h : IsResult d r) (hd : d.isWhole = true) : r.IsOver d := by
  cases h with
  | whole z => exact isOver_ofInt z
  | fraction top => exact isOver_fraction top hd
  | mixed s whole top => exact isOver_mixed s whole top hd

end WholeParts

namespace Particle

open WholeParts

variable {policy : Rounding} {p q r : Particle}

/-- A sum found part by part is over the denominator that its operands share. -/
theorem AddedByParts.isOver (h : AddedByParts p q r) :
    ∃ d : Numeral, p.IsOver d ∧ q.IsOver d ∧ r.IsOver d := by
  induction h with
  | fractions hf hg h =>
      obtain ⟨whole, hf⟩ := isOver_of_ofFraction? hf
      obtain ⟨same, result⟩ := addFractions?_isResult h
      exact ⟨_, hf, same ▸ (isOver_of_ofFraction? hg).2, result.isOver whole⟩
  | numberFraction hf h =>
      obtain ⟨whole, hf⟩ := isOver_of_ofFraction? hf
      obtain ⟨number, rfl | result⟩ := addToFraction?_isResult h
      · exact ⟨_, .number _ number, hf, hf⟩
      · exact ⟨_, .number _ number, hf, result.isOver whole⟩
  | numberMixed hm h =>
      obtain ⟨whole, hm⟩ := isOver_of_ofMixed? hm
      obtain ⟨number, result⟩ := addToMixed?_isResult h
      exact ⟨_, .number _ number, hm, result.isOver whole⟩
  | fractionMixed hf hm h =>
      obtain ⟨whole, hm⟩ := isOver_of_ofMixed? hm
      obtain ⟨same, result⟩ := addFractionToMixed?_isResult h
      exact ⟨_, same ▸ (isOver_of_ofFraction? hf).2, hm, result.isOver whole⟩
  | mixedNumbers hm hl h =>
      obtain ⟨whole, hm⟩ := isOver_of_ofMixed? hm
      obtain ⟨same, result⟩ := addMixed?_isResult h
      exact ⟨_, hm, same ▸ (isOver_of_ofMixed? hl).2, result.isOver whole⟩
  | swap _ ih =>
      obtain ⟨d, hq, hp, hr⟩ := ih
      exact ⟨d, hp, hq, hr⟩

/-- Policies are about numbers only. -/
theorem addConstants_policy (unlike : ¬(p.level = .number ∧ q.level = .number))
    (policy policy' : Rounding) : addConstants policy p q = addConstants policy' p q := by
  unfold addConstants
  split
  · split
    · next m n hp hq => exact absurd ⟨by rw [level, hp]; rfl, by rw [level, hq]; rfl⟩ unlike
    · rfl
  · rfl

/-- The sum of two constants that are not both numbers means the sum of what they mean, is the same
under every policy, and is a whole number, fraction or mixed number over the denominator of their
fractional parts. -/
theorem sums_by_parts_are_exact (unlike : ¬(p.level = .number ∧ q.level = .number))
    (h : addConstants policy p q = .ok r) :
    (∀ a, r.meaning a = p.meaning a + q.meaning a) ∧
      (∀ policy', addConstants policy' p q = .ok r) ∧
      ∃ d : Numeral, p.IsOver d ∧ q.IsOver d ∧ r.IsOver d := by
  obtain ⟨hp, hq, ⟨m, n, c, hpbody, hqbody, -, -⟩ | hsum⟩ := addConstants_eq_ok h
  · exact absurd ⟨by rw [level, hpbody]; rfl, by rw [level, hqbody]; rfl⟩ unlike
  · have added := addedByParts_of_addExact? hp hq hsum
    exact ⟨fun a => added.spec.2,
      fun policy' => (addConstants_policy unlike policy' policy).trans h, added.isOver⟩

/-- The fractional parts of `3(3)/(4)` and `-1(1)/(4)` are subtracted. -/
theorem sums_by_parts_are_exact_of_mixed_numbers :
    let number (d : Digit) : Particle := (Body.number ⟨[d], none, none⟩).plain
    let mixed (s : Bool) (n top : Digit) : Particle :=
      ⟨s, .mixed ⟨[n], none, none⟩ (number top) (number 4), 1⟩
    let sum := mixed true 2 2
    (∀ policy, addConstants policy (mixed true 3 3) (mixed false 1 1) = .ok sum) ∧
      (∀ a, sum.meaning a = (mixed true 3 3).meaning a + (mixed false 1 1).meaning a) ∧
      ∃ d : Numeral, IsOver d (mixed true 3 3) ∧ IsOver d (mixed false 1 1) ∧ sum.IsOver d := by
  intro number mixed sum
  have two : Numeral.ofMagnitude 2 = ⟨[2], none, none⟩ := by decide +kernel
  have added : addConstants .always (mixed true 3 3) (mixed false 1 1) = .ok sum := by
    show Except.ok (WholeParts.mixed true 2 2 ⟨[4], none, none⟩) = _
    rw [WholeParts.mixed, two]
  obtain ⟨exact, policies, bottoms⟩ := sums_by_parts_are_exact (by decide) added
  exact ⟨policies, exact, bottoms⟩

end Particle

/-! ## Positive constants -/

namespace WholeParts

open Particle

variable {d n : Numeral} {f g m l : WholeParts} {q : Particle}

theorem wholeNumeral?_plain (h : n.isWhole = true) :
    wholeNumeral? (Body.number n).plain = some n :=
  if_pos h

theorem ofFraction?_plain (s : Bool) {t : Numeral} (ht : t.isWhole = true)
    (hd : d.isWhole = true) :
    ofFraction? s (Body.number t).plain (Body.number d).plain = some ⟨0, signed s t, d⟩ := by
  rw [ofFraction?, wholeNumeral?_plain ht, wholeNumeral?_plain hd]

theorem ofMixed?_plain (s : Bool) {t : Numeral} (hn : n.isWhole = true) (ht : t.isWhole = true)
    (hd : d.isWhole = true) :
    ofMixed? s n (Body.number t).plain (Body.number d).plain =
      some ⟨signed s n, signed s t, d⟩ := by
  rw [ofMixed?, if_pos hn, ofFraction?_plain s ht hd, Option.map_some]

/-- Parts over the denominator `d` that are not negative. -/
structure IsNonnegOver (d : Numeral) (parts : WholeParts) : Prop where
  bottom : parts.bottom = d
  whole : 0 ≤ parts.whole
  top : 0 ≤ parts.top

theorem signed_nonneg (n : Numeral) : 0 ≤ signed true n :=
  Int.natCast_nonneg _

theorem isNonnegOver_fraction (t : Numeral) : IsNonnegOver d ⟨0, signed true t, d⟩ :=
  ⟨rfl, Int.le_refl 0, signed_nonneg t⟩

theorem isNonnegOver_mixed (n t : Numeral) :
    IsNonnegOver d ⟨signed true n, signed true t, d⟩ :=
  ⟨rfl, signed_nonneg n, signed_nonneg t⟩

theorem positive_ofInt {z : Int} (h : 0 ≤ z) : (ofInt z).positive = true :=
  decide_eq_true h

theorem positive_fraction {top : Int} (h : 0 ≤ top) : (fraction top d).positive = true := by
  unfold fraction
  split
  · rfl
  · next nonzero =>
    have positive : decide (0 < top) = true := decide_eq_true (by omega)
    dsimp only
    split <;> exact positive

theorem exists_addFractions? (hf : f.IsNonnegOver d) (hg : g.IsNonnegOver d) :
    ∃ r, addFractions? f g = some r ∧ r.positive = true :=
  ⟨_, if_pos (hf.bottom.trans hg.bottom.symm), positive_fraction (Int.add_nonneg hf.top hg.top)⟩

theorem exists_addToFraction? (hn : n.isWhole = true) (hq : q.positive = true) :
    ∃ r, addToFraction? true n q f = some r ∧ r.positive = true := by
  unfold addToFraction?
  rw [hn, hq, if_neg (by decide)]
  split
  · exact ⟨q, rfl, hq⟩
  · exact ⟨_, rfl, rfl⟩

theorem exists_addToMixed? (hn : n.isWhole = true) (hm : m.IsNonnegOver d) :
    ∃ r, addToMixed? true n true m = some r ∧ r.positive = true := by
  have nonneg : 0 ≤ signed true n + m.whole := Int.add_nonneg (signed_nonneg n) hm.whole
  unfold addToMixed?
  rw [hn, if_neg (by decide)]
  dsimp only
  split
  · exact ⟨_, rfl, positive_fraction hm.top⟩
  · next nonzero => exact ⟨_, if_pos (decide_eq_true (by omega)), rfl⟩

theorem exists_addFractionToMixed? (hf : f.IsNonnegOver d) (hm : m.IsNonnegOver d) :
    ∃ r, addFractionToMixed? f m true = some r ∧ r.positive = true := by
  have nonneg : 0 ≤ f.top + m.top := Int.add_nonneg hf.top hm.top
  unfold addFractionToMixed?
  rw [if_pos (hf.bottom.trans hm.bottom.symm)]
  dsimp only
  split
  · exact ⟨_, rfl, positive_ofInt hm.whole⟩
  · next nonzero => exact ⟨_, if_pos (decide_eq_true (by omega)), rfl⟩

theorem exists_addMixed? (hm : m.IsNonnegOver d) (hl : l.IsNonnegOver d) :
    ∃ r, addMixed? m l true true = some r ∧ r.positive = true := by
  have whole : 0 ≤ m.whole + l.whole := Int.add_nonneg hm.whole hl.whole
  have top : 0 ≤ m.top + l.top := Int.add_nonneg hm.top hl.top
  unfold addMixed?
  rw [if_pos (hm.bottom.trans hl.bottom.symm)]
  dsimp only
  rw [if_pos (.inl rfl)]
  split
  · exact ⟨_, rfl, positive_ofInt whole⟩
  split
  · exact ⟨_, rfl, positive_fraction top⟩
  · next nonzero => exact ⟨_, rfl, decide_eq_true (by omega)⟩

end WholeParts

namespace Particle

open WholeParts

variable {d : Numeral} {policy : Rounding} {p q : Particle}

/-- A constant over the denominator `d` with a plus sign. -/
structure IsPositiveOver (d : Numeral) (p : Particle) : Prop where
  constant : p.IsOver d
  positive : p.positive = true

theorem IsOver.exponent (h : p.IsOver d) : p.exponent = 1 := by
  cases h <;> rfl

theorem IsPositiveOver.exponent_ne_zero (h : p.IsPositiveOver d) : p.exponent ≠ 0 := by
  rw [h.constant.exponent]
  decide

theorem IsOver.isConstant (h : p.IsOver d) : p.isConstant = true := by
  cases h <;> rfl

section

variable {n n' t t' : Numeral} (hn : n.isWhole = true) (hn' : n'.isWhole = true)
  (ht : t.isWhole = true) (ht' : t'.isWhole = true) (hd : d.isWhole = true)

include ht ht' hd in
theorem exists_sum_fractions :
    ∃ r, addExact? ⟨true, .fraction (Body.number t).plain (Body.number d).plain, 1⟩
        ⟨true, .fraction (Body.number t').plain (Body.number d).plain, 1⟩ = some r ∧
      r.IsPositiveOver d := by
  obtain ⟨r, hr, positive⟩ :=
    exists_addFractions? (isNonnegOver_fraction t) (isNonnegOver_fraction (d := d) t')
  refine ⟨r, ?_, (addFractions?_isResult hr).2.isOver hd, positive⟩
  simpa only [addExact?, ofFraction?_plain true ht hd, ofFraction?_plain true ht' hd,
    Option.bind_some] using hr

include hn ht hd in
theorem exists_sum_number_fraction :
    ∃ r, addExact? ⟨true, .number n, 1⟩
        ⟨true, .fraction (Body.number t).plain (Body.number d).plain, 1⟩ = some r ∧
      r.IsPositiveOver d := by
  obtain ⟨r, hr, positive⟩ := exists_addToFraction? (f := ⟨0, signed true t, d⟩) hn
    (q := ⟨true, .fraction (Body.number t).plain (Body.number d).plain, 1⟩) rfl
  have isOver : r.IsOver d := by
    obtain ⟨-, rfl | result⟩ := addToFraction?_isResult hr
    · exact .fraction true ht hd
    · exact result.isOver hd
  refine ⟨r, ?_, isOver, positive⟩
  simpa only [addExact?, ofFraction?_plain true ht hd, Option.bind_some] using hr

include hn hn' ht hd in
theorem exists_sum_number_mixed :
    ∃ r, addExact? ⟨true, .number n, 1⟩
        ⟨true, .mixed n' (Body.number t).plain (Body.number d).plain, 1⟩ = some r ∧
      r.IsPositiveOver d := by
  obtain ⟨r, hr, positive⟩ := exists_addToMixed? hn (isNonnegOver_mixed (d := d) n' t)
  refine ⟨r, ?_, (addToMixed?_isResult hr).2.isOver hd, positive⟩
  simpa only [addExact?, ofMixed?_plain true hn' ht hd, Option.bind_some] using hr

include hn ht ht' hd in
theorem exists_sum_fraction_mixed :
    ∃ r, addExact? ⟨true, .fraction (Body.number t).plain (Body.number d).plain, 1⟩
        ⟨true, .mixed n (Body.number t').plain (Body.number d).plain, 1⟩ = some r ∧
      r.IsPositiveOver d := by
  obtain ⟨r, hr, positive⟩ :=
    exists_addFractionToMixed? (isNonnegOver_fraction t) (isNonnegOver_mixed (d := d) n t')
  refine ⟨r, ?_, (addFractionToMixed?_isResult hr).2.isOver hd, positive⟩
  simpa only [addExact?, ofFraction?_plain true ht hd, ofMixed?_plain true hn ht' hd,
    Option.bind_some] using hr

include hn hn' ht ht' hd in
theorem exists_sum_mixed :
    ∃ r, addExact? ⟨true, .mixed n (Body.number t).plain (Body.number d).plain, 1⟩
        ⟨true, .mixed n' (Body.number t').plain (Body.number d).plain, 1⟩ = some r ∧
      r.IsPositiveOver d := by
  obtain ⟨r, hr, positive⟩ :=
    exists_addMixed? (isNonnegOver_mixed n t) (isNonnegOver_mixed (d := d) n' t')
  refine ⟨r, ?_, (addMixed?_isResult hr).2.isOver hd, positive⟩
  simpa only [addExact?, ofMixed?_plain true hn ht hd, ofMixed?_plain true hn' ht' hd,
    Option.bind_some] using hr

end

/-- Positive constants over one denominator are added part by part, unless both are numbers. -/
theorem IsPositiveOver.exists_addExact? (hp : p.IsPositiveOver d) (hq : q.IsPositiveOver d)
    (unlike : ¬(p.level = .number ∧ q.level = .number)) :
    ∃ r, addExact? p q = some r ∧ r.IsPositiveOver d := by
  obtain ⟨s, b, e⟩ := p
  obtain ⟨s', b', e'⟩ := q
  obtain rfl : s = true := hp.positive
  obtain rfl : s' = true := hq.positive
  -- two forms in the other order have the same sum
  cases hp.constant with
  | number _ hn =>
      cases hq.constant with
      | number => exact absurd ⟨rfl, rfl⟩ unlike
      | fraction _ ht hd => exact exists_sum_number_fraction hn ht hd
      | mixed _ hn' ht hd => exact exists_sum_number_mixed hn hn' ht hd
  | fraction _ ht hd =>
      cases hq.constant with
      | number _ hn =>
          rw [addExact?_comm]
          exact exists_sum_number_fraction hn ht hd
      | fraction _ ht' _ => exact exists_sum_fractions ht ht' hd
      | mixed _ hn ht' _ => exact exists_sum_fraction_mixed hn ht ht' hd
  | mixed _ hn ht hd =>
      cases hq.constant with
      | number _ hn' =>
          rw [addExact?_comm]
          exact exists_sum_number_mixed hn' hn ht hd
      | fraction _ ht' _ =>
          rw [addExact?_comm]
          exact exists_sum_fraction_mixed hn ht' ht hd
      | mixed _ hn' ht' _ => exact exists_sum_mixed hn hn' ht ht' hd

theorem IsPositiveOver.exists_number (h : p.IsPositiveOver d) (number : p.level = .number) :
    ∃ n : Numeral, p = (Body.number n).plain ∧ n.isWhole = true := by
  obtain ⟨s, b, e⟩ := p
  obtain rfl : s = true := h.positive
  cases h.constant with
  | number _ whole => exact ⟨_, rfl, whole⟩
  | fraction | mixed => cases number

/-- Positive constants over one denominator have a sum under every policy, which is such a constant
and means the sum of what they mean. -/
theorem IsPositiveOver.exists_addConstants (policy : Rounding) (hp : p.IsPositiveOver d)
    (hq : q.IsPositiveOver d) :
    ∃ r, addConstants policy p q = .ok r ∧ r.IsPositiveOver d ∧
      ∀ a, r.meaning a = p.meaning a + q.meaning a := by
  by_cases numbers : p.level = .number ∧ q.level = .number
  · obtain ⟨m, rfl, wholeM⟩ := hp.exists_number numbers.1
    obtain ⟨n, rfl, wholeN⟩ := hq.exists_number numbers.2
    obtain ⟨c, hc, wholeC, exact⟩ := Number.exists_add_whole policy wholeM wholeN
    refine ⟨(Body.number c).plain, congrArg (Except.map Number.particle) hc,
      ⟨.number true wholeC, rfl⟩, fun a => ?_⟩
    rw [meaning_plain_number, meaning_plain_number, meaning_plain_number, exact]
  · obtain ⟨r, hr, like⟩ := hp.exists_addExact? hq numbers
    refine ⟨r, ?_, like, fun a => (addExact?_spec hp.constant.exponent hq.constant.exponent hr).2⟩
    rw [addConstants, hp.constant.isConstant, hq.constant.isConstant, Bool.and_self, if_pos rfl]
    split
    · next hm hn => exact absurd ⟨by rw [level, hm]; rfl, by rw [level, hn]; rfl⟩ numbers
    · rw [hr]

end Particle

end StepAlgebra
