import StepAlgebra.Arithmetic.Constant
import StepAlgebra.Proofs.Arithmetic.Number
import StepAlgebra.Proofs.Particle.Weight
import StepAlgebra.Proofs.Step.Grouping

/-!
# Sums and products of constants mean what they should

Fractions and mixed numbers are added through their whole parts. `WholeParts.Reads` ties such parts
to the particle they were read from, and each of the rules for adding parts is shown to give a
constant with whole parts and the right meaning.

* `Particle.AddedByParts` — the ways in which a sum is found part by part;
* `Particle.addExact?_spec` — such a sum is exact under every policy;
* `Particle.addConstants_represents`, `Particle.multiplyConstants_represents` — sums and products
  of exact constants are exact.
-/

namespace StepAlgebra

/-! ## Whole numbers -/

namespace Numeral

variable {z : Int}

theorem isWhole_ofMagnitude (z : Int) : (ofMagnitude z).isWhole = true := by
  unfold ofMagnitude
  split <;> rfl

theorem meaning_ofMagnitude (z : Int) : (ofMagnitude z).meaning = (z.natAbs : ℚ) := by
  rw [meaning_whole (isWhole_ofMagnitude z)]
  unfold ofMagnitude
  split
  · next zero => rw [zero]; rfl
  · rw [ofNat, Digits.value_ofNat]

theorem meaning_one : one.meaning = 1 := by
  rw [meaning_whole rfl]
  rfl

theorem meaning_zero : zero.meaning = 0 :=
  meaning_of_isZero rfl

/-- A numeral that is one means one. -/
theorem meaning_of_isOne {n : Numeral} (h : n.isOne = true) : n.meaning = 1 := by
  simp only [isOne, Bool.and_eq_true, beq_iff_eq] at h
  obtain ⟨whole, digits⟩ := h
  rw [meaning_whole whole, ← List.takeWhile_append_dropWhile (p := (· == Digit.ofNat 0))
    (l := n.whole), digits, Digits.value_append]
  have leading : Digits.value (n.whole.takeWhile (· == Digit.ofNat 0)) = 0 := by
    refine Digits.value_eq_zero_iff.mpr fun d hd => ?_
    simpa using List.all_eq_true.mp List.all_takeWhile d hd
  rw [leading]
  rfl

end Numeral

/-! ## Constants with whole parts -/

/-- A number, fraction or mixed number made of whole numerals, with the exponent one. -/
inductive Particle.IsWholeConstant : Particle → Prop
  | number (s : Bool) {n : Numeral} : n.isWhole = true → IsWholeConstant ⟨s, .number n, 1⟩
  | fraction (s : Bool) {t b : Numeral} : t.isWhole = true → b.isWhole = true →
      IsWholeConstant ⟨s, .fraction (Body.number t).plain (Body.number b).plain, 1⟩
  | mixed (s : Bool) {n t b : Numeral} : n.isWhole = true → t.isWhole = true →
      b.isWhole = true →
      IsWholeConstant ⟨s, .mixed n (Body.number t).plain (Body.number b).plain, 1⟩

namespace Particle

variable {p q r : Particle} {a : Assignment} {policy : Rounding}

theorem meaning_number (s : Bool) (n : Numeral) :
    meaning a ⟨s, .number n, 1⟩ = sgn s * n.meaning := by
  rw [meaning_plain, bodyMeaning]

theorem meaning_plain_number (n : Numeral) : meaning a (Body.number n).plain = n.meaning := by
  rw [Body.plain, meaning_number, sgn_true, one_mul]

theorem meaning_fraction (s : Bool) (t b : Numeral) :
    meaning a ⟨s, .fraction (Body.number t).plain (Body.number b).plain, 1⟩ =
      sgn s * (t.meaning / b.meaning) := by
  rw [meaning_plain, bodyMeaning, meaning_plain_number, meaning_plain_number]

theorem meaning_mixed (s : Bool) (n t b : Numeral) :
    meaning a ⟨s, .mixed n (Body.number t).plain (Body.number b).plain, 1⟩ =
      sgn s * (n.meaning + t.meaning / b.meaning) := by
  rw [meaning_plain, bodyMeaning, meaning_plain_number, meaning_plain_number]

theorem meaning_zero : meaning a zero = 0 := by
  rw [zero, meaning_plain_number, Numeral.meaning_zero]

theorem meaning_unit (s : Bool) : meaning a (unit s) = sgn s := by
  rw [unit, meaning_number, Numeral.meaning_one, mul_one]

theorem isWholeConstant_zero : IsWholeConstant zero :=
  .number true rfl

theorem isWholeConstant_unit (s : Bool) : IsWholeConstant (unit s) :=
  .number s rfl

theorem isExact_fraction (s : Bool) {t b : Numeral} (ht : policy.Fits t) (hb : policy.Fits b) :
    IsExact policy ⟨s, .fraction (Body.number t).plain (Body.number b).plain, 1⟩ := by
  refine isExact_iff.mpr ⟨show (1 : UInt32) ≠ 0 by decide, by simp [Body.numeral?], ?_⟩
  simp only [Body.parts, List.forall_mem_cons]
  exact ⟨isExact_number ht, isExact_number hb, by simp⟩

theorem isExact_mixed (s : Bool) {n t b : Numeral} (hn : policy.Fits n) (ht : policy.Fits t)
    (hb : policy.Fits b) :
    IsExact policy ⟨s, .mixed n (Body.number t).plain (Body.number b).plain, 1⟩ := by
  -- a mixed number has the parts of its fraction
  obtain ⟨one, -, parts⟩ := isExact_iff.mp (isExact_fraction s ht hb)
  refine isExact_iff.mpr ⟨one, ?_, parts⟩
  intro m hm
  rwa [← Option.some.inj hm]

/-- Constants with whole parts are exact wherever a policy is. -/
theorem IsWholeConstant.isExact (h : p.IsWholeConstant) (exact : policy.IsExact) :
    p.IsExact policy := by
  cases h with
  | number s hn => exact isExact_number (exact.fits_whole hn)
  | fraction s ht hb => exact isExact_fraction s (exact.fits_whole ht) (exact.fits_whole hb)
  | mixed s hn ht hb =>
      exact isExact_mixed s (exact.fits_whole hn) (exact.fits_whole ht) (exact.fits_whole hb)

theorem IsWholeConstant.weight_eq_zero (h : p.IsWholeConstant) (deep : Bool) :
    p.weight deep = 0 := by
  cases h <;> simp [weight, bodyWeight, Body.plain]

end Particle

/-! ## Whole parts -/

namespace WholeParts

variable {parts : WholeParts} {p c : Particle} {a : Assignment}

/-- The number that whole parts mean. -/
def meaning (parts : WholeParts) : ℚ :=
  parts.whole + parts.top / parts.bottom.meaning

/-- The parts are those of a constant with whole parts, both with its sign. -/
structure Reads (parts : WholeParts) (p : Particle) : Prop where
  constant : p.IsWholeConstant
  meaning : ∀ a, p.meaning a = parts.meaning
  bottom : parts.bottom.isWhole = true
  wholeSign : SignedBy p.positive parts.whole
  topSign : SignedBy p.positive parts.top

theorem signedBy_signed (s : Bool) (n : Numeral) : SignedBy s (signed s n) := by
  unfold SignedBy signed
  split <;> omega

theorem cast_signed {n : Numeral} (h : n.isWhole = true) (s : Bool) :
    (signed s n : ℚ) = sgn s * n.meaning := by
  rw [Numeral.meaning_whole h]
  cases s <;> simp [signed]

theorem wholeNumeral?_eq_some {n : Numeral} (h : wholeNumeral? p = some n) :
    p = (Body.number n).plain ∧ n.isWhole = true := by
  obtain ⟨s, b, e⟩ := p
  cases b with
  | number m =>
      by_cases one : e = 1
      · cases s with
        | true =>
            simp only [wholeNumeral?, Particle.plainNumber?, one, if_true,
              Option.ite_none_right_eq_some, Option.some.injEq] at h
            obtain ⟨whole, rfl⟩ := h
            exact ⟨by rw [one]; rfl, whole⟩
        | false => simp [wholeNumeral?, Particle.plainNumber?, one] at h
      · simp [wholeNumeral?, Particle.plainNumber?, one] at h
  | _ => simp [wholeNumeral?, Particle.plainNumber?] at h

/-- Parts are read only from a fraction of whole numerals. -/
theorem ofFraction?_eq_some {s : Bool} {top bottom : Particle}
    (h : ofFraction? s top bottom = some parts) :
    ∃ t b : Numeral, t.isWhole = true ∧ b.isWhole = true ∧ top = (Body.number t).plain ∧
      bottom = (Body.number b).plain ∧ parts = ⟨0, signed s t, b⟩ := by
  unfold ofFraction? at h
  split at h
  · next t b ht hb =>
    obtain ⟨rfl, wholeTop⟩ := wholeNumeral?_eq_some ht
    obtain ⟨rfl, wholeBottom⟩ := wholeNumeral?_eq_some hb
    exact ⟨t, b, wholeTop, wholeBottom, rfl, rfl, (Option.some.inj h).symm⟩
  · cases h

theorem reads_ofFraction? {s : Bool} {top bottom : Particle}
    (h : ofFraction? s top bottom = some parts) :
    parts.Reads ⟨s, .fraction top bottom, 1⟩ ∧ parts.whole = 0 := by
  obtain ⟨t, b, wholeTop, wholeBottom, rfl, rfl, rfl⟩ := ofFraction?_eq_some h
  refine ⟨⟨.fraction s wholeTop wholeBottom, fun a => ?_, wholeBottom, ?_,
    signedBy_signed s t⟩, rfl⟩
  · rw [Particle.meaning_fraction, meaning, cast_signed wholeTop]
    push_cast
    ring
  · show SignedBy s 0
    unfold SignedBy
    split <;> exact Int.le_refl 0

theorem reads_ofMixed? {s : Bool} {n : Numeral} {top bottom : Particle}
    (h : ofMixed? s n top bottom = some parts) : parts.Reads ⟨s, .mixed n top bottom, 1⟩ := by
  simp only [ofMixed?, Option.ite_none_right_eq_some, Option.map_eq_some_iff] at h
  obtain ⟨whole, fractionParts, hfraction, rfl⟩ := h
  obtain ⟨t, b, wholeTop, wholeBottom, rfl, rfl, rfl⟩ := ofFraction?_eq_some hfraction
  refine ⟨.mixed s whole wholeTop wholeBottom, fun a => ?_, wholeBottom, signedBy_signed s n,
    signedBy_signed s t⟩
  rw [Particle.meaning_mixed, meaning, cast_signed whole, cast_signed wholeTop]
  ring

/-! ## The rules for adding parts -/

theorem fraction_spec (top : Int) {bottom : Numeral} (hbottom : bottom.isWhole = true) :
    (fraction top bottom).IsWholeConstant ∧
      (fraction top bottom).meaning a = top / bottom.meaning := by
  have magnitude := Numeral.meaning_ofMagnitude top
  unfold fraction
  split
  · next zero =>
    refine ⟨Particle.isWholeConstant_zero, ?_⟩
    rw [Particle.meaning_zero, zero, Int.cast_zero, zero_div]
  · next nonzero =>
    have hsign := sgn_mul_natAbs (signedBy_decide top)
    -- a top as large as the bottom gives one, which is written without a fraction
    by_cases same : Numeral.ofMagnitude top = bottom
    · simp only [same, if_true]
      refine ⟨Particle.isWholeConstant_unit _, ?_⟩
      have habs : (top.natAbs : ℚ) ≠ 0 := by
        rw [Nat.cast_ne_zero]
        omega
      rw [Particle.meaning_unit, ← same, magnitude, ← hsign, mul_div_assoc, div_self habs,
        mul_one]
    · simp only [same, if_false]
      refine ⟨.fraction _ (Numeral.isWhole_ofMagnitude top) hbottom, ?_⟩
      rw [Particle.meaning_fraction, magnitude, ← mul_div_assoc, hsign]

theorem mixed_spec {positive : Bool} {whole top : Int} {bottom : Numeral}
    (hbottom : bottom.isWhole = true) (hwhole : SignedBy positive whole)
    (htop : SignedBy positive top) :
    (mixed positive whole top bottom).IsWholeConstant ∧
      (mixed positive whole top bottom).meaning a = whole + top / bottom.meaning := by
  refine ⟨.mixed _ (Numeral.isWhole_ofMagnitude whole) (Numeral.isWhole_ofMagnitude top) hbottom,
    ?_⟩
  rw [mixed, Particle.meaning_mixed, Numeral.meaning_ofMagnitude, Numeral.meaning_ofMagnitude,
    mul_add, sgn_mul_natAbs hwhole, ← mul_div_assoc, sgn_mul_natAbs htop]

theorem ofInt_spec (z : Int) :
    (Particle.ofInt z).IsWholeConstant ∧ (Particle.ofInt z).meaning a = z := by
  refine ⟨.number _ (Numeral.isWhole_ofMagnitude z), ?_⟩
  rw [Particle.ofInt, Particle.meaning_number, Numeral.meaning_ofMagnitude,
    sgn_mul_natAbs (signedBy_decide_le z)]

variable {f m : WholeParts} {q : Particle}

theorem addFractions?_spec (hp : parts.Reads p) (hq : f.Reads q) (hparts : parts.whole = 0)
    (hf : f.whole = 0) (h : addFractions? parts f = some c) :
    c.IsWholeConstant ∧ c.meaning a = p.meaning a + q.meaning a := by
  simp only [addFractions?, Option.ite_none_right_eq_some, Option.some.injEq] at h
  obtain ⟨same, rfl⟩ := h
  obtain ⟨constant, hmeaning⟩ := fraction_spec (a := a) (parts.top + f.top) hp.bottom
  refine ⟨constant, ?_⟩
  rw [hmeaning, hp.meaning, hq.meaning, meaning, meaning, hparts, hf, same]
  push_cast
  ring

theorem addToFraction?_spec {s : Bool} {n : Numeral} (hq : f.Reads q) (hf : f.whole = 0)
    (h : addToFraction? s n q f = some c) :
    c.IsWholeConstant ∧ c.meaning a = sgn s * n.meaning + q.meaning a := by
  unfold addToFraction? at h
  split at h
  · cases h
  · next fits =>
    simp only [Bool.or_eq_true, Bool.not_eq_true', bne_iff_ne, not_or, Bool.not_eq_false,
      not_not] at fits
    obtain ⟨whole, rfl⟩ := fits
    split at h
    · next zero =>
      obtain rfl := Option.some.inj h
      refine ⟨hq.constant, ?_⟩
      rw [Numeral.meaning_of_isZero zero, mul_zero, zero_add]
    · -- the signs agree here, so the number is added to the size of the fraction
      obtain rfl := Option.some.inj h
      have constant : (mixed q.positive (signed true n) f.top f.bottom).IsWholeConstant :=
        .mixed _ (Numeral.isWhole_ofMagnitude _) (Numeral.isWhole_ofMagnitude _) hq.bottom
      refine ⟨constant, ?_⟩
      have habs : ((signed true n).natAbs : ℚ) = n.meaning := by
        rw [Numeral.meaning_whole whole]
        simp [signed]
      rw [mixed, Particle.meaning_mixed, Numeral.meaning_ofMagnitude, Numeral.meaning_ofMagnitude,
        mul_add, habs, ← mul_div_assoc, sgn_mul_natAbs hq.topSign, hq.meaning, meaning, hf]
      push_cast
      ring

theorem addToMixed?_spec {s : Bool} {n : Numeral} (hq : m.Reads q)
    (h : addToMixed? s n q.positive m = some c) :
    c.IsWholeConstant ∧ c.meaning a = sgn s * n.meaning + q.meaning a := by
  unfold addToMixed? at h
  split at h
  · cases h
  · next whole =>
    have whole : n.isWhole = true := by simpa using whole
    rw [hq.meaning, meaning, ← cast_signed whole, ← add_assoc, ← Int.cast_add]
    generalize signed s n + m.whole = sum at h ⊢
    dsimp only at h
    split at h
    · next zero =>
      obtain rfl := Option.some.inj h
      rw [zero, Int.cast_zero, zero_add]
      exact fraction_spec m.top hq.bottom
    · next nonzero =>
      simp only [Option.ite_none_right_eq_some, Option.some.injEq] at h
      obtain ⟨sign, rfl⟩ := h
      exact mixed_spec hq.bottom (sign ▸ signedBy_decide sum) hq.topSign

theorem addFractionToMixed?_spec (hp : f.Reads p) (hq : m.Reads q) (hf : f.whole = 0)
    (h : addFractionToMixed? f m q.positive = some c) :
    c.IsWholeConstant ∧ c.meaning a = p.meaning a + q.meaning a := by
  simp only [addFractionToMixed?, Option.ite_none_right_eq_some] at h
  obtain ⟨same, h⟩ := h
  have total : p.meaning a + q.meaning a = m.whole + (f.top + m.top : Int) / m.bottom.meaning := by
    rw [hp.meaning, hq.meaning, meaning, meaning, hf, same]
    push_cast
    ring
  rw [total]
  generalize f.top + m.top = top at h ⊢
  split at h
  · next zero =>
    obtain rfl := Option.some.inj h
    rw [zero, Int.cast_zero, zero_div, add_zero]
    exact ofInt_spec m.whole
  · simp only [Option.ite_none_right_eq_some, Option.some.injEq] at h
    obtain ⟨sign, rfl⟩ := h
    exact mixed_spec hq.bottom hq.wholeSign (sign ▸ signedBy_decide top)

theorem addMixed?_spec (hp : f.Reads p) (hq : m.Reads q)
    (h : addMixed? f m p.positive q.positive = some c) :
    c.IsWholeConstant ∧ c.meaning a = p.meaning a + q.meaning a := by
  simp only [addMixed?, Option.ite_none_right_eq_some] at h
  obtain ⟨same, agree, h⟩ := h
  have total : p.meaning a + q.meaning a =
      (f.whole + m.whole : Int) + (f.top + m.top : Int) / f.bottom.meaning := by
    rw [hp.meaning, hq.meaning, meaning, meaning, same]
    push_cast
    ring
  -- the guard is what makes the tops lie on the same side of zero as the whole parts
  have signs : f.whole + m.whole ≠ 0 → f.top + m.top ≠ 0 →
      SignedBy (decide (0 < f.whole + m.whole)) (f.top + m.top) := by
    intro wholeNonzero topNonzero
    have hfw := hp.wholeSign
    have hft := hp.topSign
    have hmw := hq.wholeSign
    have hmt := hq.topSign
    unfold SignedBy at *
    rcases agree with equal | zero | zero | agree
    · rw [← equal] at hmw hmt
      cases hsign : p.positive <;> simp only [hsign] at hfw hft hmw hmt <;> split <;>
        simp_all <;> omega
    · exact absurd zero wholeNonzero
    · exact absurd zero topNonzero
    · split <;> simp_all <;> omega
  rw [total]
  generalize f.whole + m.whole = whole at h signs ⊢
  generalize f.top + m.top = top at h signs ⊢
  split at h
  · next zero =>
    obtain rfl := Option.some.inj h
    rw [zero, Int.cast_zero, zero_div, add_zero]
    exact ofInt_spec whole
  · next topNonzero =>
    split at h
    · next zero =>
      obtain rfl := Option.some.inj h
      rw [zero, Int.cast_zero, zero_add]
      exact fraction_spec top hp.bottom
    · next wholeNonzero =>
      obtain rfl := Option.some.inj h
      exact mixed_spec hp.bottom (signedBy_decide whole) (signs wholeNonzero topNonzero)

/-! ## What the rules write -/

/-- A constant that is written for a sum of parts over a bottom. -/
inductive IsResult (bottom : Numeral) : Particle → Prop
  | whole (z : Int) : IsResult bottom (.ofInt z)
  | fraction (top : Int) : IsResult bottom (fraction top bottom)
  | mixed (s : Bool) (whole top : Int) : IsResult bottom (mixed s whole top bottom)

variable {s t : Bool} {n : Numeral}

theorem addFractions?_isResult (h : addFractions? parts f = some c) :
    parts.bottom = f.bottom ∧ IsResult parts.bottom c := by
  simp only [addFractions?, Option.ite_none_right_eq_some, Option.some.injEq] at h
  obtain ⟨same, rfl⟩ := h
  exact ⟨same, .fraction _⟩

/-- A number is added to a fraction of its own sign, unless it is zero and leaves it as it is. -/
theorem addToFraction?_isResult (h : addToFraction? s n q f = some c) :
    n.isWhole = true ∧ (c = q ∨ IsResult f.bottom c) := by
  unfold addToFraction? at h
  split at h
  · cases h
  next fits =>
    simp only [Bool.or_eq_true, Bool.not_eq_true', not_or, Bool.not_eq_false] at fits
    refine ⟨fits.1, ?_⟩
    split at h
    · exact .inl (Option.some.inj h).symm
    · rw [← Option.some.inj h]
      exact .inr (.mixed _ _ _)

theorem addToMixed?_isResult (h : addToMixed? s n t m = some c) :
    n.isWhole = true ∧ IsResult m.bottom c := by
  unfold addToMixed? at h
  split at h
  · cases h
  next whole =>
    refine ⟨by simpa using whole, ?_⟩
    dsimp only at h
    split at h
    · rw [← Option.some.inj h]
      exact .fraction _
    split at h
    · rw [← Option.some.inj h]
      exact .mixed _ _ _
    · cases h

theorem addFractionToMixed?_isResult (h : addFractionToMixed? f m t = some c) :
    f.bottom = m.bottom ∧ IsResult m.bottom c := by
  simp only [addFractionToMixed?, Option.ite_none_right_eq_some] at h
  obtain ⟨same, h⟩ := h
  refine ⟨same, ?_⟩
  split at h
  · rw [← Option.some.inj h]
    exact .whole _
  · simp only [Option.ite_none_right_eq_some, Option.some.injEq] at h
    rw [← h.2]
    exact .mixed _ _ _

theorem addMixed?_isResult (h : addMixed? f m s t = some c) :
    f.bottom = m.bottom ∧ IsResult f.bottom c := by
  simp only [addMixed?, Option.ite_none_right_eq_some] at h
  obtain ⟨same, -, h⟩ := h
  refine ⟨same, ?_⟩
  split at h
  · rw [← Option.some.inj h]
    exact .whole _
  split at h
  · rw [← Option.some.inj h]
    exact .fraction _
  · rw [← Option.some.inj h]
    exact .mixed _ _ _

end WholeParts

namespace Particle

open WholeParts

variable {p q r : Particle} {a : Assignment} {policy : Rounding} {x y : ℚ}

/-! ## Sums of constants -/

theorem eq_of_body {b : Body} (hbody : p.body = b) (hexponent : p.exponent = 1) :
    p = ⟨p.positive, b, 1⟩ := by
  rw [← hbody, ← hexponent]

/-- The ways in which the sum of two constants is found part by part, in one order or the other. -/
inductive AddedByParts : Particle → Particle → Particle → Prop
  | fractions {s t : Bool} {top bottom top' bottom' r : Particle} {f g : WholeParts} :
      ofFraction? s top bottom = some f → ofFraction? t top' bottom' = some g →
      addFractions? f g = some r →
      AddedByParts ⟨s, .fraction top bottom, 1⟩ ⟨t, .fraction top' bottom', 1⟩ r
  | numberFraction {s t : Bool} {n : Numeral} {top bottom r : Particle} {f : WholeParts} :
      ofFraction? t top bottom = some f →
      addToFraction? s n ⟨t, .fraction top bottom, 1⟩ f = some r →
      AddedByParts ⟨s, .number n, 1⟩ ⟨t, .fraction top bottom, 1⟩ r
  | numberMixed {s t : Bool} {n n' : Numeral} {top bottom r : Particle} {m : WholeParts} :
      ofMixed? t n' top bottom = some m → addToMixed? s n t m = some r →
      AddedByParts ⟨s, .number n, 1⟩ ⟨t, .mixed n' top bottom, 1⟩ r
  | fractionMixed {s t : Bool} {n : Numeral} {top bottom top' bottom' r : Particle}
      {f m : WholeParts} :
      ofFraction? s top bottom = some f → ofMixed? t n top' bottom' = some m →
      addFractionToMixed? f m t = some r →
      AddedByParts ⟨s, .fraction top bottom, 1⟩ ⟨t, .mixed n top' bottom', 1⟩ r
  | mixedNumbers {s t : Bool} {n n' : Numeral} {top bottom top' bottom' r : Particle}
      {m l : WholeParts} :
      ofMixed? s n top bottom = some m → ofMixed? t n' top' bottom' = some l →
      addMixed? m l s t = some r →
      AddedByParts ⟨s, .mixed n top bottom, 1⟩ ⟨t, .mixed n' top' bottom', 1⟩ r
  | swap {p q r : Particle} : AddedByParts q p r → AddedByParts p q r

theorem addedByParts_of_addExact? (hp : p.exponent = 1) (hq : q.exponent = 1)
    (h : addExact? p q = some r) : AddedByParts p q r := by
  obtain ⟨s, b, e⟩ := p
  obtain ⟨t, c, f⟩ := q
  obtain rfl : e = 1 := hp
  obtain rfl : f = 1 := hq
  -- other pairs of forms have no sum of this kind
  cases b <;> cases c <;> simp only [addExact?, reduceCtorEq, Option.bind_eq_some_iff] at h
  case fraction.fraction =>
    obtain ⟨f, hf, g, hg, h⟩ := h
    exact .fractions hf hg h
  case number.fraction =>
    obtain ⟨f, hf, h⟩ := h
    exact .numberFraction hf h
  case fraction.number =>
    obtain ⟨f, hf, h⟩ := h
    exact .swap (.numberFraction hf h)
  case number.mixed =>
    obtain ⟨m, hm, h⟩ := h
    exact .numberMixed hm h
  case mixed.number =>
    obtain ⟨m, hm, h⟩ := h
    exact .swap (.numberMixed hm h)
  case fraction.mixed =>
    obtain ⟨f, hf, m, hm, h⟩ := h
    exact .fractionMixed hf hm h
  case mixed.fraction =>
    obtain ⟨f, hf, m, hm, h⟩ := h
    exact .swap (.fractionMixed hf hm h)
  case mixed.mixed =>
    obtain ⟨m, hm, l, hl, h⟩ := h
    exact .mixedNumbers hm hl h

theorem AddedByParts.spec (h : AddedByParts p q r) :
    r.IsWholeConstant ∧ r.meaning a = p.meaning a + q.meaning a := by
  induction h with
  | fractions hf hg h =>
      obtain ⟨hf, hfzero⟩ := reads_ofFraction? hf
      obtain ⟨hg, hgzero⟩ := reads_ofFraction? hg
      exact addFractions?_spec hf hg hfzero hgzero h
  | numberFraction hf h =>
      obtain ⟨hf, hfzero⟩ := reads_ofFraction? hf
      rw [meaning_number]
      exact addToFraction?_spec hf hfzero h
  | numberMixed hm h =>
      rw [meaning_number]
      exact addToMixed?_spec (reads_ofMixed? hm) h
  | fractionMixed hf hm h =>
      obtain ⟨hf, hfzero⟩ := reads_ofFraction? hf
      exact addFractionToMixed?_spec hf (reads_ofMixed? hm) hfzero h
  | mixedNumbers hm hl h => exact addMixed?_spec (reads_ofMixed? hm) (reads_ofMixed? hl) h
  | swap _ ih =>
      rw [add_comm]
      exact ih

/-- A sum found part by part is a constant with whole parts that means the sum. -/
theorem addExact?_spec (hp : p.exponent = 1) (hq : q.exponent = 1)
    (h : addExact? p q = some r) :
    r.IsWholeConstant ∧ r.meaning a = p.meaning a + q.meaning a :=
  (addedByParts_of_addExact? hp hq h).spec

theorem exponent_of_isConstant (h : p.isConstant = true) : p.exponent = 1 := by
  simp only [isConstant, Bool.and_eq_true, beq_iff_eq] at h
  exact h.1

/-- The two ways in which constants are added. -/
theorem addConstants_eq_ok (h : addConstants policy p q = .ok r) :
    p.exponent = 1 ∧ q.exponent = 1 ∧
      ((∃ m n c, p.body = .number m ∧ q.body = .number n ∧
          Number.add policy ⟨p.positive, m, p.exponent⟩ ⟨q.positive, n, q.exponent⟩ = .ok c ∧
          r = c.particle) ∨
        addExact? p q = some r) := by
  unfold addConstants at h
  split at h
  · next constants =>
    rw [Bool.and_eq_true] at constants
    refine ⟨exponent_of_isConstant constants.1, exponent_of_isConstant constants.2, ?_⟩
    split at h
    · next m n hp hq =>
      obtain ⟨c, hc, rfl⟩ := map_eq_ok_iff.mp h
      exact .inl ⟨m, n, c, hp, hq, hc, rfl⟩
    · split at h
      · next sum =>
        obtain rfl := Except.ok.inj h
        exact .inr sum
      · cases h
  · cases h

/-- A constant that is a number has a numeral that fits, and means what the number does. -/
theorem Represents.number (h : Represents policy a p x) {n : Numeral} (hbody : p.body = .number n)
    (hexponent : p.exponent = 1) :
    policy.Fits n ∧ Number.meaning ⟨p.positive, n, p.exponent⟩ = x := by
  have fits : policy.Fits n := h.exact.numeral (by rw [hbody]; rfl)
  refine ⟨fits, ?_⟩
  rw [← h.meaning, eq_of_body hbody hexponent, meaning_number]
  rfl

theorem represents_number {c : Number} (hexponent : c.exponent = 1)
    (hmeaning : c.meaning = x) (hfits : policy.Fits c.body) :
    Represents policy a c.particle x := by
  obtain ⟨s, n, e⟩ := c
  obtain rfl : e = 1 := hexponent
  exact ⟨isExact_number hfits, by rw [Number.particle, meaning_number]; exact hmeaning⟩

/-- The sum of exact constants is exact. -/
theorem addConstants_represents (exact : policy.IsExact) (hp : Represents policy a p x)
    (hq : Represents policy a q y) (h : addConstants policy p q = .ok r) :
    Represents policy a r (x + y) := by
  obtain ⟨hpone, hqone, ⟨m, n, c, hpbody, hqbody, hc, rfl⟩ | hsum⟩ := addConstants_eq_ok h
  · obtain ⟨hmfits, hm⟩ := hp.number hpbody hpone
    obtain ⟨hnfits, hn⟩ := hq.number hqbody hqone
    obtain ⟨hmeaning, hexponent, hfits⟩ := Number.add_exact hmfits hnfits hc
    exact represents_number hexponent (by rw [hmeaning, hm, hn]) hfits
  · obtain ⟨constant, hmeaning⟩ := addExact?_spec (a := a) hpone hqone hsum
    exact ⟨constant.isExact exact, by rw [hmeaning, hp.meaning, hq.meaning]⟩

theorem addConstants_weight (h : addConstants policy p q = .ok r) (deep : Bool) :
    r.weight deep = 0 := by
  obtain ⟨hpone, hqone, ⟨m, n, c, -, -, -, rfl⟩ | hsum⟩ := addConstants_eq_ok h
  · rfl
  · exact (addExact?_spec (a := ⟨fun _ => 0, fun _ _ => 0⟩) hpone hqone hsum).1.weight_eq_zero deep

/-! ## Products of constants -/

/-- The number that a ratio means. -/
def Ratio.meaning (c : Ratio) : ℚ :=
  sgn c.positive * (c.top.meaning / c.bottom.meaning)

/-- A constant read as a ratio means what the ratio does. -/
theorem ratio?_spec (exact : policy.IsExact) (hp : Represents policy a p x)
    (hexponent : p.exponent = 1) {c : Ratio} (h : p.ratio? = some c) :
    c.meaning = x ∧ policy.Fits c.top.body ∧ policy.Fits c.bottom.body := by
  unfold ratio? at h
  split at h
  · next n hbody =>
    obtain rfl := Option.some.inj h
    refine ⟨?_, hp.exact.numeral (by rw [hbody]; rfl), exact.fits_whole rfl⟩
    rw [← hp.meaning, eq_of_body hbody hexponent, meaning_number]
    simp [Ratio.meaning, Number.meaning, Number.plain, Numeral.meaning_one]
  · next top bottom hbody =>
    split at h
    · next s t r b htop hbottom =>
      obtain rfl := Option.some.inj h
      obtain rfl := plainNumber?_eq_some htop
      obtain rfl := plainNumber?_eq_some hbottom
      have htopExact := hp.exact.part (q := ⟨s, .number t, 1⟩) (by rw [hbody]; simp [Body.parts])
      have hbottomExact :=
        hp.exact.part (q := ⟨r, .number b, 1⟩) (by rw [hbody]; simp [Body.parts])
      refine ⟨?_, htopExact.numeral rfl, hbottomExact.numeral rfl⟩
      rw [← hp.meaning, eq_of_body hbody hexponent, meaning_plain, bodyMeaning, meaning_number,
        meaning_number]
      rfl
    · cases h
  · cases h

theorem sgn_inv (s : Bool) : (sgn s)⁻¹ = sgn s := by
  cases s <;> norm_num

/-- The two ways in which ratios are multiplied. -/
theorem Ratio.multiply_eq_ok {c d : Ratio} (h : c.multiply policy d = .ok r) :
    ∃ top, Number.multiply policy c.top d.top = .ok top ∧
      ((top.body.isZero = true ∧ r = zero) ∨
        ∃ bottom, Number.multiply policy c.bottom d.bottom = .ok bottom ∧
          r = ⟨(c.positive == d.positive) == (top.positive == bottom.positive),
            .fraction (Body.number top.body).plain (Body.number bottom.body).plain, 1⟩) := by
  unfold Ratio.multiply at h
  split at h
  · cases h
  · next top htop =>
    refine ⟨top, htop, ?_⟩
    split at h
    · next isZero => exact .inl ⟨isZero, (Except.ok.inj h).symm⟩
    · split at h
      · cases h
      · next bottom hbottom => exact .inr ⟨bottom, hbottom, (Except.ok.inj h).symm⟩

/-- The product of two ratios of exact numbers is exact. -/
theorem Ratio.multiply_represents (exact : policy.IsExact) {c d : Ratio}
    (hctop : policy.Fits c.top.body) (hcbottom : policy.Fits c.bottom.body)
    (hdtop : policy.Fits d.top.body) (hdbottom : policy.Fits d.bottom.body)
    (h : c.multiply policy d = .ok r) : Represents policy a r (c.meaning * d.meaning) := by
  obtain ⟨top, htop, ⟨isZero, rfl⟩ | ⟨bottom, hbottom, rfl⟩⟩ := Ratio.multiply_eq_ok h
  · obtain ⟨topMeaning, -, -⟩ := Number.multiply_exact hctop hdtop htop
    refine ⟨isWholeConstant_zero.isExact exact, ?_⟩
    have vanishes : c.top.meaning * d.top.meaning = 0 := by
      rw [← topMeaning, Number.meaning, Numeral.meaning_of_isZero isZero, mul_zero]
    rw [meaning_zero, Ratio.meaning, Ratio.meaning]
    calc (0 : ℚ) = sgn c.positive * sgn d.positive * (c.top.meaning * d.top.meaning) /
          (c.bottom.meaning * d.bottom.meaning) := by rw [vanishes, mul_zero, zero_div]
      _ = _ := by ring
  · obtain ⟨topMeaning, -, topFits⟩ := Number.multiply_exact hctop hdtop htop
    obtain ⟨bottomMeaning, -, bottomFits⟩ := Number.multiply_exact hcbottom hdbottom hbottom
    refine ⟨isExact_fraction _ topFits bottomFits, ?_⟩
    rw [meaning_fraction, sgn_beq, sgn_beq, sgn_beq, Ratio.meaning, Ratio.meaning]
    calc _ = sgn c.positive * sgn d.positive * ((sgn top.positive * top.body.meaning) *
          ((sgn bottom.positive)⁻¹ * bottom.body.meaning⁻¹)) := by
            rw [sgn_inv]
            ring
      _ = sgn c.positive * sgn d.positive * (top.meaning * bottom.meaning⁻¹) := by
            rw [← mul_inv]
            rfl
      _ = _ := by
            rw [topMeaning, bottomMeaning, mul_inv]
            ring

/-- The two ways in which constants are multiplied. -/
theorem multiplyConstants_eq_ok (h : multiplyConstants policy p q = .ok r) :
    p.exponent = 1 ∧ q.exponent = 1 ∧
      ((∃ m n c, p.body = .number m ∧ q.body = .number n ∧
          Number.multiply policy ⟨p.positive, m, p.exponent⟩ ⟨q.positive, n, q.exponent⟩ = .ok c ∧
          r = c.particle) ∨
        ∃ c d : Ratio, p.ratio? = some c ∧ q.ratio? = some d ∧ c.multiply policy d = .ok r) := by
  unfold multiplyConstants at h
  split at h
  · next constants =>
    rw [Bool.and_eq_true] at constants
    refine ⟨exponent_of_isConstant constants.1, exponent_of_isConstant constants.2, ?_⟩
    split at h
    · next m n hp hq =>
      obtain ⟨c, hc, rfl⟩ := map_eq_ok_iff.mp h
      exact .inl ⟨m, n, c, hp, hq, hc, rfl⟩
    · split at h
      · next c d hc hd => exact .inr ⟨c, d, hc, hd, h⟩
      · cases h
  · cases h

/-- The product of exact constants is exact. -/
theorem multiplyConstants_represents (exact : policy.IsExact) (hp : Represents policy a p x)
    (hq : Represents policy a q y) (h : multiplyConstants policy p q = .ok r) :
    Represents policy a r (x * y) := by
  obtain ⟨hpone, hqone, ⟨m, n, c, hpbody, hqbody, hc, rfl⟩ | ⟨c, d, hc, hd, hproduct⟩⟩ :=
    multiplyConstants_eq_ok h
  · obtain ⟨hmfits, hm⟩ := hp.number hpbody hpone
    obtain ⟨hnfits, hn⟩ := hq.number hqbody hqone
    obtain ⟨hmeaning, hexponent, hfits⟩ := Number.multiply_exact hmfits hnfits hc
    exact represents_number hexponent (by rw [hmeaning, hm, hn]) hfits
  · obtain ⟨rfl, hctop, hcbottom⟩ := ratio?_spec exact hp hpone hc
    obtain ⟨rfl, hdtop, hdbottom⟩ := ratio?_spec exact hq hqone hd
    exact Ratio.multiply_represents exact hctop hcbottom hdtop hdbottom hproduct

theorem multiplyConstants_weight (h : multiplyConstants policy p q = .ok r) (deep : Bool) :
    r.weight deep = 0 := by
  obtain ⟨-, -, ⟨m, n, c, -, -, -, rfl⟩ | ⟨c, d, -, -, hproduct⟩⟩ := multiplyConstants_eq_ok h
  · rfl
  · obtain ⟨top, -, ⟨-, rfl⟩ | ⟨bottom, -, rfl⟩⟩ := Ratio.multiply_eq_ok hproduct
    · rfl
    · rfl

end Particle

end StepAlgebra
