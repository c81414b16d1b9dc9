import Mathlib.Algebra.Order.Field.Power
import Mathlib.Algebra.Order.Round
import Mathlib.Data.Int.Log
import Mathlib.Data.Rat.Floor
import StepAlgebra.Proofs.Arithmetic.Number

/-!
# Rounding once

A sum or product of two numbers is computed exactly, brought to the scale that the policy asks for,
and written. Only the change of scale rounds, and it rounds the exact result, whatever the distance
between the scales: the short cut for dropping more digits than there are agrees with rounding.

* `roundAway_nearest` — rounding to an integer goes to the nearest, a half away from zero;
* `roundTo` — rational numbers rounded to decimal places in this way;
* `Decimal.withScale?_rounds` — a change to a smaller scale is that rounding;
* `Decimal.toNumber?_eq_none_iff` — which decimals cannot be written;
* `Number.arithmetic_rounds_once` — sums and products of numbers under every policy.
-/

namespace StepAlgebra

/-- The nearest integer; of two at the same distance, the one further from zero. -/
def roundAway (x : ℚ) : ℤ :=
  if x < 0 then -round (-x) else round x

theorem roundAway_neg (x : ℚ) : roundAway (-x) = -roundAway x := by
  unfold roundAway
  rcases lt_trichotomy x 0 with negative | rfl | positive
  · rw [if_neg (by linarith), if_pos negative, neg_neg]
  · simp
  · rw [if_pos (by linarith), if_neg (by linarith), neg_neg]

/-- No integer is nearer, and from the middle between two the rounding goes away from zero. -/
theorem roundAway_nearest (x : ℚ) :
    |x - roundAway x| ≤ 1 / 2 ∧ (|x - roundAway x| = 1 / 2 → |x| < |(roundAway x : ℚ)|) := by
  wlog nonneg : 0 ≤ x generalizing x
  · have mirrored := this (-x) (by linarith)
    rw [roundAway_neg, Int.cast_neg, abs_neg, abs_neg, ← neg_sub', abs_neg] at mirrored
    exact mirrored
  · rw [roundAway, if_neg (not_lt.mpr nonneg)]
    refine ⟨abs_sub_round x, fun tie => ?_⟩
    have up : (round x : ℚ) = x + 1 / 2 := by
      have below := Int.lt_floor_add_one (x + 1 / 2)
      rw [← round_eq] at below
      rcases (abs_eq (by norm_num)).mp tie with tie | tie <;> linarith
    rw [up, abs_of_nonneg nonneg, abs_of_nonneg (by linarith)]
    linarith

/-- A number rounded to so many decimal places, a half away from zero. A negative number of places
stands for zeros before the point. -/
def roundTo (places : ℤ) (x : ℚ) : ℚ :=
  roundAway (x * 10 ^ places) * 10 ^ (-places)

namespace Decimal

variable {d : Decimal} {scale : ℤ}

/-! ## Digits -/

theorem natAbs_lt_pow_precision (d : Decimal) : d.unscaled.natAbs < 10 ^ d.precision := by
  rw [precision, digits, Digits.length_ofNat]
  exact Nat.lt_pow_succ_log_self (by decide) _

theorem pow_precision_le (h : d.unscaled ≠ 0) : 10 ^ (d.precision - 1) ≤ d.unscaled.natAbs := by
  rw [precision, digits, Digits.length_ofNat, Nat.add_sub_cancel]
  exact Nat.pow_log_le_self 10 (Int.natAbs_ne_zero.mpr h)

theorem precision_pos (d : Decimal) : 0 < d.precision :=
  List.length_pos_iff.mpr (Digits.ofNat_ne_nil _)

/-! ## Changing the scale -/

/-- Division of integers rounds the quotient. -/
theorem divRound_eq_roundAway (n : ℤ) {d : ℕ} (pos : 0 < d) :
    divRound n d = roundAway (n / d) := by
  have positive : (0 : ℚ) < d := Nat.cast_pos.mpr pos
  have magnitude (m : ℕ) : (((2 * m + d) / (2 * d) : ℕ) : ℤ) = round ((m : ℚ) / d) := by
    have half : (m : ℚ) / d + 1 / 2 = ((2 * m + d : ℕ) : ℚ) / ((2 * d : ℕ) : ℚ) := by
      push_cast
      field_simp
    rw [round_eq, half, Rat.floor_natCast_div_natCast, Int.natCast_ediv]
  have sign : (n : ℚ) / d < 0 ↔ n < 0 := by
    rw [div_lt_iff₀ positive, zero_mul, Int.cast_lt_zero]
  unfold divRound roundAway
  simp only [magnitude, sign]
  split
  · next negative =>
    have abs : ((n.natAbs : ℕ) : ℚ) = -n := by
      rw [Nat.cast_natAbs, abs_of_neg negative, Int.cast_neg]
    rw [abs, neg_div]
  · next nonneg =>
    have abs : ((n.natAbs : ℕ) : ℚ) = n := by
      rw [Nat.cast_natAbs, abs_of_nonneg (Int.not_lt.mp nonneg)]
    rw [abs]

theorem divRound_one (n : ℤ) : divRound n 1 = n := by
  have whole : (2 * n.natAbs + 1) / (2 * 1) = n.natAbs := by omega
  unfold divRound
  rw [whole]
  dsimp only
  split <;> omega

/-- Where all digits are dropped and one place more, nothing is left to round up. -/
theorem divRound_eq_zero {n : ℤ} {d : ℕ} (h : 2 * n.natAbs < d) : divRound n d = 0 := by
  have small : (2 * n.natAbs + d) / (2 * d) = 0 := Nat.div_eq_of_lt (by omega)
  unfold divRound
  rw [small]
  simp

/-- Going to a smaller scale is division by a power of ten, the short cut included. -/
theorem withScale?_down (h : scale ≤ d.scale) :
    d.withScale? scale = some ⟨divRound d.unscaled (10 ^ (d.scale - scale).toNat), scale⟩ := by
  unfold withScale?
  by_cases same : d.scale ≤ scale
  · obtain rfl : scale = d.scale := Int.le_antisymm h same
    have shift : (d.scale - d.scale).toNat = 0 := by omega
    simp only [shift, le_refl, if_true, tenPow, Nat.pow_eq, pow_zero, divRound_one, Nat.zero_le]
    simp
  · rw [if_neg same]
    by_cases few : d.precision < (d.scale - scale).toNat
    · have bound : 2 * d.unscaled.natAbs < 10 ^ (d.scale - scale).toNat := by
        calc 2 * d.unscaled.natAbs
            < 10 * 10 ^ d.precision := by
              have := natAbs_lt_pow_precision d
              omega
          _ = 10 ^ (d.precision + 1) := (pow_succ' 10 d.precision).symm
          _ ≤ 10 ^ (d.scale - scale).toNat := Nat.pow_le_pow_right (by decide) few
      rw [divRound_eq_zero bound]
      exact if_pos few
    · exact if_neg few

/-- Going to a smaller scale rounds what the decimal means, and is never refused. -/
theorem withScale?_rounds (h : scale ≤ d.scale) :
    ∃ c, d.withScale? scale = some c ∧ c.scale = scale ∧ c.meaning = roundTo scale d.meaning := by
  refine ⟨_, withScale?_down h, rfl, ?_⟩
  have quotient : (d.unscaled : ℚ) / ((10 ^ (d.scale - scale).toNat : ℕ) : ℚ) =
      d.meaning * 10 ^ scale := by
    have shift : ((d.scale - scale).toNat : ℤ) = d.scale - scale := Int.toNat_of_nonneg (by omega)
    push_cast
    rw [meaning, ← zpow_natCast, shift, div_eq_mul_inv, ← zpow_neg, mul_assoc,
      ← zpow_add₀ (by norm_num)]
    congr 2
    ring
  rw [meaning, roundTo, divRound_eq_roundAway _ (by positivity), quotient]

/-- Only the number of places that are added counts. -/
theorem withScale?_eq_none_iff : d.withScale? scale = none ↔ maxPadding < scale - d.scale := by
  rcases le_or_gt scale d.scale with down | up
  · rw [withScale?_down down]
    simp only [reduceCtorEq, false_iff]
    omega
  · unfold withScale?
    rw [if_pos up.le]
    simp only [ite_eq_right_iff, reduceCtorEq, imp_false]
    omega

/-- A sum is refused exactly if the scales are too far apart, whatever the digits are. -/
theorem add?_eq_none_iff {a b : Decimal} :
    a.add? b = none ↔ maxPadding < |a.scale - b.scale| := by
  rcases le_total a.scale b.scale with le | le
  · rw [add?, max_eq_right le, withScale?_self, Option.bind_eq_none_iff, abs_sub_comm,
      abs_of_nonneg (by omega), ← withScale?_eq_none_iff, Option.eq_none_iff_forall_not_mem]
    simp
  · rw [add?, max_eq_left le, withScale?_self, Option.bind_some, Option.map_eq_none_iff,
      withScale?_eq_none_iff, abs_of_nonneg (by omega)]

theorem withPrecision?_eq_withScale? (d : Decimal) (precision : ℕ) :
    d.withPrecision? precision =
      d.withScale? (d.scale - max 0 (d.precision - precision : ℤ)) := by
  unfold withPrecision?
  split
  · have kept : d.scale - max 0 (d.precision - precision : ℤ) = d.scale := by omega
    rw [kept, withScale?_self]
  · have dropped : ((d.precision - precision : ℕ) : ℤ) = max 0 (d.precision - precision : ℤ) := by
      omega
    rw [dropped]

/-! ## What cannot be written -/

theorem meaning_eq_zero_iff : d.meaning = 0 ↔ d.isZero = true := by
  rw [meaning, mul_eq_zero_iff_right (by positivity), Int.cast_eq_zero, isZero, beq_iff_eq]

/-- The power of ten of the leading digit. -/
theorem log_meaning (h : d.meaning ≠ 0) :
    Int.log 10 |d.meaning| = d.precision - 1 - d.scale := by
  have nonzero : d.unscaled ≠ 0 := by
    rintro zero
    exact h (by rw [meaning, zero, Int.cast_zero, zero_mul])
  have size : |d.meaning| = (d.unscaled.natAbs : ℚ) * 10 ^ (-d.scale) := by
    rw [meaning, abs_mul, abs_of_pos (by positivity : (0 : ℚ) < 10 ^ (-d.scale)), Nat.cast_natAbs,
      Int.cast_abs]
  have low : (10 : ℚ) ^ (d.precision - 1 : ℤ) ≤ d.unscaled.natAbs := by
    have cast : (10 : ℚ) ^ (d.precision - 1 : ℤ) = ((10 ^ (d.precision - 1) : ℕ) : ℚ) := by
      rw [Nat.cast_pow, ← zpow_natCast, Nat.cast_sub (precision_pos d)]
      rfl
    rw [cast]
    exact Nat.cast_le.mpr (pow_precision_le nonzero)
  have high : (d.unscaled.natAbs : ℚ) < 10 ^ (d.precision : ℤ) := by
    rw [zpow_natCast]
    exact_mod_cast natAbs_lt_pow_precision d
  have positive : (0 : ℚ) < 10 ^ (-d.scale) := by positivity
  apply le_antisymm
  · refine Int.lt_add_one_iff.mp ?_
    rw [← Int.lt_zpow_iff_log_lt (by decide) (abs_pos.mpr h), size]
    have split : ((10 : ℕ) : ℚ) ^ (d.precision - 1 - d.scale + 1 : ℤ) =
        10 ^ (d.precision : ℤ) * 10 ^ (-d.scale) := by
      rw [← zpow_add₀ (by norm_num)]
      push_cast
      congr 1
      ring
    rw [split]
    exact mul_lt_mul_of_pos_right high positive
  · rw [← Int.zpow_le_iff_le_log (by decide) (abs_pos.mpr h), size, sub_eq_add_neg,
      zpow_add₀ (by norm_num)]
    push_cast
    exact mul_le_mul_of_nonneg_right low positive.le

/-- A decimal cannot be written exactly if it needs a power of ten that is no 32-bit integer. -/
theorem toNumber?_eq_none_iff {scientific : Bool} :
    d.toNumber? scientific = none ↔ d.meaning ≠ 0 ∧ (scientific = true ∨ d.scale < 0) ∧
      ¬(-2 ^ 31 ≤ Int.log 10 |d.meaning| ∧ Int.log 10 |d.meaning| < 2 ^ 31) := by
  rw [toNumber?_eq_none_iff_precision, ← Bool.not_eq_true, ← meaning_eq_zero_iff]
  refine and_congr_right fun meant => ?_
  rw [log_meaning meant]

end Decimal

/-! ## Policies -/

namespace Rounding

variable (policy : Rounding) (a b : Number)

/-- The decimal places that a policy keeps of the sum of two numbers. -/
def sumScale : ℤ :=
  let exact := max (Decimal.ofNumber a).scale (Decimal.ofNumber b).scale
  match policy with
  | places limit => min exact limit.toNat
  | _ =>
      if policy.appliesTo a.body b.body then
        min (Decimal.ofNumber a).scale (Decimal.ofNumber b).scale
      else
        exact

/-- The decimal places that a policy keeps of the product of two numbers. -/
def productScale : ℤ :=
  let exact := (Decimal.ofNumber a).mul (Decimal.ofNumber b)
  let fewest := min (Decimal.ofNumber a).precision (Decimal.ofNumber b).precision
  match policy with
  | places limit => min exact.scale limit.toNat
  | _ =>
      if policy.appliesTo a.body b.body then
        exact.scale - max 0 ((exact.precision : ℤ) - fewest)
      else
        exact.scale

theorem sumScale_le :
    policy.sumScale a b ≤ max (Decimal.ofNumber a).scale (Decimal.ofNumber b).scale := by
  have fewest := min_le_max (a := (Decimal.ofNumber a).scale) (b := (Decimal.ofNumber b).scale)
  cases policy with
  | places limit => exact min_le_left _ _
  | always | decimals | scientific =>
      dsimp only [sumScale]
      split
      · exact fewest
      · exact le_refl _

theorem productScale_le :
    policy.productScale a b ≤ ((Decimal.ofNumber a).mul (Decimal.ofNumber b)).scale := by
  cases policy with
  | places limit => exact min_le_left _ _
  | always | decimals | scientific =>
      dsimp only [productScale]
      split
      · exact sub_le_self _ (le_max_left _ _)
      · exact le_refl _

/-- A policy changes the scale of an exact sum once. -/
theorem sum?_eq_withScale? {exact : Decimal}
    (h : exact.scale = max (Decimal.ofNumber a).scale (Decimal.ofNumber b).scale) :
    policy.sum? a b exact = exact.withScale? (policy.sumScale a b) := by
  cases policy with
  | places limit => rw [sum?, sumScale, h]
  | always | decimals | scientific =>
      dsimp only [sum?, sumScale]
      rw [← h]
      split
      · rfl
      · exact exact.withScale?_self.symm

/-- A policy changes the scale of an exact product once. -/
theorem product?_eq_withScale? :
    policy.product? a b ((Decimal.ofNumber a).mul (Decimal.ofNumber b)) =
      ((Decimal.ofNumber a).mul (Decimal.ofNumber b)).withScale? (policy.productScale a b) := by
  generalize exact : (Decimal.ofNumber a).mul (Decimal.ofNumber b) = d
  cases policy with
  | places limit => rw [product?, productScale, exact]
  | always | decimals | scientific =>
      dsimp only [product?, productScale]
      rw [exact]
      split
      · exact d.withPrecision?_eq_withScale? _
      · exact d.withScale?_self.symm

end Rounding

/-! ## Numbers -/

namespace Number

variable {a b : Number} {scale : ℤ}

/-- A rounded result that would need a power of ten outside 32 bits. One is needed where an operand
has one and where zeros stand before the point, but not for zero. -/
def IsOutOfRange (a b : Number) (scale : ℤ) (x : ℚ) : Prop :=
  x ≠ 0 ∧ ((a.body.isScientific || b.body.isScientific) = true ∨ scale < 0) ∧
    ¬(-2 ^ 31 ≤ Int.log 10 |x| ∧ Int.log 10 |x| < 2 ^ 31)

/-- How an operation on two numbers with an exact result ends: with that result rounded to a scale,
or as too large, which it is if the numbers are too far apart to begin with or the rounded result
cannot be written. -/
structure IsRoundedOnce (a b : Number) (exact : ℚ) (scale : ℤ) (apart : Prop)
    (x : Except Failure Number) : Prop where
  value : ∀ r, x = .ok r → r.exponent = 1 ∧ r.meaning = roundTo scale exact
  refused : ∀ e, x = .error e ↔
    e = .tooLarge a.particle b.particle ∧ (apart ∨ IsOutOfRange a b scale (roundTo scale exact))

theorem finish_eq_error_iff {rounded : Option Decimal} {e : Failure} :
    finish a b rounded = .error e ↔ e = .tooLarge a.particle b.particle ∧
      rounded.bind (·.toNumber? (a.body.isScientific || b.body.isScientific)) = none := by
  unfold finish
  split
  · next written => simp [written]
  · next unwritten => simp [unwritten, eq_comm]

/-- An exact result is rounded by its change of scale and by nothing else. -/
theorem finish_isRoundedOnce {d : Decimal} (h : scale ≤ d.scale) :
    IsRoundedOnce a b d.meaning scale False (finish a b (d.withScale? scale)) := by
  obtain ⟨c, hc, rfl, rounded⟩ := Decimal.withScale?_rounds h
  rw [hc]
  constructor
  · intro r hr
    obtain ⟨_, hsome, written⟩ := finish_eq_ok hr
    obtain rfl := Option.some.inj hsome
    obtain ⟨meaning, exponent⟩ := Decimal.toNumber?_meaning written
    exact ⟨exponent, meaning.trans rounded⟩
  · intro e
    rw [finish_eq_error_iff, Option.bind_some, Decimal.toNumber?_eq_none_iff, rounded, false_or]
    rfl

theorem add_isRoundedOnce (policy : Rounding) (a b : Number) :
    IsRoundedOnce a b (a.meaning + b.meaning) (policy.sumScale a b)
      (4096 < |(Decimal.ofNumber a).scale - (Decimal.ofNumber b).scale|) (add policy a b) := by
  unfold add
  cases sum : (Decimal.ofNumber a).add? (Decimal.ofNumber b) with
  | none =>
      have apart := Decimal.add?_eq_none_iff.mp sum
      constructor
      · intro r hr
        cases hr
      · intro e
        rw [finish_eq_error_iff]
        exact and_congr_right fun _ => iff_of_true rfl (.inl apart)
  | some d =>
      have near : ¬4096 < |(Decimal.ofNumber a).scale - (Decimal.ofNumber b).scale| := by
        intro apart
        rw [Decimal.add?_eq_none_iff.mpr apart] at sum
        cases sum
      obtain ⟨exact, hscale⟩ := Decimal.add?_meaning sum
      have bound : policy.sumScale a b ≤ d.scale := hscale ▸ policy.sumScale_le a b
      have rounded := finish_isRoundedOnce (a := a) (b := b) bound
      rw [exact, Decimal.meaning_ofNumber, Decimal.meaning_ofNumber] at rounded
      rw [Option.bind_some, policy.sum?_eq_withScale? a b hscale, eq_false near]
      exact rounded

theorem multiply_isRoundedOnce (policy : Rounding) (a b : Number) :
    IsRoundedOnce a b (a.meaning * b.meaning) (policy.productScale a b) False
      (multiply policy a b) := by
  have rounded := finish_isRoundedOnce (a := a) (b := b) (policy.productScale_le a b)
  rw [Decimal.mul_meaning, Decimal.meaning_ofNumber, Decimal.meaning_ofNumber] at rounded
  rw [multiply, policy.product?_eq_withScale?]
  exact rounded

/-- The sum and the product of two numbers are the exact ones rounded once, a half away from zero,
to the scale of the policy. They are refused as too large exactly if the scales of two summands are
more than 4096 apart, or if the rounded result cannot be written. -/
theorem arithmetic_rounds_once (policy : Rounding) (a b : Number) :
    IsRoundedOnce a b (a.meaning + b.meaning) (policy.sumScale a b)
        (4096 < |(Decimal.ofNumber a).scale - (Decimal.ofNumber b).scale|) (add policy a b) ∧
      IsRoundedOnce a b (a.meaning * b.meaning) (policy.productScale a b) False
        (multiply policy a b) :=
  ⟨add_isRoundedOnce policy a b, multiply_isRoundedOnce policy a b⟩

end Number

end StepAlgebra
