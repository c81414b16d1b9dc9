import StepAlgebra.Proofs.Arithmetic.Rounding

/-!
# Significant digits

Rounding to significant digits drops the digits that are too many. The digits that are kept may all
be nines, and then rounding up carries into a new one: `99.6` rounded to two digits is `100`, which
has three. So a product of two numbers has as many significant digits as the shorter of them at
most, or exactly one more where its digits carry.

* `Decimal.Carries` — the digits that rounding carries through;
* `Decimal.withPrecision?_precision` — how many digits are left;
* `Number.significant_digits_unless_carried` — rounded decimals, and products of numbers.
-/

namespace StepAlgebra

namespace Decimal

variable {d : Decimal} {precision : ℕ}

/-- The decimal is at most half a unit of its last kept digit away from the next power of ten. -/
def Carries (d : Decimal) (precision : ℕ) : Prop :=
  2 * 10 ^ d.precision ≤ 2 * d.unscaled.natAbs + 10 ^ (d.precision - precision)

instance (d : Decimal) (precision : ℕ) : Decidable (d.Carries precision) :=
  inferInstanceAs (Decidable (_ ≤ _))

/-- Where no digit is dropped none is carried. -/
theorem not_carries_of_le (h : d.precision ≤ precision) : ¬d.Carries precision := by
  have below := natAbs_lt_pow_precision d
  rw [Carries, Nat.sub_eq_zero_of_le h, pow_zero]
  omega

theorem natAbs_divRound (n : ℤ) (d : ℕ) :
    (divRound n d).natAbs = (2 * n.natAbs + d) / (2 * d) := by
  unfold divRound
  dsimp only
  split
  · rw [Int.natAbs_neg, Int.natAbs_natCast]
  · exact Int.natAbs_natCast _

/-- The number of digits is the number of powers of ten up to the decimal. -/
theorem precision_le_iff (positive : 0 < precision) :
    d.precision ≤ precision ↔ d.unscaled.natAbs < 10 ^ precision := by
  constructor
  · intro h
    exact (natAbs_lt_pow_precision d).trans_le (Nat.pow_le_pow_right (by decide) h)
  · intro h
    rw [Decimal.precision, digits, Digits.length_ofNat]
    exact Nat.log_lt_of_lt_pow' (by omega) h

theorem withPrecision?_down (h : precision < d.precision) :
    d.withPrecision? precision =
      some ⟨divRound d.unscaled (10 ^ (d.precision - precision)),
        d.scale - (d.precision - precision : ℕ)⟩ := by
  have shift : (d.scale - (d.scale - (d.precision - precision : ℕ))).toNat =
      d.precision - precision := by omega
  rw [withPrecision?, if_neg (Nat.not_le_of_lt h), withScale?_down (by omega), shift]

/-- Rounding to significant digits always succeeds. No more digits than that are left unless they
carry, and then there is one more. -/
theorem withPrecision?_precision (d : Decimal) (positive : 0 < precision) :
    ∃ e, d.withPrecision? precision = some e ∧ e.precision ≤ precision + 1 ∧
      (e.precision ≤ precision ↔ ¬d.Carries precision) := by
  rcases Nat.lt_or_ge precision d.precision with many | few
  · refine ⟨_, withPrecision?_down many, ?_⟩
    have below := natAbs_lt_pow_precision d
    rw [precision_le_iff positive, precision_le_iff (Nat.succ_pos precision), Carries, Nat.not_le]
    generalize hunit : 10 ^ (d.precision - precision) = unit
    have split : 10 ^ d.precision = 10 ^ precision * unit := by
      rw [← hunit, ← pow_add, Nat.add_sub_of_le many.le]
    have unit_pos : 0 < unit := hunit ▸ Nat.pow_pos (by decide)
    have unit_le : unit ≤ 10 ^ d.precision := hunit ▸ Nat.pow_le_pow_right (by decide) (by omega)
    have kept : 10 ^ precision * (2 * unit) = 2 * 10 ^ d.precision := by
      rw [split]
      ring
    have next : 10 ^ (precision + 1) * (2 * unit) = 20 * 10 ^ d.precision := by
      rw [split]
      ring
    -- the rounded digits are below a power of ten exactly if these are below it times the unit
    rw [natAbs_divRound, Nat.div_lt_iff_lt_mul (by omega), Nat.div_lt_iff_lt_mul (by omega), kept,
      next]
    omega
  · exact ⟨d, if_pos few, by omega, iff_of_true few (not_carries_of_le few)⟩

end Decimal

/-- Where the rules of significant figures apply they decide about a product. -/
theorem Rounding.product?_of_appliesTo {policy : Rounding} {a b : Number}
    (applies : policy.appliesTo a.body b.body = true) (exact : Decimal) :
    policy.product? a b exact = exact.withPrecision?
      (min (Decimal.ofNumber a).precision (Decimal.ofNumber b).precision) := by
  cases policy with
  | places => cases applies
  | always | decimals | scientific =>
      dsimp only [product?]
      rw [if_pos applies]

namespace Number

/-- The digits of a product are those of the rounded decimal, since that is written in full. -/
theorem multiply_precision {policy : Rounding} {a b r : Number}
    (applies : policy.appliesTo a.body b.body = true) (h : multiply policy a b = .ok r)
    (nonzero : r.body.isZero = false) :
    let fewest := min (Decimal.ofNumber a).precision (Decimal.ofNumber b).precision
    (Decimal.ofNumber r).precision ≤ fewest + 1 ∧
      ((Decimal.ofNumber r).precision ≤ fewest ↔
        ¬((Decimal.ofNumber a).mul (Decimal.ofNumber b)).Carries fewest) := by
  intro fewest
  obtain ⟨rounded, hrounded, written⟩ := finish_eq_ok h
  rw [Rounding.product?_of_appliesTo applies] at hrounded
  have positive : 0 < fewest := lt_min (Decimal.precision_pos _) (Decimal.precision_pos _)
  obtain ⟨e, he, digits⟩ :=
    ((Decimal.ofNumber a).mul (Decimal.ofNumber b)).withPrecision?_precision positive
  obtain rfl := Option.some.inj (he.symm.trans hrounded)
  have kept : e.isZero = false := by
    by_contra zero
    rw [Decimal.toNumber?, if_pos (Bool.eq_true_of_not_eq_false zero)] at written
    rw [← Option.some.inj written] at nonzero
    exact absurd nonzero (by decide)
  rw [Decimal.ofNumber_of_toNumber? written kept]
  exact digits

/-- A decimal rounded to significant digits has at most that many, and a product under the rules of
significant figures at most as many as the shorter of its operands, zero aside. Either has exactly
one digit more where the digits carry. -/
theorem significant_digits_unless_carried (d : Decimal) (policy : Rounding) (a b : Number) :
    (∀ precision : ℕ, 0 < precision →
      ∃ e, d.withPrecision? precision = some e ∧ e.precision ≤ precision + 1 ∧
        (e.precision ≤ precision ↔ ¬d.Carries precision)) ∧
    ∀ r : Number, policy.appliesTo a.body b.body = true → multiply policy a b = .ok r →
      r.body.isZero = false →
      let fewest := min (Decimal.ofNumber a).precision (Decimal.ofNumber b).precision
      (Decimal.ofNumber r).precision ≤ fewest + 1 ∧
        ((Decimal.ofNumber r).precision ≤ fewest ↔
          ¬((Decimal.ofNumber a).mul (Decimal.ofNumber b)).Carries fewest) :=
  ⟨fun _ => d.withPrecision?_precision, fun _ => multiply_precision⟩

/-- A result is known by its sign, its numeral and its exponent, which can be compared. -/
theorem eq_ok_of_parts {x : Except Failure Number} {r : Number}
    (h : x.toOption.map (fun n => (n.positive, n.body, n.exponent)) =
      some (r.positive, r.body, r.exponent)) : x = .ok r := by
  cases x with
  | error failure => cases h
  | ok n =>
      obtain ⟨s, body, e⟩ := n
      simp only [Except.toOption, Option.map_some, Option.some.injEq, Prod.mk.injEq] at h
      obtain ⟨rfl, rfl, rfl⟩ := h
      rfl

/-- The product of `2.5` and `1.25` is written `3.1`, with two digits like `2.5`. -/
theorem significant_digits_unless_carried_of_decimals :
    let a : Number := .plain ⟨[2], some [5], none⟩
    let b : Number := .plain ⟨[1], some [2, 5], none⟩
    let r : Number := .plain ⟨[3], some [1], none⟩
    0 < 2 ∧ (∃ e, (⟨3125, 3⟩ : Decimal).withPrecision? 2 = some e ∧ e.precision ≤ 2) ∧
      Rounding.decimals.appliesTo a.body b.body = true ∧ multiply .decimals a b = .ok r ∧
      r.body.isZero = false ∧ (Decimal.ofNumber r).precision ≤
        min (Decimal.ofNumber a).precision (Decimal.ofNumber b).precision := by
  intro a b r
  have digits := significant_digits_unless_carried ⟨3125, 3⟩ .decimals a b
  obtain ⟨e, he, -, few⟩ := digits.1 2 (by decide)
  have product : multiply .decimals a b = .ok r := eq_ok_of_parts (by decide +kernel)
  have fewest := (digits.2 r (by decide) product (by decide)).2
  exact ⟨by decide, ⟨e, he, few.mpr (by decide +kernel)⟩, by decide, product, by decide,
    fewest.mpr (by decide +kernel)⟩

/-- The product of `9.96` and `1.0` is rounded to two significant digits, and written `10.0` with
three. -/
theorem exists_spurious_digit :
    (∃ (policy : Rounding) (a b r : Number), policy.appliesTo a.body b.body = true ∧
      multiply policy a b = .ok r ∧ r.body.isZero = false ∧
      min (Decimal.ofNumber a).precision (Decimal.ofNumber b).precision <
        (Decimal.ofNumber r).precision) ∧
    ∃ (d e : Decimal) (precision : ℕ), 0 < precision ∧ d.withPrecision? precision = some e ∧
      precision < e.precision := by
  refine ⟨⟨.decimals, .plain ⟨[9], some [9, 6], none⟩, .plain ⟨[1], some [0], none⟩,
    .plain ⟨[1, 0], some [0], none⟩, by decide, eq_ok_of_parts (by decide +kernel), by decide,
    by decide +kernel⟩, ⟨996, 2⟩, ⟨100, 1⟩, 2, by decide, by decide +kernel, by decide +kernel⟩

end Number

end StepAlgebra
