import Mathlib.Tactic.FieldSimp
import StepAlgebra.Arithmetic.Decimal
import StepAlgebra.Proofs.Particle.Meaning

/-!
# What decimals mean

A decimal means its unscaled integer times a power of ten. Reading a number as a decimal, adding,
multiplying, and writing a decimal as a number keep that meaning; only `withScale?` towards a
smaller scale rounds, and nothing here uses it.

* `Decimal.add?_meaning`, `Decimal.mul_meaning` — sums and products are exact;
* `Decimal.Writes` — the ways in which a decimal is written as a number;
* `Decimal.toNumber?_eq_none_iff_precision` — which decimals cannot be written;
* `Decimal.ofNumber_of_toNumber?` — the others are read back, except for the places of zero;
* `Decimal.toNumber?_meaning` — a decimal is written as the number that it means.
-/

namespace StepAlgebra

/-- The number that a signed number means apart from its exponent. -/
def Number.meaning (n : Number) : ℚ :=
  sgn n.positive * n.body.meaning

theorem Numeral.isZero_iff {n : Numeral} : n.isZero = true ↔ n.digits.value = 0 := by
  rw [Digits.value_eq_zero_iff]
  simp [isZero]

theorem Numeral.meaning_of_isZero {n : Numeral} (h : n.isZero = true) : n.meaning = 0 := by
  rw [meaning, isZero_iff.mp h, Nat.cast_zero, zero_mul]

/-- A whole numeral means the value of its digits. -/
theorem Numeral.meaning_whole {n : Numeral} (h : n.isWhole = true) :
    n.meaning = n.whole.value := by
  simp only [isWhole, Bool.and_eq_true, Option.isNone_iff_eq_none] at h
  simp [meaning, digits, h.1, h.2]

namespace Decimal

/-- The number that a decimal means. -/
def meaning (d : Decimal) : ℚ :=
  d.unscaled * 10 ^ (-d.scale)

variable {a b c d : Decimal}

theorem scale_ofNumeral (s : Bool) (n : Numeral) :
    (ofNumeral s n).scale = (n.places.getD []).length - n.power.elim 0 Int32.toInt := by
  cases hpower : n.power with
  | none => simp [ofNumeral, hpower]
  | some power => simp [ofNumeral, hpower]

theorem meaning_ofNumeral (s : Bool) (n : Numeral) :
    (ofNumeral s n).meaning = sgn s * n.meaning := by
  rw [meaning, scale_ofNumeral, neg_sub, Numeral.meaning]
  cases s with
  | true => simp [ofNumeral]
  | false => simp [ofNumeral]

theorem meaning_ofNumber (n : Number) : (ofNumber n).meaning = n.meaning :=
  meaning_ofNumeral n.positive n.body

/-- A number that is not in scientific notation has no negative scale. -/
theorem scale_ofNumber_nonneg {n : Number} (h : n.body.isScientific = false) :
    0 ≤ (ofNumber n).scale := by
  simp only [Numeral.isScientific, Option.isSome_eq_false_iff, Option.isNone_iff_eq_none] at h
  simp [ofNumber, ofNumeral, h]

theorem scale_ofNumber_whole {n : Number} (h : n.body.isWhole = true) :
    (ofNumber n).scale = 0 := by
  simp only [Numeral.isWhole, Bool.and_eq_true, Option.isNone_iff_eq_none] at h
  simp [ofNumber, ofNumeral, h.1, h.2]

/-! ## Sums and products -/

/-- Adding places changes only how a decimal is written. -/
theorem withScale?_up {scale : Int} (hscale : d.scale ≤ scale)
    (h : d.withScale? scale = some c) : c.meaning = d.meaning ∧ c.scale = scale := by
  rw [withScale?, if_pos hscale] at h
  simp only [Option.ite_none_right_eq_some, Option.some.injEq] at h
  obtain ⟨-, rfl⟩ := h
  refine ⟨?_, rfl⟩
  have hshift : ((scale - d.scale).toNat : ℤ) = scale - d.scale := Int.toNat_of_nonneg (by omega)
  simp only [meaning, tenPow, Nat.pow_eq]
  push_cast
  rw [mul_assoc, ← zpow_natCast, hshift, ← zpow_add₀ (by norm_num)]
  congr 2
  ring

theorem withScale?_self (d : Decimal) : d.withScale? d.scale = some d := by
  have shift : (d.scale - d.scale).toNat = 0 := by omega
  rw [withScale?, if_pos (Int.le_refl _), shift, if_pos (Nat.zero_le _)]
  simp [tenPow]

/-- Decimals at one scale are added like integers. -/
theorem add?_of_scale_eq (h : b.scale = a.scale) :
    a.add? b = some ⟨a.unscaled + b.unscaled, a.scale⟩ := by
  have same : max a.scale b.scale = a.scale := by rw [h, Int.max_self]
  dsimp only [add?]
  rw [same, withScale?_self, Option.bind_some, ← h, withScale?_self, Option.map_some]

theorem add?_meaning (h : a.add? b = some c) :
    c.meaning = a.meaning + b.meaning ∧ c.scale = max a.scale b.scale := by
  simp only [add?, Option.bind_eq_some_iff, Option.map_eq_some_iff] at h
  obtain ⟨a', ha, b', hb, rfl⟩ := h
  obtain ⟨hameaning, hascale⟩ := withScale?_up (le_max_left _ _) ha
  obtain ⟨hbmeaning, hbscale⟩ := withScale?_up (le_max_right _ _) hb
  refine ⟨?_, rfl⟩
  rw [← hameaning, ← hbmeaning, meaning, meaning, meaning, hascale, hbscale]
  push_cast
  ring

theorem mul_meaning (a b : Decimal) : (a.mul b).meaning = a.meaning * b.meaning := by
  simp only [meaning, mul]
  rw [neg_add, zpow_add₀ (by norm_num)]
  push_cast
  ring

/-! ## Writing -/

theorem getD_places? (ds : Digits) : (places? ds).getD [] = ds := by
  cases ds <;> rfl

theorem positional_digits (ds : Digits) (scale : Nat) :
    (positional ds scale).digits =
      List.replicate (scale + 1 - ds.length) (.ofNat 0) ++ ds := by
  simp only [positional, Numeral.digits, getD_places?]
  exact List.take_append_drop _ _

/-- Positional digits have as many places as the scale says. -/
theorem length_places_positional (ds : Digits) (scale : Nat) :
    ((positional ds scale).places.getD []).length = scale := by
  simp only [positional, getD_places?, List.length_drop, List.length_append,
    List.length_replicate]
  omega

theorem value_positional (ds : Digits) (scale : Nat) :
    (positional ds scale).digits.value = ds.value := by
  rw [positional_digits, Digits.value_append, Digits.value_replicate_zero, Nat.zero_mul,
    Nat.zero_add]

/-- Without places there is no point. -/
theorem positional_isWhole {ds : Digits} (h : ds ≠ []) : (positional ds 0).isWhole = true := by
  have hlength : 0 < ds.length := List.length_pos_iff.mpr h
  have hpadding : 0 + 1 - ds.length = 0 := by omega
  simp [positional, Numeral.isWhole, hpadding, places?]

theorem power?_eq_none_iff {z : Int} : power? z = none ↔ ¬(-2 ^ 31 ≤ z ∧ z < 2 ^ 31) := by
  rw [power?, ite_eq_right_iff]
  simp only [reduceCtorEq, imp_false]
  omega

theorem power?_eq_some {z : Int} {power : Int32} (h : power? z = some power) :
    power.toInt = z := by
  simp only [power?, Option.ite_none_right_eq_some, Option.some.injEq] at h
  obtain ⟨⟨hlow, hhigh⟩, rfl⟩ := h
  exact Int32.toInt_ofInt_of_le (by omega) (by omega)

/-- The ways in which a decimal is written: as zero, with a power of ten, or without one. -/
inductive Writes (d : Decimal) (scientific : Bool) : Number → Prop
  | zero : d.isZero = true → Writes d scientific (.plain .zero)
  | scientific {n : Numeral} : d.isZero = false → (scientific = true ∨ d.scale < 0) →
      scientific? d.digits d.scale = some n →
      Writes d scientific ⟨decide (0 < d.unscaled), n, 1⟩
  | positional : d.isZero = false → scientific = false → 0 ≤ d.scale →
      Writes d scientific ⟨decide (0 < d.unscaled), positional d.digits d.scale.toNat, 1⟩

variable {scientific : Bool} {n : Number}

theorem toNumber?_of_ne_zero (nonzero : d.isZero = false) (scientific : Bool) :
    d.toNumber? scientific =
      (if scientific || d.scale < 0 then scientific? d.digits d.scale
        else some (positional d.digits d.scale.toNat)).map
          fun numeral => ⟨decide (0 < d.unscaled), numeral, 1⟩ := by
  rw [toNumber?, if_neg (Bool.eq_false_iff.mp nonzero)]

theorem writes_of_toNumber? (h : d.toNumber? scientific = some n) : d.Writes scientific n := by
  cases zero : d.isZero with
  | true =>
      rw [toNumber?, if_pos zero] at h
      obtain rfl := Option.some.inj h
      exact .zero zero
  | false =>
      rw [toNumber?_of_ne_zero zero] at h
      obtain ⟨numeral, written, rfl⟩ := Option.map_eq_some_iff.mp h
      split at written
      · next form =>
        exact .scientific zero (by simpa using form) written
      · next form =>
        simp only [Bool.or_eq_true, decide_eq_true_eq, not_or, Int.not_lt] at form
        obtain rfl := Option.some.inj written
        exact .positional zero (Bool.eq_false_iff.mpr form.1) form.2

/-- A decimal with no negative scale is written without a power of ten unless one is asked for,
and without a point if it has no places. -/
theorem toNumber?_form (h : d.toNumber? false = some n) (hscale : 0 ≤ d.scale) :
    n.body.isScientific = false ∧ (d.scale = 0 → n.body.isWhole = true) := by
  cases writes_of_toNumber? h with
  | zero => exact ⟨rfl, fun _ => rfl⟩
  | scientific _ form =>
      have negative := form.resolve_left Bool.false_ne_true
      omega
  | positional =>
      refine ⟨rfl, fun hzero => ?_⟩
      rw [hzero]
      exact positional_isWhole (Digits.ofNat_ne_nil _)

/-- Which decimals cannot be written: those whose leading digit stands at a power of ten that is no
32-bit integer, if that power has to be written. -/
theorem toNumber?_eq_none_iff_precision :
    d.toNumber? scientific = none ↔ d.isZero = false ∧ (scientific = true ∨ d.scale < 0) ∧
      ¬(-2 ^ 31 ≤ (d.precision - 1 - d.scale : ℤ) ∧ (d.precision - 1 - d.scale : ℤ) < 2 ^ 31) := by
  cases zero : d.isZero with
  | true => simp [toNumber?, zero]
  | false =>
      rw [toNumber?_of_ne_zero zero, Option.map_eq_none_iff, eq_self, true_and]
      split
      · next form =>
        simp only [Bool.or_eq_true, decide_eq_true_eq] at form
        rw [scientific?, Option.map_eq_none_iff, power?_eq_none_iff, eq_true form, true_and]
        rfl
      · next form =>
        simp only [Bool.or_eq_true, decide_eq_true_eq] at form
        simp [form]

/-! ## Reading what is written -/

theorem ofNumeral_decide {n : Numeral} (digits : n.digits.value = d.unscaled.natAbs)
    (scale : (n.places.getD []).length - n.power.elim 0 Int32.toInt = d.scale) :
    ofNumeral (decide (0 < d.unscaled)) n = d := by
  have unscaled : (ofNumeral (decide (0 < d.unscaled)) n).unscaled = d.unscaled := by
    simp only [ofNumeral, digits, decide_eq_true_eq]
    split <;> omega
  calc ofNumeral (decide (0 < d.unscaled)) n
      = ⟨(ofNumeral (decide (0 < d.unscaled)) n).unscaled,
          (ofNumeral (decide (0 < d.unscaled)) n).scale⟩ := rfl
    _ = ⟨d.unscaled, d.scale⟩ := by rw [unscaled, scale_ofNumeral, scale]

theorem value_digits (d : Decimal) : d.digits.value = d.unscaled.natAbs :=
  Digits.value_ofNat _

/-- All digits but one are behind the point, and the power of ten makes up for it. -/
theorem ofNumeral_scientific? {n : Numeral} (h : scientific? d.digits d.scale = some n) :
    ofNumeral (decide (0 < d.unscaled)) n = d := by
  obtain ⟨power, hpower, rfl⟩ := Option.map_eq_some_iff.mp h
  have nonempty : 0 < d.digits.length := List.length_pos_iff.mpr (Digits.ofNat_ne_nil _)
  apply ofNumeral_decide
  · rw [Numeral.digits, getD_places?, List.take_append_drop, value_digits]
  · rw [getD_places?, List.length_drop, Option.elim_some, power?_eq_some hpower]
    omega

/-- Without a power of ten the scale is the number of places. -/
theorem ofNumeral_positional (nonneg : 0 ≤ d.scale) :
    ofNumeral (decide (0 < d.unscaled)) (positional d.digits d.scale.toNat) = d := by
  have power : (positional d.digits d.scale.toNat).power = none := rfl
  apply ofNumeral_decide
  · rw [value_positional, value_digits]
  · rw [length_places_positional, power, Option.elim_none]
    omega

/-- A decimal other than zero is read back from the number that writes it, with every digit. -/
theorem ofNumber_of_toNumber? (h : d.toNumber? scientific = some n) (nonzero : d.isZero = false) :
    ofNumber n = d := by
  cases writes_of_toNumber? h with
  | zero zero => exact absurd zero (Bool.eq_false_iff.mp nonzero)
  | scientific _ _ written => exact ofNumeral_scientific? written
  | positional _ _ nonneg => exact ofNumeral_positional nonneg

/-- A decimal is written as the number that it means, with the exponent one. -/
theorem toNumber?_meaning (h : d.toNumber? scientific = some n) :
    n.meaning = d.meaning ∧ n.exponent = 1 := by
  have back : d.isZero = false → n.meaning = d.meaning := fun nonzero => by
    rw [← meaning_ofNumber, ofNumber_of_toNumber? h nonzero]
  cases writes_of_toNumber? h with
  | zero zero =>
      have hzero : d.unscaled = 0 := by simpa [isZero] using zero
      refine ⟨?_, rfl⟩
      rw [Number.meaning, Number.plain, Numeral.meaning_of_isZero (by decide), meaning, hzero]
      simp
  | scientific nonzero | positional nonzero => exact ⟨back nonzero, rfl⟩

end Decimal

end StepAlgebra
