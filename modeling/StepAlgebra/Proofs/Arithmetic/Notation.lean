import StepAlgebra.Proofs.Arithmetic.Formed

/-!
# Decimals and their notation

A decimal other than zero is written in one way without a power of ten and in one way with one, and
both are read as the decimal. The other way round, a number is written again from its decimal as it
was if it has no digits but those that are always written: at least one before the point, or one
that is not zero if there is a power of ten. Trailing zeros stay, since the scale counts them.

* `Numeral.IsPositional`, `Numeral.IsNormalized` — the two ways of writing;
* `Decimal.positional_ofNat_value` — padded and cut, the digits are what they were;
* `Decimal.notations_are_inverse` — what is written is read back, and the other way round;
* `Decimal.exists_number_not_restored` — a number without digits before the point.
-/

namespace StepAlgebra

/-- Digits without a zero in front that could be left out. -/
def Digits.IsTrimmed (ds : Digits) : Prop :=
  ∀ rest, ds = .ofNat 0 :: rest → rest = []

/-- A numeral with a digit before the point and no power of ten, as decimals are written. -/
structure Numeral.IsPositional (n : Numeral) : Prop where
  whole : n.whole ≠ []
  trimmed : n.whole.IsTrimmed
  places : n.places ≠ some []
  power : n.power = none

/-- A numeral with one digit before the point and a power of ten, as decimals are written. -/
structure Numeral.IsNormalized (n : Numeral) : Prop where
  whole : ∃ d ≠ Digit.ofNat 0, n.whole = [d]
  places : n.places ≠ some []
  power : ∃ power, n.power = some power

namespace Decimal

variable {n : Numeral} {s : Bool}

theorem places?_getD {places : Option Digits} (h : places ≠ some []) :
    places? (places.getD []) = places := by
  match places with
  | none => rfl
  | some [] => exact absurd rfl h
  | some (_ :: _) => rfl

theorem power?_toInt (power : Int32) : power? power.toInt = some power := by
  have low := Int32.le_toInt power
  have high := Int32.toInt_lt power
  rw [power?, if_pos (by omega), Int32.ofInt_toInt]

/-! ## What is read off a numeral -/

theorem natAbs_ofNumeral (s : Bool) (n : Numeral) :
    (ofNumeral s n).unscaled.natAbs = n.digits.value := by
  cases s <;> simp [ofNumeral]

theorem isZero_ofNumeral (s : Bool) (n : Numeral) : (ofNumeral s n).isZero = n.isZero := by
  rw [Bool.eq_iff_iff, Numeral.isZero_iff, ← natAbs_ofNumeral s, isZero, beq_iff_eq,
    Int.natAbs_eq_zero]

theorem digits_ofNumeral (s : Bool) (n : Numeral) :
    (ofNumeral s n).digits = Digits.ofNat n.digits.value := by
  rw [digits, natAbs_ofNumeral]

/-- Only the sign of zero is lost. -/
theorem positive_ofNumeral (nonzero : n.isZero = false) :
    decide (0 < (ofNumeral s n).unscaled) = s := by
  have value : n.digits.value ≠ 0 := fun zero =>
    Bool.eq_false_iff.mp nonzero (Numeral.isZero_iff.mpr zero)
  cases s with
  | true => simpa [ofNumeral] using Nat.pos_of_ne_zero value
  | false => simp [ofNumeral]

/-! ## Writing it again -/

/-- Zeros are put in front until there is a digit before the point, which gives the digits that
were there. -/
theorem padded_ofNat_value {whole : Digits} (digit : whole ≠ []) (trimmed : whole.IsTrimmed)
    (places : Digits) :
    let digits := Digits.ofNat (whole ++ places).value
    List.replicate (places.length + 1 - digits.length) (.ofNat 0) ++ digits = whole ++ places := by
  intro digits
  obtain ⟨d, rest, rfl⟩ := List.exists_cons_of_ne_nil digit
  by_cases leading : d = .ofNat 0
  · -- a zero is the only digit before the point, and the value is that of the places
    subst leading
    obtain rfl := trimmed rest rfl
    have value : Digits.value ([.ofNat 0] ++ places) = places.value := by
      rw [List.singleton_append, Digits.value_cons]
      exact (congrArg (· + _) (Nat.zero_mul _)).trans (Nat.zero_add _)
    have few : digits.length ≤ places.length + 1 := by
      refine Digits.length_ofNat_le ?_
      rw [value]
      exact (Digits.value_lt places).trans (Nat.pow_lt_pow_succ (by decide))
    refine Digits.eq_of_value_eq ?_ ?_
    · rw [List.length_append, List.length_replicate, List.length_append, List.length_singleton]
      omega
    · rw [Digits.value_append, Digits.value_replicate_zero, Nat.zero_mul, Nat.zero_add,
        Digits.value_ofNat]
  · have all : digits = d :: (rest ++ places) := Digits.ofNat_value leading _
    have enough : places.length + 1 - digits.length = 0 := by
      rw [all, List.length_cons, List.length_append]
      omega
    rw [enough, all, List.replicate_zero, List.nil_append, List.cons_append]

/-- A numeral without a power of ten is written again from its value and the number of its
places. -/
theorem positional_ofNat_value (h : n.IsPositional) :
    positional (.ofNat n.digits.value) (n.places.getD []).length = n := by
  obtain ⟨whole, places, power⟩ := n
  obtain ⟨digit, trimmed, point, rfl⟩ := h
  have padded := padded_ofNat_value digit trimmed (places.getD [])
  simp only [positional, Numeral.digits] at padded ⊢
  rw [padded, List.length_append, Nat.add_sub_cancel, List.take_left, List.drop_left,
    places?_getD point]

/-- A numeral with a power of ten is written again from its value and scale. -/
theorem scientific?_ofNat_value (h : n.IsNormalized) :
    scientific? (.ofNat n.digits.value) (ofNumeral s n).scale = some n := by
  obtain ⟨whole, places, power⟩ := n
  obtain ⟨⟨d, leading, rfl⟩, point, power, rfl⟩ := h
  have digits : Digits.ofNat (Numeral.digits ⟨[d], places, some power⟩).value =
      d :: places.getD [] := Digits.ofNat_value leading _
  have exponent : ((d :: places.getD []).length : ℤ) - 1 -
      (ofNumeral s ⟨[d], places, some power⟩).scale = power.toInt := by
    rw [scale_ofNumeral, List.length_cons, Option.elim_some]
    push_cast
    ring
  rw [digits, scientific?, exponent, power?_toInt, Option.map_some, List.take_succ_cons,
    List.take_zero, List.drop_succ_cons, List.drop_zero, places?_getD point]

/-- Decimals and numbers are turned into each other and back. A decimal other than zero is read back
from every number that writes it, and cannot be written exactly if it needs a power of ten that is
no 32-bit integer. A number other than zero, with the exponent one, is written again from its
decimal if it is written like a decimal, with or without a power of ten. -/
theorem notations_are_inverse :
    (∀ d : Decimal, d.isZero = false → ∀ scientific,
      (∀ n, d.toNumber? scientific = some n → ofNumber n = d) ∧
      (d.toNumber? scientific = none ↔ (scientific = true ∨ d.scale < 0) ∧
        ¬(-2 ^ 31 ≤ (d.digits.length - 1 - d.scale : ℤ) ∧
          (d.digits.length - 1 - d.scale : ℤ) < 2 ^ 31))) ∧
    (∀ n : Number, n.body.isZero = false → n.exponent = 1 →
      (n.body.IsPositional → (ofNumber n).toNumber? false = some n) ∧
      (n.body.IsNormalized → (ofNumber n).toNumber? true = some n)) := by
  constructor
  · intro d nonzero scientific
    refine ⟨fun n written => ofNumber_of_toNumber? written nonzero, ?_⟩
    rw [toNumber?_eq_none_iff_precision, eq_true nonzero, true_and]
    rfl
  · rintro ⟨s, n, e⟩ nonzero rfl
    have same : (ofNumber ⟨s, n, 1⟩).isZero = false := (isZero_ofNumeral s n).trans nonzero
    have sign : decide (0 < (ofNumber ⟨s, n, 1⟩).unscaled) = s := positive_ofNumeral nonzero
    have digits : (ofNumber ⟨s, n, 1⟩).digits = .ofNat n.digits.value := digits_ofNumeral s n
    rw [toNumber?_of_ne_zero same, toNumber?_of_ne_zero same, sign, digits]
    constructor
    · intro positional
      have scale : (ofNumber ⟨s, n, 1⟩).scale = (n.places.getD []).length := by
        rw [ofNumber, scale_ofNumeral, positional.power, Option.elim_none, Int.sub_zero]
      rw [if_neg (by simp [scale]), scale, Int.toNat_natCast, positional_ofNat_value positional]
      rfl
    · intro normalized
      rw [Bool.true_or, if_pos rfl]
      exact congrArg (Option.map _) (scientific?_ofNat_value normalized)

/-- Trailing zeros and the zero before the point stay in `-0.050` and `2.40*10⁻²`, and one decimal
is `-0.050` and `-5.0*10⁻²`. -/
theorem notations_are_inverse_of_trailing_zeros :
    let plain : Number := ⟨false, ⟨[0], some [0, 5, 0], none⟩, 1⟩
    let power : Number := ⟨false, ⟨[5], some [0], some (-2)⟩, 1⟩
    let small : Number := ⟨true, ⟨[2], some [4, 0], some (-2)⟩, 1⟩
    ofNumber plain = ⟨-50, 3⟩ ∧ ofNumber power = ⟨-50, 3⟩ ∧
      (⟨-50, 3⟩ : Decimal).toNumber? false = some plain ∧
      (⟨-50, 3⟩ : Decimal).toNumber? true = some power ∧
      (ofNumber small).toNumber? true = some small ∧
      (⟨1, 2147483649⟩ : Decimal).toNumber? true = none := by
  intro plain power small
  obtain ⟨decimals, numbers⟩ := notations_are_inverse
  have positional : plain.body.IsPositional :=
    ⟨by decide, by simp [Digits.IsTrimmed, plain], by decide, rfl⟩
  have normalized : small.body.IsNormalized := ⟨⟨2, by decide, rfl⟩, by decide, ⟨_, rfl⟩⟩
  have written : (⟨-50, 3⟩ : Decimal).toNumber? true = some power :=
    (numbers power (by decide) rfl).2 ⟨⟨5, by decide, rfl⟩, by decide, ⟨_, rfl⟩⟩
  refine ⟨rfl, ((decimals ⟨-50, 3⟩ rfl true).1 power written), ?_, written, ?_, ?_⟩
  · exact (numbers plain (by decide) rfl).1 positional
  · exact (numbers small (by decide) rfl).2 normalized
  · exact (decimals ⟨1, 2147483649⟩ rfl true).2.mpr ⟨.inl rfl, by decide +kernel⟩

/-- A number `.5` without digits before the point is written as `0.5`. -/
theorem exists_number_not_restored :
    ¬ ∀ n : Number, n.body.isZero = false → n.exponent = 1 → n.body.power = none →
      n.body.whole.IsTrimmed → n.body.places ≠ some [] →
      (ofNumber n).toNumber? false = some n := by
  intro restored
  let half : Number := ⟨true, ⟨[], some [5], none⟩, 1⟩
  have written := restored half (by decide) rfl rfl (by simp [Digits.IsTrimmed, half]) (by decide)
  exact (hasDigits_toNumber? written).whole rfl

end Decimal

end StepAlgebra
