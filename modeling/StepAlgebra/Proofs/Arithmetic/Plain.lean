import StepAlgebra.Arithmetic.Number
import StepAlgebra.Proofs.Arithmetic.Decimal

/-!
# Sums that never fail

Places may be added to a number up to a limit. Numbers without a power of ten and with no more
places than that are never too far apart, and their sum is such a number again, whatever policy
rounds it.

* `Numeral.IsPlain` — these numerals;
* `Number.exists_add` — their sums;
* `Number.exists_add_whole` — sums of positive whole numbers, which are exact as well.
-/

namespace StepAlgebra

/-- A numeral with no power of ten and at most 4096 decimal places. -/
structure Numeral.IsPlain (n : Numeral) : Prop where
  power : n.power = none
  places : (n.places.getD []).length ≤ 4096

theorem Numeral.IsPlain.isScientific {n : Numeral} (h : n.IsPlain) : n.isScientific = false := by
  rw [Numeral.isScientific, h.power, Option.isSome_none]

theorem Numeral.isPlain_of_isWhole {n : Numeral} (h : n.isWhole = true) : n.IsPlain := by
  simp only [isWhole, Bool.and_eq_true, Option.isNone_iff_eq_none] at h
  exact ⟨h.2, by simp [h.1]⟩

namespace Decimal

variable {a b c d : Decimal}

/-- A scale that plain numerals are at. -/
structure IsPlain (d : Decimal) : Prop where
  nonneg : 0 ≤ d.scale
  atMost : d.scale ≤ 4096

theorem isPlain_ofNumber {n : Number} (h : n.body.IsPlain) : (ofNumber n).IsPlain := by
  refine ⟨scale_ofNumber_nonneg h.isScientific, ?_⟩
  have places := h.places
  simp only [ofNumber, ofNumeral, h.power]
  omega

/-- From one plain scale to another no change of scale is refused. -/
theorem IsPlain.exists_withScale? (h : d.IsPlain) {scale : Int} (nonneg : 0 ≤ scale)
    (atMost : scale ≤ 4096) : ∃ c, d.withScale? scale = some c ∧ c.IsPlain := by
  have shift : (scale - d.scale).toNat ≤ maxPadding := by
    have := h.nonneg
    have : maxPadding = 4096 := rfl
    omega
  unfold withScale?
  by_cases up : d.scale ≤ scale
  · rw [if_pos up]
    exact ⟨_, if_pos shift, nonneg, atMost⟩
  · rw [if_neg up]
    by_cases few : d.precision < (d.scale - scale).toNat
    · exact ⟨_, if_pos few, nonneg, atMost⟩
    · exact ⟨_, if_neg few, nonneg, atMost⟩

theorem IsPlain.exists_add? (ha : a.IsPlain) (hb : b.IsPlain) :
    ∃ c, a.add? b = some c ∧ c.IsPlain := by
  have nonneg : 0 ≤ max a.scale b.scale := le_max_of_le_left ha.nonneg
  have atMost : max a.scale b.scale ≤ 4096 := max_le ha.atMost hb.atMost
  obtain ⟨a', ha', -⟩ := ha.exists_withScale? nonneg atMost
  obtain ⟨b', hb', -⟩ := hb.exists_withScale? nonneg atMost
  refine ⟨⟨a'.unscaled + b'.unscaled, max a.scale b.scale⟩, ?_, nonneg, atMost⟩
  rw [add?, ha', Option.bind_some, hb', Option.map_some]

theorem IsPlain.exists_toNumber? (h : d.IsPlain) :
    ∃ n, d.toNumber? false = some n ∧ n.exponent = 1 ∧ n.body.IsPlain := by
  unfold toNumber?
  split
  · exact ⟨.plain .zero, rfl, rfl, rfl, by decide⟩
  · rw [if_neg (by simpa using h.nonneg)]
    refine ⟨_, rfl, rfl, rfl, ?_⟩
    show ((positional d.digits d.scale.toNat).places.getD []).length ≤ 4096
    rw [length_places_positional]
    exact Int.toNat_le.mpr h.atMost

end Decimal

/-- Rounding only ever drops places of a plain sum. -/
theorem Rounding.exists_sum? (policy : Rounding) {a b : Number} {d : Decimal}
    (ha : (Decimal.ofNumber a).IsPlain) (hb : (Decimal.ofNumber b).IsPlain) (hd : d.IsPlain) :
    ∃ c, policy.sum? a b d = some c ∧ c.IsPlain := by
  have operands : ∃ c, d.withScale? (min (Decimal.ofNumber a).scale (Decimal.ofNumber b).scale) =
      some c ∧ c.IsPlain :=
    hd.exists_withScale? (le_min ha.nonneg hb.nonneg) (min_le_of_left_le ha.atMost)
  have figures : ∃ c, (if policy.appliesTo a.body b.body then
      d.withScale? (min (Decimal.ofNumber a).scale (Decimal.ofNumber b).scale) else some d) =
      some c ∧ c.IsPlain := by
    split
    · exact operands
    · exact ⟨d, rfl, hd⟩
  cases policy with
  | places limit =>
      exact hd.exists_withScale? (le_min hd.nonneg (Int.natCast_nonneg _))
        (min_le_of_left_le hd.atMost)
  | always | decimals | scientific => exact figures

/-- The sum of two plain numbers is a plain number. -/
theorem Number.exists_add (policy : Rounding) {a b : Number} (ha : a.body.IsPlain)
    (hb : b.body.IsPlain) :
    ∃ c, Number.add policy a b = .ok c ∧ c.exponent = 1 ∧ c.body.IsPlain := by
  have plainA := Decimal.isPlain_ofNumber ha
  have plainB := Decimal.isPlain_ofNumber hb
  obtain ⟨exact, hexact, plain⟩ := plainA.exists_add? plainB
  obtain ⟨rounded, hrounded, plain⟩ := Rounding.exists_sum? policy plainA plainB plain
  obtain ⟨c, hc, exponent, plain⟩ := plain.exists_toNumber?
  refine ⟨c, ?_, exponent, plain⟩
  rw [add, hexact, Option.bind_some, hrounded, finish, Option.bind_some, ha.isScientific,
    hb.isScientific, Bool.or_self, hc]

/-! ## Whole numbers -/

/-- A decimal that is not negative is written without a minus sign. -/
theorem Decimal.positive_of_toNumber? {d : Decimal} {scientific : Bool} {n : Number}
    (h : d.toNumber? scientific = some n) (nonneg : 0 ≤ d.unscaled) : n.positive = true := by
  have sign : d.isZero = false → decide (0 < d.unscaled) = true := fun nonzero => by
    have : d.unscaled ≠ 0 := by simpa [isZero] using nonzero
    exact decide_eq_true (by omega)
  cases writes_of_toNumber? h with
  | zero => rfl
  | scientific nonzero | positional nonzero => exact sign nonzero

/-- A sum of whole numbers has no places to round. -/
theorem Rounding.sum?_of_isWhole (policy : Rounding) {a b : Number} {d : Decimal}
    (ha : a.body.isWhole = true) (hb : b.body.isWhole = true) (hd : d.scale = 0) :
    policy.sum? a b d = some d := by
  have aScale := Decimal.scale_ofNumber_whole ha
  have bScale := Decimal.scale_ofNumber_whole hb
  have kept : d.withScale? 0 = some d := hd ▸ d.withScale?_self
  cases policy with
  | places limit =>
      have fewest : min d.scale limit.toNat = 0 := by omega
      rw [sum?, fewest, kept]
  | always | decimals | scientific =>
      unfold sum?
      dsimp only
      rw [aScale, bScale, Int.min_self, kept, ite_self]

/-- Two positive whole numbers have their exact sum under every policy, and it is such a number. -/
theorem Number.exists_add_whole (policy : Rounding) {m n : Numeral} (hm : m.isWhole = true)
    (hn : n.isWhole = true) :
    ∃ c : Numeral, Number.add policy (.plain m) (.plain n) = .ok (.plain c) ∧ c.isWhole = true ∧
      c.meaning = m.meaning + n.meaning := by
  have mScale : (Decimal.ofNumber (.plain m)).scale = 0 := Decimal.scale_ofNumber_whole hm
  have nScale : (Decimal.ofNumber (.plain n)).scale = 0 := Decimal.scale_ofNumber_whole hn
  have sum := Decimal.add?_of_scale_eq (nScale.trans mScale.symm)
  have nonneg : 0 ≤ (Decimal.ofNumber (.plain m)).unscaled +
      (Decimal.ofNumber (.plain n)).unscaled :=
    Int.add_nonneg (Int.natCast_nonneg _) (Int.natCast_nonneg _)
  generalize hd : (⟨_, _⟩ : Decimal) = d at sum
  have scale : d.scale = 0 := by rw [← hd, mScale]
  have plain : d.IsPlain := ⟨by omega, by omega⟩
  obtain ⟨⟨s, c, e⟩, written, rfl, -⟩ := plain.exists_toNumber?
  obtain rfl : s = true := Decimal.positive_of_toNumber? written (by rwa [← hd])
  obtain ⟨-, whole⟩ := Decimal.toNumber?_form written plain.nonneg
  refine ⟨c, ?_, whole scale, ?_⟩
  · have unscientific : ((Number.plain m).body.isScientific || (Number.plain n).body.isScientific) =
        false := by
      rw [Bool.or_eq_false_iff]
      exact ⟨(Numeral.isPlain_of_isWhole hm).isScientific,
        (Numeral.isPlain_of_isWhole hn).isScientific⟩
    rw [add, sum, Option.bind_some, Rounding.sum?_of_isWhole policy hm hn scale, finish,
      Option.bind_some, unscientific, written]
    rfl
  · have exact := (Decimal.toNumber?_meaning written).1
    rw [(Decimal.add?_meaning sum).1, Decimal.meaning_ofNumber, Decimal.meaning_ofNumber] at exact
    simpa [Number.meaning, Number.plain] using exact

end StepAlgebra
