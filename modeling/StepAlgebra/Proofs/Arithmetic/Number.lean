import StepAlgebra.Arithmetic.Number
import StepAlgebra.Proofs.Arithmetic.Decimal

/-!
# Where arithmetic is exact

Two of the rounding policies never round on numerals of a certain form: `scientific` on those
without a power of ten, and `decimals` on whole ones. Results are of the same form, so a
computation that starts exact stays exact.

* `Number.add_exact`, `Number.multiply_exact` — such sums and products are exact;
* `Particle.Represents` — a particle made of such numerals, with the number that it means.
-/

namespace StepAlgebra

namespace Rounding

/-- The policies that are exact on the numerals that fit them. -/
def IsExact (policy : Rounding) : Prop :=
  policy = .scientific ∨ policy = .decimals

/-- The numerals that a policy never rounds. -/
def Fits : Rounding → Numeral → Prop
  | .scientific, n => n.isScientific = false
  | .decimals, n => n.isWhole = true
  | .always, _ | .places _, _ => False

variable {policy : Rounding} {m n : Numeral}

theorem isScientific_of_isWhole (h : n.isWhole = true) : n.isScientific = false := by
  simp only [Numeral.isWhole, Bool.and_eq_true, Option.isNone_iff_eq_none] at h
  simp [Numeral.isScientific, h.2]

theorem IsExact.fits_whole (exact : policy.IsExact) (h : n.isWhole = true) : policy.Fits n := by
  rcases exact with rfl | rfl
  · exact isScientific_of_isWhole h
  · exact h

theorem Fits.isScientific (h : policy.Fits n) : n.isScientific = false := by
  cases policy with
  | always | places => exact h.elim
  | scientific => exact h
  | decimals => exact isScientific_of_isWhole h

/-- The rules of significant figures do not apply to numerals that fit. -/
theorem appliesTo_of_fits (hm : policy.Fits m) (hn : policy.Fits n) :
    policy.appliesTo m n = false := by
  cases policy with
  | always | places => exact hm.elim
  | scientific => simp only [appliesTo, hm.isScientific, hn.isScientific, Bool.or_self]
  | decimals =>
      change m.isWhole = true at hm
      change n.isWhole = true at hn
      simp only [appliesTo, hm, hn, Bool.and_self, Bool.not_true]

theorem sum?_of_fits {a b : Number} {exact : Decimal} (ha : policy.Fits a.body)
    (hb : policy.Fits b.body) : policy.sum? a b exact = some exact := by
  have applies := appliesTo_of_fits ha hb
  cases policy with
  | always | places => exact ha.elim
  | scientific | decimals => simp [sum?, applies]

theorem product?_of_fits {a b : Number} {exact : Decimal} (ha : policy.Fits a.body)
    (hb : policy.Fits b.body) : policy.product? a b exact = some exact := by
  have applies := appliesTo_of_fits ha hb
  cases policy with
  | always | places => exact ha.elim
  | scientific | decimals => simp [product?, applies]

/-- What is written for a decimal fits if the places of the operands do. -/
theorem fits_toNumber? {a b c : Number} {d : Decimal} (ha : policy.Fits a.body)
    (hb : policy.Fits b.body) (h : d.toNumber? false = some c)
    (hscale : d.scale = max (Decimal.ofNumber a).scale (Decimal.ofNumber b).scale ∨
      d.scale = (Decimal.ofNumber a).scale + (Decimal.ofNumber b).scale) :
    policy.Fits c.body := by
  have hascale := Decimal.scale_ofNumber_nonneg ha.isScientific
  have hbscale := Decimal.scale_ofNumber_nonneg hb.isScientific
  obtain ⟨unscientific, whole⟩ := Decimal.toNumber?_form h (by omega)
  cases policy with
  | always | places => exact ha.elim
  | scientific => exact unscientific
  | decimals =>
      have hawhole := Decimal.scale_ofNumber_whole ha
      have hbwhole := Decimal.scale_ofNumber_whole hb
      exact whole (by omega)

end Rounding

namespace Number

variable {policy : Rounding} {a b c : Number}

theorem finish_eq_ok {rounded : Option Decimal} (h : finish a b rounded = .ok c) :
    ∃ d, rounded = some d ∧
      d.toNumber? (a.body.isScientific || b.body.isScientific) = some c := by
  unfold finish at h
  split at h
  · next written =>
    obtain rfl := Except.ok.inj h
    exact Option.bind_eq_some_iff.mp written
  · cases h

/-- The sum of two numbers that fit is exact, fits, and has the exponent one. -/
theorem add_exact (ha : policy.Fits a.body) (hb : policy.Fits b.body)
    (h : add policy a b = .ok c) :
    c.meaning = a.meaning + b.meaning ∧ c.exponent = 1 ∧ policy.Fits c.body := by
  obtain ⟨d, hd, hc⟩ := finish_eq_ok h
  -- neither is scientific, so the result is not asked to be
  rw [ha.isScientific, hb.isScientific] at hc
  obtain ⟨exact, hexact, hd⟩ := Option.bind_eq_some_iff.mp hd
  rw [Rounding.sum?_of_fits ha hb] at hd
  obtain rfl := Option.some.inj hd
  obtain ⟨hmeaning, hscale⟩ := Decimal.add?_meaning hexact
  obtain ⟨hc', hexponent⟩ := Decimal.toNumber?_meaning hc
  refine ⟨?_, hexponent, Rounding.fits_toNumber? ha hb hc (.inl hscale)⟩
  rw [hc', hmeaning, Decimal.meaning_ofNumber, Decimal.meaning_ofNumber]

/-- The product of two numbers that fit is exact, fits, and has the exponent one. -/
theorem multiply_exact (ha : policy.Fits a.body) (hb : policy.Fits b.body)
    (h : multiply policy a b = .ok c) :
    c.meaning = a.meaning * b.meaning ∧ c.exponent = 1 ∧ policy.Fits c.body := by
  obtain ⟨d, hd, hc⟩ := finish_eq_ok h
  rw [ha.isScientific, hb.isScientific] at hc
  rw [Rounding.product?_of_fits ha hb] at hd
  obtain rfl := Option.some.inj hd
  obtain ⟨hc', hexponent⟩ := Decimal.toNumber?_meaning hc
  refine ⟨?_, hexponent, Rounding.fits_toNumber? ha hb hc (.inr rfl)⟩
  rw [hc', Decimal.mul_meaning, Decimal.meaning_ofNumber, Decimal.meaning_ofNumber]

end Number

/-! ## Particles whose arithmetic is exact -/

namespace Particle

/-- Every exponent of a particle is at least one and every numeral in it fits the policy. -/
def IsExact (policy : Rounding) (p : Particle) : Prop :=
  p.Everywhere fun q => q.exponent ≠ 0 ∧ ∀ n ∈ q.body.numeral?, policy.Fits n

/-- A particle is exact and means the given number. -/
structure Represents (policy : Rounding) (a : Assignment) (p : Particle) (x : ℚ) : Prop where
  exact : p.IsExact policy
  meaning : p.meaning a = x

variable {policy : Rounding} {a : Assignment} {p : Particle}

theorem IsExact.exponent (h : p.IsExact policy) : p.exponent ≠ 0 :=
  h.here.1

theorem IsExact.powers (h : p.IsExact policy) : p.Everywhere fun q => q.exponent ≠ 0 :=
  h.imp fun _ good => good.1

theorem IsExact.numeral (h : p.IsExact policy) {n : Numeral} (hn : p.body.numeral? = some n) :
    policy.Fits n :=
  h.here.2 n hn

theorem IsExact.part (h : p.IsExact policy) {q : Particle} (hq : q ∈ p.body.parts) :
    q.IsExact policy :=
  Everywhere.part h hq

/-- Exactness does not depend on the sign, nor on an exponent that is not zero. -/
theorem IsExact.withHead (h : p.IsExact policy) {s : Bool} {e : UInt32} (he : e ≠ 0) :
    IsExact policy ⟨s, p.body, e⟩ :=
  Everywhere.withHead h ⟨he, h.here.2⟩

theorem isExact_iff :
    p.IsExact policy ↔ p.exponent ≠ 0 ∧ (∀ n ∈ p.body.numeral?, policy.Fits n) ∧
      ∀ q ∈ p.body.parts, q.IsExact policy := by
  rw [IsExact, everywhere_iff, and_assoc]
  rfl

theorem isExact_number {s : Bool} {n : Numeral} (h : policy.Fits n) :
    IsExact policy ⟨s, .number n, 1⟩ := by
  refine isExact_iff.mpr ⟨show (1 : UInt32) ≠ 0 by decide, ?_, ?_⟩
  · intro m hm
    rwa [← Option.some.inj hm]
  · intro q hq
    cases hq

end Particle

end StepAlgebra
