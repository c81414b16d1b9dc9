import StepAlgebra.Proofs.Arithmetic.Constant
import StepAlgebra.Proofs.Particle.Formed

/-!
# What arithmetic writes is well formed

Every number that arithmetic writes has digits, since a magnitude has. The bottom of a fraction or
a mixed number is taken over from one that was added, which has to be well formed itself.

* `Number.hasDigits_of_finish` — a decimal that was written as a number;
* `Particle.addConstants_isFormed`, `Particle.multiplyConstants_isFormed` — sums and products.
-/

namespace StepAlgebra

namespace Numeral

theorem hasDigits_ofNat (n : Nat) : (ofNat n).HasDigits :=
  ⟨Digits.ofNat_ne_nil n, by simp [ofNat]⟩

theorem hasDigits_ofMagnitude (z : Int) : (ofMagnitude z).HasDigits := by
  unfold ofMagnitude
  split
  · exact ⟨by simp [zero], by simp [zero]⟩
  · exact hasDigits_ofNat _

end Numeral

namespace Decimal

theorem places?_ne_nil (ds : Digits) : places? ds ≠ some [] := by
  cases ds <;> simp [places?]

theorem hasDigits_positional {ds : Digits} (h : ds ≠ []) (scale : Nat) :
    (positional ds scale).HasDigits := by
  refine ⟨?_, places?_ne_nil _⟩
  have some : 0 < ds.length := List.length_pos_iff.mpr h
  simp only [positional, ← List.length_pos_iff, List.length_take, List.length_append,
    List.length_replicate]
  omega

theorem hasDigits_scientific? {ds : Digits} {scale : Int} {n : Numeral} (h : ds ≠ [])
    (hn : scientific? ds scale = some n) : n.HasDigits := by
  simp only [scientific?, Option.map_eq_some_iff] at hn
  obtain ⟨power, -, rfl⟩ := hn
  refine ⟨?_, places?_ne_nil _⟩
  simpa using h

/-- A number that is written for a decimal has digits. -/
theorem hasDigits_toNumber? {d : Decimal} {scientific : Bool} {n : Number}
    (h : d.toNumber? scientific = some n) : n.body.HasDigits := by
  cases writes_of_toNumber? h with
  | zero => exact Numeral.hasDigits_ofMagnitude 0
  | scientific _ _ written => exact hasDigits_scientific? (Digits.ofNat_ne_nil _) written
  | positional => exact hasDigits_positional (Digits.ofNat_ne_nil _) _

end Decimal

theorem Number.hasDigits_of_finish {a b c : Number} {rounded : Option Decimal}
    (h : finish a b rounded = .ok c) : c.body.HasDigits := by
  obtain ⟨d, -, written⟩ := finish_eq_ok h
  exact Decimal.hasDigits_toNumber? written

/-! ## Fractions and mixed numbers -/

theorem Particle.isFormed_ofMagnitude (z : Int) :
    (Body.number (.ofMagnitude z)).plain.IsFormed :=
  isFormed_number (Numeral.hasDigits_ofMagnitude z)

namespace WholeParts

open Particle

variable {p q r : Particle} {s t : Bool} {parts f m a b : WholeParts}

theorem isFormed_wholeFraction (top : Int) {bottom : Numeral} (h : bottom.HasDigits) :
    (fraction top bottom).IsFormed := by
  unfold WholeParts.fraction
  split
  · exact isFormed_zero
  · dsimp only
    split
    · exact isFormed_unit _
    · exact isFormed_fraction (isFormed_ofMagnitude top) (isFormed_number h)

theorem isFormed_wholeMixed (s : Bool) (whole top : Int) {bottom : Numeral}
    (h : bottom.HasDigits) : (mixed s whole top bottom).IsFormed := by
  refine isFormed_iff.mpr ⟨⟨⟨Numeral.hasDigits_ofMagnitude whole,
    Numeral.isWhole_ofMagnitude whole, rfl, rfl⟩, trivial⟩, ?_⟩
  simpa [WholeParts.mixed, Body.parts] using ⟨isFormed_ofMagnitude top, isFormed_number h⟩

theorem hasDigits_of_ofFraction? {top bottom : Particle} (h : ofFraction? s top bottom = some parts)
    (hbottom : bottom.IsFormed) : parts.bottom.HasDigits := by
  obtain ⟨t, b, -, -, -, rfl, rfl⟩ := ofFraction?_eq_some h
  exact hbottom.here.1

theorem hasDigits_of_ofMixed? {n : Numeral} {top bottom : Particle}
    (h : ofMixed? s n top bottom = some parts) (hbottom : bottom.IsFormed) :
    parts.bottom.HasDigits := by
  simp only [ofMixed?, Option.ite_none_right_eq_some, Option.map_eq_some_iff] at h
  obtain ⟨-, fractionParts, hfraction, rfl⟩ := h
  show fractionParts.bottom.HasDigits
  exact hasDigits_of_ofFraction? hfraction hbottom

theorem IsResult.isFormed {bottom : Numeral} (h : IsResult bottom r) (hbottom : bottom.HasDigits) :
    r.IsFormed := by
  cases h with
  | whole z => exact (isFormed_ofMagnitude z).withSign _
  | fraction top => exact isFormed_wholeFraction top hbottom
  | mixed s whole top => exact isFormed_wholeMixed s whole top hbottom

end WholeParts

namespace Particle

open WholeParts

variable {policy : Rounding} {p q r : Particle}

/-! ## Sums and products -/

theorem AddedByParts.isFormed (h : AddedByParts p q r) (hp : p.IsFormed) (hq : q.IsFormed) :
    r.IsFormed := by
  have bottom {p t u : Particle} (hp : p.IsFormed) (hparts : p.body.parts = [t, u]) :
      u.IsFormed :=
    hp.part (hparts ▸ List.mem_cons_of_mem t List.mem_cons_self)
  induction h with
  | fractions hf _ h =>
      exact (addFractions?_isResult h).2.isFormed (hasDigits_of_ofFraction? hf (bottom hp rfl))
  | numberFraction hf h =>
      obtain ⟨-, rfl | result⟩ := addToFraction?_isResult h
      · exact hq
      · exact result.isFormed (hasDigits_of_ofFraction? hf (bottom hq rfl))
  | numberMixed hm h =>
      exact (addToMixed?_isResult h).2.isFormed (hasDigits_of_ofMixed? hm (bottom hq rfl))
  | fractionMixed _ hm h =>
      exact (addFractionToMixed?_isResult h).2.isFormed (hasDigits_of_ofMixed? hm (bottom hq rfl))
  | mixedNumbers hm _ h =>
      exact (addMixed?_isResult h).2.isFormed (hasDigits_of_ofMixed? hm (bottom hp rfl))
  | swap _ ih => exact ih hq hp

theorem addConstants_isFormed (hp : p.IsFormed) (hq : q.IsFormed)
    (h : addConstants policy p q = .ok r) : r.IsFormed := by
  obtain ⟨hpone, hqone, ⟨m, n, c, -, -, hsum, rfl⟩ | hsum⟩ := addConstants_eq_ok h
  · exact isFormed_number (Number.hasDigits_of_finish hsum)
  · exact (addedByParts_of_addExact? hpone hqone hsum).isFormed hp hq

theorem multiplyConstants_isFormed (h : multiplyConstants policy p q = .ok r) : r.IsFormed := by
  obtain ⟨-, -, ⟨m, n, c, -, -, hproduct, rfl⟩ | ⟨c, d, -, -, hproduct⟩⟩ :=
    multiplyConstants_eq_ok h
  · exact isFormed_number (Number.hasDigits_of_finish hproduct)
  · obtain ⟨top, htop, ⟨-, rfl⟩ | ⟨bottom, hbottom, rfl⟩⟩ := Ratio.multiply_eq_ok hproduct
    · exact isFormed_zero
    · exact isFormed_fraction (isFormed_number (Number.hasDigits_of_finish htop))
        (isFormed_number (Number.hasDigits_of_finish hbottom))

end Particle

end StepAlgebra
