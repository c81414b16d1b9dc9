import StepAlgebra.Arithmetic.Constant
import StepAlgebra.Proofs.Step.Grouping

/-!
# What arithmetic refuses

Constants that their tests let through are computed with, unless the result has no written form.
No other failure is left.

* `OnlyTooLarge` — an operation that fails in no other way;
* `Particle.addConstants_onlyTooLarge`, `Particle.multiplyConstants_onlyTooLarge` — the arithmetic
  of constants is such an operation where its tests hold.
-/

namespace StepAlgebra

/-- If the operation fails, a result of it has no written form. -/
def OnlyTooLarge {α : Type} (x : Except Failure α) : Prop :=
  ∀ failure, x = .error failure → ∃ left right, failure = .tooLarge left right

section

variable {α β : Type} {x : Except Failure α}

theorem onlyTooLarge_ok (a : α) : OnlyTooLarge (.ok a) := by
  rintro failure ⟨⟩

theorem onlyTooLarge_tooLarge (left right : Particle) :
    OnlyTooLarge (.error (.tooLarge left right) : Except Failure α) := by
  rintro failure ⟨⟩
  exact ⟨left, right, rfl⟩

theorem OnlyTooLarge.map (h : OnlyTooLarge x) (f : α → β) : OnlyTooLarge (x.map f) := by
  intro failure hfailure
  cases x with
  | error cause =>
      obtain rfl := Except.error.inj hfailure
      exact h cause rfl
  | ok a => cases hfailure

/-- Such an operation has a result, or one that is too large. -/
theorem OnlyTooLarge.ok_or (h : OnlyTooLarge x) :
    (∃ a, x = .ok a) ∨ ∃ left right, x = .error (.tooLarge left right) := by
  cases hx : x with
  | ok a => exact .inl ⟨a, rfl⟩
  | error failure =>
      obtain ⟨left, right, rfl⟩ := h failure hx
      exact .inr ⟨left, right, rfl⟩

end

/-! ## Numbers -/

namespace Number

variable {policy : Rounding} {a b : Number}

theorem finish_onlyTooLarge (rounded : Option Decimal) : OnlyTooLarge (finish a b rounded) := by
  unfold finish
  split
  · exact onlyTooLarge_ok _
  · exact onlyTooLarge_tooLarge _ _

theorem add_onlyTooLarge : OnlyTooLarge (add policy a b) :=
  finish_onlyTooLarge _

theorem multiply_onlyTooLarge : OnlyTooLarge (multiply policy a b) :=
  finish_onlyTooLarge _

end Number

/-! ## Constants -/

namespace Particle

variable {policy : Rounding} {p q : Particle}

theorem addConstants_onlyTooLarge (h : areCombinable p q = true) :
    OnlyTooLarge (addConstants policy p q) := by
  unfold areCombinable at h
  simp only [Bool.and_eq_true] at h
  obtain ⟨⟨hp, hq⟩, combinable⟩ := h
  rw [addConstants, hp, hq, Bool.and_self, if_pos rfl]
  split at combinable
  · exact Number.add_onlyTooLarge.map _
  · obtain ⟨sum, hsum⟩ := Option.isSome_iff_exists.mp combinable
    rw [hsum]
    exact onlyTooLarge_ok sum

theorem Ratio.multiply_onlyTooLarge (a b : Ratio) : OnlyTooLarge (a.multiply policy b) := by
  unfold Ratio.multiply
  split
  · next failure htop =>
    obtain ⟨left, right, rfl⟩ := Number.multiply_onlyTooLarge failure htop
    exact onlyTooLarge_tooLarge left right
  · split
    · exact onlyTooLarge_ok zero
    · split
      · next failure hbottom =>
        obtain ⟨left, right, rfl⟩ := Number.multiply_onlyTooLarge failure hbottom
        exact onlyTooLarge_tooLarge left right
      · exact onlyTooLarge_ok _

/-- A constant other than a mixed number is a ratio. -/
theorem ratio?_isSome (constant : p.isConstant = true) (unmixed : p.level ≠ .mixed) :
    p.ratio?.isSome = true := by
  obtain ⟨s, b, e⟩ := p
  cases b with
  | number n => rfl
  | fraction top bottom =>
      simp only [isConstant, Bool.and_eq_true] at constant
      obtain ⟨-, htop, hbottom⟩ := constant
      obtain ⟨t, ht⟩ := Option.isSome_iff_exists.mp htop
      obtain ⟨u, hu⟩ := Option.isSome_iff_exists.mp hbottom
      simp [ratio?, ht, hu]
  | mixed n top bottom => exact absurd rfl unmixed
  | symbol | term | expression | root => simp [isConstant] at constant

theorem multiplyConstants_onlyTooLarge (hp : p.isConstant = true) (hq : q.isConstant = true)
    (hp' : p.level ≠ .mixed) (hq' : q.level ≠ .mixed) :
    OnlyTooLarge (multiplyConstants policy p q) := by
  rw [multiplyConstants, hp, hq, Bool.and_self, if_pos rfl]
  split
  · exact Number.multiply_onlyTooLarge.map _
  · obtain ⟨a, ha⟩ := Option.isSome_iff_exists.mp (ratio?_isSome hp hp')
    obtain ⟨b, hb⟩ := Option.isSome_iff_exists.mp (ratio?_isSome hq hq')
    rw [ha, hb]
    exact Ratio.multiply_onlyTooLarge a b

end Particle

end StepAlgebra
