import StepAlgebra.Proofs.Step.Progress
import StepAlgebra.Proofs.Step.Stuck

/-!
# Tests predict operations

Terms and constants are added and factors are multiplied only after a test has let them through. A
test and its operation are two tables of cases that ask different questions in a different order.
They never disagree: where the test holds the operation is refused for the size of its result only,
and where it does not the operation is refused with the failure for that.

* `IsPredicted` — an operation and the test for it;
* `Particle.tests_predict_operations` — the three operations and their tests.
-/

namespace StepAlgebra

variable {α : Type} {test : Bool} {refusal : Failure} {x : Except Failure α}

/-- A test decides whether an operation is tried or refused with a failure of its own. -/
structure IsPredicted (test : Bool) (refusal : Failure) (x : Except Failure α) : Prop where
  tried : test = true → OnlyTooLarge x
  refused : test = false → x = .error refusal

/-- An operation has a result, or one that is too large to write, or it is refused. -/
def EndsAs (refusal : Failure) (x : Except Failure α) : Prop :=
  (∃ a, x = .ok a) ∨ (∃ left right, x = .error (.tooLarge left right)) ∨ x = .error refusal

/-- The refusal is seen exactly where the test fails, as it is not about size. -/
theorem IsPredicted.eq_refusal_iff (h : IsPredicted test refusal x)
    (other : ∀ left right, refusal ≠ .tooLarge left right) :
    x = .error refusal ↔ test = false := by
  constructor
  · intro failed
    by_contra holds
    obtain ⟨left, right, large⟩ := h.tried (Bool.eq_true_of_not_eq_false holds) refusal failed
    exact other left right large
  · exact h.refused

theorem IsPredicted.endsAs (h : IsPredicted test refusal x) : EndsAs refusal x := by
  cases test with
  | true => exact (h.tried rfl).ok_or.imp_right .inl
  | false => exact .inr (.inr (h.refused rfl))

namespace Particle

variable (policy : Rounding) (p q : Particle)

theorem addConstants_isPredicted :
    IsPredicted (areCombinable p q) (.notCombinable p q) (addConstants policy p q) := by
  refine ⟨addConstants_onlyTooLarge, fun fails => ?_⟩
  unfold areCombinable at fails
  unfold addConstants
  split
  · next constants =>
    rw [constants, Bool.true_and] at fails
    split at fails
    · cases fails
    · rw [Option.isSome_eq_false_iff, Option.isNone_iff_eq_none] at fails
      rw [fails]
  · rfl

theorem combine_isPredicted :
    IsPredicted (p.isZero || q.isZero || areLikeTerms p q) (.notCombinable p q)
      (combine policy p q) := by
  constructor
  · intro holds
    rw [Bool.or_right_comm, Bool.or_eq_true] at holds
    rcases holds with takes | zero
    · exact combine_onlyTooLarge takes
    · -- zero on the right is asked for even where the sum is not zero
      rw [combine, zero]
      split <;> exact onlyTooLarge_ok _
  · intro fails
    simp only [areLikeTerms, Bool.or_eq_false_iff] at fails
    obtain ⟨⟨left, right⟩, ⟨⟨⟨agree, like⟩, multiple⟩, multiple'⟩, constants⟩ := fails
    simp only [combine, left, right, constants, like, multiple, multiple', agree,
      Bool.false_eq_true, if_false]

theorem multiply_isPredicted :
    IsPredicted (areMultipliable p q) (.notMultipliable p q) (multiply policy p q) :=
  ⟨multiply_onlyTooLarge, fun fails => multiply_eq_notMultipliable_iff.mpr ⟨⟨rfl, rfl⟩, fails⟩⟩

/-- Two particles cannot be added as terms exactly where neither is zero and they are not like
terms, as constants exactly where these cannot be combined, and cannot be multiplied exactly where
they are not like factors. In every other case there is a result, or one that is too large. -/
theorem tests_predict_operations :
    (combine policy p q = .error (.notCombinable p q) ↔
        p.isZero = false ∧ q.isZero = false ∧ areLikeTerms p q = false) ∧
      (addConstants policy p q = .error (.notCombinable p q) ↔ areCombinable p q = false) ∧
      (multiply policy p q = .error (.notMultipliable p q) ↔ areMultipliable p q = false) ∧
      EndsAs (.notCombinable p q) (combine policy p q) ∧
      EndsAs (.notCombinable p q) (addConstants policy p q) ∧
      EndsAs (.notMultipliable p q) (multiply policy p q) := by
  have terms := combine_isPredicted policy p q
  have constants := addConstants_isPredicted policy p q
  have factors := multiply_isPredicted policy p q
  refine ⟨?_, constants.eq_refusal_iff (by simp), factors.eq_refusal_iff (by simp), terms.endsAs,
    constants.endsAs, factors.endsAs⟩
  rw [terms.eq_refusal_iff (by simp), Bool.or_eq_false_iff, Bool.or_eq_false_iff, and_assoc]

end Particle

end StepAlgebra
