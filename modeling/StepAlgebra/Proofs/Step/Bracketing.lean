import StepAlgebra.Proofs.Arithmetic.LikeConstants
import StepAlgebra.Proofs.Step.Prediction

/-!
# Sums in any order

Terms are added up two at a time, so a sum of several depends on their order and on the brackets
around them. Another order can lead to a result of another form, or to no result at all. Positive
constants over one denominator have a sum in every order: each sum on the way is such a constant
again, and so it can be added to any of the others.

* `Bracketing` — an order in which terms are added up;
* `Particle.IsPositiveOver.exists_combine` — one addition;
* `Bracketing.like_constants_add_in_any_order` — all of them.
-/

namespace StepAlgebra

namespace Particle

variable {d : Numeral} {p q : Particle}

/-- Positive constants over one denominator are added as terms, a zero among them included. -/
theorem IsPositiveOver.exists_combine (policy : Rounding) (hp : p.IsPositiveOver d)
    (hq : q.IsPositiveOver d) :
    ∃ r, combine policy p q = .ok r ∧ r.IsPositiveOver d ∧
      ∀ a, r.meaning a = p.meaning a + q.meaning a := by
  by_cases left : p.isZero = true
  · refine ⟨q, by rw [combine, if_pos left], hq, fun a => ?_⟩
    rw [meaning_of_isZero left hp.exponent_ne_zero, zero_add]
  by_cases right : q.isZero = true
  · refine ⟨p, by rw [combine, if_neg left, if_pos right], hp, fun a => ?_⟩
    rw [meaning_of_isZero right hq.exponent_ne_zero, add_zero]
  obtain ⟨r, hr, like, exact⟩ := hp.exists_addConstants policy hq
  have combinable : areCombinable p q = true := by
    by_contra fails
    have refused :=
      (addConstants_isPredicted policy p q).refused (Bool.eq_false_of_not_eq_true fails)
    rw [hr] at refused
    cases refused
  exact ⟨r, by rw [combine, if_neg left, if_neg right, if_pos combinable, hr], like, exact⟩

end Particle

/-- An order in which terms are added up: one term, or two such sums with brackets around each. -/
inductive Bracketing where
  | single (term : Particle)
  | sum (left right : Bracketing)

namespace Bracketing

open Particle

/-- The terms from left to right. -/
def terms : Bracketing → List Particle
  | single p => [p]
  | sum left right => left.terms ++ right.terms

/-- Adds up the terms as they are bracketed. -/
def total (policy : Rounding) : Bracketing → Except Failure Particle
  | single p => .ok p
  | sum left right => do
      let p ← left.total policy
      let q ← right.total policy
      combine policy p q

variable {d : Numeral}

/-- By induction on the brackets: the two sums within the outermost ones are positive constants over
the denominator again. -/
theorem exists_total (policy : Rounding) (t : Bracketing)
    (h : ∀ p ∈ t.terms, p.IsPositiveOver d) :
    ∃ r, t.total policy = .ok r ∧ r.IsPositiveOver d ∧
      ∀ a, r.meaning a = (t.terms.map (meaning a)).sum := by
  induction t with
  | single p =>
      exact ⟨p, rfl, h p List.mem_cons_self, fun a => List.sum_singleton.symm⟩
  | sum left right leftTotal rightTotal =>
      obtain ⟨p, hp, likeP, meaningP⟩ :=
        leftTotal fun p hp => h p (List.mem_append_left _ hp)
      obtain ⟨q, hq, likeQ, meaningQ⟩ :=
        rightTotal fun q hq => h q (List.mem_append_right _ hq)
      obtain ⟨r, hr, likeR, exact⟩ := likeP.exists_combine policy likeQ
      refine ⟨r, ?_, likeR, fun a => ?_⟩
      · rw [total, hp, hq]
        exact hr
      · rw [exact, meaningP, meaningQ, terms, List.map_append, List.sum_append]

/-- Positive constants over one denominator have a sum in every order, with any brackets and under
every policy. It is such a constant, and it means the sum of what they mean. -/
theorem like_constants_add_in_any_order {ps : List Particle} (h : ∀ p ∈ ps, p.IsPositiveOver d)
    (policy : Rounding) (t : Bracketing) (perm : t.terms.Perm ps) :
    ∃ r, t.total policy = .ok r ∧ r.IsPositiveOver d ∧
      ∀ a, r.meaning a = (ps.map (meaning a)).sum := by
  obtain ⟨r, hr, like, exact⟩ := t.exists_total policy fun p hp => h p (perm.mem_iff.mp hp)
  exact ⟨r, hr, like, fun a => (exact a).trans (perm.map _).sum_eq⟩

/-- With other brackets `(1)/(4)`, `(3)/(4)` and `1(1)/(4)` have a sum of another form that means
the same. -/
theorem like_constants_add_in_any_order_of_quarters :
    let number (d : Digit) : Particle := (Body.number ⟨[d], none, none⟩).plain
    let quarters (n : Digit) : Particle := (Body.fraction (number n) (number 4)).plain
    let mixed (n top : Digit) : Particle :=
      (Body.mixed ⟨[n], none, none⟩ (number top) (number 4)).plain
    let t := sum (sum (single (quarters 1)) (single (quarters 3))) (single (mixed 1 1))
    let u := sum (single (quarters 1)) (sum (single (mixed 1 1)) (single (quarters 3)))
    t.total .always = .ok (mixed 2 1) ∧ u.total .always = .ok (mixed 1 5) ∧
      ∀ a, (mixed 2 1).meaning a = (mixed 1 5).meaning a := by
  intro number quarters mixed t u
  have one : Numeral.ofMagnitude 1 = ⟨[1], none, none⟩ := by decide +kernel
  have two : Numeral.ofMagnitude 2 = ⟨[2], none, none⟩ := by decide +kernel
  have four : Numeral.ofMagnitude 4 = ⟨[4], none, none⟩ := by decide +kernel
  have five : Numeral.ofMagnitude 5 = ⟨[5], none, none⟩ := by decide +kernel
  have left : t.total .always = .ok (mixed 2 1) := by
    have inner : combine .always (quarters 1) (quarters 3) = .ok (unit true) := by
      show Except.ok (WholeParts.fraction 4 ⟨[4], none, none⟩) = _
      rw [WholeParts.fraction, if_neg (by decide), four]
      rfl
    show (combine .always (quarters 1) (quarters 3) >>= (combine .always · (mixed 1 1))) = _
    rw [inner]
    show Except.ok (WholeParts.mixed true 2 1 ⟨[4], none, none⟩) = _
    rw [WholeParts.mixed, one, two]
    rfl
  have right : u.total .always = .ok (mixed 1 5) := by
    have inner : combine .always (mixed 1 1) (quarters 3) = .ok (mixed 1 4) := by
      show Except.ok (WholeParts.mixed true 1 4 ⟨[4], none, none⟩) = _
      rw [WholeParts.mixed, one, four]
      rfl
    show (combine .always (mixed 1 1) (quarters 3) >>= (combine .always (quarters 1) ·)) = _
    rw [inner]
    show Except.ok (WholeParts.mixed true 1 5 ⟨[4], none, none⟩) = _
    rw [WholeParts.mixed, one, five]
    rfl
  have positive : ∀ p ∈ [quarters 1, quarters 3, mixed 1 1],
      p.IsPositiveOver ⟨[4], none, none⟩ := by
    simp only [List.forall_mem_cons]
    exact ⟨⟨.fraction true rfl rfl, rfl⟩, ⟨.fraction true rfl rfl, rfl⟩,
      ⟨.mixed true rfl rfl rfl, rfl⟩, by simp⟩
  obtain ⟨r, hr, -, exactLeft⟩ := like_constants_add_in_any_order positive .always t (.refl _)
  obtain ⟨s, hs, -, exactRight⟩ :=
    like_constants_add_in_any_order positive .always u (.cons _ (.swap _ _ _))
  obtain rfl := Except.ok.inj (hr.symm.trans left)
  obtain rfl := Except.ok.inj (hs.symm.trans right)
  exact ⟨left, right, fun a => (exactLeft a).trans (exactRight a).symm⟩

end Bracketing

end StepAlgebra
