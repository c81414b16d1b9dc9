import StepAlgebra.Proofs.Step.LikeFactors
import StepAlgebra.Proofs.Step.LikeTerms
import StepAlgebra.Proofs.Value.Paths
import StepAlgebra.Step.Rule

/-!
# What a step does to a value

A step rewrites one expression or one term, somewhere in a value, and leaves the rest as it is. A
property of steps is proved for the two ways of rewriting and for one swapped child; nothing else
is unfolded.

* `Particle.Rewritten` — an expression and its sums, or a term and its products;
* `Value.Changed` — one particle of a value, or one side of an equation, is changed;
* `Value.changed_of_step` — what holds of every rewriting, and for a swap of one child if it holds
  of that child, holds of what a step changes.
-/

namespace StepAlgebra

/-- The two ways in which a step rewrites a particle. -/
inductive Particle.Rewritten (policy : Rounding) : Particle → Particle → Prop
  | sums {s : Bool} {terms : List Particle} {e : UInt32} {sums : List Subtotal} :
      (likeTerms terms).length < terms.length → allSubtotals policy terms = .ok sums →
      Rewritten policy ⟨s, .expression terms, e⟩ (ofTerms s e (keptSums sums))
  | products {s : Bool} {factors : List Particle} {e : UInt32} {results : List Product} :
      (likeFactors factors).length < factors.length → products policy factors = .ok results →
      Rewritten policy ⟨s, .term factors, e⟩ (ofFactors s e (results.map Product.product))

/-- Two values that differ in one particle, the whole or a side, and how it was changed. -/
inductive Value.Changed (R : Particle → Particle → Prop) : Value → Value → Prop
  | particle {p q : Particle} : R p q → Changed R (.particle p) (.particle q)
  | left {p q : Particle} (right : Particle) : R p q →
      Changed R (.equation p right) (.equation q right)
  | right {p q : Particle} (left : Particle) : R p q →
      Changed R (.equation left p) (.equation left q)

namespace Value

open Particle

variable {policy : Rounding} {v w : Value} {path : Path} {R : Particle → Particle → Prop}

/-! ## Splices -/

/-- A particle that is put in place of a part changes the value around it as it changes the part,
if swapping a child does. -/
theorem changed_of_splice
    (congr : ∀ {old new p q : Particle}, Swap old new p q → R old new → R p q)
    {old new : Particle} (hold : v.get? path = some (.particle old))
    (hsplice : v.splice path (.particle new) = .ok w) (h : R old new) : Changed R v w := by
  have hreplace := splice_eq_ok_iff.mp hsplice
  rcases get?_eq_some_particle hold with
    ⟨p, rfl, hget⟩ | ⟨left, right, rfl, ⟨rest, rfl, hget⟩ | ⟨rest, rfl, hget⟩⟩
  · rw [replaceAt?_particle] at hreplace
    obtain ⟨q, hq, rfl⟩ := Option.map_eq_some_iff.mp hreplace
    exact .particle (replaceAt?_rel congr hget hq h)
  · obtain ⟨q, hq, rfl⟩ := Option.map_eq_some_iff.mp hreplace
    exact .left right (replaceAt?_rel congr hget hq h)
  · obtain ⟨q, hq, rfl⟩ := Option.map_eq_some_iff.mp hreplace
    exact .right left (replaceAt?_rel congr hget hq h)

/-! ## Steps -/

theorem sumScore_pos {s : Bool} {terms : List Particle} {e : UInt32}
    (h : 0 < sumScore (.particle ⟨s, .expression terms, e⟩)) :
    (likeTerms terms).length < terms.length := by
  by_contra full
  have none : terms.length - (likeTerms terms).length = 0 := by omega
  simp [sumScore, terms?, none] at h

/-- A rule that is applied to a part of its level rewrites that part. -/
theorem rewritten_of_apply {rule : Rule} {part : Value} {step : Step} (hrule : rule ∈ Rule.roster)
    (hlevel : part.level = rule.level) (hscore : 0 < rule.score part)
    (happly : rule.apply policy part = .ok step) :
    ∃ p q, part = .particle p ∧ step.result = .particle q ∧ p.Rewritten policy q := by
  simp only [Rule.roster, List.mem_cons, List.not_mem_nil, or_false] at hrule
  rcases hrule with rfl | rfl
  · cases part with
    | equation left right => cases hlevel
    | particle p =>
        obtain ⟨s, b, e⟩ := p
        cases b with
        | expression terms =>
            obtain ⟨sums, hsums, hresult⟩ := combineLikeTerms_eq_ok happly
            exact ⟨_, _, rfl, hresult, .sums (sumScore_pos (s := s) (e := e) hscore) hsums⟩
        | _ => cases hlevel
  · cases part with
    | equation left right => cases hlevel
    | particle p =>
        obtain ⟨s, b, e⟩ := p
        cases b with
        | term factors =>
            obtain ⟨some, results, hresults, hresult⟩ := multiplyFactors_eq_ok happly
            have fewer : (likeFactors factors).length < factors.length := by
              unfold excess at some
              omega
            exact ⟨_, _, rfl, hresult, .products fewer hresults⟩
        | _ => cases hlevel

/-- A step of the roster changes a value as rewritings change particles. -/
theorem changed_of_step {rule : Rule} {part : Value} {step : Step}
    (congr : ∀ {old new p q : Particle}, Swap old new p q → R old new → R p q)
    (rewritten : ∀ {p q : Particle}, p.Rewritten policy q → R p q)
    (hrule : rule ∈ Rule.roster) (hpart : (path, part) ∈ v.resources rule.level)
    (hscore : 0 < rule.score part) (happly : rule.apply policy part = .ok step)
    (hsplice : v.splice path step.result = .ok w) : Changed R v w := by
  obtain ⟨hget, hlevel⟩ := mem_resources_iff.mp hpart
  obtain ⟨p, q, rfl, hresult, h⟩ := rewritten_of_apply hrule hlevel hscore happly
  rw [hresult] at hsplice
  exact changed_of_splice congr hget hsplice (rewritten h)

end Value

end StepAlgebra
