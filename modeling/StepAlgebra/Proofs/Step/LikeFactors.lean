import StepAlgebra.Proofs.Step.Grouping
import StepAlgebra.Step.LikeFactors

/-!
# How like factors are multiplied

What can happen when two like factors are multiplied, when a class of them is, and when a term is.

* `Particle.multiply_eq_ok` — two factors are multiplied as constants or by their exponents;
* `Particle.Multiplied` — a class is multiplied from left to right;
* `Particle.multiplyFactors_eq_ok` — the result of a step is made of the products of its classes.
-/

namespace StepAlgebra.Particle

variable {policy : Rounding} {p q r : Particle}

theorem addExponents?_eq_some {m n e : UInt32} (h : addExponents? m n = some e) :
    e.toNat = m.toNat + n.toNat := by
  simp only [addExponents?, Option.ite_none_right_eq_some, Option.some.injEq] at h
  obtain ⟨fits, rfl⟩ := h
  rw [UInt32.toNat_add, Nat.mod_eq_of_lt fits]

theorem multiply_eq_ok (h : multiply policy p q = .ok r) :
    multiplyConstants policy p q = .ok r ∨
      (p.body.same q.body = true ∧ ∃ e, addExponents? p.exponent q.exponent = some e ∧
        r = p.withSignAndExponent (p.positive == q.positive) e) := by
  unfold multiply at h
  split at h
  · exact .inl h
  split at h
  · next same =>
    split at h
    · next e he =>
      obtain rfl := Except.ok.inj h
      exact .inr ⟨same, e, he, rfl⟩
    · cases h
  · cases h

/-- A row of factors multiplied onto a first one, from left to right. -/
inductive Multiplied (policy : Rounding) : Particle → List Particle → Particle → Prop
  | done (p : Particle) : Multiplied policy p [] p
  | next {p factor next product : Particle} {factors : List Particle} :
      multiply policy p factor = .ok next → Multiplied policy next factors product →
      Multiplied policy p (factor :: factors) product

theorem multiplied_of_foldlM {factors : List Particle}
    (h : factors.foldlM (multiply policy) p = .ok r) : Multiplied policy p factors r := by
  induction factors generalizing p with
  | nil =>
      obtain rfl := Except.ok.inj h
      exact .done p
  | cons factor factors ih =>
      rw [List.foldlM_cons] at h
      cases hnext : multiply policy p factor with
      | error failure =>
          rw [hnext] at h
          cases h
      | ok next =>
          rw [hnext] at h
          exact .next hnext (ih h)

/-- The products of a term are those of its classes, in the order of the classes. -/
theorem products_eq_ok {factors : List Particle} {results : List Product}
    (h : products policy factors = .ok results) :
    List.Forall₂ (fun c product => Multiplied policy c.first c.others product)
      (likeFactors factors) (results.map Product.product) := by
  rw [List.forall₂_map_right_iff]
  refine (mapM_eq_ok_iff.mp h).imp ?_
  intro c result hresult
  obtain ⟨product, hproduct, rfl⟩ := map_eq_ok_iff.mp hresult
  exact multiplied_of_foldlM hproduct

theorem multiplyFactors_eq_ok {factors : List Particle} {step : Step}
    (h : multiplyFactors policy p factors = .ok step) :
    excess factors ≠ 0 ∧ ∃ results, products policy factors = .ok results ∧
      step.result =
        .particle (ofFactors p.positive p.exponent (results.map Product.product)) := by
  unfold multiplyFactors at h
  split at h
  · cases h
  · next some =>
    obtain ⟨results, hresults, rfl⟩ := map_eq_ok_iff.mp h
    exact ⟨some, results, hresults, rfl⟩

end StepAlgebra.Particle
