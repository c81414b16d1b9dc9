import StepAlgebra.Particle.Equality
import StepAlgebra.Proofs.Particle.Weight

/-!
# Equality of particles is symmetric

Equality is decided by a walk down two trees at once. It is reflexive and symmetric, and it does
not see the weight of a tree.

* `Particle.same_refl`, `Particle.same_comm`, `Body.same_comm`, `Particle.sameRow_comm`;
* `Particle.bodyWeight_of_same` — bodies that are the same weigh the same.
-/

namespace StepAlgebra

theorem Body.signsAgree_comm (b : Body) (s t : Bool) : b.signsAgree s t = b.signsAgree t s := by
  unfold signsAgree
  rw [Bool.beq_comm]

namespace Particle

variable {p q : Particle}

theorem same_iff : p.same q = true ↔
    p.body.signsAgree p.positive q.positive = true ∧ p.exponent = q.exponent ∧
      p.body.same q.body = true := by
  obtain ⟨s, b, m⟩ := p
  obtain ⟨t, c, n⟩ := q
  simp only [same, Bool.and_eq_true, beq_iff_eq, and_assoc]

theorem sameRow_refl {ps : List Particle} (h : ∀ p ∈ ps, p.same p = true) :
    sameRow ps ps = true := by
  induction ps with
  | nil => rfl
  | cons p ps ih =>
      obtain ⟨here, later⟩ := List.forall_mem_cons.mp h
      rw [sameRow, here, ih later, Bool.and_self]

theorem body_same_refl {b : Body} (parts : ∀ p ∈ b.parts, p.same p = true) :
    b.same b = true := by
  cases b with
  | number | symbol => simp [Body.same]
  | fraction top bottom | mixed n top bottom =>
      simp [Body.same, parts top (by simp [Body.parts]), parts bottom (by simp [Body.parts])]
  | term ps | expression ps => exact sameRow_refl parts
  | root index radicand => simp [Body.same, parts radicand (by simp [Body.parts])]

theorem same_refl (p : Particle) : p.same p = true := by
  induction p using Particle.induct with
  | node p ih => exact same_iff.mpr ⟨by simp [Body.signsAgree], rfl, body_same_refl ih⟩

theorem sameRow_symm {ps qs : List Particle}
    (parts : ∀ p ∈ ps, ∀ q, p.same q = true → q.same p = true)
    (h : sameRow ps qs = true) : sameRow qs ps = true := by
  induction ps generalizing qs with
  | nil =>
      cases qs with
      | nil => rfl
      | cons => simp [sameRow] at h
  | cons p ps ih =>
      cases qs with
      | nil => simp [sameRow] at h
      | cons q qs =>
          obtain ⟨here, later⟩ := List.forall_mem_cons.mp parts
          rw [sameRow, Bool.and_eq_true] at h ⊢
          exact ⟨here q h.1, ih later h.2⟩

theorem body_same_symm {b c : Body}
    (parts : ∀ p ∈ b.parts, ∀ q, p.same q = true → q.same p = true)
    (h : b.same c = true) : c.same b = true := by
  cases b <;> cases c <;> simp only [Body.same, Bool.false_eq_true, Bool.and_eq_true,
    beq_iff_eq] at h ⊢
  case number.number | symbol.symbol => exact h.symm
  case fraction.fraction top bottom top' bottom' =>
    exact ⟨parts top (by simp [Body.parts]) top' h.1,
      parts bottom (by simp [Body.parts]) bottom' h.2⟩
  case mixed.mixed m top bottom n top' bottom' =>
    exact ⟨⟨h.1.1.symm, parts top (by simp [Body.parts]) top' h.1.2⟩,
      parts bottom (by simp [Body.parts]) bottom' h.2⟩
  case term.term | expression.expression => exact sameRow_symm parts h
  case root.root radicand _ radicand' =>
    exact ⟨h.1.symm, parts radicand (by simp [Body.parts]) radicand' h.2⟩

/-- Bodies that are the same let the same signs agree. -/
theorem signsAgree_of_same {b c : Body} (h : b.same c = true) (s t : Bool) :
    b.signsAgree s t = c.signsAgree s t := by
  cases b <;> cases c <;> simp only [Body.same, Bool.false_eq_true, beq_iff_eq] at h
  case number.number => rw [h]
  all_goals rfl

theorem same_symm (h : p.same q = true) : q.same p = true := by
  induction p using Particle.induct generalizing q with
  | node p ih =>
      obtain ⟨signs, exponents, bodies⟩ := same_iff.mp h
      refine same_iff.mpr ⟨?_, exponents.symm, body_same_symm (fun p hp q => ih p hp) bodies⟩
      rwa [Body.signsAgree_comm, ← signsAgree_of_same bodies]

theorem same_comm (p q : Particle) : p.same q = q.same p :=
  Bool.eq_iff_iff.mpr ⟨same_symm, same_symm⟩

end Particle

theorem Body.same_symm {b c : Body} (h : b.same c = true) : c.same b = true :=
  Particle.body_same_symm (fun _ _ _ => Particle.same_symm) h

theorem Body.same_comm (b c : Body) : b.same c = c.same b :=
  Bool.eq_iff_iff.mpr ⟨same_symm, same_symm⟩

namespace Particle

variable {p q : Particle}

theorem sameRow_comm (ps qs : List Particle) : sameRow ps qs = sameRow qs ps :=
  Bool.eq_iff_iff.mpr ⟨sameRow_symm fun _ _ _ => same_symm, sameRow_symm fun _ _ _ => same_symm⟩

/-! ## Weight -/

variable {deep : Bool}

theorem sameRow_length {ps qs : List Particle} (h : sameRow ps qs = true) :
    ps.length = qs.length := by
  induction ps generalizing qs with
  | nil =>
      cases qs with
      | nil => rfl
      | cons => simp [sameRow] at h
  | cons p ps ih =>
      cases qs with
      | nil => simp [sameRow] at h
      | cons q qs =>
          simp only [sameRow, Bool.and_eq_true] at h
          rw [List.length_cons, List.length_cons, ih h.2]

theorem rowWeight_of_same {ps qs : List Particle}
    (parts : ∀ p ∈ ps, ∀ q, p.same q = true → p.weight deep = q.weight deep)
    (h : sameRow ps qs = true) : rowWeight deep ps = rowWeight deep qs := by
  induction ps generalizing qs with
  | nil =>
      cases qs with
      | nil => rfl
      | cons => simp [sameRow] at h
  | cons p ps ih =>
      cases qs with
      | nil => simp [sameRow] at h
      | cons q qs =>
          obtain ⟨here, later⟩ := List.forall_mem_cons.mp parts
          rw [sameRow, Bool.and_eq_true] at h
          rw [rowWeight, rowWeight, here q h.1, ih later h.2]

theorem bodyWeight_of_same_parts {b c : Body}
    (parts : ∀ p ∈ b.parts, ∀ q, p.same q = true → p.weight deep = q.weight deep)
    (h : b.same c = true) : bodyWeight deep b = bodyWeight deep c := by
  cases b <;> cases c <;> simp only [Body.same, Bool.false_eq_true, Bool.and_eq_true,
    beq_iff_eq] at h <;> simp only [bodyWeight]
  case fraction.fraction top bottom top' bottom' =>
    rw [parts top (by simp [Body.parts]) top' h.1, parts bottom (by simp [Body.parts]) bottom' h.2]
  case mixed.mixed m top bottom n top' bottom' =>
    rw [parts top (by simp [Body.parts]) top' h.1.2,
      parts bottom (by simp [Body.parts]) bottom' h.2]
  case term.term ps qs | expression.expression ps qs =>
    have rows : rowWeight deep ps = rowWeight deep qs := rowWeight_of_same parts h
    rw [sameRow_length h, rows]
  case root.root radicand _ radicand' =>
    rw [parts radicand (by simp [Body.parts]) radicand' h.2]

theorem weight_of_same (h : p.same q = true) : p.weight deep = q.weight deep := by
  induction p using Particle.induct generalizing q with
  | node p ih =>
      obtain ⟨-, -, bodies⟩ := same_iff.mp h
      rw [weight_eq, weight_eq]
      exact bodyWeight_of_same_parts (fun p hp q => ih p hp) bodies

/-- Bodies that are the same weigh the same. -/
theorem bodyWeight_of_same {b c : Body} (h : b.same c = true) :
    bodyWeight deep b = bodyWeight deep c :=
  bodyWeight_of_same_parts (fun _ _ _ => weight_of_same) h

end Particle

end StepAlgebra
