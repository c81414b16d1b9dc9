import StepAlgebra.Proofs.Arithmetic.Formed
import StepAlgebra.Proofs.Particle.Equality
import StepAlgebra.Proofs.Step.Rewriting

/-!
# What a step makes is well formed

Whatever a class of terms or factors is made into is well formed if its members are, and whatever
is made of its sums or products is too.

* `Particle.Combined.isFormed`, `Particle.multiply_isFormed` — two terms or factors made one;
* `Particle.Rewritten.isFormed` — an expression made of its sums, a term made of its products.
-/

namespace StepAlgebra

namespace Particle

variable {policy : Rounding} {p q r : Particle}

/-! ## Two terms -/

theorem signedCoefficient_isFormed {factors : List Particle} (h : ∀ q ∈ factors, q.IsFormed)
    (s : Bool) : (signedCoefficient s factors).IsFormed := by
  cases factors with
  | nil => exact isFormed_unit s
  | cons factor others =>
      by_cases constant : factor.isConstant = true
      · simp only [signedCoefficient, coefficient?, if_pos constant]
        exact (h factor List.mem_cons_self).withSign _
      · simp only [signedCoefficient, coefficient?, if_neg constant]
        exact isFormed_unit s

theorem mem_of_mem_variableFactors {factors : List Particle} (h : q ∈ variableFactors factors) :
    q ∈ factors := by
  cases factors with
  | nil => exact h
  | cons factor others =>
      rw [variableFactors] at h
      split at h
      · exact List.mem_cons_of_mem factor h
      · exact h

theorem variableFactors_ne_nil {factors : List Particle} (several : 2 ≤ factors.length) :
    variableFactors factors ≠ [] := by
  match factors, several with
  | factor :: other :: others, _ =>
      rw [variableFactors]
      split <;> exact List.cons_ne_nil _ _

theorem withCoefficient_isFormed {factors : List Particle} (hp : p.IsFormed)
    (h : ∀ q ∈ factors, q.IsFormed) (some : factors ≠ []) :
    (withCoefficient p factors).IsFormed := by
  have nonempty : 0 < factors.length := List.length_pos_iff.mpr some
  unfold withCoefficient
  split
  · split
    · exact (h _ List.mem_cons_self).withSign _
    · next several =>
      refine isFormed_term h (Nat.lt_of_le_of_ne nonempty fun one => ?_)
      obtain ⟨factor, rfl⟩ := List.length_eq_one_iff.mp one.symm
      exact several factor rfl
  · exact isFormed_term (List.forall_mem_cons.mpr ⟨hp.withSign true, h⟩)
      (Nat.succ_le_succ nonempty)

theorem scaleBySum_isFormed {factors : List Particle} (hp : p.IsFormed) (hq : q.IsFormed)
    (hfactors : ∀ q ∈ factors, q.IsFormed) (some : factors ≠ [])
    (h : scaleBySum policy p q factors = .ok r) : r.IsFormed := by
  obtain ⟨sum, hsum, ⟨-, rfl⟩ | rfl⟩ := scaleBySum_eq_ok h
  · exact isFormed_zero
  · exact withCoefficient_isFormed (addConstants_isFormed hp hq hsum) hfactors some

/-- A well-formed term with the exponent one has factors after its coefficient. -/
theorem IsFormed.several {s : Bool} {factors : List Particle}
    (h : IsFormed ⟨s, .term factors, 1⟩) : 2 ≤ factors.length := by
  rcases h.here.1 with several | ⟨raised, -⟩
  · exact several
  · exact absurd rfl raised

/-- The sum of two well-formed terms is well formed. -/
theorem Combined.isFormed (h : Combined policy p q r) (hp : p.IsFormed) (hq : q.IsFormed) :
    r.IsFormed := by
  cases h with
  | zeroLeft => exact hq
  | zeroRight => exact hp
  | constants h => exact addConstants_isFormed hp hq h
  | @likeFactors s t ps qs _ same h =>
      have hps : ∀ factor ∈ ps, factor.IsFormed := fun _ hfactor => hp.part hfactor
      have hqs : ∀ factor ∈ qs, factor.IsFormed := fun _ hfactor => hq.part hfactor
      exact scaleBySum_isFormed (signedCoefficient_isFormed hps s)
        (signedCoefficient_isFormed hqs t)
        (fun factor hfactor => hps factor (mem_of_mem_variableFactors hfactor))
        (variableFactors_ne_nil hp.several) h
  | @multipleLeft s c factor _ _ positive exponent same h =>
      have hc : c.IsFormed := hp.part List.mem_cons_self
      have hfactor : factor.IsFormed := hp.part (List.mem_cons_of_mem c List.mem_cons_self)
      exact scaleBySum_isFormed (hc.withSign _) (isFormed_unit _)
        (List.forall_mem_singleton.mpr hfactor) (List.cons_ne_nil _ _) h
  | @multipleRight s c factor _ _ positive exponent same h =>
      have hc : c.IsFormed := hq.part List.mem_cons_self
      have hfactor : factor.IsFormed := hq.part (List.mem_cons_of_mem c List.mem_cons_self)
      exact scaleBySum_isFormed (hc.withSign _) (isFormed_unit _)
        (List.forall_mem_singleton.mpr hfactor) (List.cons_ne_nil _ _) h
  | double =>
      have two : (Body.number ⟨[.ofNat 2], none, none⟩).plain.IsFormed :=
        isFormed_number ⟨by simp, by simp⟩
      exact isFormed_term
        (List.forall_mem_cons.mpr ⟨two, List.forall_mem_singleton.mpr (hp.withSign true)⟩)
        (Nat.le_refl 2)
  | cancel => exact isFormed_zero

/-! ## Expressions -/

theorem Tallied.isFormed {sum total : Particle} {terms added deferred : List Particle}
    (h : Tallied policy sum terms total added deferred) (hsum : sum.IsFormed)
    (hterms : ∀ q ∈ terms, q.IsFormed) : total.IsFormed ∧ ∀ q ∈ deferred, q.IsFormed := by
  induction h with
  | done => exact ⟨hsum, hterms⟩
  | add _ combined _ ih =>
      obtain ⟨hterm, hterms⟩ := List.forall_mem_cons.mp hterms
      exact ih ((combined_of_combine combined).isFormed hsum hterm) hterms
  | defer _ _ ih =>
      obtain ⟨hterm, hterms⟩ := List.forall_mem_cons.mp hterms
      obtain ⟨htotal, hdeferred⟩ := ih hsum hterms
      exact ⟨htotal, List.forall_mem_cons.mpr ⟨hterm, hdeferred⟩⟩

theorem Totalled.isFormed {terms : List Particle} {sums : List Subtotal}
    (h : Totalled policy terms sums) (hterms : ∀ q ∈ terms, q.IsFormed) :
    ∀ t ∈ sums, t.sum.IsFormed := by
  induction h with
  | done => exact List.forall_mem_nil _
  | pass tallied _ ih =>
      obtain ⟨hfirst, hothers⟩ := List.forall_mem_cons.mp hterms
      obtain ⟨hsum, hdeferred⟩ := tallied.isFormed hfirst hothers
      exact List.forall_mem_cons.mpr ⟨hsum, ih hdeferred⟩

theorem totalled_isFormed {classes : List (Class Particle)} {rows : List (List Subtotal)}
    (h : List.Forall₂ (fun c row => Totalled policy c.members row) classes rows)
    (hmembers : ∀ q ∈ classes.flatMap Class.members, q.IsFormed) :
    ∀ t ∈ rows.flatten, t.sum.IsFormed := by
  induction h with
  | nil => exact List.forall_mem_nil _
  | cons totalled _ ih =>
      obtain ⟨hfirst, hothers⟩ := List.forall_mem_append.mp hmembers
      exact List.forall_mem_append.mpr ⟨totalled.isFormed hfirst, ih hothers⟩

theorem allSubtotals_isFormed {terms : List Particle} {sums : List Subtotal}
    (h : allSubtotals policy terms = .ok sums) (hterms : ∀ q ∈ terms, q.IsFormed) :
    ∀ q ∈ keptSums sums, q.IsFormed := by
  obtain ⟨rows, hrows, rfl⟩ := allSubtotals_eq_ok h
  have members := Class.members_group_perm areLikeTerms terms
  have hsums := totalled_isFormed hrows fun q hq => hterms q (members.mem_iff.mp hq)
  intro q hq
  obtain ⟨t, ht, rfl⟩ := List.mem_map.mp (List.mem_filter.mp hq).1
  exact hsums t ht

theorem ofTerms_isFormed {terms : List Particle} (h : ∀ q ∈ terms, q.IsFormed) (s : Bool)
    (e : UInt32) : (ofTerms s e terms).IsFormed := by
  match terms with
  | [] =>
      rw [ofTerms]
      split
      · exact isFormed_zero
      · exact isFormed_zero.withExponent s (.inr rfl)
  | [term] => exact (h term List.mem_cons_self).foldInto s e
  | _ :: _ :: _ => exact isFormed_iff.mpr ⟨⟨Nat.le_add_left _ _, trivial⟩, h⟩

/-! ## Factors -/

/-- A body can take the exponent of one that is equal to it. -/
theorem isFormedNode_of_same (same : p.body.same q.body = true) (hp : p.IsFormedNode)
    (hq : q.IsFormedNode) (s : Bool) : IsFormedNode ⟨s, p.body, q.exponent⟩ := by
  refine ⟨?_, hp.2⟩
  obtain ⟨sp, bp, ep⟩ := p
  obtain ⟨sq, bq, eq⟩ := q
  cases bp with
  | term ps =>
      cases bq with
      | term qs =>
          have length : ps.length = qs.length := sameRow_length same
          simpa only [IsCompleteNode, length] using hq.1
      | _ => simp [Body.same] at same
  | number | fraction | mixed | symbol | expression | root => exact hp.1

/-- The product of two well-formed factors is well formed: two exponents add up to one only if
one of them is one. -/
theorem multiply_isFormed (hp : p.IsFormed) (hq : q.IsFormed)
    (h : multiply policy p q = .ok r) : r.IsFormed := by
  rcases multiply_eq_ok h with constants | ⟨same, e, he, rfl⟩
  · exact multiplyConstants_isFormed constants
  · have sum := addExponents?_eq_some he
    by_cases one : e = 1
    · subst one
      have one : (1 : UInt32).toNat = 1 := rfl
      by_cases hpone : p.exponent = 1
      · exact hp.withExponent _ (.inr hpone)
      · have hqone : q.exponent = 1 := by
          rw [← UInt32.toNat_inj] at hpone ⊢
          omega
        have node := isFormedNode_of_same same hp.here hq.here (p.positive == q.positive)
        rw [hqone] at node
        exact Everywhere.withHead hp node
    · exact hp.withExponent _ (.inl one)

theorem Multiplied.isFormed {factors : List Particle} (h : Multiplied policy p factors r)
    (hp : p.IsFormed) (hfactors : ∀ q ∈ factors, q.IsFormed) : r.IsFormed := by
  induction h with
  | done => exact hp
  | next multiplied _ ih =>
      obtain ⟨hfactor, hfactors⟩ := List.forall_mem_cons.mp hfactors
      exact ih (multiply_isFormed hp hfactor multiplied) hfactors

theorem multiplied_isFormed {classes : List (Class Particle)} {products : List Particle}
    (h : List.Forall₂ (fun c product => Multiplied policy c.first c.others product) classes
      products) (hmembers : ∀ q ∈ classes.flatMap Class.members, q.IsFormed) :
    ∀ q ∈ products, q.IsFormed := by
  induction h with
  | nil => exact List.forall_mem_nil _
  | cons multiplied _ ih =>
      obtain ⟨hmembers, hothers⟩ := List.forall_mem_append.mp hmembers
      obtain ⟨hfirst, hrest⟩ := List.forall_mem_cons.mp hmembers
      exact List.forall_mem_cons.mpr ⟨multiplied.isFormed hfirst hrest, ih hothers⟩

theorem ofFactors_isFormed {factors : List Particle} (h : ∀ q ∈ factors, q.IsFormed)
    (some : factors ≠ []) (s : Bool) (e : UInt32) : (ofFactors s e factors).IsFormed := by
  unfold ofFactors
  split
  · exact isFormed_zero
  · match factors, some with
    | [factor], _ => exact (h factor List.mem_cons_self).foldInto s e
    | _ :: _ :: _, _ => exact isFormed_term h (Nat.le_add_left _ _)

/-! ## Steps -/

/-- A rewritten particle is well formed if it was. -/
theorem Rewritten.isFormed (h : p.Rewritten policy q) (hp : p.IsFormed) : q.IsFormed := by
  cases h with
  | sums _ hsums => exact ofTerms_isFormed (allSubtotals_isFormed hsums fun _ h => hp.part h) _ _
  | @products s factors e results fewer hproducts =>
      have members := Class.members_group_perm areMultipliable factors
      have multiplied := products_eq_ok hproducts
      have hresults := multiplied_isFormed multiplied fun q hq => hp.part (members.mem_iff.mp hq)
      have some : 0 < (likeFactors factors).length :=
        Class.length_group_pos (Nat.zero_lt_of_lt fewer)
      rw [multiplied.length_eq] at some
      exact ofFactors_isFormed hresults (List.length_pos_iff.mp some) s e

end Particle

end StepAlgebra
