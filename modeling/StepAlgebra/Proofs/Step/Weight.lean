import StepAlgebra.Proofs.Arithmetic.Constant
import StepAlgebra.Proofs.Particle.Weight
import StepAlgebra.Proofs.Step.Rewriting

/-!
# Steps lose weight

Adding two terms may add one to their weight, when a coefficient is written before factors that
stood without one. Each addition also makes the sum shorter by one term, which weighs two. A product
is never heavier than its first factor.

* `Particle.Combined.weight_le`, `Particle.Totalled.weight_le` — what additions cost;
* `Particle.Rewritten.weight_lt` — a rewritten particle is lighter;
* `Value.Changed.weight_lt` — so is a value in which one particle became lighter.
-/

namespace StepAlgebra

namespace Particle

variable {policy : Rounding} {deep : Bool} {p q r : Particle}

/-! ## Two terms -/

/-- A coefficient before some factors weighs one at most. -/
theorem weight_withCoefficient_le {sum : Particle} (hsum : sum.weight deep = 0)
    (factors : List Particle) :
    weight deep (withCoefficient sum factors) ≤ factors.length + rowWeight deep factors := by
  unfold withCoefficient
  split
  · split
    · next factor =>
      rw [weight_eq, rowWeight, rowWeight, weight_eq factor]
      simp only [Powered.withSign]
      omega
    · simp only [weight, bodyWeight]
      omega
  · have bare : weight deep (sum.withSign true) = 0 := by
      rw [weight_eq] at hsum ⊢
      exact hsum
    simp only [weight, bodyWeight, rowWeight, List.length_cons, bare]
    omega

theorem weight_scaleBySum_le {c d : Particle} {factors : List Particle}
    (h : scaleBySum policy c d factors = .ok r) (deep : Bool) :
    r.weight deep ≤ factors.length + rowWeight deep factors := by
  obtain ⟨sum, hsum, ⟨-, rfl⟩ | rfl⟩ := scaleBySum_eq_ok h
  · exact Nat.zero_le _
  · exact weight_withCoefficient_le (addConstants_weight hsum deep) factors

/-- Without its coefficient a term has at most one factor less, and weighs no more. -/
theorem variableFactors_weight_le (deep s : Bool) (factors : List Particle) (e : UInt32) :
    (variableFactors factors).length + rowWeight deep (variableFactors factors) ≤
      weight deep ⟨s, .term factors, e⟩ + 1 := by
  cases factors with
  | nil => simp [variableFactors, rowWeight]
  | cons factor others =>
      simp only [variableFactors, weight, bodyWeight, List.length_cons]
      split
      · rw [rowWeight]
        omega
      · rw [List.length_cons]
        omega

/-- Adding two terms adds one to their weight at most. -/
theorem Combined.weight_le (h : Combined policy p q r) (deep : Bool) :
    r.weight deep ≤ p.weight deep + q.weight deep + 1 := by
  cases h with
  | zeroLeft zero => omega
  | zeroRight zero => omega
  | constants h =>
      rw [addConstants_weight h]
      omega
  | @likeFactors s t ps qs _ same h =>
      have scaled := weight_scaleBySum_le h deep
      have bare := variableFactors_weight_le deep s ps 1
      omega
  | multipleLeft positive exponent same h | multipleRight positive exponent same h =>
      have scaled := weight_scaleBySum_le h deep
      simp only [weight, bodyWeight, rowWeight, List.length_cons, List.length_nil] at scaled ⊢
      omega
  | double exponent same signs =>
      have bare : weight deep (p.withSign true) = p.weight deep := by
        rw [weight_eq, weight_eq p]
        rfl
      have two : weight deep (Body.number ⟨[.ofNat 2], none, none⟩).plain = 0 := rfl
      simp only [Particle.double, weight, bodyWeight, rowWeight, List.length_cons, List.length_nil,
        bare, two]
      omega
  | cancel exponent same signs => exact Nat.zero_le _

/-! ## Classes of terms -/

theorem Tallied.length_add {sum total : Particle} {terms added deferred : List Particle}
    (h : Tallied policy sum terms total added deferred) :
    added.length + deferred.length = terms.length := by
  induction h with
  | done => rfl
  | add _ _ _ ih =>
      rw [List.length_cons, List.length_cons]
      omega
  | defer _ _ ih =>
      rw [List.length_cons, List.length_cons]
      omega

theorem Tallied.weight_le {sum total : Particle} {terms added deferred : List Particle}
    (h : Tallied policy sum terms total added deferred) (deep : Bool) :
    total.weight deep + rowWeight deep deferred ≤
      sum.weight deep + rowWeight deep terms + added.length := by
  induction h with
  | done => simp
  | add _ combined _ ih =>
      have cost := (combined_of_combine combined).weight_le deep
      rw [rowWeight, List.length_cons]
      omega
  | defer _ _ ih =>
      rw [rowWeight, rowWeight]
      omega

/-- Each term that goes into a sum costs one at most. -/
theorem Totalled.weight_le {terms : List Particle} {sums : List Subtotal}
    (h : Totalled policy terms sums) (deep : Bool) :
    rowWeight deep (sums.map Subtotal.sum) + sums.length ≤
      rowWeight deep terms + terms.length := by
  induction h with
  | done => exact Nat.le_refl _
  | pass tallied _ ih =>
      have cost := tallied.weight_le deep
      have count := tallied.length_add
      simp only [List.map_cons, rowWeight, List.length_cons]
      omega

theorem Totalled.length_le {terms : List Particle} {sums : List Subtotal}
    (h : Totalled policy terms sums) : sums.length ≤ terms.length := by
  induction h with
  | done => exact Nat.le_refl _
  | pass tallied _ ih =>
      have count := tallied.length_add
      rw [List.length_cons, List.length_cons]
      omega

/-- The first pass over like terms adds up two of them at least. -/
theorem Totalled.length_lt {first second : Particle} {others : List Particle}
    {sums : List Subtotal} (h : Totalled policy (first :: second :: others) sums)
    (alike : areLikeTerms first second = true) : sums.length < others.length + 2 := by
  cases h with
  | pass tallied more =>
      have later := more.length_le
      cases tallied with
      | add _ _ rest =>
          have count := rest.length_add
          rw [List.length_cons]
          omega
      | defer refuses => simp [alike] at refuses

/-! ## Expressions -/

/-- The subtotals of some classes cost no more than their members, and if some class has more than
one member there are fewer of them. -/
theorem subtotals_weight_le {classes : List (Class Particle)} {rows : List (List Subtotal)}
    (h : List.Forall₂ (fun c row => Totalled policy c.members row) classes rows)
    (alike : ∀ c ∈ classes, ∀ term ∈ c.others, areLikeTerms c.first term = true) (deep : Bool) :
    rowWeight deep (rows.flatten.map Subtotal.sum) + rows.flatten.length ≤
        rowWeight deep (classes.flatMap Class.members) + (classes.flatMap Class.members).length ∧
      rows.flatten.length ≤ (classes.flatMap Class.members).length ∧
      (classes.length < (classes.flatMap Class.members).length →
        rows.flatten.length < (classes.flatMap Class.members).length) := by
  induction h with
  | nil => simp
  | @cons c row classes rows totalled _ ih =>
      obtain ⟨weight, length, fewer⟩ := ih fun c hc => alike c (List.mem_cons_of_mem _ hc)
      have here := totalled.weight_le deep
      have count := totalled.length_le
      rw [List.flatMap_cons, List.flatten_cons, List.map_append, rowWeight_append,
        rowWeight_append, List.length_append, List.length_append]
      refine ⟨by omega, by omega, fun some => ?_⟩
      obtain ⟨first, others⟩ := c
      cases others with
      | nil =>
          -- a class of one member has one subtotal, so another class has more
          have one : (Class.members ⟨first, []⟩).length = 1 := rfl
          rw [List.length_cons] at some
          omega
      | cons second others =>
          have drop := totalled.length_lt
            (alike _ List.mem_cons_self second List.mem_cons_self)
          have two : (Class.members ⟨first, second :: others⟩).length = others.length + 2 := rfl
          omega

/-- An expression of some terms weighs what they do and two for each but one. -/
theorem weight_ofTerms (s : Bool) (e : UInt32) (terms : List Particle) :
    weight deep (ofTerms s e terms) = 2 * (terms.length - 1) + rowWeight deep terms := by
  unfold ofTerms
  split
  · split <;> rfl
  · next term =>
    rw [weight_foldInto, rowWeight, rowWeight, List.length_singleton]
    omega
  · rfl

theorem weight_sums_lt {s : Bool} {terms : List Particle} {e : UInt32} {sums : List Subtotal}
    (fewer : (likeTerms terms).length < terms.length)
    (h : allSubtotals policy terms = .ok sums) :
    weight deep (ofTerms s e (keptSums sums)) < weight deep ⟨s, .expression terms, e⟩ := by
  obtain ⟨rows, hrows, rfl⟩ := allSubtotals_eq_ok h
  have members := Class.members_group_perm areLikeTerms terms
  obtain ⟨cost, -, count⟩ := subtotals_weight_le hrows
    (fun c hc term hterm => Class.related_of_mem_group hc hterm) deep
  have some : 0 < (likeTerms terms).length :=
    Class.length_group_pos (Nat.zero_lt_of_lt fewer)
  rw [likeTerms, rowWeight_perm members, members.length_eq] at cost
  rw [likeTerms, members.length_eq] at count
  have drop := count fewer
  -- two for each sum that is left pay for one for each term that was added
  have keptCount : (keptSums rows.flatten).length ≤ rows.flatten.length := by
    rw [← List.length_map (f := Subtotal.sum)]
    exact List.length_filter_le _ _
  have keptWeight : rowWeight deep (keptSums rows.flatten) ≤
      rowWeight deep (rows.flatten.map Subtotal.sum) := rowWeight_filter_le _ _
  rw [weight_ofTerms, weight, bodyWeight]
  -- with nothing kept the result weighs nothing, whatever the sums weighed
  cases hkept : keptSums rows.flatten with
  | nil =>
      rw [rowWeight, List.length_nil]
      omega
  | cons sum sums =>
      rw [hkept] at keptCount keptWeight
      rw [List.length_cons] at keptCount ⊢
      omega

/-! ## Terms -/

theorem weight_multiply_le (h : multiply policy p q = .ok r) :
    r.weight deep ≤ p.weight deep := by
  rcases multiply_eq_ok h with constants | ⟨-, e, -, rfl⟩
  · rw [multiplyConstants_weight constants]
    exact Nat.zero_le _
  · rw [weight_eq, weight_eq p]
    exact Nat.le_refl _

/-- A product weighs no more than the factor it starts from. -/
theorem Multiplied.weight_le {factors : List Particle} (h : Multiplied policy p factors r)
    (deep : Bool) :
    r.weight deep ≤ p.weight deep := by
  induction h with
  | done => exact Nat.le_refl _
  | next multiplied _ ih => exact Nat.le_trans ih (weight_multiply_le multiplied)

theorem products_weight_le {classes : List (Class Particle)} {products : List Particle}
    (h : List.Forall₂ (fun c product => Multiplied policy c.first c.others product) classes
      products) (deep : Bool) :
    rowWeight deep products ≤ rowWeight deep (classes.flatMap Class.members) := by
  induction h with
  | nil => exact Nat.le_refl _
  | @cons c product classes products multiplied _ ih =>
      have here := multiplied.weight_le deep
      rw [List.flatMap_cons, rowWeight_append, Class.members, rowWeight, rowWeight]
      omega

theorem weight_ofFactors_le (deep s : Bool) (e : UInt32) (factors : List Particle) :
    weight deep (ofFactors s e factors) ≤ (factors.length - 1) + rowWeight deep factors := by
  unfold ofFactors
  split
  · exact Nat.zero_le _
  · split
    · next factor =>
      rw [weight_foldInto, rowWeight, rowWeight]
      omega
    · simp only [weight, bodyWeight, Nat.le_refl]

theorem weight_products_lt {s : Bool} {factors : List Particle} {e : UInt32}
    {results : List Product} (fewer : (likeFactors factors).length < factors.length)
    (h : products policy factors = .ok results) :
    weight deep (ofFactors s e (results.map Product.product)) <
      weight deep ⟨s, .term factors, e⟩ := by
  have hproducts := products_eq_ok h
  have members := Class.members_group_perm areMultipliable factors
  have cost := products_weight_le hproducts deep
  have some : 0 < (likeFactors factors).length :=
    Class.length_group_pos (Nat.zero_lt_of_lt fewer)
  rw [likeFactors, rowWeight_perm members] at cost
  have count := hproducts.length_eq
  have ofProducts := weight_ofFactors_le deep s e (results.map Product.product)
  have whole : weight deep ⟨s, .term factors, e⟩ =
      (factors.length - 1) + rowWeight deep factors := rfl
  omega

/-! ## Whole values -/

/-- A rewritten particle is lighter. -/
theorem Rewritten.weight_lt (h : p.Rewritten policy q) (deep : Bool) :
    q.weight deep < p.weight deep := by
  cases h with
  | sums fewer hsums => exact weight_sums_lt fewer hsums
  | products fewer hproducts => exact weight_products_lt fewer hproducts

end Particle

/-- A value in which one particle became lighter is lighter. -/
theorem Value.Changed.weight_lt {deep : Bool} {v w : Value}
    (h : Changed (fun p q => q.weight deep < p.weight deep) v w) :
    w.weight deep < v.weight deep := by
  cases h with
  | particle h => exact h
  | left right h => exact Nat.add_lt_add_right h _
  | right left h => exact Nat.add_lt_add_left h _

end StepAlgebra
