import StepAlgebra.Proofs.Arithmetic.Constant
import StepAlgebra.Proofs.Arithmetic.Refusal
import StepAlgebra.Proofs.Step.Rewriting

/-!
# Where multiplying gets stuck

A factor joins a class for what it has in common with the first member, and is then multiplied
onto the product of all members before it. The two agree as long as a class holds constants only,
or powers of one body only. In `2*2²*3` they do not: `2` and `3` are constants, `2` and `2²` have
the same body, but their product `2³` has nothing in common with `3`.

* `Class.IsStuck` — the product so far and the factor that it cannot take;
* `Class.IsStuck.mixesPowers` — a stuck class holds two constants and a power that is none;
* `Value.multiply_honours_score` — where the rule scores it succeeds, meets a product that is too
  large to write, or gets stuck.
-/

namespace StepAlgebra

open Particle

/-- The product of some first members of a class cannot take the next. -/
def Class.IsStuck (policy : Rounding) (c : Class Particle) (product next : Particle) : Prop :=
  ∃ before after, c.others = before ++ next :: after ∧
    Multiplied policy c.first before product ∧ areMultipliable product next = false

/-- Two constants or more stand in a class with a power that is no constant. -/
def Class.MixesPowers (c : Class Particle) : Prop :=
  1 < c.members.countP isFactorConstant ∧ ∃ p ∈ c.members, isFactorConstant p = false

/-- Of some classes, the first that cannot be multiplied into one is stuck. -/
def Class.RowIsStuck (policy : Rounding) (classes : List (Class Particle))
    (product next : Particle) : Prop :=
  ∃ before c after, classes = before ++ c :: after ∧
    (∀ d ∈ before, ∃ r, Multiplied policy d.first d.others r) ∧ c.IsStuck policy product next

namespace Particle

variable {policy : Rounding} {p q r : Particle}

/-! ## Two factors -/

theorem isFactorConstant_iff :
    p.isFactorConstant = true ↔ p.isConstant = true ∧ p.level ≠ .mixed := by
  rw [isFactorConstant, Bool.and_eq_true, bne_iff_ne]

theorem multiply_onlyTooLarge (h : areMultipliable p q = true) :
    OnlyTooLarge (multiply policy p q) := by
  unfold multiply
  split
  · next constants =>
    rw [Bool.and_eq_true, isFactorConstant_iff, isFactorConstant_iff] at constants
    obtain ⟨⟨hp, hp'⟩, hq, hq'⟩ := constants
    exact multiplyConstants_onlyTooLarge hp hq hp' hq'
  · next powers =>
    rw [areMultipliable, Bool.or_eq_true, or_iff_left powers] at h
    rw [if_pos h]
    split
    · exact onlyTooLarge_ok _
    · exact onlyTooLarge_tooLarge p q

/-- Two factors are refused with the failure for it exactly when their test fails. -/
theorem multiply_eq_notMultipliable_iff {left right : Particle} :
    multiply policy p q = .error (.notMultipliable left right) ↔
      (left = p ∧ right = q) ∧ areMultipliable p q = false := by
  constructor
  · intro h
    have unlike : areMultipliable p q = false := by
      by_contra like
      obtain ⟨_, _, other⟩ := multiply_onlyTooLarge (Bool.eq_true_of_not_eq_false like) _ h
      cases other
    rw [areMultipliable, Bool.or_eq_false_iff] at unlike
    simp only [multiply, unlike.1, unlike.2, Bool.false_eq_true, if_false, Except.error.injEq,
      Failure.notMultipliable.injEq] at h
    exact ⟨⟨h.1.symm, h.2.symm⟩, by rw [areMultipliable, unlike.1, unlike.2, Bool.or_false]⟩
  · rintro ⟨⟨rfl, rfl⟩, unlike⟩
    rw [areMultipliable, Bool.or_eq_false_iff] at unlike
    simp only [multiply, unlike.1, unlike.2, Bool.false_eq_true, if_false]

/-! ## Constants and powers -/

theorem multiplyConstants_isFactorConstant (h : multiplyConstants policy p q = .ok r) :
    r.isFactorConstant = true := by
  obtain ⟨-, -, ⟨m, n, c, -, -, hproduct, rfl⟩ | ⟨c, d, -, -, hproduct⟩⟩ :=
    multiplyConstants_eq_ok h
  · obtain ⟨d, -, written⟩ := Number.finish_eq_ok hproduct
    have one := (Decimal.toNumber?_meaning written).2
    simp [isFactorConstant, isConstant, Number.particle, one, level, Body.level]
  · obtain ⟨top, -, ⟨-, rfl⟩ | ⟨bottom, -, rfl⟩⟩ := Ratio.multiply_eq_ok hproduct
    · rfl
    · rfl

theorem plainNumber?_isSome_of_same (h : p.same q = true) (hp : p.plainNumber?.isSome = true) :
    q.plainNumber?.isSome = true := by
  obtain ⟨⟨s, n⟩, hp⟩ := Option.isSome_iff_exists.mp hp
  obtain rfl := plainNumber?_eq_some hp
  obtain ⟨t, c, f⟩ := q
  simp only [same, Bool.and_eq_true, beq_iff_eq] at h
  obtain ⟨⟨-, one⟩, body⟩ := h
  cases c with
  | number => simp [plainNumber?, ← one]
  | fraction | mixed | symbol | term | expression | root => simp [Body.same] at body

/-- What has the same body as a constant is one itself if its exponent is one. -/
theorem isFactorConstant_of_same (h : p.body.same q.body = true) (one : q.exponent = 1)
    (hp : p.isFactorConstant = true) : q.isFactorConstant = true := by
  obtain ⟨s, b, e⟩ := p
  obtain ⟨t, c, f⟩ := q
  obtain rfl : f = 1 := one
  cases b with
  | number m =>
      cases c with
      | number n => rfl
      | fraction | mixed | symbol | term | expression | root => simp [Body.same] at h
  | fraction top bottom =>
      cases c with
      | fraction top' bottom' =>
          simp only [Body.same, Bool.and_eq_true] at h
          simp only [isFactorConstant, isConstant, Bool.and_eq_true] at hp
          obtain ⟨⟨-, htop, hbottom⟩, -⟩ := hp
          simp [isFactorConstant, isConstant, level, Body.level,
            plainNumber?_isSome_of_same h.1 htop, plainNumber?_isSome_of_same h.2 hbottom]
      | number | mixed | symbol | term | expression | root => simp [Body.same] at h
  | mixed | symbol | term | expression | root =>
      simp [isFactorConstant, isConstant, level, Body.level] at hp

/-- A power is a constant only if one of the two that it was multiplied from is. -/
theorem isFactorConstant_of_power {s : Bool} {e : UInt32} (same : p.body.same q.body = true)
    (sum : e.toNat = p.exponent.toNat + q.exponent.toNat)
    (h : isFactorConstant (p.withSignAndExponent s e) = true) :
    p.isFactorConstant = true ∨ q.isFactorConstant = true := by
  have one : e = 1 := exponent_of_isConstant (isFactorConstant_iff.mp h).1
  -- exponents that add up to one are one and zero
  have parts : p.exponent = 1 ∨ q.exponent = 1 := by
    rw [one] at sum
    rw [← UInt32.toNat_inj, ← UInt32.toNat_inj]
    have : (1 : UInt32).toNat = 1 := rfl
    omega
  rcases parts with hp | hq
  · obtain ⟨t, b, f⟩ := p
    obtain rfl : f = 1 := hp
    rw [one] at h
    exact .inl h
  · exact .inr (isFactorConstant_of_same (p := p.withSignAndExponent s e) same hq h)

theorem multiply_cases (h : multiply policy p q = .ok r) :
    (p.isFactorConstant = true ∧ q.isFactorConstant = true ∧
        multiplyConstants policy p q = .ok r) ∨
      p.body.same q.body = true ∧ ∃ e : UInt32, e.toNat = p.exponent.toNat + q.exponent.toNat ∧
        r = p.withSignAndExponent (p.positive == q.positive) e := by
  unfold multiply at h
  split at h
  · next constants =>
    rw [Bool.and_eq_true] at constants
    exact .inl ⟨constants.1, constants.2, h⟩
  · split at h
    · next same =>
      split at h
      · next e he => exact .inr ⟨same, e, addExponents?_eq_some he, (Except.ok.inj h).symm⟩
      · cases h
    · cases h

/-! ## A class of factors -/

theorem multiplied_iff {factors : List Particle} :
    factors.foldlM (multiply policy) p = .ok r ↔ Multiplied policy p factors r := by
  refine ⟨multiplied_of_foldlM, fun h => ?_⟩
  induction h with
  | done => rfl
  | next multiplied _ ih =>
      rw [List.foldlM_cons, multiplied]
      exact ih

/-- Constants have a constant for their product. -/
theorem Multiplied.isFactorConstant {factors : List Particle}
    (h : Multiplied policy p factors r) (hp : p.isFactorConstant = true)
    (hfactors : ∀ q ∈ factors, q.isFactorConstant = true) : r.isFactorConstant = true := by
  induction h with
  | done => exact hp
  | next multiplied _ ih =>
      obtain ⟨hfactor, hfactors⟩ := List.forall_mem_cons.mp hfactors
      rw [multiply, hp, hfactor, Bool.and_self, if_pos rfl] at multiplied
      exact ih (multiplyConstants_isFactorConstant multiplied) hfactors

/-- As long as no two constants have met, a product keeps the body that it started with. -/
theorem Multiplied.body_eq {factors : List Particle} (h : Multiplied policy p factors r)
    (seen : Nat) (hp : p.isFactorConstant = true → 0 < seen)
    (few : seen + factors.countP Particle.isFactorConstant ≤ 1) : r.body = p.body := by
  -- `seen` counts the constants so far: the product is one only if one went into it
  induction h generalizing seen with
  | done => rfl
  | @next p factor next product factors multiplied _ ih =>
      rw [List.countP_cons] at few
      rcases multiply_cases multiplied with ⟨here, another, -⟩ | ⟨same, e, sum, rfl⟩
      · have := hp here
        rw [if_pos another] at few
        omega
      · refine ih (seen + if factor.isFactorConstant = true then 1 else 0) ?_ (by omega)
        intro constant
        rcases isFactorConstant_of_power same sum constant with here | here
        · exact Nat.add_pos_left (hp here) _
        · rw [if_pos here]
          exact Nat.succ_pos _

end Particle

namespace Class

variable {policy : Rounding} {c : Class Particle} {left right : Particle}

theorem areMultipliable_of_isFactorConstant {p q : Particle} (hp : p.isFactorConstant = true)
    (hq : q.isFactorConstant = true) : areMultipliable p q = true := by
  rw [areMultipliable, hp, hq, Bool.and_self, Bool.or_true]

/-- A class whose members are like its first gets stuck only where constants and powers mix. -/
theorem IsStuck.mixesPowers (h : c.IsStuck policy left right)
    (like : ∀ p ∈ c.others, areMultipliable c.first p = true) : c.MixesPowers := by
  obtain ⟨before, after, split, multiplied, unlike⟩ := h
  have likeNext : areMultipliable c.first right = true :=
    like right (split ▸ List.mem_append_cons_self)
  have members : c.members = c.first :: before ++ right :: after := by
    rw [members, split, List.cons_append]
  constructor
  · by_contra few
    rw [members, List.cons_append, List.countP_cons, List.countP_append] at few
    -- with fewer than two constants the product has the body of the first, and so has the next
    have body : left.body = c.first.body := by
      refine multiplied.body_eq (if c.first.isFactorConstant = true then 1 else 0) ?_ (by omega)
      intro constant
      rw [if_pos constant]
      exact Nat.one_pos
    rw [areMultipliable, Bool.or_eq_false_iff, body] at unlike
    rw [areMultipliable, unlike.1, Bool.false_or, Bool.and_eq_true] at likeNext
    rw [if_pos likeNext.1, List.countP_cons, if_pos likeNext.2] at few
    omega
  · by_contra none
    have constants : ∀ p ∈ c.members, p.isFactorConstant = true := by
      intro p hp
      by_contra power
      exact none ⟨p, hp, Bool.eq_false_iff.mpr power⟩
    rw [members, List.cons_append, List.forall_mem_cons, List.forall_mem_append,
      List.forall_mem_cons] at constants
    obtain ⟨first, others, next, -⟩ := constants
    rw [areMultipliable_of_isFactorConstant (multiplied.isFactorConstant first others) next]
      at unlike
    cases unlike

/-- The members of a class like its first are multiplied into one, or there is a product too large
to write, or the class gets stuck. -/
theorem join_eq_notMultipliable_iff :
    c.join (multiply policy) = .error (.notMultipliable left right) ↔
      c.IsStuck policy left right := by
  rw [join, foldlM_eq_error_iff]
  constructor
  · rintro ⟨before, next, after, product, split, fine, failed⟩
    obtain ⟨⟨rfl, rfl⟩, unlike⟩ := multiply_eq_notMultipliable_iff.mp failed
    exact ⟨before, after, split, multiplied_of_foldlM fine, unlike⟩
  · rintro ⟨before, after, split, multiplied, unlike⟩
    exact ⟨before, right, after, left, split, multiplied_iff.mpr multiplied,
      multiply_eq_notMultipliable_iff.mpr ⟨⟨rfl, rfl⟩, unlike⟩⟩

/-- A class that does not get stuck is multiplied, or has a product too large to write. -/
theorem join_failure {failure : Failure} (h : c.join (multiply policy) = .error failure) :
    (∃ left right, failure = .tooLarge left right) ∨
      ∃ left right, failure = .notMultipliable left right := by
  obtain ⟨before, next, after, product, -, -, failed⟩ := foldlM_eq_error_iff.mp h
  by_cases like : areMultipliable product next = true
  · exact .inl (multiply_onlyTooLarge like failure failed)
  · have unlike : multiply policy product next = .error (.notMultipliable product next) :=
      multiply_eq_notMultipliable_iff.mpr ⟨⟨rfl, rfl⟩, Bool.eq_false_iff.mpr like⟩
    exact .inr ⟨product, next, Except.error.inj (failed.symm.trans unlike)⟩

end Class

namespace Particle

variable {policy : Rounding} {p : Particle} {factors : List Particle}

theorem products_failure {failure : Failure} (h : products policy factors = .error failure) :
    (∃ left right, failure = .tooLarge left right) ∨
      ∃ left right, failure = .notMultipliable left right := by
  obtain ⟨before, c, after, -, -, failed⟩ := mapM_eq_error_iff.mp h
  exact Class.join_failure (map_eq_error_iff.mp failed)

theorem products_eq_notMultipliable_iff {left right : Particle} :
    products policy factors = .error (.notMultipliable left right) ↔
      Class.RowIsStuck policy (likeFactors factors) left right := by
  rw [products, mapM_eq_error_iff]
  constructor
  · rintro ⟨before, c, after, split, fine, failed⟩
    refine ⟨before, c, after, split, fun d hd => ?_,
      Class.join_eq_notMultipliable_iff.mp (map_eq_error_iff.mp failed)⟩
    obtain ⟨result, hresult⟩ := fine d hd
    obtain ⟨product, hproduct, -⟩ := map_eq_ok_iff.mp hresult
    exact ⟨product, multiplied_of_foldlM hproduct⟩
  · rintro ⟨before, c, after, split, fine, stuck⟩
    refine ⟨before, c, after, split, fun d hd => ?_,
      map_eq_error_iff.mpr (Class.join_eq_notMultipliable_iff.mpr stuck)⟩
    obtain ⟨product, multiplied⟩ := fine d hd
    exact ⟨_, map_eq_ok_iff.mpr ⟨product, multiplied_iff.mpr multiplied, rfl⟩⟩

end Particle

/-! ## The term that is multiplied -/

/-- The candidate with the greatest number that is not zero, the first of several. -/
def greatest {α : Type} (candidates : List (α × Nat)) : Option (α × Nat) :=
  candidates.foldl (fun best candidate =>
    if candidate.2 > (best.map Prod.snd).getD 0 then some candidate else best) none

section

variable {α : Type} {candidates : List (α × Nat)}

theorem greatest_eq_some {best : α × Nat} (h : greatest candidates = some best) :
    best ∈ candidates ∧ 0 < best.2 := by
  induction candidates using List.reverseRecOn generalizing best with
  | nil => cases h
  | append_singleton candidates last ih =>
      rw [greatest, List.foldl_append] at h
      change (if last.2 > ((greatest candidates).map Prod.snd).getD 0 then some last
        else greatest candidates) = some best at h
      split at h
      · next greater =>
        obtain rfl := Option.some.inj h
        exact ⟨List.mem_append_right _ List.mem_cons_self, Nat.zero_lt_of_lt greater⟩
      · obtain ⟨found, positive⟩ := ih h
        exact ⟨List.mem_append_left _ found, positive⟩

theorem greatest_eq_none (h : greatest candidates = none) : ∀ c ∈ candidates, c.2 = 0 := by
  induction candidates using List.reverseRecOn with
  | nil => simp
  | append_singleton candidates last ih =>
      rw [greatest, List.foldl_append] at h
      change (if last.2 > ((greatest candidates).map Prod.snd).getD 0 then some last
        else greatest candidates) = none at h
      split at h
      · cases h
      · next zero =>
        rw [h] at zero
        intro c hc
        rcases List.mem_append.mp hc with found | found
        · exact ih h c found
        · obtain rfl := List.mem_singleton.mp found
          exact Nat.eq_zero_of_not_pos zero

end

theorem exists_pos_of_foldl_add {ns : List Nat} (h : ns.foldl Nat.add 0 ≠ 0) :
    ∃ n ∈ ns, 0 < n := by
  induction ns using List.reverseRecOn with
  | nil => exact absurd rfl h
  | append_singleton ns last ih =>
      rw [List.foldl_append] at h
      by_cases before : ns.foldl Nat.add 0 = 0
      · rw [before] at h
        have positive : 0 < last := by simpa using Nat.pos_of_ne_zero h
        exact ⟨last, List.mem_append_right _ List.mem_cons_self, positive⟩
      · obtain ⟨n, hn, positive⟩ := ih before
        exact ⟨n, List.mem_append_left _ hn, positive⟩

namespace Value

variable {policy : Rounding} {v w : Value} {path : Path} {s : Bool} {factors : List Particle}
  {e : UInt32}

/-- The term that is multiplied in a value, with its place: the whole, or the first with the most
to multiply. -/
def Multiplies (v : Value) (path : Path) (s : Bool) (factors : List Particle) (e : UInt32) : Prop :=
  path = [] ∧ v = .particle ⟨s, .term factors, e⟩ ∨
    v.factors? = none ∧ v.mostExcessive? = some (path, .particle ⟨s, .term factors, e⟩)

theorem factors?_eq_some {part : Value} (h : part.factors? = some factors) :
    ∃ s e, part = .particle ⟨s, .term factors, e⟩ := by
  unfold factors? at h
  split at h
  · obtain rfl := Option.some.inj h
    exact ⟨_, _, rfl⟩
  · cases h

/-- The terms of a value with what there is to multiply in them. -/
def scoredTerms (v : Value) : List ((Path × Value) × Nat) :=
  (v.resources .term).filterMap fun (path, part) =>
    part.factors?.map fun factors => ((path, part), Particle.excess factors)

theorem mostExcessive?_eq (v : Value) :
    v.mostExcessive? = (greatest v.scoredTerms).map Prod.fst :=
  rfl

theorem mem_scoredTerms {part : Value} {n : Nat} :
    ((path, part), n) ∈ v.scoredTerms ↔ (path, part) ∈ v.resources .term ∧
      ∃ factors, part.factors? = some factors ∧ Particle.excess factors = n := by
  simp only [scoredTerms, List.mem_filterMap, Prod.exists, Option.map_eq_some_iff, Prod.mk.injEq]
  constructor
  · rintro ⟨_, _, found, factors, hfactors, ⟨rfl, rfl⟩, rfl⟩
    exact ⟨found, factors, hfactors, rfl⟩
  · rintro ⟨found, factors, hfactors, rfl⟩
    exact ⟨path, part, found, factors, hfactors, ⟨rfl, rfl⟩, rfl⟩

theorem exists_pos_of_productScore_pos (h : 0 < v.productScore) : ∃ n ∈ v.excesses, 0 < n := by
  by_contra none
  have zero : v.excesses.foldl Nat.add 0 = 0 := by
    by_contra some
    exact none (exists_pos_of_foldl_add some)
  have small : v.excesses.any (2 ≤ ·) = false := by
    rw [List.any_eq_false]
    intro n hn large
    exact none ⟨n, hn, Nat.lt_of_lt_of_le Nat.two_pos (of_decide_eq_true large)⟩
  simp [productScore, zero, small] at h

/-- Where the rule scores there is a term to multiply, with two like factors in it. -/
theorem exists_multiplies (h : 0 < v.productScore) :
    ∃ path s factors e, v.Multiplies path s factors e ∧ Particle.excess factors ≠ 0 := by
  obtain ⟨n, hn, positive⟩ := exists_pos_of_productScore_pos h
  unfold excesses at hn
  cases whole : v.factors? with
  | some factors =>
      obtain ⟨s, e, rfl⟩ := factors?_eq_some whole
      rw [whole] at hn
      obtain rfl := List.mem_singleton.mp hn
      exact ⟨[], s, factors, e, .inl ⟨rfl, rfl⟩, Nat.ne_of_gt positive⟩
  | none =>
      rw [whole] at hn
      simp only [List.mem_filterMap, Prod.exists, Option.map_eq_some_iff] at hn
      obtain ⟨path, part, found, factors, hfactors, rfl⟩ := hn
      cases best : greatest v.scoredTerms with
      | none =>
          have zero := greatest_eq_none best _ (mem_scoredTerms.mpr ⟨found, factors, hfactors, rfl⟩)
          exact absurd zero (Nat.ne_of_gt positive)
      | some candidate =>
          obtain ⟨⟨path, part⟩, n⟩ := candidate
          obtain ⟨scored, positive⟩ := greatest_eq_some best
          obtain ⟨-, factors, hfactors, rfl⟩ := mem_scoredTerms.mp scored
          obtain ⟨s, e, rfl⟩ := factors?_eq_some hfactors
          refine ⟨path, s, factors, e, .inr ⟨whole, ?_⟩, Nat.ne_of_gt positive⟩
          rw [mostExcessive?_eq, best, Option.map_some]

/-- The term that is multiplied is one of the terms of the value. -/
theorem Multiplies.mem_resources (h : v.Multiplies path s factors e) :
    (path, .particle ⟨s, .term factors, e⟩) ∈ v.resources .term := by
  rcases h with ⟨rfl, rfl⟩ | ⟨-, most⟩
  · exact List.mem_cons_self
  · rw [mostExcessive?_eq, Option.map_eq_some_iff] at most
    obtain ⟨⟨_, n⟩, best, rfl⟩ := most
    exact (mem_scoredTerms.mp (greatest_eq_some best).1).1

/-- Multiplying a value is multiplying one term of it and putting the result in its place. -/
theorem multiply_eq (h : v.Multiplies path s factors e) :
    v.multiply policy = (multiplyFactors policy ⟨s, .term factors, e⟩ factors).bind fun step =>
      (v.splice path step.result).map fun result => { step with result } := by
  rcases h with ⟨rfl, rfl⟩ | ⟨other, most⟩
  · rw [multiply]
    cases multiplyFactors policy ⟨s, .term factors, e⟩ factors <;> rfl
  · unfold multiply
    split
    · cases other
    · rw [most]
      cases hstep : multiplyFactors policy ⟨s, .term factors, e⟩ factors with
      | error failure => simp only [hstep, Except.bind]
      | ok step => simp only [hstep, Except.bind]

/-- Multiplying a value fails as multiplying the factors of its term does. -/
theorem multiply_eq_error_iff (h : v.Multiplies path s factors e)
    (some : Particle.excess factors ≠ 0) {failure : Failure} :
    v.multiply policy = .error failure ↔ products policy factors = .error failure := by
  rw [multiply_eq h, multiplyFactors, if_neg some]
  cases hresults : products policy factors with
  | error cause => simp only [Except.map, Except.bind, Except.error.injEq]
  | ok results =>
      have admitted : v.Admits path (.particle (ofFactors s e (results.map Product.product))) :=
        .inr ⟨rfl, _, (mem_resources_iff.mp h.mem_resources).1⟩
      obtain ⟨w, hw⟩ := exists_splice_iff.mpr admitted
      simp [Except.map, Except.bind, hw]

/-- The first class of the multiplied term that cannot be multiplied into one is stuck. -/
def GetsStuck (policy : Rounding) (v : Value) (product next : Particle) : Prop :=
  ∃ path s factors e, v.Multiplies path s factors e ∧
    Class.RowIsStuck policy (likeFactors factors) product next

/-- No term of the value has a class of factors that mixes constants and powers. -/
def KeepsPowersApart (v : Value) : Prop :=
  ∀ path s factors e, (path, .particle ⟨s, .term factors, e⟩) ∈ v.resources .term →
    ∀ c ∈ likeFactors factors, ¬ c.MixesPowers

theorem KeepsPowersApart.not_getsStuck (h : v.KeepsPowersApart) {left right : Particle} :
    ¬ v.GetsStuck policy left right := by
  rintro ⟨path, s, factors, e, multiplies, before, c, after, split, -, stuck⟩
  have hc : c ∈ likeFactors factors := split ▸ List.mem_append_cons_self
  exact h path s factors e multiplies.mem_resources c hc
    (stuck.mixesPowers fun p hp => Class.related_of_mem_group hc hp)

/-- Only one term can be the one that is multiplied. -/
theorem Multiplies.unique (h : v.Multiplies path s factors e) {path' : Path} {s' : Bool}
    {factors' : List Particle} {e' : UInt32} (h' : v.Multiplies path' s' factors' e') :
    factors = factors' := by
  rcases h with ⟨-, rfl⟩ | ⟨other, most⟩
  · rcases h' with ⟨-, same⟩ | ⟨other, -⟩
    · cases same
      rfl
    · cases other
  · rcases h' with ⟨-, rfl⟩ | ⟨-, most'⟩
    · cases other
    · rw [most] at most'
      cases most'
      rfl

/-- Where multiplying scores it succeeds or meets a product that is too large to write, unless it
gets stuck. It gets stuck in no value that keeps constants and powers apart. -/
theorem multiply_honours_score (policy : Rounding) (v : Value) (score : 0 < v.productScore) :
    (((∃ step, v.multiply policy = .ok step) ∨
        ∃ left right, v.multiply policy = .error (.tooLarge left right)) ↔
      ¬ ∃ left right, v.GetsStuck policy left right) ∧
    (∀ left right, v.multiply policy = .error (.notMultipliable left right) ↔
      v.GetsStuck policy left right) ∧
    (v.KeepsPowersApart → ¬ ∃ left right, v.GetsStuck policy left right) := by
  obtain ⟨path, s, factors, e, multiplies, some⟩ := exists_multiplies score
  have stuck : ∀ left right, v.multiply policy = .error (.notMultipliable left right) ↔
      v.GetsStuck policy left right := by
    intro left right
    rw [multiply_eq_error_iff multiplies some, products_eq_notMultipliable_iff]
    refine ⟨fun h => ⟨path, s, factors, e, multiplies, h⟩, ?_⟩
    rintro ⟨path', s', factors', e', multiplies', h⟩
    rwa [multiplies.unique multiplies']
  refine ⟨⟨?_, fun free => ?_⟩, stuck, ?_⟩
  · rintro honoured ⟨left, right, h⟩
    have failed := (stuck left right).mpr h
    rcases honoured with ⟨step, hstep⟩ | ⟨left', right', large⟩
    · rw [failed] at hstep
      cases hstep
    · rw [failed] at large
      cases large
  · cases hmultiply : v.multiply policy with
    | ok step => exact .inl ⟨step, rfl⟩
    | error failure =>
        have failed := (multiply_eq_error_iff multiplies some).mp hmultiply
        rcases products_failure failed with ⟨left, right, rfl⟩ | ⟨left, right, rfl⟩
        · exact .inr ⟨left, right, rfl⟩
        · exact absurd ⟨left, right, (stuck left right).mp hmultiply⟩ free
  · rintro apart ⟨left, right, h⟩
    exact apart.not_getsStuck h

/-- The product `2³` of the first two factors of `2*2²*3` cannot take the third. -/
theorem multiply_honours_score_of_powers :
    let two := (Body.number ⟨[2], none, none⟩).plain
    let three := (Body.number ⟨[3], none, none⟩).plain
    let v := Value.particle (Body.term [two, two.withExponent 2, three]).plain
    0 < v.productScore ∧ v.GetsStuck .decimals (two.withExponent 3) three := by
  intro two three v
  have score : 0 < v.productScore := by decide +kernel
  exact ⟨score, ((multiply_honours_score .decimals v score).2.1 _ _).mp rfl⟩

/-- A score alone does not keep multiplying from failing otherwise. -/
theorem exists_score_not_honoured :
    ¬ ∀ (policy : Rounding) (v : Value), 0 < v.productScore →
      (∃ step, v.multiply policy = .ok step) ∨
        ∃ left right, v.multiply policy = .error (.tooLarge left right) := by
  intro honoured
  let two := (Body.number ⟨[2], none, none⟩).plain
  let three := (Body.number ⟨[3], none, none⟩).plain
  let v := Value.particle (Body.term [two, two.withExponent 2, three]).plain
  have score : 0 < v.productScore := by decide +kernel
  have failed : v.multiply .decimals = .error (.notMultipliable (two.withExponent 3) three) := rfl
  rcases honoured .decimals v score with ⟨step, hstep⟩ | ⟨left, right, large⟩
  · rw [failed] at hstep
    cases hstep
  · rw [failed] at large
    cases large

end Value

end StepAlgebra
