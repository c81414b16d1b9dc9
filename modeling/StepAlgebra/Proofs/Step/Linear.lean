import Mathlib.Data.Fintype.Card
import StepAlgebra.Proofs.Arithmetic.Plain
import StepAlgebra.Proofs.Step.Monomial
import StepAlgebra.Search.Finished

/-!
# Linear sums

The terms of a linear sum are numbers and multiples of one variable. They fall into two classes at
most, a class is added up in one pass and without failure, and what is left of the two classes is
simplified in either order. So one step is enough for a linear sum.

* `Particle.IsLinearItem`, `Particle.IsLinearSum` — the terms and the sums;
* `Particle.IsLinearItem.areLikeTerms` — which of the terms are alike;
* `Particle.exists_allSubtotals` — each class has one subtotal;
* `Value.combineLikeTerms_of_isLinearSum` — what adding the like terms leads to.
-/

namespace StepAlgebra.Particle

/-- A number, a variable, or a positive number times the variable, under either sign. -/
inductive IsLinearItem (x : Char) : Particle → Prop
  | number {s : Bool} {n : Numeral} : n.IsPlain → IsLinearItem x ⟨s, .number n, 1⟩
  | symbol {s : Bool} : IsLinearItem x ⟨s, .symbol x, 1⟩
  | term {s : Bool} {n : Numeral} : n.IsPlain →
      IsLinearItem x ⟨s, .term [⟨true, .number n, 1⟩, ⟨true, .symbol x, 1⟩], 1⟩

/-- One item, or the sum of two or more. -/
inductive IsLinearSum (x : Char) : Particle → Prop
  | item {p : Particle} : IsLinearItem x p → IsLinearSum x p
  | sum {items : List Particle} : 2 ≤ items.length → (∀ p ∈ items, IsLinearItem x p) →
      IsLinearSum x ⟨true, .expression items, 1⟩

variable {policy : Rounding} {x : Char} {s t : Bool} {m n : Numeral} {p q : Particle}

/-! ## Like items -/

theorem isProduct_multiple (x : Char) {n : Numeral} :
    IsProduct [(x, 1)] [⟨true, .number n, 1⟩, ⟨true, .symbol x, 1⟩] :=
  .scaled (List.cons_ne_nil _ _)

/-- The coefficient of a multiple takes the sign of the term. -/
theorem signedCoefficient_number :
    signedCoefficient s [⟨true, .number n, 1⟩, q] = ⟨s, .number n, 1⟩ := by
  cases s <;> rfl

/-- A number has no powers, and a multiple of the variable has this one. -/
theorem IsLinearItem.isMonomialIn (h : IsLinearItem x p) :
    IsMonomialIn (if p.isConstant then [] else [(x, 1)]) p := by
  cases h with
  | number => exact .number
  | symbol => exact .symbol
  | term => exact .term (isProduct_multiple x)

/-- Two items are like terms if both are numbers or both are multiples of the variable. -/
theorem IsLinearItem.areLikeTerms (hp : IsLinearItem x p) (hq : IsLinearItem x q) :
    areLikeTerms p q = (p.isConstant == q.isConstant) := by
  rw [Bool.eq_iff_iff, hp.isMonomialIn.areLikeTerms_iff hq.isMonomialIn]
  cases p.isConstant <;> cases q.isConstant <;> simp

/-! ## Sums of like items -/

/-- What like items add up to: one more of them, or zero. -/
structure IsTotal (x : Char) (constant : Bool) (p : Particle) : Prop where
  item : IsLinearItem x p
  alike : p.isZero = true ∨ p.isConstant = constant

theorem isPlain_zero : Numeral.zero.IsPlain :=
  ⟨rfl, by decide⟩

theorem isPlain_one : Numeral.one.IsPlain :=
  ⟨rfl, by decide⟩

theorem isTotal_zero (constant : Bool) : IsTotal x constant zero :=
  ⟨.number isPlain_zero, .inl rfl⟩

/-- The sum of two plain numbers. -/
theorem exists_addConstants (policy : Rounding) (s t : Bool) (hm : m.IsPlain) (hn : n.IsPlain) :
    ∃ r l, addConstants policy ⟨s, .number m, 1⟩ ⟨t, .number n, 1⟩ = .ok ⟨r, .number l, 1⟩ ∧
      l.IsPlain := by
  obtain ⟨⟨r, l, e⟩, hadd, exponent, plain⟩ :=
    Number.exists_add policy (a := ⟨s, m, 1⟩) (b := ⟨t, n, 1⟩) hm hn
  obtain rfl : e = 1 := exponent
  refine ⟨r, l, ?_, plain⟩
  show (Number.add policy ⟨s, m, 1⟩ ⟨t, n, 1⟩).map Number.particle = _
  rw [hadd]
  rfl

theorem isTotal_withCoefficient (hn : n.IsPlain) :
    IsTotal x false (withCoefficient ⟨s, .number n, 1⟩ [⟨true, .symbol x, 1⟩]) := by
  unfold withCoefficient
  split
  · exact ⟨.symbol, .inr rfl⟩
  · exact ⟨.term hn, .inr rfl⟩

/-- The variable under the sum of two plain coefficients. -/
theorem exists_scaleBySum (policy : Rounding) (s t : Bool) (hm : m.IsPlain) (hn : n.IsPlain) :
    ∃ r, scaleBySum policy ⟨s, .number m, 1⟩ ⟨t, .number n, 1⟩ [⟨true, .symbol x, 1⟩] = .ok r ∧
      IsTotal x false r := by
  obtain ⟨r, l, hadd, plain⟩ := exists_addConstants policy s t hm hn
  rw [scaleBySum, hadd]
  by_cases vanishes : isZero ⟨r, .number l, 1⟩ = true
  · exact ⟨zero, congrArg _ (if_pos vanishes), isTotal_zero _⟩
  · exact ⟨_, congrArg _ (if_neg vanishes), isTotal_withCoefficient plain⟩

/-- Two like items are added without failure. -/
theorem exists_combine (policy : Rounding) (hp : IsTotal x q.isConstant p)
    (hq : IsLinearItem x q) : ∃ r, combine policy p q = .ok r ∧ IsTotal x q.isConstant r := by
  obtain ⟨item, alike⟩ := hp
  by_cases zeroP : p.isZero = true
  · exact ⟨q, if_pos zeroP, hq, .inr rfl⟩
  have alike := alike.resolve_left zeroP
  by_cases zeroQ : q.isZero = true
  · refine ⟨p, ?_, item, .inr alike⟩
    rw [combine, if_neg zeroP, if_pos zeroQ]
  cases item with
  | number plainP =>
      cases hq with
      | number plainQ =>
          obtain ⟨r, l, hadd, plain⟩ := exists_addConstants policy _ _ plainP plainQ
          rw [combine_numbers (by simpa using zeroP) (by simpa using zeroQ)]
          exact ⟨_, hadd, .number plain, .inr rfl⟩
      | symbol | term => cases alike
  | @symbol s =>
      cases hq with
      | number => cases alike
      | @symbol t =>
          rw [combine_symbols]
          refine ⟨_, rfl, ?_⟩
          split
          · exact ⟨.term ⟨rfl, by decide⟩, .inr rfl⟩
          · exact isTotal_zero _
      | @term t n plainQ =>
          rw [(isProduct_multiple x).combine_symbol_term, signedCoefficient_number]
          exact exists_scaleBySum policy t s plainQ isPlain_one
  | @term s m plainP =>
      cases hq with
      | number => cases alike
      | @symbol t =>
          rw [(isProduct_multiple x).combine_term_symbol, signedCoefficient_number]
          exact exists_scaleBySum policy s t plainP isPlain_one
      | @term t n plainQ =>
          rw [(isProduct_multiple x).combine_terms (isProduct_multiple x),
            signedCoefficient_number, signedCoefficient_number]
          exact exists_scaleBySum policy s t plainP plainQ

/-! ## Classes of items -/

/-- Like items are added up in one pass. -/
theorem exists_tally {constant : Bool} {terms : List Particle} (policy : Rounding)
    (total : IsTotal x constant p)
    (items : ∀ q ∈ terms, IsLinearItem x q ∧ q.isConstant = constant) :
    ∃ t, tally policy p terms = .ok t ∧ t.deferred = [] ∧ IsTotal x constant t.sum := by
  induction terms generalizing p with
  | nil => exact ⟨_, rfl, rfl, total⟩
  | cons q terms ih =>
      obtain ⟨⟨item, rfl⟩, items⟩ := List.forall_mem_cons.mp items
      have takes : (p.isZero || Particle.areLikeTerms p q) = true := by
        rw [total.item.areLikeTerms item, Bool.or_eq_true, beq_iff_eq]
        exact total.alike
      obtain ⟨r, hcombine, total⟩ := exists_combine policy total item
      obtain ⟨t, htally, deferred, total⟩ := ih total items
      rw [tally, if_pos takes, hcombine]
      dsimp only
      rw [htally]
      exact ⟨_, rfl, deferred, total⟩

/-- A class of like items has one subtotal. -/
theorem exists_subtotals {first : Particle} {others : List Particle} (policy : Rounding)
    (item : IsLinearItem x first)
    (items : ∀ q ∈ others, IsLinearItem x q ∧ q.isConstant = first.isConstant) :
    ∃ t : Subtotal, subtotals policy (first :: others) = .ok [t] ∧
      IsTotal x first.isConstant t.sum := by
  obtain ⟨t, htally, deferred, total⟩ := exists_tally policy ⟨item, .inr rfl⟩ items
  refine ⟨⟨first :: t.added, t.sum⟩, ?_, total⟩
  rw [subtotals, htally]
  dsimp only
  rw [deferred, subtotals]
  rfl

section

variable {items : List Particle}

theorem isLinearItem_of_mem_members {c : Class Particle} (h : ∀ p ∈ items, IsLinearItem x p)
    (hc : c ∈ likeTerms items) : ∀ p ∈ c.members, IsLinearItem x p := by
  intro p hp
  have members := Class.members_group_perm Particle.areLikeTerms items
  exact h p (members.subset (List.mem_flatMap.mpr ⟨c, hc, hp⟩))

theorem likeTerms_nodup (h : ∀ p ∈ items, IsLinearItem x p) :
    ((likeTerms items).map (·.first.isConstant)).Nodup := by
  rw [List.Nodup, List.pairwise_map]
  refine (Class.unrelated_group Particle.areLikeTerms items).imp_of_mem ?_
  intro c d hc hd unrelated alike
  have itemC := isLinearItem_of_mem_members h hc c.first List.mem_cons_self
  have itemD := isLinearItem_of_mem_members h hd d.first List.mem_cons_self
  rw [itemC.areLikeTerms itemD, alike, beq_self_eq_true] at unrelated
  cases unrelated

/-- There are two classes of items at most. -/
theorem length_likeTerms_le (h : ∀ p ∈ items, IsLinearItem x p) : (likeTerms items).length ≤ 2 := by
  have count := List.Nodup.length_le_card (likeTerms_nodup h)
  rwa [List.length_map, Fintype.card_bool] at count

/-- Each class has one subtotal, which is made of its members. -/
theorem exists_allSubtotals (policy : Rounding) (h : ∀ p ∈ items, IsLinearItem x p) :
    ∃ sums, allSubtotals policy items = .ok sums ∧
      List.Forall₂ (fun c t => IsTotal x c.first.isConstant t.sum) (likeTerms items) sums := by
  have each : ∀ c ∈ likeTerms items, ∃ t : Subtotal, subtotals policy c.members = .ok [t] ∧
      IsTotal x c.first.isConstant t.sum := by
    intro c hc
    have members := isLinearItem_of_mem_members h hc
    refine exists_subtotals policy (members c.first List.mem_cons_self) fun p hp => ?_
    have item := members p (List.mem_cons_of_mem _ hp)
    refine ⟨item, ?_⟩
    have alike := Class.related_of_mem_group hc hp
    rw [(members c.first List.mem_cons_self).areLikeTerms item, beq_iff_eq] at alike
    exact alike.symm
  obtain ⟨sums, hsums⟩ := exists_forall₂ each
  have rows : (likeTerms items).mapM (fun c => subtotals policy c.members) =
      .ok (sums.map fun t => [t]) :=
    mapM_eq_ok_iff.mpr (List.forall₂_map_right_iff.mpr (hsums.imp fun _ _ h => h.1))
  refine ⟨sums, ?_, hsums.imp fun _ _ h => h.2⟩
  rw [allSubtotals, rows, Except.map, ← List.flatMap_def, List.flatMap_singleton']

end

/-! ## What is left -/

/-- The sums that are kept are of as many kinds as there were classes. -/
theorem keptSums_of_totals {classes : List (Class Particle)} {sums : List Subtotal}
    (totals : List.Forall₂ (fun c t => IsTotal x c.first.isConstant t.sum) classes sums) :
    (∀ p ∈ keptSums sums, IsLinearItem x p) ∧
      ((keptSums sums).map isConstant).Sublist (classes.map (·.first.isConstant)) := by
  induction totals with
  | nil => exact ⟨List.forall_mem_nil _, .refl _⟩
  | @cons c t classes sums total _ ih =>
      obtain ⟨items, kinds⟩ := ih
      cases vanishes : t.sum.isZero with
      | true =>
          have dropped : keptSums (t :: sums) = keptSums sums := by simp [keptSums, vanishes]
          rw [dropped]
          exact ⟨items, kinds.cons _⟩
      | false =>
          have kept : keptSums (t :: sums) = t.sum :: keptSums sums := by simp [keptSums, vanishes]
          have kind : t.sum.isConstant = c.first.isConstant :=
            total.alike.resolve_left (Bool.eq_false_iff.mp vanishes)
          rw [kept, List.map_cons, List.map_cons, kind]
          exact ⟨List.forall_mem_cons.mpr ⟨total.item, items⟩, kinds.cons_cons _⟩

theorem IsLinearItem.isPlainNumber (h : IsLinearItem x p) (constant : p.isConstant = true) :
    p.isPlainNumber = true := by
  cases h with
  | number => rfl
  | symbol | term => cases constant

theorem IsLinearItem.isMonomial (h : IsLinearItem x p) (multiple : p.isConstant = false) :
    p.isMonomial = true := by
  cases h with
  | number => cases multiple
  | symbol | term => rfl

theorem IsLinearItem.isSimplified (h : IsLinearItem x p) : p.isSimplified = true := by
  cases h with
  | number | symbol | term => rfl

/-- A number and a multiple of the variable are simplified, in either order. -/
theorem isSimplified_pair (hp : IsLinearItem x p) (hq : IsLinearItem x q)
    (apart : p.isConstant ≠ q.isConstant) :
    isSimplified ⟨true, .expression [p, q], 1⟩ = true := by
  rw [isSimplified]
  cases constant : p.isConstant with
  | true =>
      have multiple : q.isConstant = false := by simpa [constant] using apart.symm
      simp [hp.isPlainNumber constant, hq.isMonomial multiple]
  | false =>
      have number : q.isConstant = true := by simpa [constant] using apart.symm
      simp [hp.isMonomial constant, hq.isPlainNumber number]

/-- Items of different kinds make a simplified sum, whatever is left of them. -/
theorem isSimplified_ofTerms {kept : List Particle} (items : ∀ p ∈ kept, IsLinearItem x p)
    (apart : (kept.map isConstant).Nodup) : (ofTerms true 1 kept).isSimplified = true := by
  match kept with
  | [] => rfl
  | [p] =>
      have item := items p List.mem_cons_self
      cases item with
      | number | symbol | term => rfl
  | [p, q] =>
      have hp := items p List.mem_cons_self
      have hq := items q (List.mem_cons_of_mem p List.mem_cons_self)
      exact isSimplified_pair hp hq (by simpa using apart)
  | p :: q :: r :: kept =>
      have count := List.Nodup.length_le_card apart
      simp at count

/-- A sum of items is simplified already, or has like terms. -/
theorem isSimplified_or_fewer {items : List Particle} (several : 2 ≤ items.length)
    (h : ∀ p ∈ items, IsLinearItem x p) :
    isSimplified ⟨true, .expression items, 1⟩ = true ∨
      (likeTerms items).length < items.length := by
  have count := length_likeTerms_le h
  match items with
  | [] | [_] => simp at several
  | [p, q] =>
      have hp := h p List.mem_cons_self
      have hq := h q (List.mem_cons_of_mem p List.mem_cons_self)
      by_cases alike : p.isConstant = q.isConstant
      · have like : Particle.areLikeTerms p q = true := by
          rw [hp.areLikeTerms hq, alike, beq_self_eq_true]
        have one : likeTerms [p, q] = [⟨p, [q]⟩] := by
          simp [likeTerms, Class.group, Class.insert, Class.push, like]
        exact .inr (by simp [one])
      · exact .inl (isSimplified_pair hp hq alike)
  | p :: q :: r :: items =>
      refine .inr ?_
      simp only [List.length_cons]
      omega

end StepAlgebra.Particle

namespace StepAlgebra.Value

open Particle

variable {x : Char} {p : Particle}

theorem sumScore_of_fewer {s : Bool} {terms : List Particle} {e : UInt32}
    (fewer : (likeTerms terms).length < terms.length) :
    7 ≤ (particle ⟨s, .expression terms, e⟩).sumScore := by
  unfold sumScore
  dsimp only [terms?]
  split
  · omega
  · exact Nat.le_refl 7
  · decide

/-- Where a linear sum is not simplified, adding its like terms scores and simplifies it. -/
theorem combineLikeTerms_of_isLinearSum (h : IsLinearSum x p) (unfinished : ¬ p.isSimplified = true)
    (policy : Rounding) :
    p.level = .expression ∧ 7 ≤ (particle p).sumScore ∧ ∃ step q,
      (particle p).combineLikeTerms policy = .ok step ∧ step.result = .particle q ∧
        q.isSimplified = true := by
  cases h with
  | item item => exact absurd item.isSimplified unfinished
  | @sum items several h =>
      have fewer := (isSimplified_or_fewer several h).resolve_left unfinished
      obtain ⟨sums, hsums, totals⟩ := exists_allSubtotals policy h
      obtain ⟨kept, kinds⟩ := keptSums_of_totals totals
      refine ⟨rfl, sumScore_of_fewer fewer, _, ofTerms true 1 (keptSums sums),
        map_eq_ok_iff.mpr ⟨sums, hsums, rfl⟩, rfl, ?_⟩
      exact isSimplified_ofTerms kept (kinds.nodup (likeTerms_nodup h))

end StepAlgebra.Value
