import Mathlib.Data.List.Flatten
import Mathlib.Tactic.Linarith
import StepAlgebra.Proofs.Step.Meaning
import StepAlgebra.Proofs.Step.Progress

/-!
# Explanations are true

An explanation is put together beside the computation. It lists the members of each class that was
joined and names what they were joined to, so every such sentence is an equation; and as the lists
are taken from different places, no term or factor is used up twice.

* `Explanation.Balances` — the sentences of an explanation as equations over some items;
* `Particle.Totalled.rowSum_members`, `Particle.members_of_products` — what went into a sum or a
  product;
* `Value.explanations_balance` — what this says about both rules.
-/

namespace StepAlgebra

namespace Explanation

/-- The lists of an explanation, in the order of reading. -/
def lists (e : Explanation) : List (List Particle) :=
  e.filterMap fun
    | .list ps => some ps
    | _ => none

/-- The first value that an explanation names. -/
def firstValue? (e : Explanation) : Option Value :=
  e.findSome? fun
    | .value v => some v
    | _ => none

/-- Every list of an explanation is good in front of what is said after it. -/
def Says (good : List Particle → Explanation → Prop) (e : Explanation) : Prop :=
  ∀ ps after, .list ps :: after <:+ e → good ps after

/-- The items in each list are several and make up, by an operation on rows, the value that is named
after the list; and all lists together use no item more than once. -/
structure Balances (total : List Particle → ℚ) (a : Assignment) (items : List Particle)
    (e : Explanation) : Prop where
  several : ∀ ps ∈ e.lists, 2 ≤ ps.length
  equations : e.Says fun ps after =>
    ∃ p, firstValue? after = some (.particle p) ∧ total ps = p.meaning a
  apart : e.lists.flatten.Subperm items

variable {good : List Particle → Explanation → Prop} {e : Explanation} {a : Assignment}
  {items : List Particle} {total : List Particle → ℚ}

theorem says_nil : Says good [] := by
  intro ps after h
  cases List.suffix_nil.mp h

theorem says_cons {f : Fragment} :
    Says good (f :: e) ↔ (∀ ps, f = .list ps → good ps e) ∧ Says good e := by
  constructor
  · intro h
    refine ⟨?_, fun ps after later => h ps after (later.trans (List.suffix_cons f e))⟩
    rintro ps rfl
    exact h ps e (List.suffix_refl _)
  · rintro ⟨here, later⟩ ps after h
    rcases List.suffix_cons_iff.mp h with same | h
    · obtain ⟨rfl, rfl⟩ := List.cons.inj same
      exact here ps rfl
    · exact later ps after h

theorem says_append_of_lists (lead : Explanation) (none : lead.lists = []) (h : Says good e) :
    Says good (lead ++ e) := by
  induction lead with
  | nil => exact h
  | cons f lead ih =>
      cases f with
      | list ps => cases none
      | words | value => exact says_cons.mpr ⟨nofun, ih none⟩

theorem says_of_lists (none : e.lists = []) : Says good e := by
  have all : Says good (e ++ []) := says_append_of_lists e none says_nil
  rwa [List.append_nil] at all

/-! ## Several sentences -/

section

variable {ρ : Type} (verb : String) (members : ρ → List Particle) (result : ρ → Particle)

/-- One sentence for each result that was made of several members. -/
def sentences (rs : List ρ) : Explanation :=
  (rs.filter (fun r => 1 < (members r).length)).flatMap fun r => combination verb (members r) (result r)

theorem lists_append (e e' : Explanation) : lists (e ++ e') = e.lists ++ e'.lists :=
  List.filterMap_append

theorem lists_sentences (rs : List ρ) :
    lists (sentences verb members result rs) =
      (rs.filter (fun r => 1 < (members r).length)).map members := by
  unfold sentences
  induction rs.filter (fun r => 1 < (members r).length) with
  | nil => rfl
  | cons r rs ih =>
      rw [List.flatMap_cons, lists_append, ih]
      rfl

theorem says_sentences {tail : Explanation} (none : tail.lists = []) {rs : List ρ}
    (h : ∀ r ∈ rs, ∀ after, good (members r)
      (.words " to get " :: .value (.particle (result r)) :: after)) :
    Says good (sentences verb members result rs ++ tail) := by
  have kept : ∀ r ∈ rs.filter (fun r => 1 < (members r).length), ∀ after, good (members r)
      (.words " to get " :: .value (.particle (result r)) :: after) :=
    fun r hr => h r (List.mem_of_mem_filter hr)
  unfold sentences
  generalize rs.filter (fun r => 1 < (members r).length) = rs at kept
  induction rs with
  | nil => exact says_of_lists none
  | cons r rs ih =>
      obtain ⟨here, later⟩ := List.forall_mem_cons.mp kept
      rw [List.flatMap_cons, List.append_assoc]
      -- the list of the first sentence is its second fragment
      refine says_cons.mpr ⟨nofun, says_cons.mpr ⟨?_, ?_⟩⟩
      · rintro _ ⟨⟩
        exact here _
      · exact says_append_of_lists [_, _, _] rfl (ih later)

/-- Sentences between words that list nothing balance, if the members of each result make it up and
all members are different items. -/
theorem balances_sentences {lead tail : Explanation} (hlead : lead.lists = [])
    (htail : tail.lists = []) {rs : List ρ}
    (equations : ∀ r ∈ rs, total (members r) = (result r).meaning a)
    (apart : (rs.flatMap members).Perm items) :
    Balances total a items (lead ++ (sentences verb members result rs ++ tail)) := by
  have listed : lists (lead ++ (sentences verb members result rs ++ tail)) =
      (rs.filter (fun r => 1 < (members r).length)).map members := by
    rw [lists_append, lists_append, hlead, htail, lists_sentences, List.nil_append,
      List.append_nil]
  constructor
  · intro ps hps
    rw [listed] at hps
    obtain ⟨r, hr, rfl⟩ := List.mem_map.mp hps
    exact of_decide_eq_true (List.mem_filter.mp hr).2
  · refine says_append_of_lists lead hlead (says_sentences verb members result htail ?_)
    exact fun r hr after => ⟨result r, rfl, equations r hr⟩
  · rw [listed, ← List.flatMap_def]
    exact ((List.filter_sublist.flatMap members).subperm).trans apart.subperm

end

end Explanation

namespace Particle

variable {policy : Rounding} {a : Assignment} {terms factors : List Particle}

/-! ## What goes into a sum -/

/-- What a pass has added up is the sum of what it says it has. -/
theorem Tallied.meaning_total {sum total : Particle} {added deferred : List Particle}
    (h : Tallied policy sum terms total added deferred) (exact : policy.IsExact)
    (hsum : sum.IsExact policy) (hterms : RowIsExact policy terms) :
    total.meaning a = sum.meaning a + rowSum a added := by
  obtain ⟨-, -, split⟩ := h.represents (a := a) exact hsum hterms
  have parts := rowSum_perm (a := a) h.members_perm
  rw [rowSum_append] at parts
  linarith

theorem Totalled.rowSum_members {sums : List Subtotal} (h : Totalled policy terms sums)
    (exact : policy.IsExact) (hterms : RowIsExact policy terms) :
    ∀ t ∈ sums, rowSum a t.members = t.sum.meaning a := by
  -- over the passes: what is put off is exact, as the next pass needs
  induction h with
  | done => exact List.forall_mem_nil _
  | pass tallied _ ih =>
      obtain ⟨hfirst, hothers⟩ := rowIsExact_cons.mp hterms
      obtain ⟨-, hdeferred, -⟩ := tallied.represents (a := a) exact hfirst hothers
      refine List.forall_mem_cons.mpr ⟨?_, ih hdeferred⟩
      rw [rowSum, tallied.meaning_total exact hfirst hothers]

theorem rowSum_members_of_allSubtotals {sums : List Subtotal}
    (h : allSubtotals policy terms = .ok sums) (exact : policy.IsExact)
    (hterms : RowIsExact policy terms) : ∀ t ∈ sums, rowSum a t.members = t.sum.meaning a := by
  obtain ⟨rows, hrows, rfl⟩ := allSubtotals_eq_ok h
  have members := Class.members_group_perm areLikeTerms terms
  intro t ht
  obtain ⟨row, hrow, ht⟩ := List.mem_flatten.mp ht
  obtain ⟨c, hc, totalled⟩ := exists_of_forall₂_mem hrows hrow
  refine totalled.rowSum_members exact (fun p hp => ?_) t ht
  exact hterms p (members.mem_iff.mp (List.mem_flatMap.mpr ⟨c, hc, hp⟩))

/-! ## What goes into a product -/

/-- Every product is listed with the members of its class. -/
theorem members_of_products {results : List Product}
    (h : products policy factors = .ok results) :
    List.Forall₂ (fun c r => r.members = c.members ∧
      Multiplied policy c.first c.others r.product) (likeFactors factors) results := by
  refine (mapM_eq_ok_iff.mp h).imp ?_
  intro c r hr
  obtain ⟨product, hproduct, rfl⟩ := map_eq_ok_iff.mp hr
  exact ⟨rfl, multiplied_of_foldlM hproduct⟩

theorem products_members_perm {results : List Product}
    (h : products policy factors = .ok results) :
    (results.flatMap Product.members).Perm factors := by
  have same : results.flatMap Product.members = (likeFactors factors).flatMap Class.members := by
    have rows := members_of_products h
    clear h
    generalize likeFactors factors = classes at rows
    induction rows with
    | nil => rfl
    | cons here _ ih => rw [List.flatMap_cons, List.flatMap_cons, here.1, ih]
  rw [same]
  exact Class.members_group_perm areMultipliable factors

theorem rowProduct_members_of_products {results : List Product}
    (h : products policy factors = .ok results) (exact : policy.IsExact)
    (hfactors : RowIsExact policy factors) :
    ∀ r ∈ results, rowProduct a r.members = r.product.meaning a := by
  intro r hr
  obtain ⟨c, hc, members, multiplied⟩ := exists_of_forall₂_mem (members_of_products h) hr
  have row : RowIsExact policy r.members := fun p hp =>
    hfactors p ((products_members_perm h).mem_iff.mp (List.mem_flatMap.mpr ⟨r, hr, hp⟩))
  rw [members] at row ⊢
  obtain ⟨hfirst, hothers⟩ := rowIsExact_cons.mp row
  rw [(multiplied.represents (a := a) exact hfirst hothers).meaning, Class.members, rowProduct]

/-! ## Steps -/

theorem explainSums_balances (exact : policy.IsExact) {s : Bool} {e : UInt32} {step : Step}
    (hp : IsExact policy ⟨s, .expression terms, e⟩)
    (h : combineLikeTerms policy ⟨s, .expression terms, e⟩ terms = .ok step) :
    step.explanation.Balances (rowSum a) a terms := by
  obtain ⟨sums, hsums, rfl⟩ := map_eq_ok_iff.mp h
  have hterms := (isExact_expression.mp hp).2
  show Explanation.Balances _ _ _ (explainSums _ sums)
  rw [explainSums, ← List.append_nil (List.flatMap _ _)]
  exact Explanation.balances_sentences "Combine" Subtotal.members Subtotal.sum (by rfl) rfl
    (rowSum_members_of_allSubtotals hsums exact hterms) (allSubtotals_members_perm hsums)

theorem explainProducts_balances (exact : policy.IsExact) {s : Bool} {e : UInt32} {step : Step}
    (hp : IsExact policy ⟨s, .term factors, e⟩)
    (h : multiplyFactors policy ⟨s, .term factors, e⟩ factors = .ok step) :
    step.explanation.Balances (rowProduct a) a factors := by
  unfold multiplyFactors at h
  split at h
  · cases h
  · obtain ⟨results, hresults, rfl⟩ := map_eq_ok_iff.mp h
    have hfactors := (isExact_term.mp hp).2
    show Explanation.Balances _ _ _ (explainProducts _ results)
    rw [explainProducts, List.append_assoc]
    refine Explanation.balances_sentences "Multiply" Product.members Product.product (by rfl) ?_
      (rowProduct_members_of_products hresults exact hfactors) (products_members_perm hresults)
    split <;> rfl

end Particle

open Particle

/-- Where nothing is rounded, every list in an explanation has two members or more: those of a sum
add up to the value that is named next, those of a product multiply to it. All lists together take
no term of the expression and no factor of the term twice. -/
theorem Value.explanations_balance (policy : Rounding)
    (exact : policy = .scientific ∨ policy = .decimals) (a : Assignment) (s : Bool)
    (items : List Particle) (e : UInt32) (step : Step) :
    (IsExact policy ⟨s, .expression items, e⟩ →
      combineLikeTerms policy (.particle ⟨s, .expression items, e⟩) = .ok step →
        step.explanation.Balances (rowSum a) a items) ∧
    (IsExact policy ⟨s, .term items, e⟩ →
      multiply policy (.particle ⟨s, .term items, e⟩) = .ok step →
        step.explanation.Balances (rowProduct a) a items) :=
  ⟨explainSums_balances exact, explainProducts_balances exact⟩

/-- A step that gives an explanation succeeds with it. -/
theorem exists_step_of_text {x : Except Failure Step} {text : String}
    (h : x.toOption.map (·.explanation.text) = some text) :
    ∃ step, x = .ok step ∧ step.explanation.text = text := by
  cases x with
  | error failure => cases h
  | ok step => exact ⟨step, rfl, Option.some.inj h⟩

/-- The sum of `2(1)/(4)-1-2+x+x` puts one term off, so that its explanation lists four of the five;
that of the product `2(3)xyx` lists four of the five factors. -/
theorem Value.explanations_balance_of_mixed :
    let number := fun (d : Digit) => (Body.number ⟨[d], none, none⟩).plain
    let mixed := fun (d : Digit) => (Body.mixed ⟨[d], none, none⟩ (number 1) (number 4)).plain
    let symbol := fun (c : Char) => (Body.symbol c).plain
    let terms := [mixed 2, (number 1).negate, (number 2).negate, symbol 'x', symbol 'x']
    let factors := [number 2, number 3, symbol 'x', symbol 'y', symbol 'x']
    IsExact .decimals (Body.expression terms).plain ∧ IsExact .decimals (Body.term factors).plain ∧
      ∃ sums products,
        combineLikeTerms .decimals (.particle (Body.expression terms).plain) = .ok sums ∧
        multiply .decimals (.particle (Body.term factors).plain) = .ok products ∧
        sums.explanation.text = "We need to combine like terms here, in the expression " ++
          "2(1)/(4)-1-2+x+x.\nCombine 2(1)/(4), -1 to get 1(1)/(4).\nCombine x, x to get 2x.\n" ∧
        products.explanation.text = "In the term 2(3)xyx we need to multiply.\n" ++
          "Multiply 2, 3 to get 6.\nMultiply x, x to get x².\n" ∧
        ∀ a, sums.explanation.Balances (rowSum a) a terms ∧
          products.explanation.Balances (rowProduct a) a factors := by
  intro number mixed symbol terms factors
  have one : (1 : UInt32) ≠ 0 := by decide
  have hnumber : ∀ s d, IsExact .decimals ⟨s, .number ⟨[d], none, none⟩, 1⟩ :=
    fun s d => isExact_number rfl
  have hsymbol : ∀ c, (symbol c).IsExact .decimals := fun c => isExact_iff.mpr
    ⟨one, by simp [symbol, Body.plain, Body.numeral?], by simp [symbol, Body.plain, Body.parts]⟩
  have hterms : RowIsExact .decimals terms := by
    simp only [terms, RowIsExact, List.forall_mem_cons, List.not_mem_nil, false_implies,
      implies_true, and_true]
    exact ⟨isExact_mixed true rfl rfl rfl, hnumber false 1, hnumber false 2, hsymbol 'x',
      hsymbol 'x'⟩
  have hfactors : RowIsExact .decimals factors := by
    simp only [factors, RowIsExact, List.forall_mem_cons, List.not_mem_nil, false_implies,
      implies_true, and_true]
    exact ⟨hnumber true 2, hnumber true 3, hsymbol 'x', hsymbol 'y', hsymbol 'x'⟩
  have hexpression : IsExact .decimals (Body.expression terms).plain :=
    isExact_expression.mpr ⟨one, hterms⟩
  have hterm : IsExact .decimals (Body.term factors).plain := isExact_term.mpr ⟨one, hfactors⟩
  have hsums : ((combineLikeTerms .decimals
      (.particle (Body.expression terms).plain)).toOption.map (·.explanation.text) = some
        ("We need to combine like terms here, in the expression " ++
          "2(1)/(4)-1-2+x+x.\nCombine 2(1)/(4), -1 to get 1(1)/(4).\nCombine x, x to get 2x.\n"))
      := by
    decide +kernel
  have hproducts : ((multiply .decimals
      (.particle (Body.term factors).plain)).toOption.map (·.explanation.text) = some
        ("In the term 2(3)xyx we need to multiply.\n" ++
          "Multiply 2, 3 to get 6.\nMultiply x, x to get x².\n")) := by
    decide +kernel
  obtain ⟨sums, happly, sumsText⟩ := exists_step_of_text hsums
  obtain ⟨products, happly', productsText⟩ := exists_step_of_text hproducts
  refine ⟨hexpression, hterm, sums, products, happly, happly', sumsText, productsText, fun a => ?_⟩
  exact ⟨(explanations_balance .decimals (.inr rfl) a true terms 1 sums).1 hexpression happly,
    (explanations_balance .decimals (.inr rfl) a true factors 1 products).2 hterm happly'⟩

end StepAlgebra
