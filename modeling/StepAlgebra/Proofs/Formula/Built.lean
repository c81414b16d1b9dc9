import StepAlgebra.Formula.Parser
import StepAlgebra.Proofs.Formula.Spelling

/-!
# Formulas that are read

The shape of a formula tells which productions it was read by: a product has several factors and no
factor is a sum, a later term of a sum has no plus sign of its own, the number in front of a
fraction is whole.

* `Formula.IsBuilt` — the formulas that the reader builds at each rank;
* `Formula.IsBuilt.ofFactors`, `Formula.IsBuilt.ofTerms` — what a row becomes.
-/

namespace StepAlgebra

namespace Formula

/-- Where in the grammar a formula stands. A sign in front of the first term of a sum is kept. -/
inductive Rank where
  | atom
  | factor
  | product
  | term (isFirst : Bool)
  | sum

/-- The formulas that are built at a rank, with exponents of some kind only. -/
inductive IsBuilt (E : UInt32 → Prop) : Rank → Formula → Prop
  | literal {n : Numeral} {span : Span} : n.IsCanonical → IsBuilt E .atom (.literal n span)
  | symbol {name : Char} {span : Span} : name.isAlpha = true → IsBuilt E .atom (.symbol name span)
  | fraction {top bottom : Formula} {span : Span} : IsBuilt E .sum top → IsBuilt E .sum bottom →
      IsBuilt E .atom (.fraction top bottom span)
  | mixed {n : Numeral} {top bottom : Formula} {span₁ span₂ span : Span} : n.IsCanonical →
      n.isWhole = true → IsBuilt E .sum top → IsBuilt E .sum bottom →
      top.isSignedLiteral = true → bottom.isSignedLiteral = true →
      IsBuilt E .atom (.mixed n span₁ top bottom span₂ span)
  | root {index : Option UInt32} {radicand : Formula} {span : Span} : (∀ i ∈ index, 2 ≤ i) →
      IsBuilt E .atom radicand → IsBuilt E .atom (.root index radicand span)
  | group {inner : Formula} {span : Span} : IsBuilt E .sum inner →
      IsBuilt E .atom (.group inner span)
  | bare {f : Formula} : IsBuilt E .atom f → IsBuilt E .factor f
  | power {base : Formula} {exponent : UInt32} {span₁ span : Span} : IsBuilt E .atom base →
      E exponent → IsBuilt E .factor (.power base exponent span₁ span)
  | alone {f : Formula} : IsBuilt E .factor f → IsBuilt E .product f
  | product {fs : List Formula} {span : Span} : 2 ≤ fs.length → (∀ f ∈ fs, IsBuilt E .factor f) →
      IsBuilt E .product (.product fs span)
  | unsigned {isFirst : Bool} {f : Formula} : IsBuilt E .product f → IsBuilt E (.term isFirst) f
  | signed {isFirst positive : Bool} {f : Formula} {span : Span} : IsBuilt E .product f →
      (positive && !isFirst) = false → IsBuilt E (.term isFirst) (.signed positive f span)
  | single {f : Formula} : IsBuilt E (.term true) f → IsBuilt E .sum f
  | sum {f : Formula} {fs : List Formula} {span : Span} : IsBuilt E (.term true) f → fs ≠ [] →
      (∀ g ∈ fs, IsBuilt E (.term false) g) → IsBuilt E .sum (.sum (f :: fs) span)

variable {E E' : UInt32 → Prop} {r : Rank} {f : Formula} {fs : List Formula}

theorem IsBuilt.mono (h : f.IsBuilt E r) (weaken : ∀ e, E e → E' e) : f.IsBuilt E' r := by
  induction h with
  | literal canonical => exact .literal canonical
  | symbol letter => exact .symbol letter
  | fraction _ _ top bottom => exact .fraction top bottom
  | mixed canonical whole _ _ litTop litBottom top bottom =>
      exact .mixed canonical whole top bottom litTop litBottom
  | root index _ radicand => exact .root index radicand
  | group _ inner => exact .group inner
  | bare _ atom => exact .bare atom
  | power _ exponent base => exact .power base (weaken _ exponent)
  | alone _ factor => exact .alone factor
  | product several _ factors => exact .product several factors
  | unsigned _ product => exact .unsigned product
  | signed _ kept product => exact .signed product kept
  | single _ term => exact .single term
  | sum _ nonempty _ first others => exact .sum first nonempty others

theorem IsBuilt.ofFactors (nonempty : fs ≠ []) (h : ∀ f ∈ fs, f.IsBuilt E .factor) :
    (ofFactors fs).IsBuilt E .product := by
  match fs with
  | [] => exact absurd rfl nonempty
  | [f] => exact .alone (h f List.mem_cons_self)
  | _ :: _ :: _ => exact .product (by simp) h

/-- A row of terms, the first of which may have a plus sign of its own. -/
def AreTerms (E : UInt32 → Prop) (isFirst : Bool) : List Formula → Prop
  | [] => False
  | f :: fs => f.IsBuilt E (.term isFirst) ∧ ∀ g ∈ fs, g.IsBuilt E (.term false)

theorem AreTerms.nonempty {isFirst : Bool} (h : AreTerms E isFirst fs) : fs ≠ [] := by
  rintro rfl
  exact h

/-- Terms after the first are later terms all. -/
theorem AreTerms.later (h : AreTerms E false fs) : ∀ g ∈ fs, g.IsBuilt E (.term false) := by
  match fs with
  | f :: fs => exact List.forall_mem_cons.mpr h

theorem IsBuilt.ofTerms (h : AreTerms E true fs) : (ofTerms fs).IsBuilt E .sum := by
  match fs with
  | [f] => exact .single h.1
  | f :: g :: fs => exact .sum h.1 (List.cons_ne_nil _ _) h.2

end Formula

/-- The statements that the reader builds, with exponents of some kind only. -/
def Statement.IsBuilt (E : UInt32 → Prop) : Statement → Prop
  | .formula f => f.IsBuilt E .sum
  | .equation left right _ => left.IsBuilt E .sum ∧ right.IsBuilt E .sum

end StepAlgebra
