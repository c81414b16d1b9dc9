import StepAlgebra.Proofs.Formula.Soundness
import StepAlgebra.Proofs.Particle.Formed
import StepAlgebra.Value.OfFormula

/-!
# What formulas stand for

The value of a text is canonical but for one thing. An exponent on something that has a sign or an
exponent already makes it the lone factor of a term, and does so even if it is the exponent one: in
`(x²)¹` the square is alone in a term that has no exponent.

* `Particle.IsWritten` — canonical particles, with the exponents of lone factors set free;
* `Formula.IsBuilt.isWritten` — what a formula stands for is written;
* `Value.derives_of_read` — what is read is derived, and readable;
* `Value.isCanonical_of_read` — what is read is canonical, if no exponent one is.
-/

namespace StepAlgebra

namespace Particle

variable {E : UInt32 → Prop} {p : Particle} {s : Bool} {e : UInt32}

/-- What a particle is like that was written with some exponents, its parts aside: canonical, but
that the exponent over a lone factor may be any of them. -/
def IsWrittenNode (E : UInt32 → Prop) (p : Particle) : Prop :=
  match p.body with
  | .term factors =>
      2 ≤ factors.length ∨
        E p.exponent ∧ ∃ f : Particle, factors = [f] ∧ (f.positive = false ∨ f.exponent ≠ 1)
  | _ => p.IsCanonicalNode

/-- A particle that was written with some exponents. -/
def IsWritten (E : UInt32 → Prop) (p : Particle) : Prop :=
  p.Everywhere (IsWrittenNode E)

theorem isWrittenNode_of_not_term (h : ∀ factors, p.body ≠ .term factors) :
    p.IsWrittenNode E ↔ p.IsCanonicalNode := by
  unfold IsWrittenNode
  split
  · next factors hbody => exact absurd hbody (h factors)
  · exact Iff.rfl

theorem IsWrittenNode.isReadableNode (h : p.IsWrittenNode E) : p.IsReadableNode := by
  by_cases term : ∃ factors, p.body = .term factors
  · obtain ⟨factors, hbody⟩ := term
    obtain ⟨s, b, e⟩ := p
    subst hbody
    refine ⟨?_, trivial⟩
    rcases h with several | ⟨-, f, rfl, compound⟩
    · exact isReducedNode_of_several several
    · exact Powered.not_isBare_iff.mpr compound
  · have canonical := (isWrittenNode_of_not_term (not_exists.mp term)).mp h
    exact (isCanonicalNode_iff.mp canonical).2

/-- Without the exponent one, what is written is canonical. -/
theorem IsWrittenNode.isCanonicalNode (h : p.IsWrittenNode E) (raised : ∀ e, E e → e ≠ 1) :
    p.IsCanonicalNode := by
  by_cases term : ∃ factors, p.body = .term factors
  · obtain ⟨factors, hbody⟩ := term
    obtain ⟨s, b, e⟩ := p
    subst hbody
    exact h.imp_right fun lone => ⟨raised e lone.1, lone.2⟩
  · exact (isWrittenNode_of_not_term (not_exists.mp term)).mp h

theorem isWritten_iff :
    p.IsWritten E ↔ p.IsWrittenNode E ∧ ∀ q ∈ p.body.parts, q.IsWritten E :=
  everywhere_iff

/-- The outermost sign does not count, and the exponent may be another one that is written. -/
theorem IsWritten.withHead (h : p.IsWritten E) (exponent : e = p.exponent ∨ E e) :
    IsWritten E ⟨s, p.body, e⟩ := by
  have node : p.IsWrittenNode E := h.here
  refine Everywhere.withHead h ?_
  obtain ⟨t, b, f⟩ := p
  cases b with
  | term factors =>
      refine node.imp_right fun lone => ⟨?_, lone.2⟩
      rcases exponent with rfl | written
      · exact lone.1
      · exact written
  | number | fraction | mixed | symbol | expression | root => exact node

/-- A particle under an exponent is a lone factor only where it could not take it itself. -/
theorem IsWritten.raise (h : p.IsWritten E) (written : E e) : (p.raise e).IsWritten E := by
  unfold Particle.raise
  split
  · exact h.withHead (.inr written)
  · next signed =>
    refine isWritten_iff.mpr ⟨?_, List.forall_mem_singleton.mpr h⟩
    exact .inr ⟨written, p, rfl, Powered.not_isBare_iff.mp signed⟩

theorem plainNumber?_ofFormula {f : Formula} (h : f.isSignedLiteral = true) :
    (plainNumber? (ofFormula f)).isSome = true := by
  cases f with
  | literal => rfl
  | signed positive operand =>
      cases operand with
      | literal => cases positive <;> rfl
      | symbol | fraction | mixed | root | group | power | product | signed | sum => cases h
  | symbol | fraction | mixed | root | group | power | product | sum => cases h

theorem mem_ofRow {q : Particle} {fs : List Formula} (h : q ∈ ofRow fs) :
    ∃ f ∈ fs, ofFormula f = q := by
  induction fs with
  | nil => cases h
  | cons f fs ih =>
      rcases List.mem_cons.mp h with rfl | h
      · exact ⟨f, List.mem_cons_self, rfl⟩
      · obtain ⟨g, hg, here⟩ := ih h
        exact ⟨g, List.mem_cons_of_mem _ hg, here⟩

theorem length_ofRow (fs : List Formula) : (ofRow fs).length = fs.length := by
  induction fs with
  | nil => rfl
  | cons f fs ih => rw [ofRow, List.length_cons, List.length_cons, ih]

end Particle

open Particle

/-- What a formula stands for is written with the exponents of the formula. -/
theorem Formula.IsBuilt.isWritten {E : UInt32 → Prop} {r : Rank} {f : Formula}
    (h : f.IsBuilt E r) : (ofFormula f).IsWritten E := by
  have row {fs : List Formula} (h : ∀ f ∈ fs, (ofFormula f).IsWritten E) :
      ∀ q ∈ ofRow fs, q.IsWritten E := by
    intro q hq
    obtain ⟨f, hf, rfl⟩ := mem_ofRow hq
    exact h f hf
  induction h with
  | literal canonical => exact isWritten_iff.mpr ⟨canonical, List.forall_mem_nil _⟩
  | symbol letter => exact isWritten_iff.mpr ⟨letter, List.forall_mem_nil _⟩
  | fraction _ _ top bottom =>
      exact isWritten_iff.mpr ⟨trivial, List.forall_mem_cons.mpr
        ⟨top, List.forall_mem_singleton.mpr bottom⟩⟩
  | mixed canonical whole _ _ litTop litBottom top bottom =>
      refine isWritten_iff.mpr ⟨⟨canonical, whole, ?_, ?_⟩, List.forall_mem_cons.mpr
        ⟨top, List.forall_mem_singleton.mpr bottom⟩⟩
      · exact plainNumber?_ofFormula litTop
      · exact plainNumber?_ofFormula litBottom
  | @root index _ _ atLeast _ radicand =>
      refine isWritten_iff.mpr ⟨?_, List.forall_mem_singleton.mpr radicand⟩
      show 2 ≤ index.getD 2
      cases index with
      | none => decide
      | some i => exact atLeast i rfl
  | group _ inner => exact inner
  | bare _ atom => exact atom
  | power _ written base => exact base.raise written
  | alone _ factor => exact factor
  | @product fs _ several _ factors =>
      exact isWritten_iff.mpr ⟨.inl (by rwa [length_ofRow]), row factors⟩
  | unsigned _ product => exact product
  | @signed _ positive _ _ _ _ product =>
      rw [ofFormula]
      split
      · exact product
      · exact product.withHead (.inl rfl)
  | single _ term => exact term
  | @sum f fs _ _ nonempty _ first others =>
      refine isWritten_iff.mpr ⟨?_, row (List.forall_mem_cons.mpr ⟨first, others⟩)⟩
      show 2 ≤ (ofRow (f :: fs)).length
      have := List.length_pos_of_ne_nil nonempty
      rw [length_ofRow, List.length_cons]
      omega

namespace Value

/-- A value whose particles were written with some exponents. -/
def IsWritten (E : UInt32 → Prop) : Value → Prop
  | .particle p => p.IsWritten E
  | .equation left right => left.IsWritten E ∧ right.IsWritten E

variable {E : UInt32 → Prop} {input : String} {v : Value}

theorem IsWritten.isReadable (h : v.IsWritten E) : v.IsReadable := by
  cases v with
  | particle p => exact h.imp fun _ node => node.isReadableNode
  | equation left right =>
      exact ⟨h.1.imp fun _ node => node.isReadableNode, h.2.imp fun _ node => node.isReadableNode⟩

theorem IsWritten.isCanonical (h : v.IsWritten E) (raised : ∀ e, E e → e ≠ 1) :
    v.IsCanonical := by
  cases v with
  | particle p => exact h.imp fun _ node => node.isCanonicalNode raised
  | equation left right =>
      exact ⟨h.1.imp fun _ node => node.isCanonicalNode raised,
        h.2.imp fun _ node => node.isCanonicalNode raised⟩

theorem exists_statement_of_read (h : read input = .ok v) :
    ∃ s, Statement.read input = .ok s ∧ ofStatement s = v := by
  unfold read at h
  cases hs : Statement.read input with
  | error cause =>
      rw [hs] at h
      cases h
  | ok s =>
      rw [hs] at h
      exact ⟨s, rfl, Except.ok.inj h⟩

/-- What is read was written with the exponents of the text. -/
theorem isWritten_of_read (h : read input = .ok v) :
    v.IsWritten (Grammar.Written (Token.scan input)) := by
  obtain ⟨s, hread, rfl⟩ := exists_statement_of_read h
  have built := (Statement.derives_of_read hread).2
  cases s with
  | formula f => exact Formula.IsBuilt.isWritten built
  | equation left right place => exact ⟨built.1.isWritten, built.2.isWritten⟩

/-- A text that is read as a value is derived, and the value is readable. -/
theorem derives_of_read (h : read input = .ok v) :
    Grammar.Derives .statement ((Token.scan input).filter (!·.isBlank)) ∧ v.IsReadable := by
  obtain ⟨s, hread, -⟩ := exists_statement_of_read h
  exact ⟨(Statement.derives_of_read hread).1, (isWritten_of_read h).isReadable⟩

end Value

end StepAlgebra
