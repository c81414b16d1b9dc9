import StepAlgebra.Proofs.Particle.Canonical

/-!
# What canonical form consists of

Canonical form is three things at once. A complete particle has digits and parts wherever it has
to. In a reduced one no lone factor could take the exponent of its term itself. One in range does
not hold the least of all powers of ten, which is never read. Steps keep the first two together:
what they make of well-formed parts is well formed. A text shows the last two together: what is
read from it is readable.

* `Particle.IsFormed`, `Particle.IsReadable` — the two pairs;
* `Value.isCanonical_iff` — canonical form is being complete and readable;
* `Particle.IsFormed.withSign`, `Particle.IsFormed.withExponent`, `Particle.IsFormed.foldInto` —
  what a well-formed particle can be put under.
-/

namespace StepAlgebra

/-- Digits stand before the point, and after it if there is one. -/
structure Numeral.HasDigits (n : Numeral) : Prop where
  whole : n.whole ≠ []
  places : n.places ≠ some []

/-- A bare particle takes any exponent itself. -/
def Powered.IsBare {α : Type} (p : Powered α) : Prop :=
  p.positive = true ∧ p.exponent = 1

theorem Powered.not_isBare_iff {α : Type} {p : Powered α} :
    ¬ p.IsBare ↔ p.positive = false ∨ p.exponent ≠ 1 := by
  rw [IsBare, not_and_or, Bool.not_eq_true]

namespace Particle

/-- What a complete particle is like, its parts aside. -/
def IsCompleteNode (p : Particle) : Prop :=
  match p.body with
  | .number n => n.HasDigits
  | .fraction _ _ => True
  | .mixed n top bottom =>
      n.HasDigits ∧ n.isWhole = true ∧ (plainNumber? top).isSome = true ∧
        (plainNumber? bottom).isSome = true
  | .symbol name => name.isAlpha = true
  | .term factors => 2 ≤ factors.length ∨ p.exponent ≠ 1 ∧ factors.length = 1
  | .expression terms => 2 ≤ terms.length
  | .root index _ => 2 ≤ index

/-- No lone factor is bare. -/
def IsReducedNode (p : Particle) : Prop :=
  match p.body with
  | .term [factor] => ¬ factor.IsBare
  | _ => True

/-- No power of ten is the least. -/
def IsInRangeNode (p : Particle) : Prop :=
  match p.body with
  | .number n => n.power ≠ some Int32.minValue
  | _ => True

/-- What a well-formed particle is like, its parts aside. -/
def IsFormedNode (p : Particle) : Prop :=
  p.IsCompleteNode ∧ p.IsReducedNode

/-- What a readable particle is like, its parts aside. -/
def IsReadableNode (p : Particle) : Prop :=
  p.IsReducedNode ∧ p.IsInRangeNode

/-- A particle with digits and parts wherever it has to have them. -/
def IsComplete (p : Particle) : Prop :=
  p.Everywhere IsCompleteNode

/-- A particle that does not hold the least power of ten. -/
def IsInRange (p : Particle) : Prop :=
  p.Everywhere IsInRangeNode

/-- A particle that is complete and reduced everywhere. -/
def IsFormed (p : Particle) : Prop :=
  p.Everywhere IsFormedNode

/-- A particle that is reduced and in range everywhere. -/
def IsReadable (p : Particle) : Prop :=
  p.Everywhere IsReadableNode

end Particle

namespace Value

/-- A value whose particles are complete. -/
def IsComplete : Value → Prop
  | .particle p => p.IsComplete
  | .equation left right => left.IsComplete ∧ right.IsComplete

/-- A value whose particles are in range. -/
def IsInRange : Value → Prop
  | .particle p => p.IsInRange
  | .equation left right => left.IsInRange ∧ right.IsInRange

/-- A value whose particles are readable. -/
def IsReadable : Value → Prop
  | .particle p => p.IsReadable
  | .equation left right => left.IsReadable ∧ right.IsReadable

end Value

namespace Numeral

variable {n : Numeral}

theorem isCanonical_iff : n.IsCanonical ↔ n.HasDigits ∧ n.power ≠ some Int32.minValue :=
  ⟨fun h => ⟨⟨h.whole, h.places⟩, h.power⟩, fun h => ⟨h.1.whole, h.1.places, h.2⟩⟩

theorem power_ne_of_isWhole (h : n.isWhole = true) : n.power ≠ some Int32.minValue := by
  simp only [isWhole, Bool.and_eq_true, Option.isNone_iff_eq_none] at h
  simp [h.2]

end Numeral

namespace Particle

variable {p : Particle}

theorem isReducedNode_of_several {s : Bool} {factors : List Particle} {e : UInt32}
    (h : 2 ≤ factors.length) : IsReducedNode ⟨s, .term factors, e⟩ := by
  match factors, h with
  | _ :: _ :: _, _ => trivial

theorem isCanonicalNode_iff : p.IsCanonicalNode ↔ p.IsCompleteNode ∧ p.IsReadableNode := by
  obtain ⟨s, b, e⟩ := p
  cases b with
  | number n =>
      simp only [IsCanonicalNode, IsCompleteNode, IsReadableNode, IsReducedNode, IsInRangeNode,
        true_and, Numeral.isCanonical_iff]
  | fraction | symbol | expression | root =>
      simp only [IsCanonicalNode, IsCompleteNode, IsReadableNode, IsReducedNode, IsInRangeNode,
        and_true]
  | mixed n top bottom =>
      simp only [IsCanonicalNode, IsCompleteNode, IsReadableNode, IsReducedNode, IsInRangeNode,
        and_true, Numeral.isCanonical_iff]
      constructor
      · rintro ⟨⟨digits, -⟩, rest⟩
        exact ⟨digits, rest⟩
      · rintro ⟨digits, whole, rest⟩
        exact ⟨⟨digits, Numeral.power_ne_of_isWhole whole⟩, whole, rest⟩
  | term factors =>
      match factors with
      | [] | _ :: _ :: _ =>
          simp [IsCanonicalNode, IsCompleteNode, IsReadableNode, IsReducedNode, IsInRangeNode]
      | [factor] =>
          simp [IsCanonicalNode, IsCompleteNode, IsReadableNode, IsReducedNode, IsInRangeNode,
            Powered.not_isBare_iff]

theorem everywhere_and {good good' : Particle → Prop} :
    p.Everywhere (fun q => good q ∧ good' q) ↔ p.Everywhere good ∧ p.Everywhere good' := by
  refine ⟨fun h => ⟨h.imp fun _ => And.left, h.imp fun _ => And.right⟩, fun h => ?_⟩
  induction p using Particle.induct with
  | node p ih =>
      exact everywhere_iff.mpr ⟨⟨h.1.here, h.2.here⟩,
        fun q hq => ih q hq ⟨h.1.part hq, h.2.part hq⟩⟩

/-- Canonical form is being complete and readable. -/
theorem isCanonical_iff : p.IsCanonical ↔ p.IsComplete ∧ p.IsReadable := by
  have nodes : IsCanonicalNode = fun q => q.IsCompleteNode ∧ q.IsReadableNode :=
    funext fun _ => propext isCanonicalNode_iff
  rw [IsCanonical, nodes]
  exact everywhere_and

theorem IsCanonical.isFormed (h : p.IsCanonical) : p.IsFormed :=
  h.imp fun _ node =>
    have parts := isCanonicalNode_iff.mp node
    ⟨parts.1, parts.2.1⟩

theorem IsFormed.isComplete (h : p.IsFormed) : p.IsComplete :=
  h.imp fun _ => And.left

theorem IsReadable.isInRange (h : p.IsReadable) : p.IsInRange :=
  h.imp fun _ => And.right

/-- A well-formed particle is readable if it is in range. -/
theorem IsFormed.isReadable (h : p.IsFormed) (range : p.IsInRange) : p.IsReadable :=
  everywhere_and.mpr ⟨h.imp fun _ => And.right, range⟩

/-! ## Readable particles -/

variable {q : Particle} {s : Bool} {e : UInt32}

theorem isReadable_iff :
    p.IsReadable ↔ p.IsReadableNode ∧ ∀ q ∈ p.body.parts, q.IsReadable :=
  everywhere_iff

/-! ## Well-formed particles -/

theorem isFormed_iff : p.IsFormed ↔ p.IsFormedNode ∧ ∀ q ∈ p.body.parts, q.IsFormed :=
  everywhere_iff

theorem isFormed_number {n : Numeral} (h : n.HasDigits) : IsFormed ⟨s, .number n, e⟩ :=
  isFormed_iff.mpr ⟨⟨h, trivial⟩, by simp [Body.parts]⟩

theorem isFormed_zero : zero.IsFormed :=
  isFormed_number ⟨by simp [Numeral.zero], by simp [Numeral.zero]⟩

theorem isFormed_unit (s : Bool) : (unit s).IsFormed :=
  isFormed_number ⟨by simp [Numeral.one], by simp [Numeral.one]⟩

theorem isFormed_fraction (hp : p.IsFormed) (hq : q.IsFormed) : IsFormed ⟨s, .fraction p q, e⟩ :=
  isFormed_iff.mpr ⟨⟨trivial, trivial⟩, by simpa [Body.parts] using ⟨hp, hq⟩⟩

theorem isFormed_term {factors : List Particle} (h : ∀ q ∈ factors, q.IsFormed)
    (several : 2 ≤ factors.length) : IsFormed ⟨s, .term factors, e⟩ :=
  isFormed_iff.mpr ⟨⟨.inl several, isReducedNode_of_several several⟩, h⟩

/-- The sign of a well-formed particle does not count. -/
theorem IsFormed.withSign (h : p.IsFormed) (s : Bool) : IsFormed (p.withSign s) :=
  Everywhere.withHead h h.here

/-- Nor does another exponent than one, or any exponent in place of one. -/
theorem IsFormed.withExponent (h : p.IsFormed) (s : Bool) (other : e ≠ 1 ∨ p.exponent = 1) :
    IsFormed (p.withSignAndExponent s e) := by
  have node : p.IsFormedNode := h.here
  refine Everywhere.withHead h ⟨?_, node.2⟩
  obtain ⟨t, b, f⟩ := p
  cases b with
  | term factors =>
      rcases node.1 with several | ⟨raised, one⟩
      · exact .inl several
      · exact .inr ⟨other.resolve_right raised, one⟩
  | number | fraction | mixed | symbol | expression | root => exact node.1

theorem IsFormed.foldInto (h : p.IsFormed) (s : Bool) (e : UInt32) : (p.foldInto s e).IsFormed := by
  unfold Particle.foldInto
  split
  · exact h.withSign _
  · next raised =>
    split
    · exact h.withExponent _ (.inl raised)
    · next powered =>
      have node : IsFormedNode ⟨s, .term [p], e⟩ :=
        ⟨.inr ⟨raised, rfl⟩, fun bare => powered bare.2⟩
      exact isFormed_iff.mpr ⟨node, List.forall_mem_singleton.mpr h⟩

end Particle

/-- Canonical form is being complete and readable. -/
theorem Value.isCanonical_iff {v : Value} : v.IsCanonical ↔ v.IsComplete ∧ v.IsReadable := by
  cases v with
  | particle p => exact Particle.isCanonical_iff
  | equation left right =>
      simp only [IsCanonical, IsComplete, IsReadable, Particle.isCanonical_iff]
      exact and_and_and_comm

end StepAlgebra
