import StepAlgebra.Particle.Printer
import StepAlgebra.Proofs.Numeral
import StepAlgebra.Proofs.Particle.Parts

/-!
# Canonical particles

The particles that have a text of their own: no term of a single factor where the factor could
stand itself, no expression of a single term, no number without digits.

* `Particle.IsCanonical`, `Value.IsCanonical` — what this means for a whole tree;
* `Particle.bodyText_eq` — a body is written in its own parentheses, or without any.
-/

namespace StepAlgebra

namespace Particle

/-- What a canonical particle is like, its parts aside. -/
def IsCanonicalNode (p : Particle) : Prop :=
  match p.body with
  | .number n => n.IsCanonical
  | .fraction _ _ => True
  | .mixed n top bottom =>
      n.IsCanonical ∧ n.isWhole = true ∧ (plainNumber? top).isSome = true ∧
        (plainNumber? bottom).isSome = true
  | .symbol name => name.isAlpha = true
  | .term factors =>
      2 ≤ factors.length ∨
        p.exponent ≠ 1 ∧ ∃ f : Particle, factors = [f] ∧ (f.positive = false ∨ f.exponent ≠ 1)
  | .expression terms => 2 ≤ terms.length
  | .root index _ => 2 ≤ index

/-- A particle whose nodes are all canonical. -/
def IsCanonical (p : Particle) : Prop :=
  p.Everywhere IsCanonicalNode

end Particle

/-- A value whose particles are canonical. -/
def Value.IsCanonical : Value → Prop
  | .particle p => p.IsCanonical
  | .equation left right => left.IsCanonical ∧ right.IsCanonical

namespace Particle

/-- Tells whether a body has parentheses of its own. -/
def standsEnclosed (s : Bool) (e : UInt32) : Body → Bool
  | .number n => e != 1 && n.isScientific
  | .fraction _ _ | .mixed _ _ _ | .term _ => e != 1
  | .expression _ => !s || e != 1
  | .symbol _ | .root _ _ => false

/-- The text that a body has parentheses around, or stands with. -/
def enclosedText (e : UInt32) : Body → String
  | .term factors => factorsText (isLoneFactor factors e) false factors
  | b => bodyText true 1 b

/-- A body that is read as one atom even without parentheses. -/
def isSimple : Body → Bool
  | .term _ | .expression _ => false
  | _ => true

@[simp] theorem wrapText_true (s : String) : wrapText true s = "(" ++ s ++ ")" :=
  rfl

@[simp] theorem wrapText_false (s : String) : wrapText false s = s :=
  rfl

theorem bodyText_eq (s : Bool) (e : UInt32) (b : Body) :
    bodyText s e b = wrapText (standsEnclosed s e b) (enclosedText e b) := by
  cases b <;> simp [bodyText, enclosedText, standsEnclosed, wrapText]

theorem text_eq (s : Bool) (b : Body) (e : UInt32) :
    text ⟨s, b, e⟩ = signText s ++ (bodyText s e b ++ exponentText e) := by
  rw [text, String.append_assoc]

theorem text_positive (b : Body) (e : UInt32) :
    text ⟨true, b, e⟩ = bodyText true e b ++ exponentText e := by
  rw [text_eq, signText, if_pos rfl, String.empty_append]

theorem text_negative (b : Body) (e : UInt32) :
    text ⟨false, b, e⟩ = "-" ++ (bodyText false e b ++ exponentText e) :=
  text_eq false b e

theorem exponentText_one : exponentText 1 = "" :=
  rfl

theorem exponentText_of_ne {e : UInt32} (h : e ≠ 1) :
    exponentText e = Superscript.ofNat e.toNat :=
  if_neg h

end Particle

end StepAlgebra
