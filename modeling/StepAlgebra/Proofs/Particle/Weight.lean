import StepAlgebra.Proofs.Particle.Parts

/-!
# The weight of a value

A sum of `n` terms weighs `2 * (n - 1)`, a product of `n` factors `n - 1`, and a value what the
nodes of its tree weigh together. Sums weigh double since two like terms may become one term with
a coefficient, such as `x+x` and `2x`.

No path leads to the parts of a mixed number. All statements hold whether these parts count or
not; `deep` says which is meant.

* `Particle.Swap.weight_lt` — a lighter child makes the whole lighter.
-/

namespace StepAlgebra

namespace Particle

mutual

/-- The weight of a particle. -/
def weight (deep : Bool) : Particle → Nat
  | ⟨_, b, _⟩ => bodyWeight deep b

/-- The weight of a body: its own and that of its parts. -/
def bodyWeight (deep : Bool) : Body → Nat
  | .number _ | .symbol _ => 0
  | .fraction top bottom => weight deep top + weight deep bottom
  | .mixed _ top bottom => if deep then weight deep top + weight deep bottom else 0
  | .term factors => (factors.length - 1) + rowWeight deep factors
  | .expression terms => 2 * (terms.length - 1) + rowWeight deep terms
  | .root _ radicand => weight deep radicand

/-- The weights of a row of particles together. -/
def rowWeight (deep : Bool) : List Particle → Nat
  | [] => 0
  | p :: ps => weight deep p + rowWeight deep ps

end

end Particle

/-- The weight of a value; an equation weighs what its two sides do. -/
def Value.weight (deep : Bool) : Value → Nat
  | .particle p => p.weight deep
  | .equation left right => left.weight deep + right.weight deep

namespace Particle

variable {deep : Bool}

/-- Signs and exponents weigh nothing. -/
theorem weight_eq (p : Particle) : p.weight deep = bodyWeight deep p.body := by
  obtain ⟨s, b, e⟩ := p
  rfl

theorem rowWeight_append (ps qs : List Particle) :
    rowWeight deep (ps ++ qs) = rowWeight deep ps + rowWeight deep qs := by
  induction ps with
  | nil => rw [List.nil_append, rowWeight, Nat.zero_add]
  | cons p ps ih => rw [List.cons_append, rowWeight, rowWeight, ih, Nat.add_assoc]

theorem rowWeight_perm {ps qs : List Particle} (h : ps.Perm qs) :
    rowWeight deep ps = rowWeight deep qs := by
  induction h with
  | nil => rfl
  | cons p _ ih => rw [rowWeight, rowWeight, ih]
  | swap p q ps => simp only [rowWeight]; omega
  | trans _ _ ih ih' => rw [ih, ih']

theorem rowWeight_filter_le (keep : Particle → Bool) (ps : List Particle) :
    rowWeight deep (ps.filter keep) ≤ rowWeight deep ps := by
  induction ps with
  | nil => exact Nat.le_refl _
  | cons p ps ih =>
      rw [List.filter_cons]
      split
      · rw [rowWeight, rowWeight]
        omega
      · rw [rowWeight]
        omega

/-- A particle that loses weight in one child loses weight. -/
theorem Swap.weight_lt {old new p q : Particle} (swap : Swap old new p q)
    (h : new.weight deep < old.weight deep) : q.weight deep < p.weight deep := by
  cases swap with
  | top | bottom | radicand =>
      simp only [weight, bodyWeight]
      omega
  | factor | term =>
      simp only [weight, bodyWeight, rowWeight_append, rowWeight, List.length_append,
        List.length_cons]
      omega

/-- Putting an outer sign and exponent on a particle adds no weight. -/
theorem weight_foldInto (p : Particle) (positive : Bool) (exponent : UInt32) :
    (p.foldInto positive exponent).weight deep = p.weight deep := by
  unfold foldInto
  split
  · rw [weight_eq, weight_eq p]
    rfl
  · split
    · rw [weight_eq, weight_eq p]
      rfl
    · simp [weight, bodyWeight, rowWeight]

end Particle

end StepAlgebra
