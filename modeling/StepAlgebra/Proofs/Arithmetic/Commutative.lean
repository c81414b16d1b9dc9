import StepAlgebra.Arithmetic.Constant

/-!
# Arithmetic is commutative

The sum and the product of two constants do not depend on their order. Nor does the kind of failure
where there is none; its operands are named in the order in which they were given.

* `Agree` — operations with related results, or failures of one kind;
* `Particle.areCombinable_comm`, `Particle.addConstants_agree`,
  `Particle.multiplyConstants_agree` — constants in either order.
-/

namespace StepAlgebra

/-- The kinds of failure. -/
inductive Failure.Kind where
  | notCombinable
  | notMultipliable
  | invalidSplice
  | notApplicable
  | tooLarge
  deriving DecidableEq

/-- The kind of a failure, whatever the operands are. -/
def Failure.kind : Failure → Failure.Kind
  | notCombinable _ _ => .notCombinable
  | notMultipliable _ _ => .notMultipliable
  | invalidSplice _ _ => .invalidSplice
  | notApplicable _ _ => .notApplicable
  | tooLarge _ _ => .tooLarge

/-- Both operations have results, which are related, or both fail with one kind of failure. -/
inductive Agree {α : Type} (related : α → α → Prop) :
    Except Failure α → Except Failure α → Prop
  | ok {a b : α} : related a b → Agree related (.ok a) (.ok b)
  | error {e f : Failure} : e.kind = f.kind → Agree related (.error e) (.error f)

section

variable {α β : Type} {related : α → α → Prop} {related' : β → β → Prop} {x y : Except Failure α}

theorem Agree.refl (h : ∀ a, related a a) (x : Except Failure α) : Agree related x x := by
  cases x with
  | ok a => exact .ok (h a)
  | error e => exact .error rfl

theorem Agree.map {f g : α → β} (h : Agree related x y)
    (next : ∀ a b, related a b → related' (f a) (g b)) :
    Agree related' (x.map f) (y.map g) := by
  cases h with
  | ok here => exact .ok (next _ _ here)
  | error kinds => exact .error kinds

theorem Agree.imp {weaker : α → α → Prop} (h : Agree related x y)
    (weaken : ∀ a b, related a b → weaker a b) : Agree weaker x y := by
  cases h with
  | ok here => exact .ok (weaken _ _ here)
  | error kinds => exact .error kinds

end

/-! ## Numbers -/

theorem Decimal.add?_comm (a b : Decimal) : a.add? b = b.add? a := by
  dsimp only [add?]
  rw [Int.max_comm b.scale]
  cases a.withScale? (max a.scale b.scale) with
  | none => cases b.withScale? (max a.scale b.scale) <;> rfl
  | some a' =>
      cases b.withScale? (max a.scale b.scale) with
      | none => rfl
      | some b' => simp only [Option.bind_some, Option.map_some, Int.add_comm]

theorem Decimal.mul_comm (a b : Decimal) : a.mul b = b.mul a := by
  rw [mul, mul, Int.mul_comm, Int.add_comm]

namespace Rounding

variable (policy : Rounding)

theorem appliesTo_comm (m n : Numeral) : policy.appliesTo m n = policy.appliesTo n m := by
  cases policy with
  | always | places => rfl
  | decimals => rw [appliesTo, appliesTo, Bool.and_comm]
  | scientific => rw [appliesTo, appliesTo, Bool.or_comm]

theorem sum?_comm (a b : Number) (exact : Decimal) :
    policy.sum? a b exact = policy.sum? b a exact := by
  cases policy with
  | places => rfl
  | always | decimals | scientific =>
      simp only [sum?, appliesTo_comm _ a.body, Int.min_comm (Decimal.ofNumber a).scale]

theorem product?_comm (a b : Number) (exact : Decimal) :
    policy.product? a b exact = policy.product? b a exact := by
  cases policy with
  | places => rfl
  | always | decimals | scientific =>
      simp only [product?, appliesTo_comm _ a.body, Nat.min_comm (Decimal.ofNumber a).precision]

end Rounding

namespace Number

variable (policy : Rounding) (a b : Number)

theorem finish_agree (rounded : Option Decimal) :
    Agree Eq (finish a b rounded) (finish b a rounded) := by
  unfold finish
  rw [Bool.or_comm b.body.isScientific]
  split
  · exact .ok rfl
  · exact .error rfl

theorem add_agree : Agree Eq (add policy a b) (add policy b a) := by
  unfold add
  rw [Decimal.add?_comm, funext (policy.sum?_comm a b)]
  exact finish_agree a b _

theorem multiply_agree : Agree Eq (multiply policy a b) (multiply policy b a) := by
  unfold multiply
  rw [Decimal.mul_comm, policy.product?_comm]
  exact finish_agree a b _

end Number

/-! ## Constants -/

namespace WholeParts

theorem addFractions?_comm (a b : WholeParts) : addFractions? a b = addFractions? b a := by
  by_cases same : a.bottom = b.bottom
  · rw [addFractions?, addFractions?, same, Int.add_comm]
  · rw [addFractions?, addFractions?, if_neg same, if_neg (Ne.symm same)]

theorem addMixed?_comm (a b : WholeParts) (s t : Bool) :
    addMixed? a b s t = addMixed? b a t s := by
  by_cases same : a.bottom = b.bottom
  · simp only [addMixed?, same, Int.add_comm a.whole, Int.add_comm a.top, eq_comm (a := s)]
  · rw [addMixed?, addMixed?, if_neg same, if_neg (Ne.symm same)]

end WholeParts

namespace Particle

variable (policy : Rounding) (p q : Particle)

theorem addExact?_comm : addExact? p q = addExact? q p := by
  obtain ⟨s, b, e⟩ := p
  obtain ⟨t, c, f⟩ := q
  -- a constant of one sort with one of another has the same rule in either order
  cases b <;> cases c <;> try rfl
  case fraction.fraction top bottom top' bottom' =>
    simp only [addExact?]
    rw [Option.bind_comm]
    simp only [WholeParts.addFractions?_comm]
  case mixed.mixed =>
    simp only [addExact?]
    rw [Option.bind_comm]
    simp only [WholeParts.addMixed?_comm]

theorem areCombinable_comm : areCombinable p q = areCombinable q p := by
  unfold areCombinable
  rw [Bool.and_comm q.isConstant, addExact?_comm q p]
  congr 1
  cases p.body <;> cases q.body <;> rfl

theorem addConstants_agree : Agree Eq (addConstants policy p q) (addConstants policy q p) := by
  unfold addConstants
  rw [Bool.and_comm q.isConstant, addExact?_comm q p]
  split
  · split
    · next m n hp hq =>
      simp only [hp, hq]
      exact (Number.add_agree policy _ _).map fun _ _ => congrArg _
    · next unlike =>
      split <;> split
      · next n m hq hp => exact (unlike m n hp hq).elim
      · exact .ok rfl
      · next n m hq hp => exact (unlike m n hp hq).elim
      · exact .error rfl
  · exact .error rfl

theorem Ratio.multiply_agree (a b : Ratio) :
    Agree Eq (a.multiply policy b) (b.multiply policy a) := by
  have tops := Number.multiply_agree policy a.top b.top
  have bottoms := Number.multiply_agree policy a.bottom b.bottom
  unfold Ratio.multiply
  rw [Bool.beq_comm (a := b.positive)]
  revert tops bottoms
  generalize Number.multiply policy a.top b.top = top
  generalize Number.multiply policy b.top a.top = top'
  generalize Number.multiply policy a.bottom b.bottom = bottom
  generalize Number.multiply policy b.bottom a.bottom = bottom'
  rintro (⟨rfl⟩ | kinds) (⟨rfl⟩ | kinds')
  · exact .refl (fun _ => rfl) _
  · dsimp only
    split
    · exact .ok rfl
    · exact .error kinds'
  · exact .error kinds
  · exact .error kinds

theorem multiplyConstants_agree :
    Agree Eq (multiplyConstants policy p q) (multiplyConstants policy q p) := by
  unfold multiplyConstants
  rw [Bool.and_comm q.isConstant]
  split
  · split
    · next m n hp hq =>
      simp only [hp, hq]
      exact (Number.multiply_agree policy _ _).map fun _ _ => congrArg _
    · next unlike =>
      split <;> split
      · next n m hq hp => exact (unlike m n hp hq).elim
      · next a b ha hb _ _ _ =>
        simp only [ha, hb]
        exact Ratio.multiply_agree policy a b
      · next n m hq hp => exact (unlike m n hp hq).elim
      · next neither _ _ _ =>
        split
        · next b a hb ha => exact (neither a b ha hb).elim
        · exact .error rfl
  · exact .error rfl

end Particle

end StepAlgebra
