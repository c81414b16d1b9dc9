import StepAlgebra.Proofs.Arithmetic.Commutative
import StepAlgebra.Proofs.Arithmetic.Decimal

/-!
# Arithmetic and signs

A sum whose two operands change their signs changes its sign, and so does a product one of whose
operands does. Rounding does not break this, since a half goes away from zero on both sides of it.
What is refused stays refused, with a failure of the same kind.

* `Opposite` — two particles of which one is the other negated, zero aside;
* `Decimal.withScale?_negate`, `Decimal.withPrecision?_negate` — rounding is symmetric about zero;
* `Particle.areCombinable_negate`, `Particle.addConstants_negate`,
  `Particle.multiplyConstants_negate` — constants under the other sign;
* `Particle.addConstants_negate_self` — a constant and its negation cancel.
-/

namespace StepAlgebra

/-- The second particle is the first with the other sign, or both are `0`, which no arithmetic
writes with a minus sign. -/
inductive Opposite : Particle → Particle → Prop
  | negate (p : Particle) : Opposite p p.negate
  | zero : Opposite .zero .zero

section

variable {α β : Type} {related : β → β → Prop} {f g : α → Option β} {change : α → α}

/-- Two operations on an operand and on its image are related if they are for every operand. -/
theorem rel_bind_map (x : Option α) (h : ∀ a, Option.Rel related (f a) (g (change a))) :
    Option.Rel related (x.bind f) ((x.map change).bind g) := by
  cases x with
  | none => exact .none
  | some a => exact h a

/-- Two choices by one condition are related if they are on either side of it. -/
theorem rel_ite {c : Prop} [Decidable c] {x x' y y' : β} (pos : c → related x y)
    (neg : ¬c → related x' y') : related (if c then x else x') (if c then y else y') := by
  by_cases h : c
  · rw [if_pos h, if_pos h]
    exact pos h
  · rw [if_neg h, if_neg h]
    exact neg h

end

/-- An integer other than zero is positive exactly if its negation is not. -/
theorem decide_pos_neg {z : Int} (h : z ≠ 0) : decide (0 < -z) = !decide (0 < z) := by
  rw [← decide_not, decide_eq_decide]
  omega

/-! ## Decimals -/

namespace Decimal

/-- The decimal on the other side of zero. -/
def negate (d : Decimal) : Decimal :=
  { d with unscaled := -d.unscaled }

variable (d a b : Decimal)

theorem ofNumber_negate (n : Number) : ofNumber n.negate = (ofNumber n).negate := by
  obtain ⟨s, n, e⟩ := n
  cases s <;> simp [ofNumber, ofNumeral, negate, Powered.negate]

theorem digits_negate : d.negate.digits = d.digits := by
  rw [digits, digits, negate, Int.natAbs_neg]

theorem precision_negate : d.negate.precision = d.precision := by
  rw [precision, precision, digits_negate]

theorem isZero_negate : d.negate.isZero = d.isZero := by
  rw [isZero, isZero, negate, Bool.eq_iff_iff, beq_iff_eq, beq_iff_eq, Int.neg_eq_zero]

theorem divRound_zero (d : Nat) : divRound 0 d = 0 := by
  have small : (2 * (0 : Int).natAbs + d) / (2 * d) = 0 := by
    rcases Nat.eq_zero_or_pos d with rfl | pos
    · rfl
    · exact Nat.div_eq_of_lt (by simp; omega)
  unfold divRound
  rw [small]
  rfl

/-- A half goes away from zero on either side. -/
theorem divRound_neg (n : Int) (d : Nat) : divRound (-n) d = -divRound n d := by
  rcases Int.lt_trichotomy n 0 with negative | rfl | positive
  · rw [divRound, divRound, Int.natAbs_neg, if_neg (by omega), if_pos negative, Int.neg_neg]
  · rw [Int.neg_zero, divRound_zero, Int.neg_zero]
  · rw [divRound, divRound, Int.natAbs_neg, if_pos (by omega), if_neg (by omega)]

theorem withScale?_negate (scale : Int) :
    d.negate.withScale? scale = (d.withScale? scale).map negate := by
  have sameScale : d.negate.scale = d.scale := rfl
  unfold withScale?
  rw [sameScale, precision_negate]
  split
  · dsimp only
    split
    · rw [Option.map_some, negate, negate, Int.neg_mul]
    · rfl
  · dsimp only
    split
    · rfl
    · simp only [Option.map_some, negate, divRound_neg]

theorem withPrecision?_negate (precision : Nat) :
    d.negate.withPrecision? precision = (d.withPrecision? precision).map negate := by
  unfold withPrecision?
  rw [precision_negate, withScale?_negate]
  split <;> rfl

theorem add?_negate : a.negate.add? b.negate = (a.add? b).map negate := by
  have left : a.negate.scale = a.scale := rfl
  have right : b.negate.scale = b.scale := rfl
  dsimp only [add?]
  rw [left, right, withScale?_negate, withScale?_negate]
  cases a.withScale? (max a.scale b.scale) with
  | none => rfl
  | some a' =>
      cases b.withScale? (max a.scale b.scale) with
      | none => rfl
      | some b' => simp only [Option.bind_some, Option.map_some, negate, Int.neg_add]

theorem mul_negate : a.negate.mul b = (a.mul b).negate := by
  rw [mul, mul, negate, negate, Int.neg_mul]

/-- Apart from zero a decimal and its negation are written under opposite signs. -/
theorem toNumber?_negate (scientific : Bool) :
    Option.Rel (fun m n => Opposite m.particle n.particle) (d.toNumber? scientific)
      (d.negate.toNumber? scientific) := by
  unfold toNumber?
  rw [isZero_negate, digits_negate]
  split
  · exact .some .zero
  · next nonzero =>
    have sign : decide (0 < d.negate.unscaled) = !decide (0 < d.unscaled) :=
      decide_pos_neg (by simpa [isZero] using nonzero)
    have sameScale : d.negate.scale = d.scale := rfl
    dsimp only
    rw [sign, sameScale]
    generalize (if (scientific || decide (d.scale < 0)) = true then
      scientific? d.digits d.scale else some (positional d.digits d.scale.toNat)) = written
    cases written with
    | none => exact .none
    | some numeral => exact .some (.negate _)

end Decimal

/-! ## Numbers -/

namespace Rounding

variable (policy : Rounding) (a b : Number) (exact : Decimal)

theorem sum?_negate :
    policy.sum? a.negate b.negate exact.negate = (policy.sum? a b exact).map Decimal.negate := by
  have scaleOf (n : Number) : (Decimal.ofNumber n.negate).scale = (Decimal.ofNumber n).scale := by
    rw [Decimal.ofNumber_negate]
    rfl
  cases policy with
  | places => exact Decimal.withScale?_negate _ _
  | always | decimals | scientific =>
      simp only [sum?, scaleOf, Decimal.withScale?_negate, apply_ite (Option.map Decimal.negate)]
      rfl

theorem product?_negate :
    policy.product? a.negate b exact.negate = (policy.product? a b exact).map Decimal.negate := by
  have precisionOf : (Decimal.ofNumber a.negate).precision = (Decimal.ofNumber a).precision := by
    rw [Decimal.ofNumber_negate, Decimal.precision_negate]
  cases policy with
  | places => exact Decimal.withScale?_negate _ _
  | always | decimals | scientific =>
      simp only [product?, precisionOf, Decimal.withPrecision?_negate,
        apply_ite (Option.map Decimal.negate)]
      rfl

end Rounding

namespace Number

variable (policy : Rounding) (a b : Number)

/-- What is written for a result and for its negation, of whatever operands with these numerals. -/
theorem finish_negate (a' b' : Number) (ha : a'.body = a.body) (hb : b'.body = b.body)
    (rounded : Option Decimal) :
    Agree (fun m n => Opposite m.particle n.particle) (finish a b rounded)
      (finish a' b' (rounded.map Decimal.negate)) := by
  unfold finish
  rw [ha, hb]
  cases rounded with
  | none => exact .error rfl
  | some d =>
      have written := d.toNumber?_negate (a.body.isScientific || b.body.isScientific)
      simp only [Option.map_some, Option.bind_some]
      generalize d.toNumber? (a.body.isScientific || b.body.isScientific) = m at written ⊢
      generalize d.negate.toNumber? (a.body.isScientific || b.body.isScientific) = n at written ⊢
      cases written with
      | none => exact .error rfl
      | some opposite => exact .ok opposite

theorem add_negate :
    Agree (fun m n => Opposite m.particle n.particle) (add policy a b)
      (add policy a.negate b.negate) := by
  have exact : ((Decimal.ofNumber a.negate).add? (Decimal.ofNumber b.negate)).bind
      (policy.sum? a.negate b.negate) =
      (((Decimal.ofNumber a).add? (Decimal.ofNumber b)).bind (policy.sum? a b)).map
        Decimal.negate := by
    rw [Decimal.ofNumber_negate, Decimal.ofNumber_negate, Decimal.add?_negate]
    cases (Decimal.ofNumber a).add? (Decimal.ofNumber b) with
    | none => rfl
    | some sum => exact policy.sum?_negate a b sum
  unfold add
  rw [exact]
  exact finish_negate a b a.negate b.negate rfl rfl _

theorem multiply_negate :
    Agree (fun m n => Opposite m.particle n.particle) (multiply policy a b)
      (multiply policy a.negate b) := by
  unfold multiply
  rw [Decimal.ofNumber_negate, Decimal.mul_negate, policy.product?_negate]
  exact finish_negate a b a.negate b rfl rfl _

end Number

/-! ## Whole parts -/

theorem Numeral.ofMagnitude_neg (z : Int) : Numeral.ofMagnitude (-z) = .ofMagnitude z := by
  simp only [Numeral.ofMagnitude, Int.neg_eq_zero, Int.natAbs_neg]

theorem Particle.ofInt_neg (z : Int) : Opposite (.ofInt z) (.ofInt (-z)) := by
  by_cases zero : z = 0
  · rw [zero]
    exact .zero
  · have sign : decide (0 ≤ -z) = !decide (0 ≤ z) := by
      rw [← decide_not, decide_eq_decide]
      omega
    rw [ofInt, ofInt, Numeral.ofMagnitude_neg, sign]
    exact .negate _

namespace WholeParts

/-- The parts of a fraction or mixed number under the other sign. -/
def negate (parts : WholeParts) : WholeParts :=
  { parts with whole := -parts.whole, top := -parts.top }

variable (s : Bool)

theorem signed_not (n : Numeral) : signed (!s) n = -signed s n := by
  cases s <;> simp [signed]

theorem ofFraction?_not (top bottom : Particle) :
    ofFraction? (!s) top bottom = (ofFraction? s top bottom).map negate := by
  unfold ofFraction?
  rw [funext (signed_not s)]
  split <;> rfl

theorem ofMixed?_not (n : Numeral) (top bottom : Particle) :
    ofMixed? (!s) n top bottom = (ofMixed? s n top bottom).map negate := by
  unfold ofMixed?
  rw [ofFraction?_not, signed_not]
  split
  · rw [Option.map_map, Option.map_map]
    rfl
  · rfl

theorem fraction_neg (top : Int) (bottom : Numeral) :
    Opposite (fraction top bottom) (fraction (-top) bottom) := by
  unfold fraction
  simp only [Numeral.ofMagnitude_neg, Int.neg_eq_zero]
  refine rel_ite (fun _ => .zero) fun nonzero => ?_
  rw [decide_pos_neg nonzero]
  exact rel_ite (fun _ => .negate (.unit _)) fun _ => .negate _

theorem mixed_neg (whole top : Int) (bottom : Numeral) :
    Opposite (mixed s whole top bottom) (mixed (!s) (-whole) (-top) bottom) := by
  rw [mixed, mixed, Numeral.ofMagnitude_neg, Numeral.ofMagnitude_neg]
  exact .negate _

/-! Each rule for adding parts asks the same of the parts under the other signs. -/

theorem addFractions?_negate (a b : WholeParts) :
    Option.Rel Opposite (addFractions? a b) (addFractions? a.negate b.negate) := by
  simp only [addFractions?, negate, ← Int.neg_add]
  exact rel_ite (fun _ => .some (fraction_neg _ _)) fun _ => .none

theorem addToFraction?_negate (n : Numeral) (f : Particle) (parts : WholeParts) :
    Option.Rel Opposite (addToFraction? s n f parts)
      (addToFraction? (!s) n f.negate parts.negate) := by
  have signs : ((!s) != f.negate.positive) = (s != f.positive) := by
    cases s <;> simp [Powered.negate]
  unfold addToFraction?
  rw [signs]
  split
  · exact .none
  split
  · exact .some (.negate f)
  · -- only the size of the number counts, and it has not changed
    simp only [mixed, negate, Numeral.ofMagnitude_neg]
    exact .some (.negate _)

theorem addToMixed?_negate (n : Numeral) (t : Bool) (parts : WholeParts) :
    Option.Rel Opposite (addToMixed? s n t parts) (addToMixed? (!s) n (!t) parts.negate) := by
  unfold addToMixed?
  split
  · exact .none
  · simp only [signed_not, negate, ← Int.neg_add, Int.neg_eq_zero]
    generalize signed s n + parts.whole = whole
    refine rel_ite (fun _ => .some (fraction_neg _ _)) fun nonzero => ?_
    simp only [decide_pos_neg nonzero, Bool.not_inj_iff]
    exact rel_ite (fun _ => .some (mixed_neg _ _ _ _)) fun _ => .none

theorem addFractionToMixed?_negate (f m : WholeParts) :
    Option.Rel Opposite (addFractionToMixed? f m s)
      (addFractionToMixed? f.negate m.negate (!s)) := by
  simp only [addFractionToMixed?, negate, ← Int.neg_add, Int.neg_eq_zero]
  generalize f.top + m.top = top
  refine rel_ite (fun _ => ?_) fun _ => .none
  refine rel_ite (fun _ => .some (Particle.ofInt_neg _)) fun nonzero => ?_
  simp only [decide_pos_neg nonzero, Bool.not_inj_iff]
  exact rel_ite (fun _ => .some (mixed_neg _ _ _ _)) fun _ => .none

theorem addMixed?_negate (a b : WholeParts) (t : Bool) :
    Option.Rel Opposite (addMixed? a b s t) (addMixed? a.negate b.negate (!s) (!t)) := by
  simp only [addMixed?, negate, ← Int.neg_add, Int.neg_eq_zero]
  generalize a.whole + b.whole = whole
  generalize a.top + b.top = top
  have guard : ((!s) = !t ∨ whole = 0 ∨ top = 0 ∨ (0 < -top ↔ 0 < -whole)) ↔
      (s = t ∨ whole = 0 ∨ top = 0 ∨ (0 < top ↔ 0 < whole)) := by
    rw [Bool.not_inj_iff]
    refine or_congr_right ?_
    omega
  simp only [guard]
  refine rel_ite (fun _ => ?_) fun _ => .none
  refine rel_ite (fun _ => ?_) fun _ => .none
  refine rel_ite (fun _ => .some (Particle.ofInt_neg _)) fun _ => ?_
  refine rel_ite (fun _ => .some (fraction_neg _ _)) fun nonzero => ?_
  rw [decide_pos_neg nonzero]
  exact .some (mixed_neg _ _ _ _)

end WholeParts

/-! ## Constants -/

namespace Particle

open WholeParts

variable (policy : Rounding) (p q : Particle)

theorem isConstant_negate : isConstant p.negate = p.isConstant := rfl

theorem addExact?_negate : Option.Rel Opposite (addExact? p q) (addExact? p.negate q.negate) := by
  obtain ⟨s, b, e⟩ := p
  obtain ⟨t, c, f⟩ := q
  -- all pairs of forms but these eight are refused under any signs
  cases b <;> cases c <;> try exact .none
  all_goals
    simp only [addExact?, Powered.negate, ofFraction?_not, ofMixed?_not]
    refine rel_bind_map _ fun x => ?_
  case fraction.fraction => exact rel_bind_map _ fun y => addFractions?_negate x y
  case number.fraction => exact addToFraction?_negate _ _ _ _
  case fraction.number => exact addToFraction?_negate _ _ _ _
  case number.mixed => exact addToMixed?_negate _ _ _ _
  case mixed.number => exact addToMixed?_negate _ _ _ _
  case fraction.mixed => exact rel_bind_map _ fun y => addFractionToMixed?_negate _ _ _
  case mixed.fraction => exact rel_bind_map _ fun y => addFractionToMixed?_negate _ _ _
  case mixed.mixed => exact rel_bind_map _ fun y => addMixed?_negate _ _ _ _

theorem areCombinable_negate : areCombinable p.negate q.negate = areCombinable p q := by
  have decided : (addExact? p.negate q.negate).isSome = (addExact? p q).isSome := by
    have sums := addExact?_negate p q
    generalize addExact? p q = sum at sums ⊢
    generalize addExact? p.negate q.negate = sum' at sums ⊢
    cases sums <;> rfl
  unfold areCombinable
  rw [isConstant_negate, isConstant_negate, decided]
  rfl

theorem addConstants_negate :
    Agree Opposite (addConstants policy p q) (addConstants policy p.negate q.negate) := by
  unfold addConstants
  rw [isConstant_negate, isConstant_negate]
  split
  · have sums := addExact?_negate p q
    generalize addExact? p q = sum at sums ⊢
    generalize addExact? p.negate q.negate = sum' at sums ⊢
    have bodies : p.negate.body = p.body ∧ q.negate.body = q.body := ⟨rfl, rfl⟩
    rw [bodies.1, bodies.2]
    split
    · next m n _ _ =>
      exact (Number.add_negate policy ⟨p.positive, m, p.exponent⟩ ⟨q.positive, n, q.exponent⟩).map
        fun _ _ opposite => opposite
    · cases sums with
      | none => exact .error rfl
      | some opposite => exact .ok opposite
  · exact .error rfl

/-- A ratio under the other sign. -/
def Ratio.negate (c : Ratio) : Ratio :=
  { c with positive := !c.positive }

theorem ratio?_negate : ratio? p.negate = p.ratio?.map Ratio.negate := by
  have body : p.negate.body = p.body := rfl
  unfold ratio?
  rw [body]
  split
  · rfl
  · split <;> rfl
  · rfl

theorem Ratio.multiply_negate (c d : Ratio) :
    Agree Opposite (c.multiply policy d) (c.negate.multiply policy d) := by
  have sign : ((!c.positive) == d.positive) = !(c.positive == d.positive) := by
    cases c.positive <;> simp
  have signs (x : Bool) : ((!(c.positive == d.positive)) == x) =
      !((c.positive == d.positive) == x) := by
    cases c.positive == d.positive <;> simp
  unfold Ratio.multiply
  simp only [Ratio.negate, sign, signs]
  split
  · exact .error rfl
  split
  · exact .ok .zero
  split
  · exact .error rfl
  · exact .ok (.negate _)

theorem multiplyConstants_negate :
    Agree Opposite (multiplyConstants policy p q) (multiplyConstants policy p.negate q) := by
  unfold multiplyConstants
  rw [isConstant_negate, ratio?_negate]
  split
  · have body : p.negate.body = p.body := rfl
    rw [body]
    split
    · next m n _ _ =>
      exact (Number.multiply_negate policy ⟨p.positive, m, p.exponent⟩
        ⟨q.positive, n, q.exponent⟩).map fun _ _ opposite => opposite
    · cases p.ratio? with
      | none => exact .error rfl
      | some c =>
          cases q.ratio? with
          | none => exact .error rfl
          | some d => exact Ratio.multiply_negate policy c d
  · exact .error rfl

end Particle

/-! ## Cancellation -/

namespace Decimal

variable (d : Decimal)

/-- Zero stays zero, however many places are dropped. -/
theorem withScale?_zero {scale fewer : Int} (h : fewer ≤ scale) :
    (⟨0, scale⟩ : Decimal).withScale? fewer = some ⟨0, fewer⟩ := by
  rcases Int.le_iff_eq_or_lt.mp h with rfl | less
  · exact withScale?_self ⟨0, fewer⟩
  · rw [withScale?, if_neg (Int.not_le.mpr less)]
    simp only [divRound_zero, ite_self]

theorem add?_negate_self : d.add? d.negate = some ⟨0, d.scale⟩ := by
  have same : d.negate.scale = d.scale := rfl
  rw [add?_of_scale_eq same, negate, Int.add_right_neg]

end Decimal

/-- Rounding a sum that is zero leaves zero. -/
theorem Rounding.exists_sum?_zero (policy : Rounding) (a b : Number) :
    ∃ scale, policy.sum? a b ⟨0, (Decimal.ofNumber a).scale⟩ = some ⟨0, scale⟩ := by
  cases policy with
  | places => exact ⟨_, Decimal.withScale?_zero (Int.min_le_left _ _)⟩
  | always | decimals | scientific =>
      unfold sum?
      dsimp only
      split
      · exact ⟨_, Decimal.withScale?_zero (Int.min_le_left _ _)⟩
      · exact ⟨_, rfl⟩

/-- A number and its negation add up to `0` under every policy. -/
theorem Number.add_negate_self (policy : Rounding) (a : Number) :
    add policy a a.negate = .ok (.plain .zero) := by
  obtain ⟨scale, rounded⟩ := policy.exists_sum?_zero a a.negate
  rw [add, Decimal.ofNumber_negate, Decimal.add?_negate_self, Option.bind_some, rounded]
  rfl

namespace WholeParts

variable (parts : WholeParts)

theorem addFractions?_negate_self : addFractions? parts parts.negate = some .zero := by
  rw [addFractions?, negate, if_pos rfl, Int.add_right_neg]
  rfl

theorem addMixed?_negate_self (s : Bool) : addMixed? parts parts.negate s (!s) = some .zero := by
  rw [addMixed?, negate, if_pos rfl]
  dsimp only
  rw [Int.add_right_neg, Int.add_right_neg, if_pos (.inr (.inl rfl)), if_pos rfl]
  rfl

end WholeParts

namespace Particle

open WholeParts

variable {policy : Rounding} {p r : Particle}

theorem addExact?_negate_self (h : addExact? p p.negate = some r) : r = zero := by
  obtain ⟨s, b, e⟩ := p
  cases b with
  | number | symbol | term | expression | root => cases h
  | fraction top bottom =>
      simp only [addExact?, Powered.negate, ofFraction?_not, Option.bind_eq_some_iff] at h
      obtain ⟨parts, hparts, opposite, hopposite, h⟩ := h
      rw [hparts] at hopposite
      obtain rfl := Option.some.inj hopposite
      exact Option.some.inj (h.symm.trans (addFractions?_negate_self parts))
  | mixed n top bottom =>
      simp only [addExact?, Powered.negate, ofMixed?_not, Option.bind_eq_some_iff] at h
      obtain ⟨parts, hparts, opposite, hopposite, h⟩ := h
      rw [hparts] at hopposite
      obtain rfl := Option.some.inj hopposite
      exact Option.some.inj (h.symm.trans (addMixed?_negate_self parts s))

/-- A constant that can be added to its negation leaves `0`. -/
theorem addConstants_negate_self (h : areCombinable p p.negate = true) :
    addConstants policy p p.negate = .ok zero := by
  unfold areCombinable at h
  rw [Bool.and_eq_true] at h
  obtain ⟨constants, combinable⟩ := h
  have body : p.negate.body = p.body := rfl
  rw [addConstants, if_pos constants]
  rw [body] at combinable ⊢
  split at combinable
  · next n m hn hm =>
    have cancelled := Number.add_negate_self policy ⟨p.positive, n, p.exponent⟩
    obtain rfl : n = m := Body.number.inj (hn.symm.trans hm)
    exact congrArg (Except.map Number.particle) cancelled
  · obtain ⟨sum, hsum⟩ := Option.isSome_iff_exists.mp combinable
    rw [hsum, addExact?_negate_self hsum]

end Particle

end StepAlgebra
