import Mathlib.Algebra.Field.Rat
import Mathlib.Algebra.BigOperators.Group.List.Basic
import Mathlib.Tactic.Ring
import StepAlgebra.Particle.Equality
import StepAlgebra.Proofs.Digits
import StepAlgebra.Proofs.Particle.Parts

/-!
# What values mean

Every value is a rational number once its variables and its roots are given one. Nothing is
rounded here, and division by zero is zero.

* `Particle.meaning_of_same` — particles that are the same mean the same;
* `Particle.Swap.meaning_eq` — a child may be swapped for one of the same meaning;
* `Particle.meaning_foldInto` — what a particle means under an outer sign and exponent.
-/

namespace StepAlgebra

/-- Values for the variables, and for a root by its index and the value of its radicand. -/
structure Assignment where
  symbol : Char → ℚ
  root : UInt32 → ℚ → ℚ

/-- The factor that a sign is. -/
def sgn (positive : Bool) : ℚ :=
  if positive then 1 else -1

/-- The number that a numeral writes: its digits times a power of ten. -/
def Numeral.meaning (n : Numeral) : ℚ :=
  n.digits.value * 10 ^ (n.power.elim 0 Int32.toInt - (n.places.getD []).length : ℤ)

namespace Particle

mutual

/-- The number that a particle means: its body raised to the exponent, then given the sign. -/
def meaning (a : Assignment) : Particle → ℚ
  | ⟨s, b, e⟩ => sgn s * bodyMeaning a b ^ e.toNat

/-- The number that a body means. -/
def bodyMeaning (a : Assignment) : Body → ℚ
  | .number n => n.meaning
  | .fraction top bottom => meaning a top / meaning a bottom
  | .mixed n top bottom => n.meaning + meaning a top / meaning a bottom
  | .symbol x => a.symbol x
  | .term factors => rowProduct a factors
  | .expression terms => rowSum a terms
  | .root index radicand => a.root index (meaning a radicand)

/-- The product of what the particles of a row mean. -/
def rowProduct (a : Assignment) : List Particle → ℚ
  | [] => 1
  | p :: ps => meaning a p * rowProduct a ps

/-- The sum of what the particles of a row mean. -/
def rowSum (a : Assignment) : List Particle → ℚ
  | [] => 0
  | p :: ps => meaning a p + rowSum a ps

end

end Particle

/-! ## Signs -/

@[simp] theorem sgn_true : sgn true = 1 := rfl

@[simp] theorem sgn_false : sgn false = -1 := rfl

theorem sgn_mul_self (s : Bool) : sgn s * sgn s = 1 := by
  cases s <;> norm_num

@[simp] theorem sgn_mul_cancel (s : Bool) (x : ℚ) : sgn s * (sgn s * x) = x := by
  rw [← mul_assoc, sgn_mul_self, one_mul]

theorem sgn_beq (s t : Bool) : sgn (s == t) = sgn s * sgn t := by
  cases s <;> cases t <;> norm_num

theorem sgn_not (s : Bool) : sgn (!s) = -sgn s := by
  cases s <;> norm_num

theorem sgn_bne (s t : Bool) : sgn (s != t) = -(sgn s * sgn t) := by
  cases s <;> cases t <;> norm_num

/-- An odd power keeps a sign and an even power drops it. -/
theorem sgn_pow (s : Bool) (e : UInt32) :
    sgn s ^ e.toNat = sgn !(!s && e % 2 == 1) := by
  have parity : (e % 2 == 1) = decide (e.toNat % 2 = 1) := by
    rw [Bool.eq_iff_iff, beq_iff_eq, decide_eq_true_iff, ← UInt32.toNat_inj, UInt32.toNat_mod]
    rfl
  rw [parity]
  cases s with
  | true => simp
  | false =>
      rcases Nat.mod_two_eq_zero_or_one e.toNat with even | odd
      · rw [sgn_false, (Nat.even_iff.mpr even).neg_one_pow, even]
        rfl
      · rw [sgn_false, (Nat.odd_iff.mpr odd).neg_one_pow, odd]
        rfl

/-- An integer lies on the side of zero that a sign names. -/
def SignedBy (positive : Bool) (z : Int) : Prop :=
  if positive then 0 ≤ z else z ≤ 0

theorem sgn_mul_natAbs {positive : Bool} {z : Int} (h : SignedBy positive z) :
    sgn positive * (z.natAbs : ℚ) = z := by
  cases positive with
  | true =>
      rw [sgn_true, one_mul, ← Int.cast_natCast, Int.natAbs_of_nonneg h]
  | false =>
      rw [sgn_false, ← Int.cast_natCast, Int.ofNat_natAbs_of_nonpos h]
      push_cast
      ring

theorem signedBy_decide (z : Int) : SignedBy (decide (0 < z)) z := by
  unfold SignedBy
  split
  · next positive => exact Int.le_of_lt (of_decide_eq_true positive)
  · next negative => exact Int.not_lt.mp (by simpa using negative)

theorem signedBy_decide_le (z : Int) : SignedBy (decide (0 ≤ z)) z := by
  unfold SignedBy
  split
  · next positive => exact of_decide_eq_true positive
  · next negative => exact Int.le_of_lt (by simpa using negative)

namespace Particle

variable {a : Assignment}

/-! ## Rows -/

theorem meaning_eq (p : Particle) :
    p.meaning a = sgn p.positive * bodyMeaning a p.body ^ p.exponent.toNat := by
  obtain ⟨s, b, e⟩ := p
  rw [meaning]

theorem rowSum_eq (ps : List Particle) : rowSum a ps = (ps.map (meaning a)).sum := by
  induction ps with
  | nil => rfl
  | cons p ps ih => rw [rowSum, ih, List.map_cons, List.sum_cons]

theorem rowProduct_eq (ps : List Particle) : rowProduct a ps = (ps.map (meaning a)).prod := by
  induction ps with
  | nil => rfl
  | cons p ps ih => rw [rowProduct, ih, List.map_cons, List.prod_cons]

/-- A particle with the exponent one means what its body does under its sign. -/
theorem meaning_plain (s : Bool) (b : Body) :
    meaning a ⟨s, b, 1⟩ = sgn s * bodyMeaning a b := by
  rw [meaning, show (1 : UInt32).toNat = 1 from rfl, pow_one]

theorem toNat_ne_zero {e : UInt32} (he : e ≠ 0) : e.toNat ≠ 0 :=
  fun h => he (UInt32.toNat_inj.mp h)

/-! ## Equality -/

theorem meaning_of_isZero {p : Particle} (hzero : p.isZero = true) (he : p.exponent ≠ 0) :
    p.meaning a = 0 := by
  obtain ⟨s, b, e⟩ := p
  cases b with
  | number n =>
      have hdigits : n.digits.value = 0 := by
        rw [Digits.value_eq_zero_iff]
        simpa [isZero, Numeral.isZero] using hzero
      rw [meaning, bodyMeaning, Numeral.meaning, hdigits, Nat.cast_zero, zero_mul,
        zero_pow (toNat_ne_zero he), mul_zero]
  | _ => simp [isZero] at hzero

theorem forall₂_of_sameRow {ps qs : List Particle} (h : sameRow ps qs = true) :
    List.Forall₂ (fun p q => p.same q = true) ps qs := by
  induction ps generalizing qs with
  | nil =>
      cases qs with
      | nil => exact .nil
      | cons q qs => simp [sameRow] at h
  | cons p ps ih =>
      cases qs with
      | nil => simp [sameRow] at h
      | cons q qs =>
          rw [sameRow, Bool.and_eq_true] at h
          exact .cons h.1 (ih h.2)

/-- Rows that mean the same particle by particle mean the same. -/
theorem map_meaning_of_sameRow {ps qs : List Particle} (h : sameRow ps qs = true)
    (parts : ∀ p ∈ ps, ∀ q, p.same q = true → p.meaning a = q.meaning a) :
    ps.map (meaning a) = qs.map (meaning a) := by
  have rows := forall₂_of_sameRow h
  clear h
  induction rows with
  | nil => rfl
  | cons same _ ih =>
      rw [List.map_cons, List.map_cons, parts _ List.mem_cons_self _ same,
        ih fun p hp => parts p (List.mem_cons_of_mem _ hp)]

theorem bodyMeaning_of_same {b c : Body} (h : b.same c = true)
    (parts : ∀ p ∈ b.parts, ∀ q, p.same q = true → p.meaning a = q.meaning a) :
    bodyMeaning a b = bodyMeaning a c := by
  cases b <;> cases c <;> simp only [Body.same, Bool.false_eq_true, Bool.and_eq_true,
    beq_iff_eq] at h <;> simp only [bodyMeaning]
  case number.number => rw [h]
  case fraction.fraction top bottom top' bottom' =>
    rw [parts top (by simp [Body.parts]) top' h.1, parts bottom (by simp [Body.parts]) bottom' h.2]
  case mixed.mixed m top bottom n top' bottom' =>
    rw [h.1.1, parts top (by simp [Body.parts]) top' h.1.2,
      parts bottom (by simp [Body.parts]) bottom' h.2]
  case symbol.symbol => rw [h]
  case term.term => rw [rowProduct_eq, rowProduct_eq, map_meaning_of_sameRow h parts]
  case expression.expression => rw [rowSum_eq, rowSum_eq, map_meaning_of_sameRow h parts]
  case root.root radicand _ radicand' =>
    rw [h.1, parts radicand (by simp [Body.parts]) radicand' h.2]

/-- Particles that are the same mean the same, unless a zero stands under the exponent zero. -/
theorem meaning_of_same {p q : Particle} (h : p.same q = true)
    (powers : p.Everywhere fun p => p.exponent ≠ 0) : p.meaning a = q.meaning a := by
  induction p using Particle.induct generalizing q with
  | node p ih =>
      obtain ⟨s, b, e⟩ := p
      obtain ⟨t, c, f⟩ := q
      simp only [same, Bool.and_eq_true, beq_iff_eq] at h
      obtain ⟨⟨signs, rfl⟩, body⟩ := h
      have bodies := bodyMeaning_of_same body fun p hp q same => ih p hp same (powers.part hp)
      simp only [Body.signsAgree, Bool.or_eq_true, beq_iff_eq] at signs
      rcases signs with rfl | zero
      · rw [meaning, meaning, bodies]
      · -- the signs may differ before zero, which both particles are
        have left : meaning a ⟨s, b, e⟩ = 0 := meaning_of_isZero zero powers.here
        have right : meaning a ⟨t, b, e⟩ = 0 := meaning_of_isZero zero powers.here
        rw [left, ← right, meaning, meaning, bodies]

/-- What the body of a particle means decides what it means under another sign. -/
theorem meaning_of_body_same {p q : Particle} (h : p.body.same q.body = true)
    (powers : p.Everywhere fun p => p.exponent ≠ 0) :
    bodyMeaning a p.body = bodyMeaning a q.body :=
  bodyMeaning_of_same h fun _ hp _ same => meaning_of_same same (powers.part hp)

/-! ## Replacing a part -/

/-- A child may be swapped for one of the same meaning. -/
theorem Swap.meaning_eq {old new p q : Particle} (swap : Swap old new p q)
    (h : old.meaning a = new.meaning a) : p.meaning a = q.meaning a := by
  cases swap with
  | top | bottom | radicand => simp only [meaning, bodyMeaning, h]
  | factor =>
      simp only [meaning, bodyMeaning, rowProduct_eq, List.map_append, List.map_cons, h]
  | term => simp only [meaning, bodyMeaning, rowSum_eq, List.map_append, List.map_cons, h]

/-! ## Signs and exponents -/

theorem meaning_withSign (p : Particle) (s : Bool) :
    meaning a (p.withSign s) = sgn s * (sgn p.positive * p.meaning a) := by
  rw [meaning_eq, meaning_eq p, sgn_mul_cancel]
  rfl

/-- An outer sign and exponent apply to the whole of what a particle means. -/
theorem meaning_foldInto (p : Particle) (positive : Bool) (exponent : UInt32) :
    (p.foldInto positive exponent).meaning a = sgn positive * p.meaning a ^ exponent.toNat := by
  unfold foldInto
  split
  · next one =>
    rw [meaning_withSign, one, show (1 : UInt32).toNat = 1 from rfl, pow_one, sgn_beq, mul_assoc,
      sgn_mul_cancel]
  · split
    · next one =>
      rw [meaning_eq, meaning_eq p, one, show (1 : UInt32).toNat = 1 from rfl, pow_one, mul_pow,
        sgn_pow, sgn_not]
      simp only [Powered.withSignAndExponent, sgn_bne]
      ring
    · rw [meaning, bodyMeaning, rowProduct, rowProduct, mul_one]

end Particle

end StepAlgebra
