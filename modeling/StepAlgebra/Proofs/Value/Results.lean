import StepAlgebra.Proofs.Arithmetic.Formed
import StepAlgebra.Proofs.Arithmetic.Precision
import StepAlgebra.Proofs.Value.ReadBack

/-!
# Which results of arithmetic are read back

The sum or product of two numbers has digits wherever it needs them, so only its power of ten
decides whether its text is read. Every 32-bit power can be written, and all but the least are
read. The least is written exactly for a result in scientific notation whose first digit stands at
that power of ten.

* `Decimal.power_eq_least_iff` — which decimals are written with the least power of ten;
* `Value.read_text_number_iff` — which numbers are read back;
* `Number.read_text_unless_least_power` — sums and products of numbers under every policy;
* `Number.exists_result_not_read_back` — a product that is not read.
-/

namespace StepAlgebra

namespace Decimal

theorem eq_minValue_iff {power : Int32} : power = Int32.minValue ↔ power.toInt = -2 ^ 31 := by
  rw [← Int32.toInt_inj]
  rfl

/-- The least power of ten is written if a power is asked for and the first digit stands there. A
power that is not asked for is written for trailing zeros only, and is not negative. -/
theorem power_eq_least_iff {d : Decimal} {scientific : Bool} {n : Number}
    (h : d.toNumber? scientific = some n) :
    n.body.power = some Int32.minValue ↔
      scientific = true ∧ Int.log 10 |n.meaning| = -2 ^ 31 := by
  rw [(toNumber?_meaning h).1]
  have log (nonzero : d.isZero = false) : Int.log 10 |d.meaning| = d.precision - 1 - d.scale :=
    log_meaning (meaning_eq_zero_iff.not.mpr (Bool.eq_false_iff.mp nonzero))
  cases writes_of_toNumber? h with
  | zero zero => simp [meaning_eq_zero_iff.mpr zero, Number.plain, Numeral.zero]
  | scientific nonzero form written =>
      obtain ⟨power, hpower, rfl⟩ := Option.map_eq_some_iff.mp written
      have exponent : power.toInt = d.precision - 1 - d.scale := power?_eq_some hpower
      have digits := precision_pos d
      rw [log nonzero, Option.some.injEq, eq_minValue_iff, exponent]
      refine ⟨fun least => ⟨form.resolve_right ?_, least⟩, And.right⟩
      -- trailing zeros that are not written make the power positive
      omega
  | positional _ plain => simp [positional, plain]

end Decimal

/-! ## Numbers -/

namespace Value

variable {n : Number}

theorem isReadable_number_iff :
    (particle n.particle).IsReadable ↔ n.body.power ≠ some Int32.minValue := by
  rw [IsReadable, Particle.isReadable_iff]
  simp [Number.particle, Particle.IsReadableNode, Particle.IsReducedNode, Particle.IsInRangeNode,
    Body.parts]

/-- A number with digits is read back unless its power of ten is the least. -/
theorem read_text_number_iff (digits : n.body.HasDigits) :
    read n.particle.text = .ok (particle n.particle) ↔ n.body.power ≠ some Int32.minValue := by
  have complete : (particle n.particle).IsComplete := ⟨digits, trivial⟩
  rw [← isReadable_number_iff]
  exact complete.read_text_iff

/-- No text at all is read as a number with the least power of ten. -/
theorem not_same_of_least_power (least : n.body.power = some Int32.minValue) {input : String}
    {v : Value} (h : read input = .ok v) : v.same (particle n.particle) = false := by
  rw [Bool.eq_false_iff]
  intro same
  have readable := (derives_of_read h).2
  cases v with
  | equation left right => cases same
  | particle p =>
      obtain ⟨s, b, e⟩ := p
      simp only [Value.same, Particle.same, Number.particle, Bool.and_eq_true] at same
      cases b with
      | number m =>
          obtain rfl : m = n.body := beq_iff_eq.mp same.2
          exact (isReadable_number_iff (n := ⟨s, n.body, e⟩)).mp readable least
      | _ => simp [Body.same] at same

end Value

namespace Number

/-- The sum or product of two numbers is read back exactly if it is not written with the least power
of ten; then nothing is read as that number. Such a power is written exactly if an operand has one
and the first digit of the result stands there. -/
theorem read_text_unless_least_power (policy : Rounding) (a b r : Number)
    (h : add policy a b = .ok r ∨ multiply policy a b = .ok r) :
    (Value.read r.particle.text = .ok (.particle r.particle) ↔
      r.body.power ≠ some Int32.minValue) ∧
    (r.body.power = some Int32.minValue →
      ∀ input v, Value.read input = .ok v → v.same (.particle r.particle) = false) ∧
    (r.body.power = some Int32.minValue ↔
      (a.body.isScientific || b.body.isScientific) = true ∧ Int.log 10 |r.meaning| = -2 ^ 31) := by
  obtain ⟨rounded, finished⟩ : ∃ rounded, finish a b rounded = .ok r := by
    rcases h with sum | product
    · exact ⟨_, sum⟩
    · exact ⟨_, product⟩
  obtain ⟨d, -, written⟩ := finish_eq_ok finished
  exact ⟨Value.read_text_number_iff (hasDigits_of_finish finished),
    fun least _ _ => Value.not_same_of_least_power least, Decimal.power_eq_least_iff written⟩

/-- The product of `1.5*10⁻²¹⁴⁷⁴⁸³⁶⁴⁷` and `2.0` has the same power of ten, which is still read. -/
theorem read_text_unless_least_power_of_double :
    let a : Number := .plain ⟨[1], some [5], some (-2147483647)⟩
    let b : Number := .plain ⟨[2], some [0], none⟩
    let r : Number := .plain ⟨[3], some [0], some (-2147483647)⟩
    multiply .decimals a b = .ok r ∧ Value.read r.particle.text = .ok (.particle r.particle) := by
  intro a b r
  have product : multiply .decimals a b = .ok r := eq_ok_of_parts (by decide +kernel)
  exact ⟨product, (read_text_unless_least_power _ a b r (.inr product)).1.mpr (by decide)⟩

/-- The product of `1*10⁻²¹⁴⁷⁴⁸³⁶⁴⁷` and `1*10⁻¹` is `1*10⁻²¹⁴⁷⁴⁸³⁶⁴⁸`, which is not read. -/
theorem exists_result_not_read_back :
    ¬ ∀ (policy : Rounding) (a b r : Number),
      (∃ input, Value.read input = .ok (.particle a.particle)) →
      (∃ input, Value.read input = .ok (.particle b.particle)) →
      a.exponent = 1 → b.exponent = 1 →
      (add policy a b = .ok r ∨ multiply policy a b = .ok r) →
      ∃ v, Value.read r.particle.text = .ok v ∧ v.same (.particle r.particle) = true := by
  intro readBack
  let a : Number := .plain ⟨[1], none, some (-2147483647)⟩
  let b : Number := .plain ⟨[1], none, some (-1)⟩
  let r : Number := .plain ⟨[1], none, some Int32.minValue⟩
  have product : multiply .decimals a b = .ok r := eq_ok_of_parts (by decide +kernel)
  have first := (Value.read_text_number_iff (n := a) ⟨by decide, by decide⟩).mpr (by decide)
  have second := (Value.read_text_number_iff (n := b) ⟨by decide, by decide⟩).mpr (by decide)
  obtain ⟨v, hread, same⟩ :=
    readBack .decimals a b r ⟨_, first⟩ ⟨_, second⟩ rfl rfl (.inr product)
  rw [Value.not_same_of_least_power (n := r) rfl hread] at same
  cases same

end Number

end StepAlgebra
