import Mathlib
import StepAlgebra.Proofs.Formula.Derived.Sum
import StepAlgebra.Proofs.Step.Formed
import StepAlgebra.Proofs.Value.RoundTrip
import StepAlgebra.Proofs.Value.Spliced
import StepAlgebra.Proofs.Value.Written

/-!
# Which texts are read, and which values are read back

A text is read exactly if the grammar derives its tokens, and what it is read as is canonical unless
the exponent one is written in it. A value that a step leads to is complete, so its text is read
back exactly if the value is readable. There are two ways in which a step makes a readable value
unreadable: it computes the least power of ten, or it leaves a lone factor bare under its exponent.

* `Value.exists_read_iff` — the texts that are read;
* `Value.read_canonical_unless_exponent_one` — what is read from them;
* `Value.read_text_of_step` — the values that are read back after a step;
* `Value.exists_step_not_read_back` — one that is not.
-/

namespace StepAlgebra

namespace Value

open Particle

variable {policy : Rounding} {v w : Value} {path : Path} {part : Value} {rule : Rule} {step : Step}

/-- A text is read as a value exactly if the grammar derives its tokens, blanks aside. -/
theorem exists_read_iff (input : String) :
    (∃ v, read input = .ok v) ↔
      Grammar.Derives .statement ((Token.scan input).filter (!·.isBlank)) := by
  constructor
  · rintro ⟨v, h⟩
    exact (derives_of_read h).1
  · exact exists_read_of_derives

/-- What is read was written with the exponents of its text, and so it is canonical unless the
exponent one is among them. -/
theorem read_canonical_unless_exponent_one {input : String} (h : read input = .ok v) :
    v.IsWritten (Grammar.Written (Token.scan input)) ∧
      ((∀ t ∈ Token.scan input, t.kind = .superscript → t.exponent ≠ 1) → v.IsCanonical) := by
  have written := isWritten_of_read h
  refine ⟨written, ?_⟩
  intro raised
  apply written.isCanonical
  rintro e ⟨t, ht, hkind, hexponent⟩ rfl
  exact raised t ht hkind hexponent

/-- A power of a square, with a zero in front of its exponent. -/
theorem read_canonical_unless_exponent_one_of_square :
    ∃ v, read "(x²)⁰³" = .ok v ∧ v.IsCanonical := by
  have accepted : (read "(x²)⁰³").isOk = true := by decide +kernel
  cases hread : read "(x²)⁰³" with
  | error cause =>
      rw [hread] at accepted
      cases accepted
  | ok v => exact ⟨v, rfl, (read_canonical_unless_exponent_one hread).2 (by decide +kernel)⟩

/-- Under the exponent one, the square `x²` is alone in a term that has no exponent. -/
theorem exists_read_not_canonical :
    ¬ ∀ (input : String) (v : Value), read input = .ok v → v.IsCanonical := by
  intro canonical
  have alone : (match read "(x²)¹" with
      | .ok (.particle p) => p.level == .term && p.children.length == 1 && p.exponent == 1
      | .ok (.equation _ _) | .error _ => false) = true := by decide +kernel
  split at alone
  · next p hread =>
    have node := (canonical _ _ hread).here
    obtain ⟨s, b, e⟩ := p
    simp only [Bool.and_eq_true, beq_iff_eq] at alone
    obtain ⟨⟨level, one⟩, plain⟩ := alone
    cases b with
    | term factors =>
        rcases node with several | ⟨raised, -⟩
        · have one : factors.length = 1 := one
          omega
        · exact raised plain
    | number | fraction | mixed | symbol | expression | root => cases level
  · cases alone
  · cases alone

/-- A complete value is read back exactly if it is readable. -/
theorem IsComplete.read_text_iff (h : v.IsComplete) : read v.text = .ok v ↔ v.IsReadable := by
  refine ⟨fun hread => (derives_of_read hread).2, fun readable => ?_⟩
  have canonical : v.IsCanonical := isCanonical_iff.mpr ⟨h, readable⟩
  exact canonical.reads_back

/-- A value that a step leads to is complete, and its text is read as that value exactly if the
step has not made the least power of ten, nor a bare particle of a lone factor. -/
theorem read_text_of_step (canonical : v.IsCanonical) (hrule : rule ∈ Rule.roster)
    (hpart : (path, part) ∈ v.resources rule.level) (hscore : 0 < rule.score part)
    (happly : rule.apply policy part = .ok step) (hsplice : v.splice path step.result = .ok w) :
    w.IsComplete ∧ (read w.text = .ok w ↔
      step.result.IsInRange ∧ (v.StandsAlone path → ¬ step.result.IsBare)) := by
  obtain ⟨complete, readable⟩ := isCanonical_iff.mp canonical
  obtain ⟨hget, hlevel⟩ := mem_resources_iff.mp hpart
  obtain ⟨p, q, rfl, hresult, rewritten⟩ := rewritten_of_apply hrule hlevel hscore happly
  rw [hresult] at hsplice ⊢
  have formed : q.IsFormed := rewritten.isFormed (isCanonical_of_get? hget canonical).isFormed
  have spliced : w.IsComplete := isComplete_of_splice hget hsplice formed.isComplete complete
  have range : q.IsReadable ↔ q.IsInRange := ⟨IsReadable.isInRange, formed.isReadable⟩
  refine ⟨spliced, ?_⟩
  rw [spliced.read_text_iff, isReadable_splice_iff hget hsplice readable, range]
  exact Iff.rfl

/-- The sum in `(-(2x+3x))²` stays negative, so `(-5x)²` is read back. -/
theorem read_text_of_step_of_negative_sum :
    let number := fun (d : Digit) => (Body.number ⟨[d], none, none⟩).plain
    let times := fun d => (Body.term [number d, (Body.symbol 'x').plain]).plain
    let v := Value.particle ⟨true, .term [⟨false, .expression [times 2, times 3], 1⟩], 2⟩
    let w := Value.particle ⟨true, .term [(times 5).negate], 2⟩
    v.text = "(-(2x+3x))²" ∧ w.text = "(-5x)²" ∧ read w.text = .ok w := by
  intro number times v w
  let part := Value.particle ⟨false, .expression [times 2, times 3], 1⟩
  have digits : ∀ d : Digit, Numeral.IsCanonical ⟨[d], none, none⟩ :=
    fun d => ⟨by simp, by simp, by simp⟩
  have canonical : v.IsCanonical := by
    simp [Value.IsCanonical, Particle.IsCanonical, Everywhere, EverywhereInBody, EverywhereInRow,
      IsCanonicalNode, Body.plain, v, times, number, digits]
  have added : allSubtotals .decimals [times 2, times 3] =
      .ok [⟨[times 2, times 3], times 5⟩] := by cbv
  obtain ⟨step, happly, hresult⟩ : ∃ step, part.combineLikeTerms .decimals = .ok step ∧
      step.result = .particle (times 5).negate := ⟨_, map_eq_ok_iff.mpr ⟨_, added, rfl⟩, rfl⟩
  have hsplice : v.splice [0] step.result = .ok w := by
    rw [hresult]
    rfl
  have range : step.result.IsInRange := by
    rw [hresult]
    simp [Value.IsInRange, Particle.IsInRange, Everywhere, EverywhereInBody, EverywhereInRow,
      IsInRangeNode, Body.plain, Powered.negate, times, number]
  have negative : ¬ step.result.IsBare := by
    rw [hresult]
    exact fun bare => Bool.noConfusion bare.1
  refine ⟨by decide +kernel, by decide +kernel, ?_⟩
  exact (read_text_of_step canonical List.mem_cons_self (List.mem_cons_self : ([0], part) ∈
    v.resources .expression) (by decide +kernel) happly hsplice).2.mpr ⟨range, fun _ => negative⟩

/-- No readable value has a variable alone as a lone factor. -/
theorem not_same_lone_symbol {u : Value} (readable : u.IsReadable) {s : Bool} {name : Char}
    {e : UInt32} : u.same (.particle ⟨s, .term [(Body.symbol name).plain], e⟩) = false := by
  rw [Bool.eq_false_iff]
  intro same
  cases u with
  | equation left right => cases same
  | particle p =>
      obtain ⟨t, b, f⟩ := p
      simp only [Value.same, Particle.same, Bool.and_eq_true] at same
      obtain ⟨-, same⟩ := same
      cases b with
      | term factors =>
          rcases factors with _ | ⟨factor, _ | ⟨_, _⟩⟩
          · simp [Body.same, sameRow] at same
          · have apart : ¬ factor.IsBare := readable.here.1
            obtain ⟨t', b', e'⟩ := factor
            cases b' with
            | symbol name' =>
                simp only [Body.same, sameRow, Particle.same, Body.signsAgree, Body.plain,
                  Bool.or_false, Bool.and_true, Bool.and_eq_true, beq_iff_eq] at same
                obtain ⟨⟨rfl, rfl⟩, -⟩ := same
                exact apart ⟨rfl, rfl⟩
            | _ => simp [Body.same, sameRow, Particle.same, Body.plain] at same
          · simp [Body.same, sameRow] at same
      | _ => simp [Body.same] at same

/-- The sum in `(-(2x-3x))²` becomes `x`, and the text `(x)²` is not read as a lone factor. -/
theorem exists_step_not_read_back :
    ¬ ∀ (policy : Rounding) (v w : Value) (path : Path) (part : Value) (rule : Rule) (step : Step),
      v.IsCanonical → rule ∈ Rule.roster → (path, part) ∈ v.resources rule.level →
      0 < rule.score part → rule.apply policy part = .ok step →
      v.splice path step.result = .ok w → ∃ u, read w.text = .ok u ∧ u.same w = true := by
  intro readBack
  let x := (Body.symbol 'x').plain
  let times := fun (d : Digit) => (Body.term [(Body.number ⟨[d], none, none⟩).plain, x]).plain
  let part := Value.particle ⟨false, .expression [times 2, (times 3).negate], 1⟩
  let v := Value.particle ⟨true, .term [⟨false, .expression [times 2, (times 3).negate], 1⟩], 2⟩
  let w := Value.particle ⟨true, .term [x], 2⟩
  have digits : ∀ d : Digit, Numeral.IsCanonical ⟨[d], none, none⟩ :=
    fun d => ⟨by simp, by simp, by simp⟩
  have canonical : v.IsCanonical := by
    simp [Value.IsCanonical, Particle.IsCanonical, Everywhere, EverywhereInBody, EverywhereInRow,
      IsCanonicalNode, Body.plain, Powered.negate, v, times, x, digits]
  have added : allSubtotals .decimals [times 2, (times 3).negate] =
      .ok [⟨[times 2, (times 3).negate], x.negate⟩] := by cbv
  obtain ⟨step, happly, hresult⟩ : ∃ step, part.combineLikeTerms .decimals = .ok step ∧
      step.result = .particle x := ⟨_, map_eq_ok_iff.mpr ⟨_, added, rfl⟩, rfl⟩
  have hsplice : v.splice [0] step.result = .ok w := by
    rw [hresult]
    rfl
  obtain ⟨u, hread, same⟩ := readBack .decimals v w [0] part Rule.combineLikeTerms step canonical
    List.mem_cons_self List.mem_cons_self (by decide +kernel) happly hsplice
  rw [not_same_lone_symbol (derives_of_read hread).2] at same
  cases same

end Value

end StepAlgebra
