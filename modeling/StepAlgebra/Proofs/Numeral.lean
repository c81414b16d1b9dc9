import StepAlgebra.Numeral
import StepAlgebra.Proofs.Text.Superscript

/-!
# Numerals are read back

A numeral is canonical when it has digits wherever it can have any and its power of ten is not the
one that has no opposite. The text of such a numeral reads as the numeral again, leading zeros
included.

* `Numeral.ofDecimalText_text` — without a power of ten;
* `Numeral.ofScientificText?_text` — with one;
* `Numeral.power_ne_of_ofScientificText?` — the power of ten without an opposite is never read.
-/

namespace StepAlgebra.Numeral

/-- A numeral with a text of its own. -/
structure IsCanonical (n : Numeral) : Prop where
  whole : n.whole ≠ []
  places : n.places ≠ some []
  power : n.power ≠ some Int32.minValue

theorem isCanonical_ofNat (n : Nat) : (ofNat n).IsCanonical :=
  ⟨Digits.ofNat_ne_nil n, by simp [ofNat], by simp [ofNat]⟩

/-- The characters of the point and the digits after it. -/
def placesChars (n : Numeral) : List Char :=
  match n.places with
  | some places => '.' :: places.map Digit.toChar
  | none => []

/-- The characters of the power of ten. -/
def powerChars (n : Numeral) : List Char :=
  match n.power with
  | some power => '*' :: '1' :: '0' :: (Superscript.ofInt power.toInt).toList
  | none => []

theorem toList_text (n : Numeral) :
    n.text.toList = n.whole.map Digit.toChar ++ n.placesChars ++ n.powerChars := by
  unfold text placesChars powerChars
  rw [String.toList_append, String.toList_append, Digits.toList_text]
  congr 1
  · congr 1
    cases n.places with
    | none => rfl
    | some places => simp [String.toList_append, Digits.toList_text]
  · cases n.power with
    | none => rfl
    | some power => simp [String.toList_append]

theorem digits_ne {c x : Char} (h : Digit.isWrittenBy c = false) {ds : Digits}
    (hx : x ∈ ds.map Digit.toChar) : decide (x ≠ c) = true := by
  obtain ⟨d, -, rfl⟩ := List.mem_map.mp hx
  refine decide_eq_true ?_
  rintro rfl
  rw [Digit.isWrittenBy_toChar] at h
  cases h

/-! ## Without a power of ten -/

/-- Digits are read as the whole part, and what follows a point as the places. -/
theorem ofDecimalText_append (n : Numeral) :
    ofDecimalText (n.whole.map Digit.toChar ++ n.placesChars) = ⟨n.whole, n.places, none⟩ := by
  have whole : ∀ c ∈ n.whole.map Digit.toChar, decide (c ≠ '.') = true :=
    fun c hc => digits_ne (by decide) hc
  unfold ofDecimalText placesChars
  rw [List.dropWhile_append_of_pos whole, List.takeWhile_append_of_pos whole]
  cases n.places with
  | none => simp [Digits.ofChars_map_toChar]
  | some places => simp [Digits.ofChars_map_toChar]

theorem ofDecimalText_text {n : Numeral} (h : n.power = none) :
    ofDecimalText n.text.toList = n := by
  rw [toList_text, powerChars, h, List.append_nil, ofDecimalText_append, ← h]

/-! ## With a power of ten -/

/-- A power of ten with no sign in front is read as it is. -/
theorem power?_ofNat {n : Nat} {m : UInt32}
    (read : Superscript.read? (Superscript.ofNat n) = some m)
    (bound : m.toNat ≤ 2147483647) :
    power? (Superscript.ofNat n).toList = some (Int32.ofInt m.toNat) := by
  obtain ⟨d, ds, -, htext⟩ := Superscript.exists_cons_ofNat n
  have whole : String.ofList (Superscript.ofNat n).toList = Superscript.ofNat n :=
    String.ofList_toList
  rw [power?, whole, read]
  · simp only [if_pos bound, Bool.false_eq_true, if_false]
  · intro digits minus
    rw [htext] at minus
    exact Superscript.ofDigit_ne_minus d (List.cons.inj minus).1

/-- A power of ten behind a minus sign is read as the opposite. -/
theorem power?_minus {s : String} {m : UInt32} (read : Superscript.read? s = some m)
    (bound : m.toNat ≤ 2147483647) :
    power? (Superscript.minus :: s.toList) = some (Int32.ofInt (-m.toNat)) := by
  simp only [power?, Superscript.minus, String.ofList_toList, read, if_pos bound, if_true]

/-- A power of ten is read back, whatever its sign. -/
theorem power?_ofInt {z : Int32} (h : z ≠ Int32.minValue) :
    power? (Superscript.ofInt z.toInt).toList = some z := by
  -- the least integer is left out, as its opposite does not fit
  have low : -2 ^ 31 < z.toInt := by
    refine lt_of_le_of_ne (Int32.le_toInt z) fun same => h ?_
    rw [← Int32.toInt_inj, ← same]
    rfl
  have high := Int32.toInt_lt z
  have small : z.toInt.natAbs < UInt32.size := by
    have : UInt32.size = 4294967296 := rfl
    omega
  have read := Superscript.read?_ofNat small
  have size : (UInt32.ofNat z.toInt.natAbs).toNat = z.toInt.natAbs := UInt32.toNat_ofNat_of_lt small
  have bound : (UInt32.ofNat z.toInt.natAbs).toNat ≤ 2147483647 := by omega
  unfold Superscript.ofInt
  split
  · have back : -((UInt32.ofNat z.toInt.natAbs).toNat : Int) = z.toInt := by omega
    rw [String.toList_append, String.toList_singleton, List.singleton_append,
      power?_minus read bound, back, Int32.ofInt_toInt]
  · have back : ((UInt32.ofNat z.toInt.natAbs).toNat : Int) = z.toInt := by omega
    rw [power?_ofNat read bound, back, Int32.ofInt_toInt]

/-- A number in scientific notation is read back. -/
theorem ofScientificText?_text {n : Numeral} (h : n.IsCanonical) {power : Int32}
    (hpower : n.power = some power) : ofScientificText? n.text.toList = some n := by
  have mantissa : ∀ c ∈ n.whole.map Digit.toChar ++ n.placesChars, decide (c ≠ '*') = true := by
    intro c hc
    rcases List.mem_append.mp hc with hc | hc
    · exact digits_ne (by decide) hc
    · -- the point is no asterisk either
      unfold placesChars at hc
      cases hplaces : n.places with
      | none => simp [hplaces] at hc
      | some places =>
          rw [hplaces] at hc
          rcases List.mem_cons.mp hc with rfl | hc
          · decide
          · exact digits_ne (by decide) hc
  have minimum : power ≠ Int32.minValue := fun same => h.power (hpower.trans (congrArg some same))
  have chars : n.powerChars =
      '*' :: '1' :: '0' :: (Superscript.ofInt power.toInt).toList := by
    rw [powerChars, hpower]
  rw [ofScientificText?, toList_text, List.takeWhile_append_of_pos mantissa,
    List.dropWhile_append_of_pos mantissa, chars]
  simp only [ofDecimalText_append, List.drop_succ_cons, List.drop_zero, List.dropWhile_cons,
    List.takeWhile_cons, ne_eq, not_true_eq_false, decide_false, Bool.false_eq_true, if_false,
    List.append_nil, power?_ofInt minimum, Option.map_some]
  rw [← hpower]

/-! ## What is read -/

theorem power_ofDecimalText (s : List Char) : (ofDecimalText s).power = none := by
  unfold ofDecimalText
  split <;> rfl

theorem ofInt_ne_minValue {z : Int} (low : -2147483647 ≤ z) (high : z ≤ 2147483647) :
    Int32.ofInt z ≠ Int32.minValue := by
  intro least
  have value : (Int32.ofInt z).toInt = -2147483648 := congrArg Int32.toInt least
  rw [Int32.toInt_ofInt_of_le] at value <;> omega

/-- The least power of ten is never read, as it has no opposite. -/
theorem power?_ne_minValue {s : List Char} {power : Int32} (h : power? s = some power) :
    power ≠ Int32.minValue := by
  unfold power? at h
  simp only at h
  split at h
  · next n hn =>
    simp only [Option.ite_none_right_eq_some, Option.some.injEq] at h
    obtain ⟨bound, rfl⟩ := h
    have size : ∀ negative : Bool, -2147483647 ≤ (if negative then -(n.toNat : Int) else n.toNat) ∧
        (if negative then -(n.toNat : Int) else n.toNat) ≤ 2147483647 := by
      intro negative
      split <;> omega
    exact ofInt_ne_minValue (size _).1 (size _).2
  · cases h

theorem power_ne_of_ofScientificText? {s : List Char} {n : Numeral}
    (h : ofScientificText? s = some n) : n.power ≠ some Int32.minValue := by
  obtain ⟨power, hpower, rfl⟩ := Option.map_eq_some_iff.mp h
  exact fun least => power?_ne_minValue hpower (Option.some.inj least)

end StepAlgebra.Numeral
