import Mathlib.Data.Nat.Log
import Mathlib.Tactic.Ring
import StepAlgebra.Digits

/-!
# The value of digits

* `Digits.value_append` — digits in front of others count by a power of ten;
* `Digits.value_ofNat` — the digits that write a number have its value;
* `Digits.value_eq_zero_iff` — only zeros write zero;
* `Digits.length_ofNat` — how many digits write a number;
* `Digits.eq_of_value_eq` — so many digits with such a value are the only ones;
* `Digits.ofNat_value` — digits are those of their value if the first is not zero;
* `Digits.number?_natText` — a natural number is read back from its text.
-/

namespace StepAlgebra

namespace Digit

@[simp] theorem ofChar?_toChar (d : Digit) : ofChar? d.toChar = some d := by
  revert d
  decide

theorem isWrittenBy_toChar (d : Digit) : isWrittenBy d.toChar = true := by
  rw [isWrittenBy, ofChar?_toChar, Option.isSome_some]

theorem exists_toChar {c : Char} (h : isWrittenBy c = true) : ∃ d : Digit, c = d.toChar := by
  obtain ⟨d, hd⟩ := Option.isSome_iff_exists.mp h
  simp only [ofChar?, Option.dite_none_right_eq_some, Option.some.injEq] at hd
  obtain ⟨⟨low, high⟩, -⟩ := hd
  refine ⟨⟨c.toNat - '0'.toNat, high⟩, ?_⟩
  rw [toChar, Nat.add_sub_cancel' low, Char.ofNat_toNat]

end Digit

/-- A row of characters is read one by one. -/
theorem mapM_map_eq_some {α β : Type} {write : α → β} {read : β → Option α}
    (inverse : ∀ a, read (write a) = some a) (as : List α) :
    (as.map write).mapM read = some as := by
  induction as with
  | nil => rfl
  | cons a as ih =>
      rw [List.map_cons, List.mapM_cons, inverse, ih]
      rfl

namespace Digits

private theorem foldl_eq (n : Nat) (ds : Digits) :
    ds.foldl (fun n d => 10 * n + d.val) n = n * 10 ^ ds.length + value ds := by
  induction ds generalizing n with
  | nil => simp [value]
  | cons d ds ih =>
      rw [value, List.foldl_cons, List.foldl_cons, ih, ih (10 * 0 + d.val), List.length_cons]
      ring

@[simp] theorem value_nil : value [] = 0 := rfl

theorem value_cons (d : Digit) (ds : Digits) :
    value (d :: ds) = d.val * 10 ^ ds.length + value ds := by
  rw [value, List.foldl_cons, foldl_eq, Nat.mul_zero, Nat.zero_add]

theorem value_append (ds es : Digits) :
    value (ds ++ es) = value ds * 10 ^ es.length + value es := by
  rw [value, List.foldl_append]
  exact foldl_eq _ _

theorem value_replicate_zero (n : Nat) : value (List.replicate n (.ofNat 0)) = 0 := by
  induction n with
  | zero => rfl
  | succ n ih =>
      rw [List.replicate_succ, value_cons, ih]
      exact Nat.zero_mul _

theorem value_eq_zero_iff {ds : Digits} : value ds = 0 ↔ ∀ d ∈ ds, d = .ofNat 0 := by
  induction ds with
  | nil => simp
  | cons d ds ih =>
      have hd : d.val * 10 ^ ds.length = 0 ↔ d = .ofNat 0 := by
        rw [Nat.mul_eq_zero, Fin.ext_iff]
        exact or_iff_left (Nat.pos_iff_ne_zero.mp (Nat.pow_pos (by omega)))
      rw [value_cons, Nat.add_eq_zero_iff, hd, ih, List.forall_mem_cons]

theorem value_prepend (n : Nat) (written : Digits) :
    value (prepend n written) = n * 10 ^ written.length + value written := by
  induction n, written using prepend.induct with
  | case1 n written small =>
      rw [prepend, if_pos small, value_cons, Digit.ofNat, Fin.val_ofNat, Nat.mod_eq_of_lt small]
  | case2 n written large ih =>
      have last : (Digit.ofNat n).val = n % 10 := Fin.val_ofNat 10 n
      rw [prepend, if_neg large, ih, value_cons, last, List.length_cons, pow_succ]
      calc n / 10 * (10 ^ written.length * 10) + (n % 10 * 10 ^ written.length + value written)
          = (10 * (n / 10) + n % 10) * 10 ^ written.length + value written := by ring
        _ = n * 10 ^ written.length + value written := by rw [Nat.div_add_mod]

/-- The digits that write a number have its value. -/
theorem value_ofNat (n : Nat) : value (ofNat n) = n := by
  rw [ofNat, value_prepend, List.length_nil, value_nil, pow_zero, Nat.mul_one, Nat.add_zero]

theorem prepend_ne_nil (n : Nat) (written : Digits) : prepend n written ≠ [] := by
  induction n, written using prepend.induct with
  | case1 n written small =>
      rw [prepend, if_pos small]
      exact List.cons_ne_nil _ _
  | case2 n written large ih =>
      rw [prepend, if_neg large]
      exact ih

/-- At least one digit is written. -/
theorem ofNat_ne_nil (n : Nat) : ofNat n ≠ [] :=
  prepend_ne_nil n []

theorem length_prepend (n : Nat) (written : Digits) :
    (prepend n written).length = Nat.log 10 n + 1 + written.length := by
  induction n, written using prepend.induct with
  | case1 n written small =>
      rw [prepend, if_pos small, Nat.log_of_lt small, List.length_cons, Nat.add_comm, Nat.zero_add]
  | case2 n written large ih =>
      rw [prepend, if_neg large, ih, Nat.log_of_one_lt_of_le (by omega) (Nat.le_of_not_lt large),
        List.length_cons]
      omega

/-- A number is written with one digit for every power of ten up to it; zero has one digit. -/
theorem length_ofNat (n : Nat) : (ofNat n).length = Nat.log 10 n + 1 :=
  length_prepend n []

/-- A number below a power of ten is written with as many digits at most. -/
theorem length_ofNat_le {n k : Nat} (h : n < 10 ^ (k + 1)) : (ofNat n).length ≤ k + 1 := by
  rw [length_ofNat]
  exact Nat.succ_le_of_lt (Nat.log_lt_of_lt_pow' (Nat.succ_ne_zero k) h)

/-! ## Digits of a value -/

theorem value_lt (ds : Digits) : value ds < 10 ^ ds.length := by
  induction ds with
  | nil => simp
  | cons d ds ih =>
      rw [value_cons, List.length_cons, pow_succ']
      calc d.val * 10 ^ ds.length + value ds
          < d.val * 10 ^ ds.length + 10 ^ ds.length := Nat.add_lt_add_left ih _
        _ = (d.val + 1) * 10 ^ ds.length := (Nat.succ_mul _ _).symm
        _ ≤ 10 * 10 ^ ds.length := Nat.mul_le_mul_right _ d.isLt

theorem value_cons_div (d : Digit) (ds : Digits) : value (d :: ds) / 10 ^ ds.length = d.val := by
  have rest : value ds / 10 ^ ds.length = 0 := Nat.div_eq_of_lt (value_lt ds)
  rw [value_cons, Nat.mul_comm, Nat.mul_add_div (Nat.pow_pos (by decide)), rest, Nat.add_zero]

/-- Digits are known by their number and their value. -/
theorem eq_of_value_eq {ds es : Digits} (length : ds.length = es.length)
    (same : value ds = value es) : ds = es := by
  induction ds generalizing es with
  | nil => exact (List.length_eq_zero_iff.mp length.symm).symm
  | cons d ds ih =>
      obtain ⟨e, es, rfl⟩ := List.exists_cons_of_length_eq_add_one length.symm
      have rest : ds.length = es.length := Nat.succ.inj length
      obtain rfl : d = e := by
        refine Fin.ext ?_
        rw [← value_cons_div d ds, same, rest, value_cons_div]
      rw [value_cons, value_cons, rest, Nat.add_left_cancel_iff] at same
      rw [ih rest same]

/-- Where the first digit is not zero, all are needed to write the value. -/
theorem ofNat_value {d : Digit} (h : d ≠ .ofNat 0) (ds : Digits) :
    ofNat (value (d :: ds)) = d :: ds := by
  have leading : 0 < d.val := Nat.pos_of_ne_zero fun zero => h (Fin.ext zero)
  have least : 10 ^ ds.length ≤ value (d :: ds) := by
    rw [value_cons]
    exact (Nat.le_mul_of_pos_left _ leading).trans (Nat.le_add_right _ _)
  have log : Nat.log 10 (value (d :: ds)) = ds.length :=
    Nat.log_eq_of_pow_le_of_lt_pow least (value_lt (d :: ds))
  refine eq_of_value_eq ?_ (value_ofNat _)
  rw [length_ofNat, log, List.length_cons]

/-! ## Texts -/

theorem toList_text (ds : Digits) : ds.text.toList = ds.map Digit.toChar :=
  String.toList_ofList

theorem ofChars_map_toChar (ds : Digits) : ofChars (ds.map Digit.toChar) = ds := by
  rw [ofChars, List.filterMap_map]
  have inverse : Digit.ofChar? ∘ Digit.toChar = some := funext Digit.ofChar?_toChar
  rw [inverse, List.filterMap_some]

theorem number?_text {ds : Digits} (h : ds ≠ []) : number? ds.text = some ds.value := by
  obtain ⟨d, ds, rfl⟩ := List.exists_cons_of_ne_nil h
  have digits := mapM_map_eq_some Digit.ofChar?_toChar (d :: ds)
  rw [List.map_cons] at digits
  rw [number?, toList_text, List.map_cons]
  simp only [digits, Option.map_some]

/-- A natural number is read back from its text. -/
theorem number?_natText (n : Nat) : number? (natText n) = some n := by
  rw [natText, number?_text (ofNat_ne_nil n), value_ofNat]

end Digits

end StepAlgebra
