import StepAlgebra.Proofs.Digits
import StepAlgebra.Text.Superscript

/-!
# Superscripts are read back

The reader goes from digit to digit and stops as soon as a number does not fit. The digits that are
still to come only make a number larger, so it stops early exactly where the whole does not fit.

* `Superscript.foldlM_append?` — what the reader makes of more digits;
* `Superscript.read?_eq_some_iff` — what is read, and as which number;
* `Superscript.read?_ofNat` — an exponent is read back from its superscript digits;
* `Superscript.codec_is_exact` — reading and writing, taken together.
-/

namespace StepAlgebra.Superscript

/-! ## Single digits -/

@[simp] theorem digit?_ofDigit (d : Digit) : digit? (ofDigit d) = some d := by
  revert d
  decide

theorem isDigit_ofDigit (d : Digit) : isDigit (ofDigit d) = true := by
  rw [isDigit, digit?_ofDigit, Option.isSome_some]

theorem isWrittenBy_ofDigit (d : Digit) : Digit.isWrittenBy (ofDigit d) = false := by
  revert d
  decide

theorem ofDigit_ne_minus (d : Digit) : ofDigit d ≠ '⁻' := by
  revert d
  decide

theorem exists_ofDigit {c : Char} (h : isDigit c = true) : ∃ d : Digit, c = ofDigit d := by
  unfold isDigit digit? at h
  split at h
  case h_1 => exact ⟨0, rfl⟩
  case h_2 => exact ⟨1, rfl⟩
  case h_3 => exact ⟨2, rfl⟩
  case h_4 => exact ⟨3, rfl⟩
  case h_5 => exact ⟨4, rfl⟩
  case h_6 => exact ⟨5, rfl⟩
  case h_7 => exact ⟨6, rfl⟩
  case h_8 => exact ⟨7, rfl⟩
  case h_9 => exact ⟨8, rfl⟩
  case h_10 => exact ⟨9, rfl⟩
  case h_11 => cases h

/-- A text of superscript digits is the superscript form of some digits. -/
theorem exists_map_ofDigit {cs : List Char} (h : ∀ c ∈ cs, isDigit c = true) :
    ∃ ds : Digits, cs = ds.map ofDigit := by
  induction cs with
  | nil => exact ⟨[], rfl⟩
  | cons c cs ih =>
      obtain ⟨first, others⟩ := List.forall_mem_cons.mp h
      obtain ⟨d, rfl⟩ := exists_ofDigit first
      obtain ⟨ds, rfl⟩ := ih others
      exact ⟨d :: ds, rfl⟩

theorem filterMap_map_ofDigit (ds : Digits) : (ds.map ofDigit).filterMap digit? = ds := by
  have inverse : digit? ∘ ofDigit = some := funext digit?_ofDigit
  rw [List.filterMap_map, inverse, List.filterMap_some]

theorem toList_ofNat (n : Nat) : (ofNat n).toList = (Digits.ofNat n).map ofDigit :=
  String.toList_ofList

/-- An exponent is written by a first superscript digit and perhaps more. -/
theorem exists_cons_ofNat (n : Nat) :
    ∃ d ds, Digits.ofNat n = d :: ds ∧ (ofNat n).toList = ofDigit d :: ds.map ofDigit := by
  obtain ⟨d, ds, hds⟩ := List.exists_cons_of_ne_nil (Digits.ofNat_ne_nil n)
  exact ⟨d, ds, hds, by rw [toList_ofNat, hds, List.map_cons]⟩

/-! ## Numbers that fit -/

theorem fit?_of_lt {n : Nat} (h : n < UInt32.size) : fit? n = some (UInt32.ofNat n) :=
  if_pos h

theorem fit?_of_le {n : Nat} (h : UInt32.size ≤ n) : fit? n = none :=
  if_neg (Nat.not_lt.mpr h)

theorem fit?_toNat (n : UInt32) : fit? n.toNat = some n := by
  rw [fit?_of_lt n.toNat_lt, UInt32.ofNat_toNat]

theorem fit?_eq_some_iff {n : Nat} {v : UInt32} : fit? n = some v ↔ n = v.toNat := by
  constructor
  · intro h
    obtain ⟨fits, same⟩ := Option.ite_none_right_eq_some.mp h
    rw [← Option.some.inj same, UInt32.toNat_ofNat_of_lt' fits]
  · rintro rfl
    exact fit?_toNat v

theorem isSome_fit?_iff {n : Nat} : (fit? n).isSome = true ↔ n < UInt32.size := by
  rw [fit?, Option.isSome_ite]

/-- A number made from one that does not fit does not fit either, if it is no smaller. -/
theorem bind_fit? {m n : Nat} {f : UInt32 → Option UInt32} (le : m ≤ n)
    (h : ∀ v : UInt32, v.toNat = m → f v = fit? n) : (fit? m).bind f = fit? n := by
  by_cases fits : m < UInt32.size
  · rw [fit?_of_lt fits]
    exact h _ (UInt32.toNat_ofNat_of_lt' fits)
  · have large := Nat.le_of_not_lt fits
    rw [fit?_of_le large, fit?_of_le (Nat.le_trans large le)]
    rfl

/-! ## Reading -/

/-- The two checks of one digit come to one. -/
theorem append?_ofDigit (n : UInt32) (d : Digit) :
    append? n (ofDigit d) = fit? (n.toNat * 10 + d.val) := by
  rw [append?, digit?_ofDigit]
  refine bind_fit? (Nat.le_add_right _ _) fun tens htens => ?_
  rw [htens]

/-- What the reader makes of more digits is the number that they write behind those it has read. It
stops at a number that does not fit only if the number that all digits write does not fit. -/
theorem foldlM_append? (n : UInt32) (ds : Digits) :
    (ds.map ofDigit).foldlM append? n = fit? (n.toNat * 10 ^ ds.length + ds.value) := by
  induction ds generalizing n with
  | nil => simpa using (fit?_toNat n).symm
  | cons d ds ih =>
      rw [List.map_cons, List.foldlM_cons, append?_ofDigit, Digits.value_cons, List.length_cons]
      have total : n.toNat * 10 ^ (ds.length + 1) + (d.val * 10 ^ ds.length + Digits.value ds) =
          (n.toNat * 10 + d.val) * 10 ^ ds.length + Digits.value ds := by ring
      rw [total]
      refine bind_fit? ?_ fun m hm => ?_
      · exact Nat.le_add_right_of_le (Nat.le_mul_of_pos_right _ (Nat.pow_pos (by decide)))
      · rw [ih, hm]

theorem isDigit_of_append? {n v : UInt32} {c : Char} (h : append? n c = some v) :
    isDigit c = true := by
  obtain ⟨d, hd, -⟩ := Option.bind_eq_some_iff.mp h
  rw [isDigit, hd, Option.isSome_some]

theorem forall_isDigit_of_foldlM {n v : UInt32} {cs : List Char}
    (h : cs.foldlM append? n = some v) : ∀ c ∈ cs, isDigit c = true := by
  induction cs generalizing n with
  | nil => exact List.forall_mem_nil _
  | cons c cs ih =>
      rw [List.foldlM_cons] at h
      obtain ⟨m, first, others⟩ := Option.bind_eq_some_iff.mp h
      exact List.forall_mem_cons.mpr ⟨isDigit_of_append? first, ih others⟩

theorem read?_eq_foldlM {s : String} (h : s.toList ≠ []) :
    read? s = s.toList.foldlM append? 0 := by
  rw [read?]
  split
  · next empty => exact absurd empty h
  · rfl

/-- One digit or more are read if their value fits. -/
theorem read?_map_ofDigit {ds : Digits} (h : ds ≠ []) :
    read? (String.ofList (ds.map ofDigit)) = fit? ds.value := by
  have text : (String.ofList (ds.map ofDigit)).toList = ds.map ofDigit := String.toList_ofList
  rw [read?_eq_foldlM (by simpa [text] using h), text, foldlM_append?]
  simp

/-- What is read is a text of one or more superscript digits, and their value is read. -/
theorem read?_eq_some_iff {s : String} {v : UInt32} :
    read? s = some v ↔ ∃ ds : Digits, ds ≠ [] ∧ s = String.ofList (ds.map ofDigit) ∧
      ds.value = v.toNat := by
  constructor
  · intro h
    have some : s.toList ≠ [] := by
      intro empty
      rw [read?, empty] at h
      cases h
    rw [read?_eq_foldlM some] at h
    obtain ⟨ds, hds⟩ := exists_map_ofDigit (forall_isDigit_of_foldlM h)
    have nonempty : ds ≠ [] := by
      rintro rfl
      exact some hds
    have text : s = String.ofList (ds.map ofDigit) := by rw [← hds, String.ofList_toList]
    refine ⟨ds, nonempty, text, ?_⟩
    rw [← read?_eq_foldlM some, text, read?_map_ofDigit nonempty] at h
    exact fit?_eq_some_iff.mp h
  · rintro ⟨ds, nonempty, rfl, value⟩
    rw [read?_map_ofDigit nonempty, value, fit?_toNat]

/-- A number is read back from its superscript digits, if it fits. -/
theorem read?_ofNat {n : Nat} (h : n < UInt32.size) :
    read? (ofNat n) = some (UInt32.ofNat n) := by
  rw [ofNat, read?_map_ofDigit (Digits.ofNat_ne_nil n), Digits.value_ofNat, fit?_of_lt h]

/-! ## Writing -/

/-- Raising the text of a number digit by digit writes it in superscript digits. -/
theorem raise_natText (n : Nat) : raise (Digits.natText n) = ofNat n := by
  have raised : ∀ d : Digit, raiseChar d.toChar = ofDigit d := by decide
  rw [raise, Digits.natText, Digits.toList_text, List.map_map, ofNat]
  exact congrArg String.ofList (List.map_congr_left fun d _ => raised d)

/-- The number that the superscript digits of a text write. -/
def number (s : String) : Nat :=
  Digits.value (s.toList.filterMap digit?)

/-- A text without the zeros in front that it can do without. If there are only zeros, one stays. -/
def trimmed (s : String) : String :=
  match s.toList.dropWhile (· == '⁰') with
  | [] => "⁰"
  | cs => String.ofList cs

theorem number_map_ofDigit (ds : Digits) : number (String.ofList (ds.map ofDigit)) = ds.value := by
  rw [number, String.toList_ofList, filterMap_map_ofDigit]

theorem trimmed_zero_cons (cs : List Char) :
    trimmed (String.ofList ('⁰' :: cs)) = trimmed (String.ofList cs) := by
  simp only [trimmed, String.toList_ofList, List.dropWhile_cons_of_pos, beq_self_eq_true]

theorem trimmed_cons {c : Char} (h : c ≠ '⁰') (cs : List Char) :
    trimmed (String.ofList (c :: cs)) = String.ofList (c :: cs) := by
  have kept : (c :: cs).dropWhile (· == '⁰') = c :: cs :=
    List.dropWhile_cons_of_neg (by simpa using h)
  simp only [trimmed, String.toList_ofList, kept]

/-- The value of some digits is written by the same digits, less the zeros in front. -/
theorem ofNat_value (ds : Digits) :
    ofNat ds.value = trimmed (String.ofList (ds.map ofDigit)) := by
  induction ds with
  | nil =>
      rw [ofNat, Digits.value_nil, Digits.ofNat, Digits.prepend, if_pos (by decide)]
      rfl
  | cons d ds ih =>
      rw [List.map_cons]
      by_cases zero : d = .ofNat 0
      · have same : Digits.value (d :: ds) = Digits.value ds := by
          rw [Digits.value_cons, zero]
          exact (congrArg (· + _) (Nat.zero_mul _)).trans (Nat.zero_add _)
        rw [same, zero]
        exact ih.trans (trimmed_zero_cons _).symm
      · have first : ofDigit d ≠ '⁰' := by
          revert d
          decide
        rw [ofNat, Digits.ofNat_value zero, trimmed_cons first, List.map_cons]

/-- Superscripts are read and written exactly. A 32-bit number is read back from its superscript
digits, which are those of its text raised one by one. A text is read as a number exactly if it has
characters, all are superscript digits, and the number that they write is this one and fits in 32
bits; and the number is written as the text is, without superfluous zeros in front. -/
theorem codec_is_exact (s : String) (v : UInt32) :
    read? (ofNat v.toNat) = some v ∧ raise (Digits.natText v.toNat) = ofNat v.toNat ∧
    (read? s = some v ↔ s ≠ "" ∧ (∀ c ∈ s.toList, isDigit c = true) ∧ number s = v.toNat ∧
      number s ≤ 4294967295) ∧
    (read? s = some v → ofNat v.toNat = trimmed s) := by
  refine ⟨?_, raise_natText _, ⟨?_, ?_⟩, ?_⟩
  · rw [read?_ofNat v.toNat_lt, UInt32.ofNat_toNat]
  · intro h
    obtain ⟨ds, nonempty, rfl, value⟩ := read?_eq_some_iff.mp h
    have fits : number (String.ofList (ds.map ofDigit)) = v.toNat := by
      rw [number_map_ofDigit, value]
    refine ⟨?_, ?_, fits, fits ▸ Nat.le_of_lt_succ v.toNat_lt⟩
    · simpa [String.ofList_eq_empty_iff] using nonempty
    · rw [String.toList_ofList]
      exact List.forall_mem_map.mpr fun d _ => isDigit_ofDigit d
  · rintro ⟨nonempty, digits, value, -⟩
    obtain ⟨ds, hds⟩ := exists_map_ofDigit digits
    have text : s = String.ofList (ds.map ofDigit) := by rw [← hds, String.ofList_toList]
    refine read?_eq_some_iff.mpr ⟨ds, ?_, text, ?_⟩
    · rintro rfl
      exact nonempty text
    · rw [← value, text, number_map_ofDigit]
  · intro h
    obtain ⟨ds, -, rfl, value⟩ := read?_eq_some_iff.mp h
    rw [← value, ofNat_value]

end StepAlgebra.Superscript
