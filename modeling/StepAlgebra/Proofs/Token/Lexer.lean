import StepAlgebra.Proofs.Numeral
import StepAlgebra.Token.Lexer

/-!
# What pieces a text is cut into

Cutting takes the longest piece, so what stands after a number or a superscript decides where it
ends. `Lexer.Next` says what may stand there.

* `Lexer.first?_numeral` — the text of a numeral is one piece;
* `Lexer.first?_exponent` — so are the superscript digits of an exponent.
-/

namespace StepAlgebra

namespace Lexer

/-- A text that is over, or goes on with a character of the given sort. -/
def Next (good : Char → Prop) (rest : List Char) : Prop :=
  ∀ c ∈ rest.head?, good c

/-- The piece that a text starts with. -/
def first? : List Char → Option Piece
  | [] => none
  | c :: cs => some (piece c cs)

variable {good : Char → Prop} {c : Char} {cs rest : List Char} {p : Char → Bool}

@[simp] theorem next_nil : Next good [] := by
  intro c hc
  cases hc

@[simp] theorem next_cons : Next good (c :: cs) ↔ good c := by
  simp [Next]

theorem Next.imp {good' : Char → Prop} (h : Next good rest) (weaken : ∀ c, good c → good' c) :
    Next good' rest :=
  fun c hc => weaken c (h c hc)

theorem scan_nil (offset : Nat) : scan offset [] = [] := by
  rw [scan]

/-- The first token is the first piece; the others are those of what is left. -/
theorem scan_of_first? {piece : Piece} (h : first? cs = some piece) (offset : Nat) :
    ∃ span, scan offset cs =
      ⟨piece.kind, String.ofList piece.lexeme, span⟩ :: scan span.stop piece.rest := by
  cases cs with
  | nil => cases h
  | cons c cs =>
      obtain rfl := Option.some.inj h
      rw [scan]
      exact ⟨_, rfl⟩

/-! ## Longest rows of a sort -/

theorem takeWhile_of_next (h : Next (p · = false) rest) : rest.takeWhile p = [] := by
  cases rest with
  | nil => rfl
  | cons c cs => simp [next_cons.mp h]

theorem dropWhile_of_next (h : Next (p · = false) rest) : rest.dropWhile p = rest := by
  cases rest with
  | nil => rfl
  | cons c cs => simp [next_cons.mp h]

/-- A row of one sort is taken whole, if what follows is not of that sort. -/
theorem takeWhile_append_of_next (hcs : ∀ c ∈ cs, p c = true) (h : Next (p · = false) rest) :
    (cs ++ rest).takeWhile p = cs := by
  rw [List.takeWhile_append_of_pos hcs, takeWhile_of_next h, List.append_nil]

theorem dropWhile_append_of_next (hcs : ∀ c ∈ cs, p c = true) (h : Next (p · = false) rest) :
    (cs ++ rest).dropWhile p = rest := by
  rw [List.dropWhile_append_of_pos hcs, dropWhile_of_next h]

theorem isWrittenBy_of_mem (ds : Digits) :
    ∀ c ∈ ds.map Digit.toChar, Digit.isWrittenBy c = true := by
  intro c hc
  obtain ⟨d, -, rfl⟩ := List.mem_map.mp hc
  exact Digit.isWrittenBy_toChar d

theorem isDigit_of_mem (ds : Digits) :
    ∀ c ∈ ds.map Superscript.ofDigit, Superscript.isDigit c = true := by
  intro c hc
  obtain ⟨d, -, rfl⟩ := List.mem_map.mp hc
  exact Superscript.isDigit_ofDigit d

/-! ## Single characters and superscripts -/

/-- A character that belongs to no longer piece is a piece of its own. -/
theorem first?_single (blank : isBlank c = false) (digit : Digit.isWrittenBy c = false)
    (superscript : Superscript.isDigit c = false) :
    first? (c :: cs) = some ⟨symbolKind c, [c], cs⟩ := by
  simp [first?, piece, blank, digit, superscript]

theorem isBlank_toChar (d : Digit) : isBlank d.toChar = false := by
  revert d
  decide

theorem isBlank_ofDigit (d : Digit) : isBlank (Superscript.ofDigit d) = false := by
  revert d
  decide

theorem kind_number (digits rest : List Char) :
    (number digits rest).kind ∈ [TokenKind.integer, .decimal, .scientific] := by
  unfold number
  simp only
  split
  · simp
  · split <;> simp

/-- A digit starts a number. -/
theorem kind_piece_toChar (d : Digit) (cs : List Char) :
    (piece d.toChar cs).kind ∈ [TokenKind.integer, .decimal, .scientific] := by
  simp only [piece, isBlank_toChar, Digit.isWrittenBy_toChar, Bool.false_eq_true, if_false, if_true]
  exact kind_number _ _

/-- A superscript digit starts an exponent. -/
theorem kind_piece_ofDigit (d : Digit) (cs : List Char) :
    (piece (Superscript.ofDigit d) cs).kind = .superscript := by
  simp [piece, isBlank_ofDigit, Superscript.isWrittenBy_ofDigit, Superscript.isDigit_ofDigit]

/-- A letter is a name. -/
theorem first?_letter (letter : c.isAlpha = true) :
    first? (c :: cs) = some ⟨.name, [c], cs⟩ := by
  have blank : isBlank c = false := by
    by_contra blank
    simp only [isBlank, Bool.not_eq_false, Bool.or_eq_true, beq_iff_eq] at blank
    rcases blank with ((rfl | rfl) | rfl) | rfl <;> revert letter <;> decide
  have digit : Digit.isWrittenBy c = false := by
    by_contra digit
    obtain ⟨d, rfl⟩ := Digit.exists_toChar (Bool.not_eq_false _ ▸ digit)
    revert d
    decide
  have superscript : Superscript.isDigit c = false := by
    by_contra superscript
    obtain ⟨d, rfl⟩ := Superscript.exists_ofDigit (Bool.not_eq_false _ ▸ superscript)
    revert d
    decide
  have name : symbolKind c = .name := by
    unfold symbolKind
    split
    case h_14 => simp [isLetter, letter]
    all_goals
      revert letter
      decide
  rw [first?_single blank digit superscript, name]

/-- The superscript digits of an exponent are one piece. -/
theorem first?_exponent (n : Nat) (h : Next (Superscript.isDigit · = false) rest) :
    first? ((Superscript.ofNat n).toList ++ rest) =
      some ⟨.superscript, (Superscript.ofNat n).toList, rest⟩ := by
  obtain ⟨d, ds, -, htext⟩ := Superscript.exists_cons_ofNat n
  have blank := isBlank_ofDigit d
  have digit := Superscript.isWrittenBy_ofDigit d
  have superscript := Superscript.isDigit_ofDigit d
  rw [htext, List.cons_append, first?, piece]
  simp only [blank, digit, superscript, Bool.false_eq_true, if_false, if_true,
    takeWhile_append_of_next (isDigit_of_mem ds) h,
    dropWhile_append_of_next (isDigit_of_mem ds) h]

end Lexer

/-! ## Numerals -/

namespace Numeral

/-- The kind of token that a numeral is written by. -/
def kind (n : Numeral) : TokenKind :=
  if n.power.isSome then .scientific else if n.places.isSome then .decimal else .integer

theorem kind_cases (n : Numeral) :
    n.kind = .integer ∨ n.kind = .decimal ∨ n.kind = .scientific := by
  unfold kind
  split
  · exact .inr (.inr rfl)
  · split
    · exact .inr (.inl rfl)
    · exact .inl rfl

theorem isWhole_of_kind {n : Numeral} (h : n.kind = .integer) : n.isWhole = true := by
  unfold kind at h
  split at h
  · cases h
  · next unscientific =>
    split at h
    · cases h
    · next whole =>
      rw [isWhole, Bool.and_eq_true]
      exact ⟨by simpa using whole, by simpa using unscientific⟩

/-- What may follow a numeral without becoming a part of it. -/
def Ends (n : Numeral) (rest : List Char) : Prop :=
  if n.isScientific then
    Lexer.Next (Superscript.isDigit · = false) rest
  else
    Lexer.Next (fun c => Digit.isWrittenBy c = false ∧ c ≠ '.') rest ∧ Lexer.power? rest = none

end Numeral

namespace Lexer

open Numeral

variable {n : Numeral} {rest : List Char}

/-- What follows the places of a numeral is neither a digit nor a point. -/
theorem next_powerChars (h : n.Ends rest) :
    Next (fun c => Digit.isWrittenBy c = false ∧ c ≠ '.') (n.powerChars ++ rest) := by
  unfold Ends isScientific at h
  unfold powerChars
  cases hpower : n.power with
  | none =>
      simp only [hpower, Option.isSome_none, Bool.false_eq_true, if_false] at h
      exact h.1
  | some power =>
      simp only [List.cons_append, next_cons]
      decide

theorem next_placesChars
    (power : Next (fun c => Digit.isWrittenBy c = false ∧ c ≠ '.') (n.powerChars ++ rest)) :
    Next (Digit.isWrittenBy · = false) (n.placesChars ++ (n.powerChars ++ rest)) := by
  unfold placesChars
  cases n.places with
  | none => exact power.imp fun c hc => hc.1
  | some places =>
      simp only [List.cons_append, next_cons]
      decide

theorem places?_of_next {cs : List Char} (h : Next (· ≠ '.') cs) : places? cs = none := by
  unfold places?
  split
  · exact absurd rfl (next_cons.mp h)
  · rfl

/-- The places of a numeral are cut off as they are written. -/
theorem places?_numeral (canonical : n.IsCanonical)
    (power : Next (fun c => Digit.isWrittenBy c = false ∧ c ≠ '.') (n.powerChars ++ rest)) :
    (places? (n.placesChars ++ (n.powerChars ++ rest))).getD
      ([], n.placesChars ++ (n.powerChars ++ rest)) = (n.placesChars, n.powerChars ++ rest) := by
  unfold placesChars
  cases hplaces : n.places with
  | none =>
      rw [List.nil_append, places?_of_next (power.imp fun c hc => hc.2)]
      rfl
  | some places =>
      have digits : Next (Digit.isWrittenBy · = false) (n.powerChars ++ rest) :=
        power.imp fun c hc => hc.1
      -- a point without digits after it would be no part of the number
      obtain ⟨d, ds, rfl⟩ : ∃ d ds, places = d :: ds :=
        List.exists_cons_of_ne_nil fun none => canonical.places (by rw [hplaces, none])
      have taken := takeWhile_append_of_next (isWrittenBy_of_mem (d :: ds)) digits
      have dropped := dropWhile_append_of_next (isWrittenBy_of_mem (d :: ds)) digits
      rw [List.map_cons] at taken dropped
      rw [List.cons_append, places?, List.map_cons]
      simp only [taken, dropped, Option.getD_some]
      rfl

theorem power?_of_next {cs : List Char} (h : Next (· ≠ '*') cs) : power? cs = none := by
  unfold power?
  split
  · exact absurd rfl (next_cons.mp h)
  · exact absurd rfl (next_cons.mp h)
  · rfl

/-- Where neither a number nor a multiplication sign follows, a number ends. -/
theorem ends_of_next (h : Next (fun c => Digit.isWrittenBy c = false ∧ c ≠ '.' ∧ c ≠ '*') rest)
    (unscientific : n.isScientific = false) : n.Ends rest := by
  rw [Ends, if_neg (by simp [unscientific])]
  exact ⟨h.imp fun c hc => ⟨hc.1, hc.2.1⟩, power?_of_next (h.imp fun c hc => hc.2.2)⟩

theorem raised?_ofNat (lead : List Char) (n : Nat)
    (h : Next (Superscript.isDigit · = false) rest) :
    raised? lead ((Superscript.ofNat n).toList ++ rest) =
      some (lead ++ (Superscript.ofNat n).toList, rest) := by
  obtain ⟨d, ds, -, htext⟩ := Superscript.exists_cons_ofNat n
  have digits : ∀ c ∈ (Superscript.ofNat n).toList, Superscript.isDigit c = true := by
    rw [Superscript.toList_ofNat]
    exact isDigit_of_mem _
  rw [raised?, takeWhile_append_of_next digits h, dropWhile_append_of_next digits h, htext]

/-- A power of ten is cut off as it is written. -/
theorem power?_ofInt (z : Int) (h : Next (Superscript.isDigit · = false) rest) :
    power? ('*' :: '1' :: '0' :: ((Superscript.ofInt z).toList ++ rest)) =
      some ('*' :: '1' :: '0' :: (Superscript.ofInt z).toList, rest) := by
  unfold Superscript.ofInt
  split
  · rw [String.toList_append, String.toList_singleton, List.append_assoc]
    exact raised?_ofNat ['*', '1', '0', '⁻'] z.natAbs h
  · have plain := raised?_ofNat ['*', '1', '0'] z.natAbs h
    obtain ⟨d, ds, -, htext⟩ := Superscript.exists_cons_ofNat z.natAbs
    rw [power?]
    · exact plain
    · intro cs minus
      rw [htext] at minus
      exact Superscript.ofDigit_ne_minus d (List.cons.inj minus).1

theorem power?_numeral (h : n.Ends rest) :
    power? (n.powerChars ++ rest) = n.power.map fun _ => (n.powerChars, rest) := by
  unfold Ends isScientific at h
  unfold powerChars
  cases hpower : n.power with
  | none =>
      simp only [hpower, Option.isSome_none, Bool.false_eq_true, if_false] at h
      exact h.2
  | some power =>
      simp only [hpower, Option.isSome_some, if_true] at h
      exact power?_ofInt _ h

/-- The first piece of a numeral starts with all of its whole digits. -/
theorem first?_number (canonical : n.IsCanonical)
    (power : Next (fun c => Digit.isWrittenBy c = false ∧ c ≠ '.') (n.powerChars ++ rest)) :
    first? (n.text.toList ++ rest) =
      some (number (n.whole.map Digit.toChar) (n.placesChars ++ (n.powerChars ++ rest))) := by
  obtain ⟨d, ds, hwhole⟩ := List.exists_cons_of_ne_nil canonical.whole
  have blank := isBlank_toChar d
  have digit := Digit.isWrittenBy_toChar d
  have after := next_placesChars power
  have split : n.text.toList ++ rest =
      d.toChar :: (ds.map Digit.toChar ++ (n.placesChars ++ (n.powerChars ++ rest))) := by
    rw [toList_text, hwhole]
    simp
  rw [split, first?, piece]
  simp only [blank, digit, Bool.false_eq_true, if_false, if_true,
    takeWhile_append_of_next (isWrittenBy_of_mem ds) after,
    dropWhile_append_of_next (isWrittenBy_of_mem ds) after, hwhole, List.map_cons]

/-- The text of a numeral is one piece. -/
theorem first?_numeral (canonical : n.IsCanonical) (h : n.Ends rest) :
    first? (n.text.toList ++ rest) = some ⟨n.kind, n.text.toList, rest⟩ := by
  have power := next_powerChars h
  -- the digits are taken first, then the places, then the power, each as far as it goes
  rw [first?_number canonical power, number, places?_numeral canonical power]
  simp only [power?_numeral h, toList_text, kind]
  cases hpower : n.power with
  | none =>
      have none : n.powerChars = [] := by rw [powerChars, hpower]
      cases hplaces : n.places with
      | none => simp [placesChars, hplaces, none]
      | some places => simp [placesChars, hplaces, none]
  | some power => simp

end Lexer

end StepAlgebra
