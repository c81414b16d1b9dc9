import StepAlgebra.Proofs.Formula.Derived.Atom

/-!
# The alternatives of an atom

The alternatives of an atom overlap: a mixed number begins like an integer, and a fraction like a
group. In order, each of them is tried from where the atom begins; the first that reads decides, and
if none does, the last one says why. The reader goes by the first token instead, and it reads a
group once for the two alternatives that begin with it. This comes to the same, the cursor after a
failure included.

* `Cursor.atomInOrder` — an atom by its alternatives in order;
* `Cursor.groupOrFraction_eq_orElse` — a group is read once for two alternatives;
* `Cursor.atom_eq_atomInOrder` — the first token decides as the order does.
-/

namespace StepAlgebra

namespace Outcome

variable {c : Cursor} {α β : Type} {good : α → Cursor → Prop} {o second : Outcome c α}

/-- What is tried next starts from the same place, so it does not matter where a failure leaves
the cursor. -/
theorem orElse_orBack (o second : Outcome c α) : o.orBack.orElse second = o.orElse second := by
  cases o <;> rfl

theorem orBlame_eq_orElse (o : Outcome c α) (cause : ReadError) :
    o.orBlame cause = o.orElse (.failed cause c) := by
  cases o <;> rfl

theorem Fails.orElse_eq (h : o.Fails) : o.orElse second = second := by
  obtain ⟨cause, after, rfl⟩ := h.eq_failed
  rfl

theorem Gives.orElse_eq (h : o.Gives good) : o.orElse second = o := by
  obtain ⟨value, after, shorter, rfl, -⟩ := h.eq_ok
  rfl

theorem Fails.map (h : o.Fails) (f : α → β) : (o.map f).Fails := by
  obtain ⟨cause, after, rfl⟩ := h.eq_failed
  exact trivial

end Outcome

namespace Cursor

open Outcome

variable {c : Cursor} {t : Token} {ts : List Token} {kind : TokenKind} {input : String}

/-! ## In order -/

/-- The alternatives of an atom, tried in order. -/
def alternatives (c : Cursor) : Outcome c Formula :=
  c.mixed.orBack.orElse <|
    c.fraction.orBack.orElse <|
      c.literal.orBack.orElse <|
        c.symbol.orBack.orElse <|
          c.root.orBack.orElse c.parenthesised.orBack

/-- Reads an atom by its alternatives, if it starts with a token that an atom begins with. -/
def atomInOrder (c : Cursor) : Outcome c Formula :=
  match c.peek with
  | none => .failed (.endOfInput c.span) c
  | some .closeParen => .failed (.unopenedParen c.span) c
  | some found =>
      if found ∈ atomStart then
        c.alternatives
      else
        .failed (.unexpectedToken c.span atomStart found) c

theorem alternatives_eq (c : Cursor) :
    c.alternatives = c.mixed.orElse (c.fraction.orElse (c.literal.orElse (c.symbol.orElse
      (c.root.orElse c.parenthesised.orBack)))) := by
  simp only [alternatives, orElse_orBack]

/-! ## Alternatives that the first token rules out -/

theorem mixed_fails_of_peek (h : c.peek ≠ some .integer) : c.mixed.Fails := by
  rw [mixed]
  exact (expect_fails h).orBack.andThen

theorem fraction_fails (h : c.peek ≠ some .openParen) : c.fraction.Fails :=
  (quotient_fails h).map _

theorem literal_fails
    (h : ∀ kind ∈ [TokenKind.integer, .decimal, .scientific], c.peek ≠ some kind) :
    c.literal.Fails := by
  unfold literal
  split
  · trivial
  · next token after shorter found =>
    have hpeek : c.peek = some token.kind := by
      rw [peek, ahead_of_advance found, Option.map_some]
    split
    · next hkind => exact absurd hpeek (h _ (by simp [hkind]))
    · next hkind => exact absurd hpeek (h _ (by simp [hkind]))
    · next hkind => exact absurd hpeek (h _ (by simp [hkind]))
    · trivial

theorem symbol_fails (h : c.peek ≠ some .name) : c.symbol.Fails := by
  obtain ⟨cause, after, refused⟩ := (expect_fails h).orBack.eq_failed
  simp only [symbol, refused]
  trivial

theorem root_fails (h : c.peek ≠ some .radical) : c.root.Fails := by
  rw [root]
  exact (expect_fails h).orBack.andThen

/-- A token of another kind is what an expected one is refused for. -/
theorem orBack_expect_of_ne (h : c.Shows (t :: ts)) (other : t.kind ≠ kind) :
    (c.expect kind).orBack = .failed (.unexpectedToken c.span [kind] t.kind) c := by
  obtain ⟨token, d, shorter, hadvance, rfl, -⟩ := (advance_gives_of_shows h).eq_ok
  simp only [expect, hadvance, if_neg other, orBack, span_of_shows_cons h]

/-- The last alternative says that a parenthesis was expected. -/
theorem orBack_parenthesised_of_ne (h : c.Shows (t :: ts)) (other : t.kind ≠ .openParen) :
    c.parenthesised.orBack = .failed (.unexpectedToken c.span [.openParen] t.kind) c := by
  rw [parenthesised, group, orBack_expect_of_ne h other]
  rfl

/-! ## One group for two alternatives -/

/-- Where no fraction is read, what was read as its top is the group. -/
theorem groupOrFraction_eq_orElse (c : Cursor) :
    c.groupOrFraction = c.fraction.orElse c.parenthesised.orBack := by
  rw [groupOrFraction, fraction, quotient, parenthesised]
  cases c.group with
  | failed cause after => rfl
  | ok top c₁ shorter =>
      simp only [andThen]
      cases c₁.expect .divide with
      | failed cause after => rfl
      | ok divide c₂ shorter₂ =>
          simp only [orBack]
          cases c₂.group with
          | failed cause after => rfl
          | ok bottom c₃ shorter₃ => rfl

/-! ## The first token -/

theorem atomInOrder_of_starts (hpeek : c.peek = some kind) (starts : kind ∈ atomStart) :
    c.atomInOrder = c.alternatives := by
  have other : kind ≠ .closeParen := by
    rintro rfl
    revert starts
    decide
  rw [atomInOrder, hpeek]
  split
  · next none => cases none
  · next closing => exact absurd (Option.some.inj closing) other
  · next found => exact if_pos (Option.some.inj found ▸ starts)

/-- The first token of an atom decides as the alternatives in order do. -/
theorem atom_eq_atomInOrder (h : c.Shows ts) : c.atom = c.atomInOrder := by
  cases ts with
  | nil => rw [atom, atomInOrder, peek_of_shows_nil h]
  | cons t ts =>
      have hpeek := peek_of_shows_cons h
      -- a token that an atom begins with rules out all alternatives but one or two
      cases hkind : t.kind with
      | closeParen => rw [atom, atomInOrder, hpeek, hkind]
      | blank | equals | plus | minus | times | divide | superscript | openSquare | closeSquare
      | unknown =>
          rw [atom, atomInOrder, hpeek, hkind]
          exact (if_neg (by decide)).symm
      | integer =>
          rw [hkind] at hpeek
          have noFraction : c.fraction.Fails := fraction_fails (by simp [hpeek])
          have number := literal_gives (.integer hkind) h
          rw [atomInOrder_of_starts hpeek (by decide), alternatives_eq, noFraction.orElse_eq,
            number.orElse_eq, atom, hpeek]
      | decimal =>
          rw [hkind] at hpeek
          have noMixed : c.mixed.Fails := mixed_fails_of_peek (by simp [hpeek])
          have noFraction : c.fraction.Fails := fraction_fails (by simp [hpeek])
          have number := literal_gives (.decimal hkind) h
          rw [atomInOrder_of_starts hpeek (by decide), alternatives_eq, noMixed.orElse_eq,
            noFraction.orElse_eq, number.orElse_eq, atom, hpeek]
      | name =>
          rw [hkind] at hpeek
          have noMixed : c.mixed.Fails := mixed_fails_of_peek (by simp [hpeek])
          have noFraction : c.fraction.Fails := fraction_fails (by simp [hpeek])
          have noNumber : c.literal.Fails := literal_fails (by simp [hpeek])
          have symbol := symbol_goes hkind c h
          rw [atomInOrder_of_starts hpeek (by decide), alternatives_eq, noMixed.orElse_eq,
            noFraction.orElse_eq, noNumber.orElse_eq, symbol.orElse_eq, atom, hpeek]
      | scientific =>
          have refused := orBack_parenthesised_of_ne h (by simp [hkind])
          rw [hkind] at hpeek refused
          have noMixed : c.mixed.Fails := mixed_fails_of_peek (by simp [hpeek])
          have noFraction : c.fraction.Fails := fraction_fails (by simp [hpeek])
          have noSymbol : c.symbol.Fails := symbol_fails (by simp [hpeek])
          have noRoot : c.root.Fails := root_fails (by simp [hpeek])
          rw [atomInOrder_of_starts hpeek (by decide), alternatives_eq, noMixed.orElse_eq,
            noFraction.orElse_eq, noSymbol.orElse_eq, noRoot.orElse_eq, refused,
            ← orBlame_eq_orElse, atom, hpeek]
      | radical =>
          have refused := orBack_parenthesised_of_ne h (by simp [hkind])
          rw [hkind] at hpeek refused
          have noMixed : c.mixed.Fails := mixed_fails_of_peek (by simp [hpeek])
          have noFraction : c.fraction.Fails := fraction_fails (by simp [hpeek])
          have noNumber : c.literal.Fails := literal_fails (by simp [hpeek])
          have noSymbol : c.symbol.Fails := symbol_fails (by simp [hpeek])
          rw [atomInOrder_of_starts hpeek (by decide), alternatives_eq, noMixed.orElse_eq,
            noFraction.orElse_eq, noNumber.orElse_eq, noSymbol.orElse_eq, refused,
            ← orBlame_eq_orElse, atom, hpeek]
      | openParen =>
          rw [hkind] at hpeek
          have noMixed : c.mixed.Fails := mixed_fails_of_peek (by simp [hpeek])
          have noNumber : c.literal.Fails := literal_fails (by simp [hpeek])
          have noSymbol : c.symbol.Fails := symbol_fails (by simp [hpeek])
          have noRoot : c.root.Fails := root_fails (by simp [hpeek])
          rw [atomInOrder_of_starts hpeek (by decide), alternatives_eq, noMixed.orElse_eq,
            noNumber.orElse_eq, noSymbol.orElse_eq, noRoot.orElse_eq, ← groupOrFraction_eq_orElse,
            atom, hpeek]

/-- So it does in front of any tokens that a text ends with. -/
theorem atom_eq_atomInOrder_of_text (h : c.rest <:+ Token.scan input) : c.atom = c.atomInOrder :=
  atom_eq_atomInOrder ⟨rfl, fun _ ht =>
    Token.isSpelled_of_mem_scan (h.subset (List.mem_filter.mp ht).1)⟩

end Cursor

end StepAlgebra
