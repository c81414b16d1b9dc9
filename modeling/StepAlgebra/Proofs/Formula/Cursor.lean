import StepAlgebra.Formula.Cursor
import StepAlgebra.Proofs.Token.Lexer

/-!
# What a cursor reads

A cursor faces the text that its tokens are cut from. Attempts to read are described by what they
give and where they stop, and the combinators of attempts by the same.

* `Outcome.Gives`, `Outcome.Allows`, `Outcome.Fails` — what comes of an attempt;
* `Cursor.Faces` — the text in front of a cursor;
* `Cursor.expect_gives`, `Cursor.expect_fails` — one token.
-/

namespace StepAlgebra

namespace Outcome

variable {c : Cursor} {α β : Type} {good mid : α → Cursor → Prop} {o : Outcome c α}

/-- The attempt succeeds with a good value at a good place. -/
def Gives (good : α → Cursor → Prop) : Outcome c α → Prop
  | ok value after _ => good value after
  | failed _ _ => False

/-- If the attempt succeeds, its value and its place are good. -/
def Allows (good : α → Cursor → Prop) : Outcome c α → Prop
  | ok value after _ => good value after
  | failed _ _ => True

/-- The attempt fails. -/
def Fails : Outcome c α → Prop
  | ok _ _ _ => False
  | failed _ _ => True

theorem Gives.eq_ok (h : o.Gives good) :
    ∃ value after shorter, o = .ok value after shorter ∧ good value after := by
  cases o with
  | ok value after shorter => exact ⟨value, after, shorter, rfl, h⟩
  | failed cause after => exact h.elim

theorem Fails.eq_failed (h : o.Fails) : ∃ cause after, o = .failed cause after := by
  cases o with
  | ok value after shorter => exact h.elim
  | failed cause after => exact ⟨cause, after, rfl⟩

theorem Fails.not_gives (h : o.Fails) : ¬ o.Gives good := by
  cases o with
  | ok value after shorter => exact h.elim
  | failed cause after => exact id

theorem Gives.imp (h : o.Gives mid) (weaken : ∀ value after, mid value after → good value after) :
    o.Gives good := by
  cases o with
  | ok value after shorter => exact weaken value after h
  | failed cause after => exact h

theorem Gives.map {good : β → Cursor → Prop} {f : α → β}
    (h : o.Gives fun value after => good (f value) after) : (o.map f).Gives good := by
  cases o <;> exact h

theorem Gives.orBack (h : o.Gives good) : o.orBack.Gives good := by
  cases o <;> exact h

theorem Gives.orBlame (h : o.Gives good) (cause : ReadError) : (o.orBlame cause).Gives good := by
  cases o <;> exact h

theorem Fails.orBack (h : o.Fails) : o.orBack.Fails := by
  cases o <;> exact h

theorem Gives.orElse (h : o.Gives good) (second : Outcome c α) : (o.orElse second).Gives good := by
  cases o with
  | ok value after shorter => exact h
  | failed cause after => exact h.elim

theorem Fails.orElse {second : Outcome c α} (h : o.Fails) (next : second.Gives good) :
    (o.orElse second).Gives good := by
  cases o with
  | ok value after shorter => exact h.elim
  | failed cause after => exact next

variable {f : α → (d : Cursor) → d.remaining < c.remaining → Outcome d β}

theorem Gives.andThen {good : β → Cursor → Prop} (h : o.Gives mid)
    (next : ∀ value d shorter, mid value d → (f value d shorter).Gives good) :
    (o.andThen f).Gives good := by
  obtain ⟨value, d, shorter, rfl, here⟩ := h.eq_ok
  obtain ⟨result, after, shorter', second, there⟩ := (next value d shorter here).eq_ok
  simp only [Outcome.andThen, second]
  exact there

theorem Fails.andThen (h : o.Fails) : (o.andThen f).Fails := by
  obtain ⟨cause, after, rfl⟩ := h.eq_failed
  exact trivial

theorem Gives.andThen_fails (h : o.Gives mid)
    (next : ∀ value d shorter, mid value d → (f value d shorter).Fails) :
    (o.andThen f).Fails := by
  obtain ⟨value, d, shorter, rfl, here⟩ := h.eq_ok
  obtain ⟨cause, after, second⟩ := (next value d shorter here).eq_failed
  simp only [Outcome.andThen, second]
  exact trivial

/-! ### Attempts that may fail -/

theorem Gives.allows (h : o.Gives good) : o.Allows good := by
  cases o with
  | ok value after shorter => exact h
  | failed cause after => exact trivial

theorem allows_true (o : Outcome c α) : o.Allows fun _ _ => True := by
  cases o <;> exact trivial

theorem Allows.of_eq_ok {value : α} {after : Cursor} {shorter : after.remaining < c.remaining}
    (h : o.Allows good) (ho : o = .ok value after shorter) : good value after := by
  rw [ho] at h
  exact h

theorem Allows.imp (h : o.Allows mid) (weaken : ∀ value after, mid value after → good value after) :
    o.Allows good := by
  cases o with
  | ok value after shorter => exact weaken value after h
  | failed cause after => exact trivial

theorem Allows.and {good' : α → Cursor → Prop} (h : o.Allows good) (h' : o.Allows good') :
    o.Allows fun value after => good value after ∧ good' value after := by
  cases o with
  | ok value after shorter => exact ⟨h, h'⟩
  | failed cause after => exact trivial

theorem Allows.map {good : β → Cursor → Prop} {f : α → β}
    (h : o.Allows fun value after => good (f value) after) : (o.map f).Allows good := by
  cases o <;> exact h

theorem Allows.orBack (h : o.Allows good) : o.orBack.Allows good := by
  cases o <;> exact h

theorem Allows.orBlame (h : o.Allows good) (cause : ReadError) :
    (o.orBlame cause).Allows good := by
  cases o <;> exact h

theorem Allows.orElse {second : Outcome c α} (h : o.Allows good) (next : second.Allows good) :
    (o.orElse second).Allows good := by
  cases o with
  | ok value after shorter => exact h
  | failed cause after => exact next

theorem Allows.andThen {good : β → Cursor → Prop} (h : o.Allows mid)
    (next : ∀ value d shorter, mid value d → (f value d shorter).Allows good) :
    (o.andThen f).Allows good := by
  cases o with
  | failed cause after => exact trivial
  | ok value d shorter =>
      simp only [Outcome.andThen]
      cases second : f value d shorter with
      | failed cause after => exact trivial
      | ok result after shorter' => exact (next value d shorter h).of_eq_ok second

end Outcome

namespace Cursor

open Lexer

variable {c : Cursor} {cs lexeme rest : List Char} {kind : TokenKind}

/-- The tokens of a cursor are those of the text in front of it. -/
def Faces (c : Cursor) (cs : List Char) : Prop :=
  ∃ offset, c.rest = scan offset cs

theorem faces_ofText (input : String) : (ofText input).Faces input.toList :=
  ⟨0, rfl⟩

theorem peek_of_faces (faces : c.Faces cs) (first : first? cs = some ⟨kind, lexeme, rest⟩)
    (visible : (kind != .blank) = true) : c.peek = some kind := by
  obtain ⟨offset, hrest⟩ := faces
  obtain ⟨span, htokens⟩ := scan_of_first? first offset
  simp [peek, ahead, hrest, htokens, Token.isBlank, bne_iff_ne.mp visible]

theorem peek_of_faces_nil (faces : c.Faces []) : c.peek = none := by
  obtain ⟨offset, hrest⟩ := faces
  simp [peek, ahead, hrest, scan_nil]

/-- The token that is passed is the next one that is not blank. -/
theorem ahead_of_advance {token : Token} {d : Cursor} {shorter : d.remaining < c.remaining}
    (h : c.advance = .ok token d shorter) : c.ahead = some token := by
  -- by induction on the tokens that are left, of which each blank takes one away
  induction hn : c.remaining generalizing c token d with
  | zero =>
      rw [hn] at shorter
      cases shorter
  | succ n ih =>
      rw [advance] at h
      split at h
      · cases h
      · next first rest hrest =>
        dsimp only at h
        split at h
        · next blank =>
          split at h
          · next found after shorter' next =>
            obtain ⟨rfl, -⟩ := Outcome.ok.inj h
            have fewer : (c.past first rest).remaining = n := by
              simp only [remaining, hrest, List.length_cons] at hn
              simpa [remaining, past] using hn
            have later := ih next fewer
            rw [ahead, hrest, List.find?_cons_of_neg (by simp [blank])]
            exact later
          · cases h
        · next visible =>
          obtain ⟨rfl, -⟩ := Outcome.ok.inj h
          rw [ahead, hrest, List.find?_cons_of_pos (by simpa using visible)]

theorem advance_gives (faces : c.Faces cs) (first : first? cs = some ⟨kind, lexeme, rest⟩)
    (visible : (kind != .blank) = true) :
    c.advance.Gives fun token d =>
      token.kind = kind ∧ token.lexeme.toList = lexeme ∧ d.Faces rest := by
  obtain ⟨offset, hrest⟩ := faces
  obtain ⟨span, htokens⟩ := scan_of_first? first offset
  rw [htokens] at hrest
  rw [advance]
  split
  · next empty =>
    rw [hrest] at empty
    cases empty
  · next token rest split =>
    obtain ⟨rfl, rfl⟩ := List.cons.inj (hrest.symm.trans split)
    rw [if_neg (by simpa [Token.isBlank] using visible)]
    exact ⟨rfl, String.toList_ofList, span.stop, rfl⟩

/-- A token of the expected kind is passed. -/
theorem expect_gives (faces : c.Faces cs) (first : first? cs = some ⟨kind, lexeme, rest⟩)
    (visible : (kind != .blank) = true) :
    (c.expect kind).Gives fun token d => token.lexeme.toList = lexeme ∧ d.Faces rest := by
  obtain ⟨token, d, shorter, hadvance, hkind, hlexeme, hfaces⟩ :=
    (advance_gives faces first visible).eq_ok
  simp only [expect, hadvance, hkind, if_true]
  exact ⟨hlexeme, hfaces⟩

/-- A token of another kind is refused, and so is the end of the text. -/
theorem expect_fails (h : c.peek ≠ some kind) : (c.expect kind).Fails := by
  unfold expect
  split
  · exact trivial
  · next token after shorter found =>
    have other : token.kind ≠ kind := by
      rintro rfl
      exact h (by rw [peek, ahead_of_advance found, Option.map_some])
    rw [if_neg other]
    exact trivial

end Cursor

end StepAlgebra
