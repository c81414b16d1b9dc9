import StepAlgebra.Proofs.Formula.Separated
import StepAlgebra.Proofs.Formula.Soundness
import StepAlgebra.Value.OfFormula

/-!
# Blanks between tokens

Two texts that differ in their blanks have the same tokens apart from places. The readings of two
such texts go side by side: each production that passes a token in one passes the same in the other,
though the cursors, which count blanks, stand at other places.

* `Cursor.SameAhead` — two cursors with the same tokens ahead, blanks and places aside;
* `Outcome.Parallel` — two attempts that come to the same, places aside;
* `Cursor.parallel` — every production does at two such cursors;
* `Statement.blanks_do_not_matter` — and so does every reading of a whole text.
-/

namespace StepAlgebra

/-- Two tokens of the same kind with the same text, at any places. -/
structure Token.SameWord (t u : Token) : Prop where
  kind : u.kind = t.kind
  lexeme : u.lexeme = t.lexeme

/-- The kinds and the texts of the tokens of an input, blanks left out. -/
def Token.words (input : String) : List (TokenKind × String) :=
  ((scan input).filter (!·.isBlank)).map fun t => (t.kind, t.lexeme)

/-- A cause with every place forgotten. -/
def ReadError.unplaced : ReadError → ReadError
  | endOfInput _ => endOfInput (Span.point 0)
  | trailingInput _ => trailingInput (Span.point 0)
  | unexpectedToken _ expected found => unexpectedToken (Span.point 0) expected found
  | unclosedParen _ => unclosedParen (Span.point 0)
  | unopenedParen _ => unopenedParen (Span.point 0)
  | exponentTooLarge _ => exponentTooLarge (Span.point 0)
  | invalidIndex _ => invalidIndex (Span.point 0)
  | chainedEquation _ _ => chainedEquation (Span.point 0) (Span.point 0)
  | notMixed _ => notMixed (Span.point 0)

/-- Two cursors with the same tokens ahead, blanks and places aside. -/
def Cursor.SameAhead (c d : Cursor) : Prop :=
  ∃ ts us, c.Shows ts ∧ d.Shows us ∧ List.Forall₂ Token.SameWord ts us

namespace Outcome

variable {c d : Cursor} {α β : Type} {R S : α → α → Prop} {R' : β → β → Prop}
  {o : Outcome c α} {o' : Outcome d α}

/-- Two attempts come to the same: both succeed, with values that are related and cursors that have
the same ahead, or both fail for the same cause. -/
def Parallel (R : α → α → Prop) : Outcome c α → Outcome d α → Prop
  | ok value after _, ok value' after' _ => R value value' ∧ after.SameAhead after'
  | failed cause _, failed cause' _ => cause'.unplaced = cause.unplaced
  | _, _ => False

/-- Either both succeed or both fail. -/
theorem Parallel.cases (h : o.Parallel R o') :
    (∃ v after s v' after' s', o = .ok v after s ∧ o' = .ok v' after' s' ∧ R v v' ∧
      after.SameAhead after') ∨
    ∃ cause after cause' after', o = .failed cause after ∧ o' = .failed cause' after' ∧
      cause'.unplaced = cause.unplaced := by
  cases o with
  | ok v after s =>
      cases o' with
      | ok v' after' s' => exact .inl ⟨v, after, s, v', after', s', rfl, rfl, h⟩
      | failed => exact h.elim
  | failed cause after =>
      cases o' with
      | ok => exact h.elim
      | failed cause' after' => exact .inr ⟨cause, after, cause', after', rfl, rfl, h⟩

theorem Parallel.imp (h : o.Parallel R o') (weaken : ∀ v v', R v v' → S v v') :
    o.Parallel S o' := by
  rcases h.cases with ⟨v, after, s, v', after', s', rfl, rfl, same, ahead⟩ |
    ⟨cause, after, cause', after', rfl, rfl, same⟩
  · exact ⟨weaken v v' same, ahead⟩
  · exact same

theorem Parallel.map {f g : α → β} (h : o.Parallel (fun v v' => R' (f v) (g v')) o') :
    (o.map f).Parallel R' (o'.map g) := by
  rcases h.cases with ⟨v, after, s, v', after', s', rfl, rfl, same⟩ |
    ⟨cause, after, cause', after', rfl, rfl, same⟩ <;> exact same

theorem Parallel.orBack (h : o.Parallel R o') : o.orBack.Parallel R o'.orBack := by
  rcases h.cases with ⟨v, after, s, v', after', s', rfl, rfl, same⟩ |
    ⟨cause, after, cause', after', rfl, rfl, same⟩ <;> exact same

theorem Parallel.orBlame {cause cause' : ReadError} (h : o.Parallel R o')
    (same : cause'.unplaced = cause.unplaced) :
    (o.orBlame cause).Parallel R (o'.orBlame cause') := by
  rcases h.cases with ⟨v, after, s, v', after', s', rfl, rfl, here⟩ |
    ⟨e, after, e', after', rfl, rfl, -⟩
  · exact here
  · exact same

theorem Parallel.orElse {second : Outcome c α} {second' : Outcome d α} (h : o.Parallel R o')
    (next : second.Parallel R second') : (o.orElse second).Parallel R (o'.orElse second') := by
  rcases h.cases with ⟨v, after, s, v', after', s', rfl, rfl, here⟩ |
    ⟨e, after, e', after', rfl, rfl, -⟩
  · exact here
  · exact next

/-- Two attempts one after the other. -/
theorem Parallel.andThen {f : α → (e : Cursor) → e.remaining < c.remaining → Outcome e β}
    {g : α → (e : Cursor) → e.remaining < d.remaining → Outcome e β} (h : o.Parallel R o')
    (next : ∀ v after s v' after' s', R v v' → after.SameAhead after' →
      (f v after s).Parallel R' (g v' after' s')) :
    (o.andThen f).Parallel R' (o'.andThen g) := by
  rcases h.cases with ⟨v, after, s, v', after', s', rfl, rfl, same, ahead⟩ |
    ⟨cause, after, cause', after', rfl, rfl, same⟩
  · simp only [Outcome.andThen]
    rcases (next v after s v' after' s' same ahead).cases with
      ⟨w, last, t, w', last', t', second, second', there⟩ |
      ⟨cause, last, cause', last', second, second', there⟩
    · simp only [second, second']
      exact there
    · simp only [second, second']
      exact there
  · exact same

end Outcome

/-! ## What a cursor sees -/

namespace Cursor

open Outcome

variable {c d : Cursor}

theorem SameAhead.peek (h : c.SameAhead d) : d.peek = c.peek := by
  obtain ⟨ts, us, hc, hd, words⟩ := h
  rw [peek_of_shows hc, peek_of_shows hd]
  cases words with
  | nil => rfl
  | cons same _ => exact congrArg some same.kind

theorem SameAhead.sign (h : c.SameAhead d) : d.sign = c.sign := by
  rw [Cursor.sign, h.peek, Cursor.sign]

/-- A cursor moves on unless nothing is left. -/
theorem cause_of_advance {cause : ReadError} {after : Cursor}
    (h : c.advance = .failed cause after) : ∃ place, cause = .endOfInput place := by
  -- by induction on the tokens that are left, of which each blank takes one away
  induction hn : c.remaining using Nat.strong_induction_on generalizing c with
  | _ n ih =>
      rw [advance] at h
      split at h
      · exact ⟨_, (Outcome.failed.inj h).1.symm⟩
      · next token rest hrest =>
        have shorter : (c.past token rest).remaining < n := by
          simp [← hn, past, remaining, hrest]
        dsimp only at h
        split at h
        · split at h
          · cases h
          · next cause' after' hlater =>
            obtain ⟨rfl, rfl⟩ := Outcome.failed.inj h
            exact ih _ shorter hlater rfl
        · cases h

theorem advance_parallel (h : c.SameAhead d) : c.advance.Parallel Token.SameWord d.advance := by
  obtain ⟨ts, us, hc, hd, words⟩ := h
  cases words with
  | nil =>
      obtain ⟨cause, after, hadvance⟩ := (advance_fails_of_shows hc).eq_failed
      obtain ⟨cause', after', hadvance'⟩ := (advance_fails_of_shows hd).eq_failed
      obtain ⟨place, rfl⟩ := cause_of_advance hadvance
      obtain ⟨place', rfl⟩ := cause_of_advance hadvance'
      rw [hadvance, hadvance']
      rfl
  | cons same words =>
      obtain ⟨t, after, s, hadvance, rfl, shows⟩ := (advance_gives_of_shows hc).eq_ok
      obtain ⟨u, after', s', hadvance', rfl, shows'⟩ := (advance_gives_of_shows hd).eq_ok
      rw [hadvance, hadvance']
      exact ⟨same, _, _, shows, shows', words⟩

theorem expect_parallel (h : c.SameAhead d) (kind : TokenKind) :
    (c.expect kind).Parallel Token.SameWord (d.expect kind) := by
  unfold expect
  rcases (advance_parallel h).cases with ⟨t, after, s, u, after', s', ht, hu, same, ahead⟩ |
    ⟨cause, after, cause', after', hc, hd, same⟩
  · simp only [ht, hu, same.kind]
    split
    · exact ⟨same, ahead⟩
    · rfl
  · simp only [hc, hd]
    exact same

/-! ## Single tokens -/

open Formula

theorem literal_parallel (h : c.SameAhead d) : c.literal.Parallel Like d.literal := by
  unfold literal
  rcases (advance_parallel h).cases with ⟨t, after, s, u, after', s', ht, hu, same, ahead⟩ |
    ⟨cause, after, cause', after', hc, hd, same⟩
  · simp only [ht, hu, same.kind, same.lexeme]
    split
    · exact ⟨rfl, ahead⟩
    · exact ⟨rfl, ahead⟩
    · split
      · exact ⟨rfl, ahead⟩
      · rfl
    · rfl
  · simp only [hc, hd]
    rfl

theorem symbol_parallel (h : c.SameAhead d) : c.symbol.Parallel Like d.symbol := by
  unfold symbol
  rcases (expect_parallel h .name).orBack.cases with
    ⟨t, after, s, u, after', s', ht, hu, same, ahead⟩ |
    ⟨cause, after, cause', after', hc, hd, same⟩
  · simp only [ht, hu, same.lexeme]
    split
    · exact ⟨rfl, ahead⟩
    · rfl
  · simp only [hc, hd]
    exact same

theorem superscript_parallel (h : c.SameAhead d) :
    c.superscript.Parallel (fun e e' => e'.1 = e.1) d.superscript := by
  unfold superscript
  rcases (expect_parallel h .superscript).orBack.cases with
    ⟨t, after, s, u, after', s', ht, hu, same, ahead⟩ |
    ⟨cause, after, cause', after', hc, hd, same⟩
  · simp only [ht, hu, same.lexeme]
    split
    · exact ⟨rfl, ahead⟩
    · rfl
  · simp only [hc, hd]
    exact same

theorem index_parallel (h : c.SameAhead d) : c.index.Parallel Eq d.index := by
  unfold index
  refine (expect_parallel h .openSquare).orBack.andThen ?_
  intro _ c₁ _ _ d₁ _ _ h₁
  refine (expect_parallel h₁ .integer).orBack.andThen ?_
  intro t c₂ _ u d₂ _ same h₂
  have read : index? u = index? t := by rw [index?, same.lexeme, index?]
  rw [read]
  split
  · exact Parallel.map ((expect_parallel h₂ .closeSquare).orBack.imp fun _ _ _ => rfl)
  · rfl

/-! ## Groups -/

/-- Two groups with formulas that are alike. -/
def Group.Like (g g' : Group) : Prop :=
  Formula.Like g.inner g'.inner

/-- Two quotients with parts that are alike. -/
structure Quotient.Like (q q' : Quotient) : Prop where
  top : Formula.Like q.top q'.top
  bottom : Formula.Like q.bottom q'.bottom

theorem Quotient.Like.isNumeric {q q' : Quotient} (h : q.Like q') :
    q'.isNumeric = q.isNumeric := by
  rw [Quotient.isNumeric, h.top.isSignedLiteral, h.bottom.isSignedLiteral, Quotient.isNumeric]

/-- A production comes to the same wherever a cursor has the same ahead as this one. -/
def SumParallel (c : Cursor) : Prop :=
  ∀ d, c.SameAhead d → c.sum.Parallel Formula.Like d.sum

theorem group_parallel (sums : ∀ e : Cursor, e.remaining < c.remaining → e.SumParallel)
    (h : c.SameAhead d) : c.group.Parallel Group.Like d.group := by
  rw [group, group]
  refine (expect_parallel h .openParen).orBack.andThen ?_
  intro opening c₁ s opening' d₁ _ _ h₁
  refine (sums c₁ s d₁ h₁).orBack.andThen ?_
  intro inner c₂ _ inner' d₂ _ same h₂
  exact Parallel.orBlame (Parallel.map ((expect_parallel h₂ .closeParen).imp fun _ _ _ => same)) rfl

theorem quotient_parallel (sums : ∀ e : Cursor, e.remaining < c.remaining → e.SumParallel)
    (h : c.SameAhead d) : c.quotient.Parallel Quotient.Like d.quotient := by
  rw [quotient, quotient]
  refine (group_parallel sums h).andThen ?_
  intro top c₁ s₁ top' d₁ _ same h₁
  refine (expect_parallel h₁ .divide).orBack.andThen ?_
  intro _ c₂ s₂ _ d₂ _ _ h₂
  have below := Nat.lt_trans s₂ s₁
  refine Parallel.map ((group_parallel (fun e he => sums e (Nat.lt_trans he below)) h₂).imp ?_)
  exact fun _ _ same' => ⟨same, same'⟩

theorem fraction_parallel (sums : ∀ e : Cursor, e.remaining < c.remaining → e.SumParallel)
    (h : c.SameAhead d) : c.fraction.Parallel Formula.Like d.fraction :=
  Parallel.map ((quotient_parallel sums h).imp fun _ _ same =>
    like_fraction.mpr ⟨same.top, same.bottom⟩)

theorem parenthesised_parallel (sums : ∀ e : Cursor, e.remaining < c.remaining → e.SumParallel)
    (h : c.SameAhead d) : c.parenthesised.Parallel Formula.Like d.parenthesised :=
  Parallel.map ((group_parallel sums h).imp fun _ _ same => like_group.mpr same)

/-! ## Atoms -/

theorem mixed_parallel (sums : ∀ e : Cursor, e.remaining < c.remaining → e.SumParallel)
    (h : c.SameAhead d) : c.mixed.Parallel Formula.Like d.mixed := by
  rw [mixed, mixed]
  refine (expect_parallel h .integer).orBack.andThen ?_
  intro t c₁ s u d₁ _ same h₁
  have quotients := quotient_parallel (fun e he => sums e (Nat.lt_trans he s)) h₁
  rcases quotients.cases with ⟨q, c₂, s₂, q', d₂, s₂', hq, hq', like, h₂⟩ |
    ⟨cause, after, cause', after', hc, hd, cause⟩
  · simp only [hq, hq', like.isNumeric, same.lexeme]
    split
    · exact ⟨like_mixed.mpr ⟨rfl, like.top, like.bottom⟩, h₂⟩
    · rfl
  · simp only [hc, hd]
    exact cause

/-- An atom comes to the same wherever a cursor has the same ahead as this one. -/
def AtomParallel (c : Cursor) : Prop :=
  ∀ d, c.SameAhead d → c.atom.Parallel Formula.Like d.atom

theorem root_parallel (atoms : ∀ e : Cursor, e.remaining < c.remaining → e.AtomParallel)
    (h : c.SameAhead d) : c.root.Parallel Formula.Like d.root := by
  rw [root, root]
  refine (expect_parallel h .radical).orBack.andThen ?_
  intro _ c₁ s₁ _ d₁ _ _ h₁
  rw [h₁.peek]
  split
  · refine (index_parallel h₁).andThen ?_
    intro n c₂ s₂ n' d₂ _ same h₂
    refine Parallel.map ((atoms c₂ (Nat.lt_trans s₂ s₁) d₂ h₂).imp ?_)
    exact fun _ _ like => like_root.mpr ⟨by rw [same], like⟩
  · refine Parallel.map ((atoms c₁ s₁ d₁ h₁).imp ?_)
    exact fun _ _ like => like_root.mpr ⟨rfl, like⟩

theorem groupOrFraction_parallel (sums : ∀ e : Cursor, e.remaining < c.remaining → e.SumParallel)
    (h : c.SameAhead d) : c.groupOrFraction.Parallel Formula.Like d.groupOrFraction := by
  rw [groupOrFraction, groupOrFraction]
  rcases (group_parallel sums h).cases with ⟨top, c₁, s₁, top', d₁, s₁', ht, ht', same, h₁⟩ |
    ⟨cause, after, cause', after', hc, hd, same⟩
  · simp only [ht, ht']
    have second : ((c₁.expect .divide).andThen fun _ e _ => e.group).Parallel Group.Like
        ((d₁.expect .divide).andThen fun _ e _ => e.group) := by
      refine (expect_parallel h₁ .divide).andThen ?_
      intro _ c₂ s₂ _ d₂ _ _ h₂
      have below := Nat.lt_trans s₂ s₁
      exact group_parallel (fun e he => sums e (Nat.lt_trans he below)) h₂
    rcases second.cases with ⟨bottom, c₂, s₂, bottom', d₂, s₂', hb, hb', same', h₂⟩ |
      ⟨cause, after, cause', after', hc, hd, -⟩
    · simp only [hb, hb']
      exact ⟨like_fraction.mpr ⟨same, same'⟩, h₂⟩
    · simp only [hc, hd]
      exact ⟨like_group.mpr same, h₁⟩
  · simp only [hc, hd]
    exact same

theorem atom_parallel (sums : ∀ e : Cursor, e.remaining < c.remaining → e.SumParallel)
    (atoms : ∀ e : Cursor, e.remaining < c.remaining → e.AtomParallel) : c.AtomParallel := by
  intro d h
  rw [atom, atom, h.peek]
  cases c.peek with
  | none => rfl
  | some kind =>
      cases kind with
      | closeParen => rfl
      | openParen => exact groupOrFraction_parallel sums h
      | integer => exact (mixed_parallel sums h).orElse (literal_parallel h)
      | name => exact symbol_parallel h
      | decimal => exact literal_parallel h
      | scientific => exact (literal_parallel h).orBlame rfl
      | radical => exact (root_parallel atoms h).orBlame rfl
      | blank | equals | plus | minus | times | divide | superscript | openSquare | closeSquare
      | unknown => rfl

/-! ## Products -/

theorem power_parallel (atoms : c.AtomParallel) (h : c.SameAhead d) :
    c.power.Parallel Formula.Like d.power := by
  rw [power, power]
  rcases (atoms d h).cases with ⟨base, c₁, s₁, base', d₁, s₁', hb, hb', same, h₁⟩ |
    ⟨cause, after, cause', after', hc, hd, same⟩
  · simp only [hb, hb', h₁.peek]
    split
    · rcases (superscript_parallel h₁).orBack.cases with
        ⟨e, c₂, s₂, e', d₂, s₂', he, he', exponents, h₂⟩ |
        ⟨cause, after, cause', after', hc, hd, same⟩
      · simp only [he, he']
        exact ⟨like_power.mpr ⟨same, exponents⟩, h₂⟩
      · simp only [hc, hd]
        exact same
    · exact ⟨same, h₁⟩
  · simp only [hc, hd]
    exact same

/-- A row of factors comes to the same wherever a cursor has the same ahead as this one. -/
def FactorsParallel (c : Cursor) : Prop :=
  ∀ d, c.SameAhead d → c.factors.Parallel LikeRow d.factors

theorem moreFactors_parallel (here : c.FactorsParallel)
    (rows : ∀ e : Cursor, e.remaining < c.remaining → e.FactorsParallel) (h : c.SameAhead d) :
    c.moreFactors = none ∧ d.moreFactors = none ∨
      ∃ o o', c.moreFactors = some o ∧ d.moreFactors = some o' ∧ o.Parallel LikeRow o' := by
  unfold moreFactors
  rw [h.peek]
  cases c.peek with
  | none => exact .inl ⟨rfl, rfl⟩
  | some kind =>
      cases kind with
      | times =>
          refine .inr ⟨_, _, rfl, rfl, (advance_parallel h).andThen ?_⟩
          exact fun _ e s _ e' _ _ ahead => rows e s e' ahead
      | integer | decimal | scientific | name | openParen | radical =>
          exact .inr ⟨_, _, if_pos (by decide), if_pos (by decide), here d h⟩
      | blank | equals | plus | minus | divide | superscript | closeParen | openSquare
      | closeSquare | unknown => exact .inl ⟨if_neg (by decide), if_neg (by decide)⟩

theorem factors_parallel (atoms : c.AtomParallel)
    (rows : ∀ e : Cursor, e.remaining < c.remaining → e.FactorsParallel) : c.FactorsParallel := by
  intro d h
  rw [factors_eq, factors_eq]
  rcases (power_parallel atoms h).cases with ⟨f, c₁, s₁, f', d₁, s₁', hf, hf', same, h₁⟩ |
    ⟨cause, after, cause', after', hc, hd, same⟩
  · have more := moreFactors_parallel (rows c₁ s₁) (fun e he => rows e (Nat.lt_trans he s₁)) h₁
    rcases more with ⟨none, none'⟩ | ⟨o, o', some, some', others⟩
    · simp only [hf, hf', none, none']
      exact ⟨likeRow_cons.mpr ⟨same, rfl⟩, h₁⟩
    · rcases others.cases with ⟨fs, c₂, s₂, fs', d₂, s₂', rfl, rfl, row, h₂⟩ |
        ⟨cause, after, cause', after', rfl, rfl, cause⟩
      · simp only [hf, hf', some, some']
        exact ⟨likeRow_cons.mpr ⟨same, row⟩, h₂⟩
      · simp only [hf, hf', some, some']
        exact cause
  · simp only [hc, hd]
    exact same

theorem product_parallel (rows : c.FactorsParallel) (h : c.SameAhead d) :
    c.product.Parallel Formula.Like d.product := by
  rw [product, product]
  exact Parallel.map ((rows d h).imp fun _ _ => LikeRow.ofFactors)

/-! ## Sums -/

theorem signedProduct_parallel (isFirst : Bool) (here : c.FactorsParallel)
    (rows : ∀ e : Cursor, e.remaining < c.remaining → e.FactorsParallel) (h : c.SameAhead d) :
    (c.signedProduct isFirst).Parallel Formula.Like (d.signedProduct isFirst) := by
  rw [signedProduct, signedProduct, h.sign]
  cases c.sign with
  | none => exact product_parallel here h
  | some positive =>
      refine (advance_parallel h).andThen ?_
      intro _ c₁ s₁ _ d₁ _ _ h₁
      refine Parallel.map ((product_parallel (rows c₁ s₁) h₁).imp fun _ _ like => ?_)
      split
      · exact like
      · exact like_signed.mpr ⟨rfl, like⟩

/-- A row of terms comes to the same wherever a cursor has the same ahead as this one. -/
def TermsParallel (c : Cursor) : Prop :=
  ∀ isFirst d, c.SameAhead d → (c.terms isFirst).Parallel LikeRow (d.terms isFirst)

theorem terms_parallel (here : c.FactorsParallel)
    (rows : ∀ e : Cursor, e.remaining < c.remaining → e.FactorsParallel)
    (more : ∀ e : Cursor, e.remaining < c.remaining → e.TermsParallel) : c.TermsParallel := by
  intro isFirst d h
  rw [terms, terms]
  rcases (signedProduct_parallel isFirst here rows h).cases with
    ⟨f, c₁, s₁, f', d₁, s₁', hf, hf', same, h₁⟩ |
    ⟨cause, after, cause', after', hc, hd, same⟩
  · simp only [hf, hf', h₁.sign]
    split
    · rcases (more c₁ s₁ false d₁ h₁).cases with ⟨fs, c₂, s₂, fs', d₂, s₂', hfs, hfs', row, h₂⟩ |
        ⟨cause, after, cause', after', hc, hd, cause⟩
      · simp only [hfs, hfs']
        exact ⟨likeRow_cons.mpr ⟨same, row⟩, h₂⟩
      · simp only [hc, hd]
        exact cause
    · exact ⟨likeRow_cons.mpr ⟨same, rfl⟩, h₁⟩
  · simp only [hc, hd]
    exact same

theorem sum_parallel_of_terms (here : c.TermsParallel) : c.SumParallel := by
  intro d h
  rw [sum, sum]
  exact Parallel.map ((here true d h).imp fun _ _ => LikeRow.ofTerms)

/-- Every production comes to the same at two cursors with the same ahead. -/
theorem parallel (c : Cursor) :
    c.AtomParallel ∧ c.FactorsParallel ∧ c.TermsParallel ∧ c.SumParallel := by
  -- by induction on the tokens that are left of the first text; those of the second follow
  refine reading_induct ?_ ?_ ?_ ?_ c
  · exact fun c later =>
      atom_parallel (fun d hd => (later d hd).2) fun d hd => (later d hd).1
  · exact fun c => factors_parallel
  · exact fun c here later =>
      terms_parallel here (fun d hd => (later d hd).1) fun d hd => (later d hd).2
  · exact fun c => sum_parallel_of_terms

theorem sum_parallel (c : Cursor) : c.SumParallel :=
  (parallel c).2.2.2

theorem statement_parallel (h : c.SameAhead d) :
    c.statement.Parallel Statement.Alike d.statement := by
  rw [statement, statement]
  rcases (sum_parallel c d h).orBack.cases with
    ⟨left, c₁, s₁, left', d₁, s₁', hl, hl', same, h₁⟩ |
    ⟨cause, after, cause', after', hc, hd, same⟩
  · simp only [hl, hl', h₁.peek]
    split
    · have second : ((c₁.expect .equals).orBack.andThen fun equals e _ =>
          e.sum.orBack.map fun right => (equals, right)).Parallel (fun p q => Formula.Like p.2 q.2)
            ((d₁.expect .equals).orBack.andThen fun equals e _ =>
              e.sum.orBack.map fun right => (equals, right)) := by
        refine (expect_parallel h₁ .equals).orBack.andThen ?_
        intro _ c₂ _ _ d₂ _ _ h₂
        exact Parallel.map (sum_parallel c₂ d₂ h₂).orBack
      rcases second.cases with
        ⟨⟨equals, right⟩, c₂, s₂, ⟨equals', right'⟩, d₂, s₂', hr, hr', same', h₂⟩ |
        ⟨cause, after, cause', after', hc, hd, same'⟩
      · simp only [hr, hr', h₂.peek]
        split
        · rfl
        · exact ⟨Statement.alike_equation.mpr ⟨same, same'⟩, h₂⟩
      · simp only [hc, hd]
        exact same'
    · exact ⟨Statement.alike_formula.mpr same, h₁⟩
  · simp only [hc, hd]
    exact same

end Cursor

/-! ## Whole texts -/

/-- Two readings come to the same: both give a value, and the two are related, or both are refused
for the same cause. -/
def SameReading {α : Type} (R : α → α → Prop) : Except ReadError α → Except ReadError α → Prop
  | .ok value, .ok value' => R value value'
  | .error cause, .error cause' => cause'.unplaced = cause.unplaced
  | _, _ => False

theorem SameReading.map {α β : Type} {R : α → α → Prop} {R' : β → β → Prop} {f : α → β}
    {x x' : Except ReadError α} (h : SameReading R x x')
    (carry : ∀ v v', R v v' → R' (f v) (f v')) : SameReading R' (x.map f) (x'.map f) := by
  match x, x' with
  | .ok _, .ok _ => exact carry _ _ h
  | .error _, .error _ => exact h
  | .ok _, .error _ | .error _, .ok _ => exact h.elim

theorem Outcome.Parallel.entire {c d : Cursor} {α : Type} {R : α → α → Prop} {o : Outcome c α}
    {o' : Outcome d α} (h : o.Parallel R o') : SameReading R o.entire.toExcept o'.entire.toExcept := by
  rcases h.cases with ⟨v, after, s, v', after', s', rfl, rfl, same, ahead⟩ |
    ⟨cause, after, cause', after', rfl, rfl, same⟩
  · simp only [Outcome.entire, ahead.peek]
    split
    · exact same
    · rfl
    · rfl
  · exact same

/-- Texts with the same words are read from cursors with the same ahead. -/
theorem Token.sameAhead_of_words {input input' : String} (h : words input = words input') :
    (Cursor.ofText input).SameAhead (Cursor.ofText input') := by
  refine ⟨_, _, Cursor.shows_ofText input, Cursor.shows_ofText input', ?_⟩
  have pairs : List.Forall₂ Eq (words input) (words input') := by rw [List.forall₂_eq_eq_eq, h]
  rw [words, words, List.forall₂_map_left_iff, List.forall₂_map_right_iff] at pairs
  exact pairs.imp fun t u same => ⟨(Prod.mk.inj same).1.symm, (Prod.mk.inj same).2.symm⟩

mutual

/-- A particle does not depend on the places in the formula that it comes from. -/
theorem Particle.ofFormula_unplaced : (f : Formula) → ofFormula f.unplaced = ofFormula f
  | .literal _ _ | .symbol _ _ => rfl
  | .fraction top bottom _ | .mixed _ _ top bottom _ _ => by
      simp only [Formula.unplaced, ofFormula, ofFormula_unplaced top, ofFormula_unplaced bottom]
  | .root _ inner _ | .group inner _ | .power inner _ _ _ | .signed _ inner _ => by
      simp only [Formula.unplaced, ofFormula, ofFormula_unplaced inner]
  | .product row _ | .sum row _ => by
      simp only [Formula.unplaced, ofFormula, ofRow_unplaced row]

theorem Particle.ofRow_unplaced : (fs : List Formula) → ofRow (Formula.unplacedRow fs) = ofRow fs
  | [] => rfl
  | f :: fs => by
      simp only [Formula.unplacedRow, ofRow, ofFormula_unplaced f, ofRow_unplaced fs]

end

/-- Statements that differ in their places at most stand for the same value. -/
theorem Value.ofStatement_of_alike {s s' : Statement} (h : s.Alike s') :
    ofStatement s = ofStatement s' := by
  have unplaced (s : Statement) : ofStatement s.unplaced = ofStatement s := by
    cases s with
    | formula f => simp only [Statement.unplaced, ofStatement, Particle.ofFormula_unplaced]
    | equation f g _ => simp only [Statement.unplaced, ofStatement, Particle.ofFormula_unplaced]
  rw [← unplaced s, ← unplaced s', show s'.unplaced = s.unplaced from h]

/-- The productions that read a formula. -/
def Formula.productions : List ((c : Cursor) → Outcome c Formula) :=
  [Cursor.sum, Cursor.product, Cursor.power, Cursor.atom, Cursor.literal, Cursor.symbol,
    Cursor.fraction, Cursor.mixed, Cursor.root, Cursor.parenthesised]

open Cursor in
theorem Formula.productions_parallel {c d : Cursor} (h : c.SameAhead d) :
    ∀ read ∈ productions, (read c).Parallel Like (read d) := by
  have sums := fun e (_ : e.remaining < c.remaining) => sum_parallel e
  have atoms := fun e (_ : e.remaining < c.remaining) => (parallel e).1
  obtain ⟨atom, factors, -, sum⟩ := parallel c
  simp only [productions, List.forall_mem_cons]
  exact ⟨sum d h, product_parallel factors h, power_parallel atom h, atom d h, literal_parallel h,
    symbol_parallel h, fraction_parallel sums h, mixed_parallel sums h, root_parallel atoms h,
    parenthesised_parallel sums h, List.forall_mem_nil _⟩

/-- Reads a text from its first token to its last. -/
def Cursor.readAll {α : Type} (read : (c : Cursor) → Outcome c α) (input : String) :
    Except ReadError α :=
  (read (ofText input)).entire.toExcept

open Cursor in
/-- Blanks between tokens do not matter. If two texts have the same tokens apart from blanks and
places, they are read as the same value or refused for the same cause, whether they are read as
statements, as formulas of any production, as exponents or as single tokens. -/
theorem Statement.blanks_do_not_matter (input input' : String)
    (h : Token.words input = Token.words input') :
    SameReading Eq (Value.read input) (Value.read input') ∧
    SameReading Statement.Alike (Statement.read input) (Statement.read input') ∧
    (∀ read ∈ Formula.productions,
      SameReading Formula.Like (readAll read input) (readAll read input')) ∧
    SameReading (fun e e' => e'.1 = e.1) (readAll superscript input)
      (readAll superscript input') ∧
    ∀ kind, SameReading Token.SameWord (readAll (expect · kind) input)
      (readAll (expect · kind) input') := by
  have ahead := Token.sameAhead_of_words h
  have statements : SameReading Statement.Alike (Statement.read input) (Statement.read input') :=
    (statement_parallel ahead).entire
  refine ⟨?_, statements, ?_, (superscript_parallel ahead).entire, ?_⟩
  · exact statements.map fun _ _ => Value.ofStatement_of_alike
  · exact fun read hread => (Formula.productions_parallel ahead read hread).entire
  · exact fun kind => (expect_parallel ahead kind).entire

theorem Statement.blanks_do_not_matter_around_quotient :
    Token.words " 2 (1)\t/ (4)" = Token.words "2(1)/(4)" ∧
      (Value.read "2(1)/(4)").isOk = true ∧
        SameReading Eq (Value.read " 2 (1)\t/ (4)") (Value.read "2(1)/(4)") := by
  have words : Token.words " 2 (1)\t/ (4)" = Token.words "2(1)/(4)" := by decide +kernel
  exact ⟨words, by decide +kernel, (blanks_do_not_matter _ _ words).1⟩

end StepAlgebra
