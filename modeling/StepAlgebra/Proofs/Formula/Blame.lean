import StepAlgebra.Proofs.Formula.Derived.Atom
import StepAlgebra.Proofs.Formula.Descent
import StepAlgebra.Proofs.Formula.Outline
import StepAlgebra.Proofs.Formula.Soundness
import StepAlgebra.Value.OfFormula

/-!
# What a text is refused for

Which of the causes gets through is decided wherever readers are tried one after the other. What a
cause says about the tokens in front of the cursor is stated once, as a relation between rows of
tokens and causes, and it is carried through the productions together with what they pass. Two
causes only ever arise in readers whose failure is replaced by another.

* `Outcome.FailsFor` — what an attempt may fail for;
* `Cursor.sum_stops` — a sum goes on as long as it can;
* `Grammar.Blames` — what a formula in front of a row of tokens is refused for;
* `Cursor.blames` — what each production is refused for;
* `Grammar.Refuses`, `Statement.refuses_of_read` — what a whole text is refused for;
* `Value.refusals_are_placed` — which places a refusal points at.
-/

namespace StepAlgebra

namespace Outcome

variable {c : Cursor} {α β : Type} {good : α → Cursor → Prop} {bad worse : ReadError → Prop}
  {o : Outcome c α}

/-- If the attempt fails, its cause is one of these. -/
def FailsFor (bad : ReadError → Prop) : Outcome c α → Prop
  | ok _ _ _ => True
  | failed cause _ => bad cause

theorem FailsFor.of_eq_failed {cause : ReadError} {after : Cursor} (h : o.FailsFor bad)
    (ho : o = .failed cause after) : bad cause := by
  rw [ho] at h
  exact h

theorem failsFor_of_forall (h : ∀ e, bad e) : o.FailsFor bad := by
  cases o with
  | ok => trivial
  | failed cause after => exact h cause

theorem FailsFor.imp (h : o.FailsFor worse) (weaken : ∀ e, worse e → bad e) : o.FailsFor bad := by
  cases o with
  | ok => trivial
  | failed cause after => exact weaken cause h

theorem Gives.failsFor (h : o.Gives good) : o.FailsFor bad := by
  cases o with
  | ok => trivial
  | failed => exact h.elim

theorem FailsFor.map (h : o.FailsFor bad) (f : α → β) : (o.map f).FailsFor bad := by
  cases o <;> exact h

theorem FailsFor.orBack (h : o.FailsFor bad) : o.orBack.FailsFor bad := by
  cases o <;> exact h

theorem FailsFor.orBlame {cause : ReadError} (h : o.FailsFor fun _ => bad cause) :
    (o.orBlame cause).FailsFor bad := by
  cases o <;> exact h

/-- The cause of the first failure is lost. -/
theorem FailsFor.orElse {second : Outcome c α} (h : second.FailsFor bad) :
    (o.orElse second).FailsFor bad := by
  cases o with
  | ok => trivial
  | failed => exact h

theorem FailsFor.andThen {f : α → (d : Cursor) → d.remaining < c.remaining → Outcome d β}
    (h : o.FailsFor bad)
    (next : ∀ value d shorter, o = .ok value d shorter → (f value d shorter).FailsFor bad) :
    (o.andThen f).FailsFor bad := by
  cases o with
  | failed => exact h
  | ok value d shorter =>
      simp only [Outcome.andThen]
      cases second : f value d shorter with
      | ok => trivial
      | failed => exact (next value d shorter rfl).of_eq_failed second

end Outcome

namespace Cursor

open Grammar Outcome

variable {c d : Cursor} {t : Token} {ts : List Token} {finish : Span} {kind : TokenKind}

/-! ## Cursors in a text -/

/-- A cursor that shows some tokens, in a text that ends at a place. -/
structure IsBefore (c : Cursor) (ts : List Token) (finish : Span) : Prop where
  shows : c.Shows ts
  finish : c.finish = finish

theorem IsBefore.after {α : Type} {good : α → List Token → Prop} {o : Outcome c α} {value : α}
    {shorter : d.remaining < c.remaining} (h : c.IsBefore ts finish) (passes : o.Passes ts good)
    (moves : o.Moves) (ho : o = .ok value d shorter) :
    ∃ a b, ts = a ++ b ∧ d.IsBefore b finish ∧ good value a := by
  obtain ⟨a, b, split, shows, here⟩ := passes.of_eq_ok ho
  exact ⟨a, b, split, ⟨shows, (moves.of_eq_ok ho).finish.trans h.finish⟩, here⟩

theorem IsBefore.of_advance {shorter : d.remaining < c.remaining} (h : c.IsBefore ts finish)
    (ho : c.advance = .ok t d shorter) : ∃ b, ts = t :: b ∧ d.IsBefore b finish := by
  obtain ⟨a, b, rfl, before, -, -, rfl⟩ := h.after (advance_passes h.shows) (advance_moves c) ho
  exact ⟨b, rfl, before⟩

theorem IsBefore.of_expect {shorter : d.remaining < c.remaining} (h : c.IsBefore ts finish)
    (ho : (c.expect kind).orBack = .ok t d shorter) :
    ∃ b, ts = t :: b ∧ t.kind = kind ∧ d.IsBefore b finish := by
  obtain ⟨a, b, rfl, before, hkind, -, rfl⟩ :=
    h.after (expect_passes h.shows kind).orBack (expect_moves c kind).orBack ho
  exact ⟨b, rfl, hkind, before⟩

/-- A token is refused only if it is not of the expected kind. -/
theorem expect_failsFor (h : c.Shows ts) (kind : TokenKind) :
    (c.expect kind).FailsFor fun _ => c.peek ≠ some kind := by
  by_cases hpeek : c.peek = some kind
  · obtain ⟨t, b, rfl, hkind⟩ := exists_cons_of_peek h hpeek
    exact (expect_gives_of_shows h hkind).failsFor
  · exact failsFor_of_forall fun _ => hpeek

/-! ## Where a sum stops -/

/-- Behind the last factor there is none. -/
def FactorsStop (c : Cursor) : Prop :=
  c.factors.Allows fun _ d => d.moreFactors = none

/-- Behind the last term there is no sign, and behind its last factor there is none. -/
def TermsStop (c : Cursor) : Prop :=
  ∀ isFirst, (c.terms isFirst).Allows fun _ d => d.moreFactors = none ∧ d.sign = none

theorem factors_stop (rows : ∀ d : Cursor, d.remaining < c.remaining → d.FactorsStop) :
    c.FactorsStop := by
  rw [FactorsStop, factors_eq]
  split
  · trivial
  · next factor c₁ shorter hpower =>
    split
    · next none => exact none
    · trivial
    · next others after shorter' hmore =>
      rcases moreFactors_cases hmore with ⟨-, later⟩ | ⟨-, here⟩
      · have stops : (c₁.advance.andThen fun _ d _ => d.factors).Allows
            fun _ d => d.moreFactors = none :=
          (allows_true _).andThen fun _ d fewer _ => rows d (Nat.lt_trans fewer shorter)
        exact stops.of_eq_ok later.symm
      · exact (rows c₁ shorter).of_eq_ok here.symm

theorem product_stops (rows : c.FactorsStop) :
    c.product.Allows fun _ d => d.moreFactors = none := by
  rw [product]
  exact Allows.map rows

theorem terms_stop (here : c.FactorsStop)
    (rows : ∀ d : Cursor, d.remaining < c.remaining → d.FactorsStop ∧ d.TermsStop) :
    c.TermsStop := by
  intro isFirst
  have stops : (c.signedProduct isFirst).Allows fun _ d => d.moreFactors = none := by
    rw [signedProduct]
    split
    · exact product_stops here
    · exact (allows_true _).andThen fun _ c₁ shorter _ =>
        Allows.map (product_stops (rows c₁ shorter).1)
  rw [terms]
  split
  · trivial
  · next term c₁ shorter hterm =>
    split
    · split
      · trivial
      · next others after shorter' hothers =>
        exact ((rows c₁ shorter).2 false).of_eq_ok hothers
    · next unsigned =>
      exact ⟨stops.of_eq_ok hterm, by simpa using unsigned⟩

/-- A sum goes on as long as a factor or a sign follows. -/
theorem sum_stops (c : Cursor) :
    c.sum.Allows fun _ d => d.moreFactors = none ∧ d.sign = none := by
  have stops := @reading_induct (fun _ => True) FactorsStop TermsStop (fun _ => True)
    (fun _ _ => trivial) (fun c _ later => factors_stop later)
    (fun c rows later => terms_stop rows later) (fun _ _ => trivial) c
  rw [sum]
  exact Allows.map (stops.2.2.1 true)

/-- The kinds of token that end a sum but close no group. -/
def stoppers : List TokenKind :=
  [.equals, .divide, .superscript, .openSquare, .closeSquare, .unknown]

theorem ends_stoppers (h : c.Shows ts) (rows : c.moreFactors = none) (signs : c.sign = none)
    (other : c.peek ≠ some .closeParen) : Ends stoppers ts := by
  cases ts with
  | nil => simp [Ends]
  | cons t ts =>
      have hpeek := peek_of_shows_cons h
      have visible := h.visible List.mem_cons_self
      rw [moreFactors, hpeek] at rows
      rw [sign, hpeek] at signs
      rw [hpeek] at other
      refine ends_cons ?_
      cases hkind : t.kind <;> simp_all [atomStart, sign?, stoppers]

end Cursor

/-! ## Causes and tokens -/

namespace Grammar

open Cursor

variable {a b : List Token} {t : Token} {finish : Span} {e : ReadError}

/-- The kinds of token behind which a product has to follow. -/
def leads : List TokenKind :=
  [.openParen, .plus, .minus, .times]

/-- What a sum is refused for in front of some tokens, in a text that ends at a place: the end of
the text, a token, the superscript of a power that is out of range, the parenthesis in front of a
sum that no closing one follows, or a closing parenthesis where a product has to follow. -/
inductive Blames (finish : Span) : List Token → ReadError → Prop
  | endOfInput {a : List Token} : Blames finish a (.endOfInput finish)
  | unexpectedToken {a b : List Token} {t : Token} {expected : List TokenKind} :
      Blames finish (a ++ t :: b) (.unexpectedToken t.span expected t.kind)
  | exponentTooLarge {a b : List Token} {t : Token} : t.kind = .superscript →
      4294967295 < t.exponent → Blames finish (a ++ t :: b) (.exponentTooLarge t.span)
  | unclosedParen {a inside b : List Token} {opening : Token} : opening.kind = .openParen →
      Derives .sum inside → Ends stoppers b →
      Blames finish (a ++ opening :: (inside ++ b)) (.unclosedParen opening.span)
  | unopenedParen {a b : List Token} {closing : Token} : closing.kind = .closeParen →
      (∀ t ∈ a.getLast?, t.kind ∈ leads) →
      Blames finish (a ++ closing :: b) (.unopenedParen closing.span)

theorem blames_first {kind : TokenKind} {expected : List TokenKind} (hkind : t.kind = kind) :
    Blames finish (t :: b) (.unexpectedToken t.span expected kind) := by
  rw [← hkind]
  exact .unexpectedToken (a := [])

/-- What is blamed stays so behind other tokens, unless a closing parenthesis follows them where it
may close a group. -/
theorem Blames.behind (h : Blames finish b e)
    (lead : ∀ t ∈ b.head?, t.kind = .closeParen → ∀ u ∈ a.getLast?, u.kind ∈ leads) :
    Blames finish (a ++ b) e := by
  cases h with
  | endOfInput => exact .endOfInput
  | unexpectedToken =>
      rw [← List.append_assoc]
      exact .unexpectedToken
  | exponentTooLarge hkind large =>
      rw [← List.append_assoc]
      exact .exponentTooLarge hkind large
  | unclosedParen hopening derives ends =>
      rw [← List.append_assoc]
      exact .unclosedParen hopening derives ends
  | @unopenedParen front _ closing hclosing leading =>
      rw [← List.append_assoc]
      refine .unopenedParen hclosing ?_
      cases front with
      | nil =>
          rw [List.append_nil]
          exact lead closing rfl hclosing
      | cons u front =>
          rw [List.getLast?_append_of_ne_nil a (List.cons_ne_nil u front)]
          exact leading

theorem Blames.behind_lead (h : Blames finish b e) (ht : t.kind ∈ leads) :
    Blames finish (t :: b) e := by
  refine h.behind (a := [t]) fun _ _ _ u hu => ?_
  obtain rfl := Option.some.inj hu
  exact ht

theorem Blames.behind_apart (h : Blames finish (t :: b) e) (ht : t.kind ≠ .closeParen) :
    Blames finish (a ++ t :: b) e := by
  refine h.behind fun u hu hclosing => ?_
  obtain rfl := Option.some.inj hu
  exact absurd hclosing ht

end Grammar

namespace Cursor

open Grammar Outcome

variable {c d : Cursor} {t : Token} {ts : List Token} {finish : Span}

/-- Whatever a reader fails for is to be blamed on the tokens in front of it. -/
def BlamesRightly {α : Type} (read : (c : Cursor) → Outcome c α) (c : Cursor) : Prop :=
  ∀ ts finish, c.IsBefore ts finish → (read c).FailsFor (Blames finish ts)

theorem exists_cons_of_sign {positive : Bool} (h : c.Shows ts) (hsign : c.sign = some positive) :
    ∃ t b, ts = t :: b ∧ t.IsSign := by
  obtain ⟨kind, hpeek, signed⟩ := Option.bind_eq_some_iff.mp hsign
  obtain ⟨t, b, rfl, rfl⟩ := exists_cons_of_peek h hpeek
  exact ⟨t, b, rfl, isSign_of_sign? signed⟩

/-- Behind a token that a product has to follow, the next reader may be refused. -/
theorem advance_blames {β : Type} {b : List Token}
    {f : Token → (d : Cursor) → d.remaining < c.remaining → Outcome d β}
    (h : c.IsBefore (t :: b) finish) (lead : t.kind ∈ leads)
    (next : ∀ d shorter, d.IsBefore b finish → (f t d shorter).FailsFor (Blames finish b)) :
    (c.advance.andThen f).FailsFor (Blames finish (t :: b)) := by
  refine FailsFor.andThen (advance_gives_of_shows h.shows).failsFor ?_
  intro token d shorter hadvance
  obtain ⟨a, same, before⟩ := h.of_advance hadvance
  obtain ⟨rfl, rfl⟩ := List.cons.inj same
  exact (next d shorter before).imp fun e bad => bad.behind_lead lead

/-! ## Groups and atoms -/

theorem group_blames (sums : ∀ d : Cursor, d.remaining < c.remaining → BlamesRightly sum d)
    (h : c.IsBefore ts finish) (hpeek : c.peek = some .openParen) :
    c.group.FailsFor (Blames finish ts) := by
  rw [group]
  have opens : (c.expect .openParen).FailsFor (Blames finish ts) :=
    (expect_failsFor h.shows .openParen).imp fun _ other => absurd hpeek other
  refine opens.orBack.andThen ?_
  intro opening c₁ shorter hexpect
  obtain ⟨b, rfl, hopening, before₁⟩ := h.of_expect hexpect
  have lead : opening.kind ∈ leads := by simp [hopening, leads]
  have goesOn := (sums c₁ shorter b finish before₁).imp fun _ bad => bad.behind_lead lead
  refine goesOn.orBack.andThen ?_
  intro inner c₂ _ hsum
  obtain ⟨inside, rest, rfl, before₂, read⟩ :=
    before₁.after (sum_passes c₁ b before₁.shows).orBack (Reader.sum.read_moves c₁).orBack hsum
  obtain ⟨rows, signs⟩ := (sum_stops c₁).orBack.of_eq_ok hsum
  refine FailsFor.orBlame (FailsFor.map ((expect_failsFor before₂.shows .closeParen).imp ?_) _)
  intro _ other
  exact .unclosedParen (a := []) hopening read.derives
    (ends_stoppers before₂.shows rows signs other)

theorem groupOrFraction_blames
    (sums : ∀ d : Cursor, d.remaining < c.remaining → BlamesRightly sum d)
    (h : c.IsBefore ts finish) (hpeek : c.peek = some .openParen) :
    c.groupOrFraction.FailsFor (Blames finish ts) := by
  rw [groupOrFraction]
  split
  · next hgroup => exact (group_blames sums h hpeek).of_eq_failed hgroup
  · split <;> trivial

/-- An atom is refused for its first token, unless that opens a group. In front of a number without
a power of ten or a name it is not refused, whatever comes of a mixed number. -/
theorem atom_blames (sums : ∀ d : Cursor, d.remaining < c.remaining → BlamesRightly sum d) :
    BlamesRightly atom c := by
  intro ts finish h
  cases ts with
  | nil =>
      rw [atom, peek_of_shows_nil h.shows, span_of_shows_nil h.shows, h.finish]
      exact .endOfInput
  | cons t ts =>
      have hpeek := peek_of_shows_cons h.shows
      rw [atom, hpeek, span_of_shows_cons h.shows]
      cases hkind : t.kind with
      | openParen => exact groupOrFraction_blames sums h (hpeek.trans (by rw [hkind]))
      | closeParen => exact .unopenedParen (a := []) hkind (by simp)
      | integer => exact (literal_gives (.integer hkind) h.shows).failsFor.orElse
      | decimal => exact (literal_gives (.decimal hkind) h.shows).failsFor
      | name => exact (symbol_goes hkind c h.shows).failsFor
      | scientific | radical =>
          exact FailsFor.orBlame (failsFor_of_forall fun _ => blames_first hkind)
      | blank | equals | plus | minus | times | divide | superscript | openSquare | closeSquare
      | unknown => exact blames_first hkind

/-! ## Products -/

theorem superscript_failsFor (h : c.Shows (t :: ts)) (hkind : t.kind = .superscript) :
    c.superscript.FailsFor fun e => e = .exponentTooLarge t.span ∧ 4294967295 < t.exponent := by
  obtain ⟨token, d, shorter, hexpect, rfl, -⟩ := (expect_gives_of_shows h hkind).orBack.eq_ok
  simp only [superscript, hexpect]
  split
  · trivial
  · next hread =>
    refine ⟨rfl, Nat.lt_of_not_le fun fits => ?_⟩
    have read := (Token.isSome_read?_iff h.head_isSpelled hkind).mpr fits
    rw [hread] at read
    cases read

theorem power_blames (atoms : BlamesRightly atom c) : BlamesRightly power c := by
  intro ts finish h
  rw [power]
  split
  · next hatom => exact (atoms ts finish h).of_eq_failed hatom
  · next base c₁ shorter hatom =>
    obtain ⟨a, b, rfl, before, -⟩ :=
      h.after ((passes c).1 ts h.shows) (Reader.atom.read_moves c) hatom
    split
    · next hpeek =>
      obtain ⟨t, b, rfl, hkind⟩ := exists_cons_of_peek before.shows hpeek
      split
      · next hsuperscript =>
        obtain ⟨rfl, large⟩ :=
          (superscript_failsFor before.shows hkind).orBack.of_eq_failed hsuperscript
        exact .exponentTooLarge hkind large
      · trivial
    · trivial

/-- Further factors are refused in the same way whatever is in front of them. -/
theorem moreFactors_blames {o : Outcome c (List Formula)}
    (rows : ∀ d : Cursor, d.remaining ≤ c.remaining → BlamesRightly factors d)
    (h : c.IsBefore ts finish) (ho : c.moreFactors = some o) :
    o.FailsFor fun e => ∀ a, Blames finish (a ++ ts) e := by
  rcases moreFactors_cases ho with ⟨hpeek, rfl⟩ | ⟨⟨kind, starts, hpeek⟩, rfl⟩
  · obtain ⟨times, b, rfl, htimes⟩ := exists_cons_of_peek h.shows hpeek
    have lead : times.kind ∈ leads := by simp [htimes, leads]
    refine (advance_blames h lead fun d shorter before => ?_).imp fun e bad a => ?_
    · exact rows d (Nat.le_of_lt shorter) b finish before
    · exact bad.behind_apart (by simp [htimes])
  · obtain ⟨t, b, rfl, rfl⟩ := exists_cons_of_peek h.shows hpeek
    refine (rows c (Nat.le_refl _) (t :: b) finish h).imp fun e bad a => bad.behind_apart ?_
    intro closing
    rw [closing] at starts
    revert starts
    decide

theorem factors_blames (atoms : BlamesRightly atom c)
    (rows : ∀ d : Cursor, d.remaining < c.remaining → BlamesRightly factors d) :
    BlamesRightly factors c := by
  intro ts finish h
  rw [factors_eq]
  split
  · next hpower => exact (power_blames atoms ts finish h).of_eq_failed hpower
  · next factor c₁ shorter hpower =>
    obtain ⟨a, b, rfl, before, -⟩ :=
      h.after (power_passes (passes c).1 h.shows) (Reader.power.read_moves c) hpower
    have later := fun d (hd : d.remaining ≤ c₁.remaining) =>
      rows d (Nat.lt_of_le_of_lt hd shorter)
    split
    · trivial
    · next hmore => exact (moreFactors_blames later before hmore).of_eq_failed rfl a
    · trivial

theorem product_blames (rows : BlamesRightly factors c) : BlamesRightly product c := by
  intro ts finish h
  rw [product]
  exact (rows ts finish h).map _

/-! ## Sums -/

theorem signedProduct_blames (isFirst : Bool) (here : BlamesRightly factors c)
    (rows : ∀ d : Cursor, d.remaining < c.remaining → BlamesRightly factors d) :
    BlamesRightly (signedProduct · isFirst) c := by
  intro ts finish h
  dsimp only
  rw [signedProduct]
  split
  · exact product_blames here ts finish h
  · next positive hsign =>
    obtain ⟨sign, b, rfl, signed⟩ := exists_cons_of_sign h.shows hsign
    have lead : sign.kind ∈ leads := by
      rcases signed with hkind | hkind <;> simp [hkind, leads]
    exact advance_blames h lead fun c₁ shorter before =>
      (product_blames (rows c₁ shorter) b finish before).map _

/-- What terms fail for is to be blamed, first or not. -/
def TermsBlame (c : Cursor) : Prop :=
  ∀ isFirst, BlamesRightly (terms · isFirst) c

theorem terms_blame (here : BlamesRightly factors c)
    (later : ∀ d : Cursor, d.remaining < c.remaining → BlamesRightly factors d ∧ d.TermsBlame) :
    c.TermsBlame := by
  intro isFirst ts finish h
  have rows := fun d hd => (later d hd).1
  dsimp only
  rw [terms]
  split
  · next hterm => exact (signedProduct_blames isFirst here rows ts finish h).of_eq_failed hterm
  · next term c₁ shorter hterm =>
    obtain ⟨a, b, rfl, before, -⟩ :=
      h.after (signedProduct_passes isFirst (passes c).2.1 (fun d _ => (passes d).2.1) h.shows)
        ((Reader.signedProduct isFirst).read_moves c) hterm
    split
    · next signed =>
      split
      · next hothers =>
        obtain ⟨positive, hsign⟩ := Option.isSome_iff_exists.mp signed
        obtain ⟨sign, b, rfl, signed⟩ := exists_cons_of_sign before.shows hsign
        have bad := ((later c₁ shorter).2 false _ finish before).of_eq_failed hothers
        refine bad.behind_apart ?_
        rcases signed with hkind | hkind <;> simp [hkind]
      · trivial
    · trivial

/-- What each production fails for is to be blamed. -/
theorem blames (c : Cursor) :
    BlamesRightly atom c ∧ BlamesRightly factors c ∧ c.TermsBlame ∧ BlamesRightly sum c := by
  refine reading_induct ?_ ?_ ?_ ?_ c
  · exact fun c later => atom_blames fun d hd => (later d hd).2
  · exact fun c atoms later => factors_blames atoms later
  · exact fun c rows later => terms_blame rows later
  · intro c more ts finish h
    rw [sum]
    exact (more true ts finish h).map _

theorem sum_blames (c : Cursor) : BlamesRightly sum c :=
  (blames c).2.2.2

end Cursor

/-! ## Statements -/

/-- What a statement is refused for in front of some tokens: as a sum is, on one of the two sides of
an equation, a token behind the whole statement, or a third side. -/
inductive Grammar.Refuses (finish : Span) : List Token → ReadError → Prop
  | left {a : List Token} {e : ReadError} : Blames finish a e → Refuses finish a e
  | right {a b : List Token} {equals : Token} {e : ReadError} : Derives .sum a →
      equals.kind = .equals → Blames finish b e → Refuses finish (a ++ equals :: b) e
  | trailingInput {a b : List Token} {t : Token} : Derives .statement a → t.kind ≠ .closeParen →
      Refuses finish (a ++ t :: b) (.trailingInput t.span)
  | unopenedParen {a b : List Token} {closing : Token} : Derives .statement a →
      closing.kind = .closeParen → Refuses finish (a ++ closing :: b) (.unopenedParen closing.span)
  | chainedEquation {a b r : List Token} {first another : Token} : Derives .sum a →
      first.kind = .equals → Derives .sum b → another.kind = .equals →
      Refuses finish (a ++ first :: (b ++ another :: r)) (.chainedEquation first.span another.span)

namespace Cursor

open Grammar Outcome

variable {c : Cursor} {ts : List Token} {finish : Span}

theorem rightSide_refuses {a : List Token} (left : Derives .sum a) (h : c.IsBefore ts finish)
    (hpeek : c.peek = some .equals) : c.rightSide.FailsFor (Refuses finish (a ++ ts)) := by
  have follows : (c.expect .equals).FailsFor (Refuses finish (a ++ ts)) :=
    (expect_failsFor h.shows .equals).imp fun _ other => absurd hpeek other
  refine follows.orBack.andThen ?_
  intro equals d _ hexpect
  obtain ⟨b, rfl, hequals, before⟩ := h.of_expect hexpect
  refine FailsFor.map (FailsFor.orBack ((sum_blames d b finish before).imp ?_)) _
  exact fun e bad => .right left hequals bad

theorem statement_refuses (h : c.IsBefore ts finish) :
    c.statement.FailsFor (Refuses finish ts) := by
  rw [statement]
  split
  · next hleft => exact .left ((sum_blames c ts finish h).orBack.of_eq_failed hleft)
  · next left c₁ shorter hleft =>
    obtain ⟨a, b, rfl, before, readLeft⟩ :=
      h.after (sum_passes c ts h.shows).orBack (Reader.sum.read_moves c).orBack hleft
    split
    · next hpeek =>
      dsimp only
      split
      · next hright => exact (rightSide_refuses readLeft.derives before hpeek).of_eq_failed hright
      · next equals right c₂ shorter' hright =>
        obtain ⟨_, r, rfl, shows, a', rfl, hequals, readRight⟩ :=
          (rightSide_passes sum_passes before.shows).of_eq_ok hright
        split
        · next more =>
          obtain ⟨another, r, rfl, hanother⟩ := exists_cons_of_peek shows more
          rw [span_of_shows_cons shows]
          exact .chainedEquation readLeft.derives hequals readRight.derives hanother
        · trivial
    · trivial

theorem isBefore_ofText (input : String) :
    (ofText input).IsBefore ((Token.scan input).filter (!·.isBlank)) (ofText input).finish :=
  ⟨shows_ofText input, rfl⟩

theorem finish_ofText (input : String) :
    (ofText input).finish =
      Span.point (((Token.scan input).getLast?.map fun t => t.span.stop).getD 0) := by
  rw [ofText]
  cases (Token.scan input).getLast? <;> rfl

end Cursor

/-- What a whole text is refused for. -/
theorem Statement.refuses_of_read {input : String} {e : ReadError}
    (h : Statement.read input = .error e) :
    Grammar.Refuses (Cursor.ofText input).finish ((Token.scan input).filter (!·.isBlank)) e := by
  rw [Statement.read] at h
  have before := Cursor.isBefore_ofText input
  cases hread : (Cursor.ofText input).statement with
  | failed cause after =>
      rw [hread] at h
      obtain rfl := Except.error.inj h
      exact (Cursor.statement_refuses before).of_eq_failed hread
  | ok s after shorter =>
      obtain ⟨a, b, split, shows, derived, -⟩ :=
        (Cursor.statement_passes before.shows).of_eq_ok hread
      rw [hread, Outcome.entire] at h
      rw [split]
      split at h
      · cases h
      · next hpeek =>
        obtain ⟨closing, b, rfl, hclosing⟩ := Cursor.exists_cons_of_peek shows hpeek
        obtain rfl := Except.error.inj h
        rw [Cursor.span_of_shows_cons shows]
        exact .unopenedParen derived.derives hclosing
      · next kind other hpeek =>
        obtain ⟨t, b, rfl, rfl⟩ := Cursor.exists_cons_of_peek shows hpeek
        obtain rfl := Except.error.inj h
        rw [Cursor.span_of_shows_cons shows]
        exact .trailingInput derived.derives other

theorem Value.refuses_of_read {input : String} {e : ReadError} (h : Value.read input = .error e) :
    Grammar.Refuses (Cursor.ofText input).finish ((Token.scan input).filter (!·.isBlank)) e := by
  refine Statement.refuses_of_read ?_
  rw [Value.read] at h
  cases hread : Statement.read input with
  | ok s =>
      rw [hread] at h
      cases h
  | error cause =>
      rw [hread] at h
      rw [Except.error.inj h]

/-- The cause for which a text is refused, if it is. -/
def Value.refusal? (input : String) : Option ReadError :=
  match Value.read input with
  | .ok _ => none
  | .error e => some e

theorem Value.refusal?_eq_some_iff {input : String} {e : ReadError} :
    Value.refusal? input = some e ↔ Value.read input = .error e := by
  unfold refusal?
  split
  · next hread => simp [hread]
  · next hread => simp [hread]

/-! ## The places of a refusal -/

namespace ReadError

variable {e : ReadError} {place : Span}

/-- The places that a refusal points at. -/
def places (e : ReadError) : List Span :=
  e.report.labels.map Prod.fst

/-- The place of the token that is to blame, if it is a single one. -/
def atToken? : ReadError → Option Span
  | trailingInput place | unexpectedToken place _ _ | unclosedParen place | unopenedParen place
  | exponentTooLarge place => some place
  | endOfInput _ | invalidIndex _ | chainedEquation _ _ | notMixed _ => none

/-- Where a refusal points in a text, given its tokens that are not blank and the end of its last
token. -/
structure PointsInto (e : ReadError) (visible : List Token) (finish : Span) : Prop where
  /-- The two causes that others always replace are not shown. -/
  shown : ∀ place, e ≠ .notMixed place ∧ e ≠ .invalidIndex place
  /-- A chained equation points at two equals signs, the first in front of the other. -/
  chained : ∀ first another, e = .chainedEquation first another →
    e.places = [first, another] ∧ first.stop ≤ another.start ∧
      (∃ t ∈ visible, t.kind = .equals ∧ t.span = first) ∧
      ∃ t ∈ visible, t.kind = .equals ∧ t.span = another
  /-- All else points at one place. -/
  single : (∀ first another, e ≠ .chainedEquation first another) → ∃ place, e.places = [place]
  /-- A place is that of a token, or the end of the last one. -/
  among : ∀ place ∈ e.places,
    (∃ t ∈ visible, t.span = place ∧ place.start < place.stop) ∨ place = finish
  /-- A refusal points at the end exactly if the input ends too early. -/
  atEnd : ∀ place ∈ e.places, place = finish ↔ ∃ place', e = .endOfInput place'

theorem pointsInto_endOfInput (visible : List Token) (finish : Span) :
    (endOfInput finish).PointsInto visible finish where
  shown := by simp
  chained := by simp
  single _ := ⟨finish, rfl⟩
  among place h := .inr (List.mem_singleton.mp h)
  atEnd place h := ⟨fun _ => ⟨finish, rfl⟩, fun _ => List.mem_singleton.mp h⟩

variable {visible : List Token} {finish : Span} {t first another : Token}

theorem pointsInto_of_atToken? (h : e.atToken? = some t.span) (ht : t ∈ visible)
    (room : ∀ t ∈ visible, t.span.start < t.span.stop) (apart : ∀ t ∈ visible, t.span ≠ finish) :
    e.PointsInto visible finish := by
  have places : e.places = [t.span] := by
    cases e <;> cases h <;> rfl
  refine ⟨?_, ?_, fun _ => ⟨t.span, places⟩, ?_, ?_⟩
  · refine fun place => ⟨?_, ?_⟩ <;> rintro rfl <;> cases h
  · rintro first another rfl
    cases h
  · intro place hplace
    obtain rfl := List.mem_singleton.mp (places ▸ hplace)
    exact .inl ⟨t, ht, rfl, room t ht⟩
  · intro place hplace
    obtain rfl := List.mem_singleton.mp (places ▸ hplace)
    refine ⟨fun same => absurd same (apart t ht), ?_⟩
    rintro ⟨place', rfl⟩
    cases h

theorem pointsInto_chainedEquation (sub : [first, another].Sublist visible)
    (ordered : Token.AreOrdered visible) (hfirst : first.kind = .equals)
    (hanother : another.kind = .equals) (apart : ∀ t ∈ visible, t.span ≠ finish) :
    (chainedEquation first.span another.span).PointsInto visible finish := by
  have two : ∀ place ∈ (chainedEquation first.span another.span).places,
      ∃ t ∈ visible, t.span = place := by
    intro place hplace
    rcases List.mem_pair.mp hplace with rfl | rfl
    · exact ⟨first, sub.subset (by simp), rfl⟩
    · exact ⟨another, sub.subset (by simp), rfl⟩
  refine ⟨by simp, ?_, fun other => absurd rfl (other _ _), ?_, ?_⟩
  · intro place place' same
    obtain ⟨rfl, rfl⟩ := chainedEquation.inj same
    refine ⟨rfl, ?_, ⟨first, sub.subset (by simp), hfirst, rfl⟩,
      ⟨another, sub.subset (by simp), hanother, rfl⟩⟩
    exact List.rel_of_pairwise_cons (ordered.sublist sub).inOrder (List.mem_singleton_self another)
  · intro place hplace
    obtain ⟨t, ht, rfl⟩ := two place hplace
    exact .inl ⟨t, ht, rfl, ordered.nonempty t ht⟩
  · intro place hplace
    obtain ⟨t, ht, rfl⟩ := two place hplace
    exact ⟨fun same => absurd same (apart t ht), by simp⟩

end ReadError

/-- A text is refused for its end, for one of its tokens, or for two equals signs. -/
theorem Grammar.Refuses.cases {finish : Span} {ts : List Token} {e : ReadError}
    (h : Refuses finish ts e) :
    e = .endOfInput finish ∨ (∃ t ∈ ts, e.atToken? = some t.span) ∨
      ∃ first another : Token, [first, another].Sublist ts ∧ first.kind = .equals ∧
        another.kind = .equals ∧ e = .chainedEquation first.span another.span := by
  have single : ∀ {a e}, Blames finish a e →
      e = .endOfInput finish ∨ ∃ t ∈ a, e.atToken? = some t.span := by
    intro a e bad
    cases bad with
    | endOfInput => exact .inl rfl
    | @unexpectedToken _ _ t | @exponentTooLarge _ _ t | @unclosedParen _ _ _ t
    | @unopenedParen _ _ t => exact .inr ⟨t, by simp, rfl⟩
  cases h with
  | left bad => exact (single bad).imp_right .inl
  | right _ _ bad =>
      refine (single bad).imp_right fun ⟨t, ht, here⟩ => .inl ⟨t, ?_, here⟩
      simp [ht]
  | @trailingInput _ _ t | @unopenedParen _ _ t => exact .inr (.inl ⟨t, by simp, rfl⟩)
  | @chainedEquation a b r first another _ hfirst _ hanother =>
      refine .inr (.inr ⟨first, another, ?_, hfirst, hanother, rfl⟩)
      refine (List.Sublist.cons_cons first ?_).trans (List.sublist_append_right a _)
      exact (List.singleton_sublist.mpr (by simp))

/-- A refusal never shows the two causes that others always replace. It points at two equals signs,
the first in front of the other, if an equation is chained, and else at one place. Every place is
that of a token that is not blank, or else the end of the last token, and it is the end exactly if
the input ends too early. -/
theorem Value.refusals_are_placed (input : String) (e : ReadError)
    (h : Value.read input = .error e) :
    e.PointsInto ((Token.scan input).filter (!·.isBlank))
      (Span.point (((Token.scan input).getLast?.map fun t => t.span.stop).getD 0)) := by
  have ordered := Token.areOrdered_visible input
  have apart := fun t ht => ordered.span_ne_point (t := t) ht
    (((Token.scan input).getLast?.map fun t => t.span.stop).getD 0)
  have refuses := refuses_of_read h
  rw [Cursor.finish_ofText] at refuses
  rcases refuses.cases with rfl | ⟨t, ht, single⟩ | ⟨t, u, sub, ht, hu, rfl⟩
  · exact ReadError.pointsInto_endOfInput _ _
  · exact ReadError.pointsInto_of_atToken? single ht ordered.nonempty apart
  · exact ReadError.pointsInto_chainedEquation sub ordered ht hu apart

/-- The two equals signs of `1 = x = 2` are pointed at. -/
theorem Value.refusals_are_placed_of_chain :
    Value.read "1 = x = 2 " = .error (.chainedEquation ⟨2, 3⟩ ⟨6, 7⟩) ∧
      (ReadError.chainedEquation ⟨2, 3⟩ ⟨6, 7⟩).places = [⟨2, 3⟩, ⟨6, 7⟩] ∧
      ∃ t ∈ (Token.scan "1 = x = 2 ").filter (!·.isBlank), t.kind = .equals ∧ t.span = ⟨2, 3⟩ := by
  have refused : Value.read "1 = x = 2 " = .error (.chainedEquation ⟨2, 3⟩ ⟨6, 7⟩) :=
    refusal?_eq_some_iff.mp (by decide +kernel)
  obtain ⟨places, -, first, -⟩ := (refusals_are_placed _ _ refused).chained _ _ rfl
  exact ⟨refused, places, first⟩

end StepAlgebra
