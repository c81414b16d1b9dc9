import StepAlgebra.Proofs.Formula.Derived.Product
import StepAlgebra.Value.OfFormula

/-!
# What is derived is read

The reader of a production takes the tokens that a derivation of it has, in front of any that may
follow them. This is proved by induction on the derivation, with one lemma for each rule.

* `Cursor.sumComplete`, `Cursor.termsComplete_cons`, … — the rules for sums;
* `Cursor.innerComplete_of_numeric` — a literal in parentheses is read as one;
* `Cursor.Complete`, `Cursor.complete_of_derives` — what is known of the tokens of a derivation;
* `Value.exists_read_of_derives` — a text is read if its tokens are derived.
-/

namespace StepAlgebra

namespace Cursor

open Grammar Outcome

variable {c : Cursor} {ts us rest a b : List Token} {t : Token} {good : Formula → Prop}

/-! ## Sums -/

/-- A product is read in front of whatever ends one. -/
def ProductComplete (a : List Token) : Prop :=
  ∀ rest, Ends productEnd rest → Goes product (a ++ rest) rest

/-- The terms behind a product are read up to the end of their sum. -/
structure TermsComplete (a : List Token) : Prop where
  ends : ∀ rest, Ends sumEnd rest → Ends productEnd (a ++ rest)
  terms : ∀ rest, Ends sumEnd rest → ∀ c : Cursor, c.Shows (a ++ rest) →
    if c.sign.isSome then (c.terms false).Gives fun _ d => d.Shows rest else c.Shows rest

/-- A sum is read in front of whatever ends one. -/
def SumComplete (a : List Token) : Prop :=
  ∀ rest, Ends sumEnd rest → Goes sum (a ++ rest) rest

theorem productComplete (ha : FactorComplete a) (hb : FactorsComplete b) :
    ProductComplete (a ++ b) := by
  intro rest ends c shows
  rw [List.append_assoc] at shows
  rw [product]
  exact Gives.map (ha.factors (b ++ rest) rest (hb rest ends) c shows)

theorem sign_of_isSign (hsign : t.IsSign) (shows : c.Shows (t :: ts)) : c.sign.isSome = true := by
  rw [sign, peek_of_shows_cons shows, Option.bind_some]
  rcases hsign with hkind | hkind <;> rw [hkind] <;> rfl

theorem signedProduct_goes (ha : ProductComplete a) (ends : Ends productEnd rest)
    (isFirst : Bool) : Goes (·.signedProduct isFirst) (a ++ rest) rest := by
  intro c shows
  obtain ⟨f, d, shorter, hproduct, shows'⟩ := (ha rest ends c shows).eq_ok
  show Gives _ (c.signedProduct isFirst)
  rw [signedProduct, sign_of_start (peek_of_product hproduct)]
  simp only [hproduct]
  exact shows'

theorem signedProduct_goes_of_sign (hsign : t.IsSign) (ha : ProductComplete a)
    (ends : Ends productEnd rest) (isFirst : Bool) :
    Goes (·.signedProduct isFirst) (t :: (a ++ rest)) rest := by
  intro c shows
  obtain ⟨positive, hpositive⟩ := Option.isSome_iff_exists.mp (sign_of_isSign hsign shows)
  show Gives _ (c.signedProduct isFirst)
  rw [signedProduct, hpositive]
  refine (advance_gives_of_shows shows).andThen ?_
  intro token c₁ _ passed
  exact Gives.map (ha rest ends c₁ passed.2)

/-- A first term is read along with the others. -/
theorem terms_goes (hb : TermsComplete b) (ends : Ends sumEnd rest) {isFirst : Bool}
    (first : Goes (·.signedProduct isFirst) ts (b ++ rest)) :
    Goes (·.terms isFirst) ts rest := by
  intro c shows
  obtain ⟨term, c₁, shorter, hterm, shows₁⟩ := (first c shows).eq_ok
  have more := hb.terms rest ends c₁ shows₁
  show Gives _ (c.terms isFirst)
  rw [terms]
  simp only [hterm]
  split
  · next signed =>
    rw [if_pos signed] at more
    obtain ⟨others, d, shorter', hothers, shows'⟩ := more.eq_ok
    simp only [hothers]
    exact shows'
  · next unsigned =>
    rw [if_neg unsigned] at more
    exact more

theorem termsComplete_nil : TermsComplete [] := by
  refine ⟨fun rest ends => ends.mono rfl, fun rest ends c shows => ?_⟩
  have unsigned : c.sign.isSome = false := by
    cases hpeek : c.peek with
    | none => rw [sign, hpeek, Option.bind_none, Option.isSome_none]
    | some kind =>
        have none : ∀ kind ∈ sumEnd, (sign? kind).isSome = false := by decide
        rw [sign, hpeek, Option.bind_some]
        exact none kind (ends.peek shows hpeek)
  rw [unsigned]
  exact shows

theorem termsComplete_cons (hsign : t.IsSign) (ha : ProductComplete a) (hb : TermsComplete b) :
    TermsComplete (t :: (a ++ b)) := by
  constructor
  · intro rest _
    rcases hsign with hkind | hkind <;> exact ends_cons (by rw [hkind]; rfl)
  · intro rest ends c shows
    rw [if_pos (sign_of_isSign hsign shows)]
    rw [List.cons_append, List.append_assoc] at shows
    exact terms_goes hb ends (signedProduct_goes_of_sign hsign ha (hb.ends rest ends) false) c shows

theorem sum_goes (h : Goes (·.terms true) ts us) : Goes sum ts us := by
  intro c shows
  rw [sum]
  exact Gives.map (h c shows)

theorem sumComplete (ha : ProductComplete a) (hb : TermsComplete b) : SumComplete (a ++ b) := by
  intro rest ends
  rw [List.append_assoc]
  exact sum_goes (terms_goes hb ends (signedProduct_goes ha (hb.ends rest ends) true))

theorem sumComplete_of_sign (hsign : t.IsSign) (ha : ProductComplete a) (hb : TermsComplete b) :
    SumComplete (t :: (a ++ b)) := by
  intro rest ends
  rw [List.cons_append, List.append_assoc]
  exact sum_goes (terms_goes hb ends (signedProduct_goes_of_sign hsign ha (hb.ends rest ends) true))

theorem innerComplete_of_sum (h : SumComplete a) : InnerComplete (fun _ => True) a := by
  intro closing rest hclosing c shows
  exact (h _ (ends_cons (by rw [hclosing]; rfl)) c shows).imp fun _ _ shows' => ⟨trivial, shows'⟩

/-! ## Literals -/

/-- Where no quotient starts behind it, a number is read as a literal. -/
theorem atom_gives_of_number (h : Derives .number a) (apart : Apart .openParen rest)
    (shows : c.Shows (a ++ rest)) :
    c.atom.Gives fun f d => (∃ n span, f = .literal n span) ∧ d.Shows rest := by
  have within : QuotientWithin rest fun _ => False := quotientWithin_of_apart apart
  rcases atom_of_number h within shows with literal | taken
  · exact literal
  · obtain ⟨_, _, _, _, _, impossible, _⟩ := taken.eq_ok
    exact impossible.elim

/-- An atom in front of a closing parenthesis is a product. -/
theorem product_gives_of_atom {closing : Token} (hclosing : closing.kind = .closeParen)
    (h : c.atom.Gives fun f d => good f ∧ d.Shows (closing :: rest)) :
    c.product.Gives fun f d => good f ∧ d.Shows (closing :: rest) := by
  obtain ⟨f, d, shorter, hatom, here, shows⟩ := h.eq_ok
  have close : d.peek = some .closeParen := by
    rw [peek_of_shows_cons shows, hclosing]
  have hpower : c.power = .ok f d shorter := by
    rw [power]
    simp only [hatom, close, Option.some.injEq, reduceCtorEq, if_false]
  rw [product, factors]
  simp only [hpower, close, atomStart]
  exact ⟨here, shows⟩

/-- So is a product, with or without a sign, a sum. -/
theorem sum_gives_of_signedProduct {closing : Token} (hclosing : closing.kind = .closeParen)
    (h : (c.signedProduct true).Gives fun f d => good f ∧ d.Shows (closing :: rest)) :
    c.sum.Gives fun f d => good f ∧ d.Shows (closing :: rest) := by
  obtain ⟨f, d, shorter, hterm, here, shows⟩ := h.eq_ok
  have unsigned : d.sign = none := by
    rw [sign, peek_of_shows_cons shows, hclosing]
    rfl
  rw [sum, terms]
  simp only [hterm, unsigned, Option.isSome_none, Bool.false_eq_true, if_false]
  exact ⟨here, shows⟩

theorem innerComplete_of_numeric (h : Derives .numeric a) :
    InnerComplete (·.isSignedLiteral = true) a := by
  intro closing rest hclosing c shows
  have apart : Apart .openParen (closing :: rest) := apart_cons (by rw [hclosing]; decide)
  refine sum_gives_of_signedProduct hclosing ?_
  cases h with
  | unsigned number =>
      have read := product_gives_of_atom hclosing (atom_gives_of_number number apart shows)
      obtain ⟨f, d, shorter, hproduct, ⟨n, span, rfl⟩, shows'⟩ := read.eq_ok
      rw [signedProduct, sign_of_start (peek_of_product hproduct)]
      simp only [hproduct]
      exact ⟨rfl, shows'⟩
  | signed hsign number =>
      obtain ⟨positive, hpositive⟩ := Option.isSome_iff_exists.mp (sign_of_isSign hsign shows)
      rw [signedProduct, hpositive]
      refine (advance_gives_of_shows shows).andThen ?_
      intro token c₁ _ passed
      refine Gives.map ?_
      refine (product_gives_of_atom hclosing (atom_gives_of_number number apart passed.2)).imp ?_
      rintro f d ⟨⟨n, span, rfl⟩, shows'⟩
      refine ⟨?_, shows'⟩
      rw [Bool.not_true, Bool.and_false, if_neg Bool.false_ne_true]
      rfl

/-! ## Derivations -/

/-- A statement is read up to its end. -/
def StatementComplete (a : List Token) : Prop :=
  Goes statement a []

theorem statementComplete_of_sum (h : SumComplete a) : StatementComplete a := by
  intro c shows
  have ends : Ends sumEnd ([] : List Token) := by
    intro t ht
    cases ht
  rw [← List.append_nil a] at shows
  obtain ⟨f, d, shorter, hsum, shows'⟩ := (h [] ends c shows).orBack.eq_ok
  rw [statement]
  simp only [hsum, peek_of_shows_nil shows', reduceCtorEq, if_false]
  exact shows'

theorem statementComplete_of_equation {equals : Token} (ha : SumComplete a)
    (hequals : equals.kind = .equals) (hb : SumComplete b) :
    StatementComplete (a ++ equals :: b) := by
  intro c shows
  have ends : Ends sumEnd ([] : List Token) := by
    intro t ht
    cases ht
  have before : Ends sumEnd (equals :: b) := ends_cons (by rw [hequals]; rfl)
  obtain ⟨left, c₁, shorter₁, hleft, shows₁⟩ := (ha _ before c shows).orBack.eq_ok
  have second : ((c₁.expect .equals).orBack.andThen fun equals c₂ _ =>
      c₂.sum.orBack.map fun right => (equals, right)).Gives fun _ d => d.Shows [] := by
    refine (expect_gives_of_shows shows₁ hequals).orBack.andThen ?_
    intro token c₂ _ passed
    have shows₂ := passed.2
    rw [← List.append_nil b] at shows₂
    exact Gives.map (hb [] ends c₂ shows₂).orBack
  obtain ⟨⟨token, right⟩, c₂, shorter₂, hright, shows₂⟩ := second.eq_ok
  rw [statement]
  simp only [hleft, peek_of_shows_cons shows₁, hequals, if_true, hright, peek_of_shows_nil shows₂,
    reduceCtorEq, if_false]
  exact shows₂

/-- What is known of the tokens that a production derives. -/
def Complete : Production → List Token → Prop
  | .statement => StatementComplete
  | .sum => SumComplete
  | .terms => TermsComplete
  | .product => ProductComplete
  | .factors => FactorsComplete
  | .factor => FactorComplete
  | .atom | .mixed | .fraction | .root => AtomComplete
  | .index => Derives .index
  | .group => GroupComplete fun _ => True
  | .numericGroup => GroupComplete (·.isSignedLiteral = true)
  | .numeric => Derives .numeric
  | .number => Derives .number

/-- The tokens of every derivation are read. -/
theorem complete_of_derives {k : Production} (h : Derives k a) : Complete k a := by
  -- by induction on the derivation, one lemma for each rule
  induction h with
  | formula _ ih => exact statementComplete_of_sum ih
  | equation _ hequals _ iha ihb => exact statementComplete_of_equation iha hequals ihb
  | sum _ _ ihp iht => exact sumComplete ihp iht
  | signedSum hsign _ _ ihp iht => exact sumComplete_of_sign hsign ihp iht
  | noTerms => exact termsComplete_nil
  | term hsign _ _ ihp iht => exact termsComplete_cons hsign ihp iht
  | product _ _ ihf ihfs => exact productComplete ihf ihfs
  | noFactors => exact fun rest => tail_of_ends
  | juxtaposed _ _ ihf ihfs => exact factorsComplete_of_juxtaposed ihf ihfs
  | multiplied htimes _ _ ihf ihfs => exact factorsComplete_of_multiplied htimes ihf ihfs
  | bare _ ih => exact factorComplete_of_atom ih
  | raised _ hkind fits ih => exact factorComplete_of_raised ih hkind fits
  | mixedAtom _ ih | fractionAtom _ ih | rootAtom _ ih => exact ih
  | numberAtom _ ih => exact atomComplete_of_number ih
  | nameAtom hkind => exact atomComplete_of_name hkind
  | groupAtom _ ih =>
      exact atomComplete_of_group (show GroupComplete (fun _ => True) _ from ih)
  | mixed hinteger _ hdivide _ iha ihb => exact atomComplete_of_mixed hinteger iha hdivide ihb
  | fraction _ hdivide _ iha ihb =>
      exact atomComplete_of_fraction (show GroupComplete (fun _ => True) _ from iha) hdivide
        (show GroupComplete (fun _ => True) _ from ihb)
  | root hradical _ ih => exact atomComplete_of_root hradical ih
  | indexedRoot hradical _ _ ihi iha => exact atomComplete_of_indexedRoot hradical ihi iha
  | index hopening hinteger low high hclosing =>
      exact .index hopening hinteger low high hclosing
  | group hopening _ hclosing ih =>
      exact groupComplete_of_inner hopening (innerComplete_of_sum ih) hclosing
  | numericGroup hopening _ hclosing ih =>
      exact groupComplete_of_inner hopening (innerComplete_of_numeric ih) hclosing
  | unsigned number => exact .unsigned number
  | signed hsign number => exact .signed hsign number
  | integer hkind => exact .integer hkind
  | decimal hkind => exact .decimal hkind
  | scientific hkind fits => exact .scientific hkind fits

end Cursor

/-- A derived text is read as some value. -/
theorem Value.exists_read_of_derives {input : String}
    (h : Grammar.Derives .statement ((Token.scan input).filter (!·.isBlank))) :
    ∃ v, Value.read input = .ok v := by
  have complete : Cursor.StatementComplete _ := Cursor.complete_of_derives h
  obtain ⟨s, after, shorter, hstatement, shows⟩ :=
    (complete _ (Cursor.shows_ofText input)).eq_ok
  refine ⟨Value.ofStatement s, ?_⟩
  simp only [Value.read, Statement.read, hstatement, Outcome.entire,
    Cursor.peek_of_shows_nil shows, Outcome.toExcept, Except.map]

end StepAlgebra
