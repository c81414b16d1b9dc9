import StepAlgebra.Proofs.Formula.Derived.Atom

/-!
# Derived factors are read

A row of factors goes on from behind each of its factors, and also from behind a fraction that the
integer in front of it takes in, since that is where the next factor ends.

* `Cursor.Resumes` — a row goes on from where its first factor was read;
* `Cursor.Tail` — what is known of the tokens behind a factor;
* `Cursor.factorComplete_of_atom`, `Cursor.factorsComplete_of_juxtaposed`, … — one lemma for each
  rule for factors.
-/

namespace StepAlgebra

namespace Cursor

open Grammar Outcome

variable {c : Cursor} {ts us rest a b : List Token} {t : Token}

/-- A row whose first part was read up to the first tokens is read up to the second. -/
def Resumes (read : (c : Cursor) → Outcome c Formula) (ts us : List Token) : Prop :=
  ∀ (c : Cursor) (f : Formula) (d : Cursor) (shorter : d.remaining < c.remaining),
    read c = .ok f d shorter → d.Shows ts → c.factors.Gives fun _ e => e.Shows us

/-- What is known of the tokens behind a factor: the row goes on from here to the end of the
product, and from behind a quotient that an integer would take in. -/
structure Tail (ts rest : List Token) : Prop where
  power : Resumes power ts rest
  superscript : Apart .superscript ts
  divide : Apart .divide ts
  quotient : QuotientWithin ts fun us => Resumes atom us rest

/-- A factor is read along with the rest of its product. -/
structure FactorComplete (a : List Token) : Prop where
  factors : ∀ ts rest, Tail ts rest → Goes factors (a ++ ts) rest
  quotient : ∀ ts rest, Tail ts rest → QuotientWithin (a ++ ts) fun us => Resumes atom us rest

theorem resumes_atom_of_power (h : Resumes power ts rest) (bare : Apart .superscript ts) :
    Resumes atom ts rest := by
  intro c f d shorter hatom shows
  refine h c f d shorter ?_ shows
  rw [power]
  simp only [hatom, if_neg (bare d shows)]

theorem resumes_atom_of_superscript (h : Resumes power ts rest) (hkind : t.kind = .superscript)
    (fits : t.exponent ≤ 4294967295) : Resumes atom (t :: ts) rest := by
  intro c f d shorter hatom shows
  obtain ⟨⟨exponent, place⟩, e, shorter', hsuperscript, shows'⟩ :=
    (superscript_goes hkind fits d shows).orBack.eq_ok
  have raised : d.peek = some .superscript := by
    rw [peek_of_shows_cons shows, hkind]
  refine h c (.power f exponent place (f.span.through place)) e
    (Nat.lt_trans shorter' shorter) ?_ shows'
  rw [power]
  simp only [hatom, if_pos raised, hsuperscript]

/-- From an atom the row goes on wherever it stopped. -/
theorem factors_goes_of_atom (h : AtomComplete a) (resumes : Resumes atom ts rest)
    (divide : Apart .divide ts) (within : QuotientWithin ts fun us => Resumes atom us rest) :
    Goes factors (a ++ ts) rest ∧
      QuotientWithin (a ++ ts) fun us => Resumes atom us rest := by
  constructor
  · intro c shows
    obtain ⟨f, d, shorter, hatom, us, resumes', shows'⟩ :=
      (h.atom ts divide _ resumes within c shows).eq_ok
    exact resumes' c f d shorter hatom shows'
  · intro c q d shorter shows hquotient
    obtain ⟨us, rfl, shows'⟩ := h.quotient ts divide c q d shorter shows hquotient
    exact ⟨us, resumes, shows'⟩

theorem factorComplete_of_atom (h : AtomComplete a) : FactorComplete a := by
  have complete := fun ts rest (tail : Tail ts rest) => factors_goes_of_atom h
    (resumes_atom_of_power tail.power tail.superscript) tail.divide tail.quotient
  exact ⟨fun ts rest tail => (complete ts rest tail).1,
    fun ts rest tail => (complete ts rest tail).2⟩

theorem factorComplete_of_raised (h : AtomComplete a) (hkind : t.kind = .superscript)
    (fits : t.exponent ≤ 4294967295) : FactorComplete (a ++ [t]) := by
  have complete := fun ts rest (tail : Tail ts rest) => factors_goes_of_atom h
    (resumes_atom_of_superscript tail.power hkind fits) (apart_cons (by rw [hkind]; decide))
    (quotientWithin_of_apart (apart_cons (by rw [hkind]; decide)))
  constructor
  all_goals
    intro ts rest tail
    rw [List.append_assoc]
  · exact (complete ts rest tail).1
  · exact (complete ts rest tail).2

/-- Factors are read up to the end of their product. -/
def FactorsComplete (a : List Token) : Prop :=
  ∀ rest, Ends productEnd rest → Tail (a ++ rest) rest

theorem tail_of_ends (h : Ends productEnd rest) : Tail rest rest where
  power := by
    intro c f d shorter hpower shows
    rw [factors]
    cases hpeek : d.peek with
    | none =>
        simp only [hpower, hpeek]
        exact shows
    | some kind =>
        -- none of the kinds that end a product starts an atom, nor is it a multiplication sign
        have ends := h.peek shows hpeek
        simp only [productEnd, List.mem_cons, List.not_mem_nil, or_false] at ends
        rcases ends with rfl | rfl | rfl | rfl
        all_goals
          simp only [hpower, hpeek, atomStart]
          exact shows
  superscript := h.apart rfl
  divide := h.apart rfl
  quotient := quotientWithin_of_apart (h.apart rfl)

theorem peek_of_factors_goes {kind : TokenKind} (h : Goes factors ts rest)
    (other : kind ∉ atomStart) : Apart kind ts := by
  intro c shows hpeek
  obtain ⟨fs, d, shorter, hfactors, -⟩ := (h c shows).eq_ok
  obtain ⟨start, hstart, hpeek'⟩ := peek_of_factors hfactors
  obtain rfl := Option.some.inj (hpeek.symm.trans hpeek')
  exact other hstart

theorem factorsComplete_of_juxtaposed (ha : FactorComplete a) (hb : FactorsComplete b) :
    FactorsComplete (a ++ b) := by
  intro rest ends
  have goes := ha.factors (b ++ rest) rest (hb rest ends)
  rw [List.append_assoc]
  refine ⟨?_, peek_of_factors_goes goes (by decide), peek_of_factors_goes goes (by decide),
    ha.quotient (b ++ rest) rest (hb rest ends)⟩
  intro c f d shorter hpower shows
  obtain ⟨others, e, shorter', hothers, shows'⟩ := (goes d shows).eq_ok
  obtain ⟨kind, hkind, hpeek⟩ := peek_of_factors hothers
  rw [factors]
  simp only [atomStart, List.mem_cons, List.not_mem_nil, or_false] at hkind
  rcases hkind with rfl | rfl | rfl | rfl | rfl | rfl
  all_goals
    simp only [hpower, hpeek, atomStart, List.mem_cons, true_or, or_true, if_true, hothers]
    exact shows'

theorem factorsComplete_of_multiplied {times : Token} (htimes : times.kind = .times)
    (ha : FactorComplete a) (hb : FactorsComplete b) : FactorsComplete (times :: (a ++ b)) := by
  intro rest ends
  have goes := ha.factors (b ++ rest) rest (hb rest ends)
  have apart : ∀ kind, TokenKind.times ≠ kind → Apart kind (times :: (a ++ (b ++ rest))) :=
    fun kind other => apart_cons (by rw [htimes]; exact other)
  rw [List.cons_append, List.append_assoc]
  refine ⟨?_, apart _ (by decide), apart _ (by decide),
    quotientWithin_of_apart (apart _ (by decide))⟩
  intro c f d shorter hpower shows
  have more : (d.advance.andThen fun _ e _ => e.factors).Gives fun _ e => e.Shows rest :=
    (advance_gives_of_shows shows).andThen fun _ e _ passed => goes e passed.2
  obtain ⟨others, e, shorter', hothers, shows'⟩ := more.eq_ok
  rw [factors]
  simp only [hpower, peek_of_shows_cons shows, htimes, hothers]
  exact shows'

end Cursor

end StepAlgebra
