import StepAlgebra.Proofs.Formula.Display
import StepAlgebra.Proofs.Formula.Misread

/-!
# Parts that run together

A formula is read from its own text only if its parts keep apart. By induction over the formula, as
it is built: from left to right the parts that do are read as they are, up to the first place where
two run together, and what is read there is no part of the formula any more.

* `Formula.misreads_neighbour` — two factors that run together;
* `Formula.IsBuilt.isMisread` — formulas that are not separated are not read back;
* `Statement.read_text_iff_isSeparated` — which texts are read back.
-/

namespace StepAlgebra

open Cursor Lexer

namespace Formula

open Outcome

variable {E : UInt32 → Prop} {r : Rank} {f g : Formula} {fs gs : List Formula}
  {goods : List Formula → Prop} {rest cs : List Char} {n : Numeral} {span span₁ : Span}
  {c : Cursor} {place : Cursor → Prop}

/-! ## Formulas of one rank are of no higher one -/

theorem not_like_power {e : UInt32} (h : g.IsBuilt E .atom) :
    ¬ Like (.power f e span₁ span) g := by
  intro like
  cases h <;> cases like

theorem not_like_product (h : g.IsBuilt E .factor) : ¬ Like (.product fs span) g := by
  intro like
  cases h with
  | bare atom => cases atom <;> cases like
  | power => cases like

theorem not_like_signed {positive : Bool} (h : g.IsBuilt E .product) :
    ¬ Like (.signed positive f span) g := by
  intro like
  cases h with
  | alone factor =>
      cases factor with
      | bare atom => cases atom <;> cases like
      | power => cases like
  | product => cases like

theorem not_like_sum {isFirst : Bool} (h : g.IsBuilt E (.term isFirst)) :
    ¬ Like (.sum fs span) g := by
  intro like
  cases h with
  | unsigned product =>
      cases product with
      | alone factor =>
          cases factor with
          | bare atom => cases atom <;> cases like
          | power => cases like
      | product => cases like
  | signed => cases like

theorem atom_allows (faces : c.Faces cs) : c.atom.Allows fun f _ => ∃ E, f.IsBuilt E .atom := by
  refine ((passes c).1 _ faces.shows).allows.imp ?_
  rintro f d ⟨a, read⟩
  exact ⟨_, read.built⟩

theorem factors_allows (faces : c.Faces cs) :
    c.factors.Allows fun fs _ => ∃ E, ∀ f ∈ fs, f.IsBuilt E .factor := by
  refine ((passes c).2.1 _ faces.shows).allows.imp ?_
  rintro fs d ⟨a, read⟩
  exact ⟨_, read.built⟩

theorem terms_allows (faces : c.Faces cs) :
    (c.terms true).Allows fun fs _ => ∃ E, AreTerms E true fs := by
  refine ((passes c).2.2.1 true _ faces.shows).allows.imp ?_
  rintro fs d ⟨a, read⟩
  exact ⟨_, read.built⟩

/-! ## Atoms and their exponents -/

theorem demands_bare (built : f.IsBuilt E .atom) (h : Demands atom cs (Like f) place) :
    Demands Cursor.power cs (Like f) place := by
  intro c faces
  have base := h c faces
  rw [Cursor.power]
  split
  · exact trivial
  · next g c₁ shorter hatom =>
    split
    · split
      · exact trivial
      · exact fun like => absurd like.symm (not_like_power built)
    · exact base.of_eq_ok hatom

/-- No power is read, if no exponent stands behind what is read like its base. -/
theorem misreads_power {e : UInt32} (span₁ span : Span)
    (h : Demands atom cs (Like f) fun d => d.peek ≠ some .superscript) :
    Misreads Cursor.power cs (Like (.power f e span₁ span)) := by
  intro c faces
  have base := h c faces
  have atoms := atom_allows faces
  rw [Cursor.power]
  split
  · exact trivial
  · next g c₁ shorter hatom =>
    split
    · next hpeek =>
      split
      · exact trivial
      · exact fun like => base.of_eq_ok hatom (like_power.mp like).1 hpeek
    · obtain ⟨E, built⟩ := atoms.of_eq_ok hatom
      exact not_like_power built

theorem exists_literal (like : Like (.literal n span) g) : ∃ span, g = .literal n span := by
  cases g with
  | literal m span =>
      obtain ⟨rfl, -⟩ := Formula.literal.inj like
      exact ⟨span, rfl⟩
  | symbol | fraction | mixed | root | group | power | product | signed | sum => cases like

theorem exists_root {index : Option UInt32} (like : Like (.root index f span) g) :
    ∃ radicand span, g = .root index radicand span ∧ Like f radicand := by
  cases g with
  | root index' radicand span =>
      obtain ⟨rfl, under⟩ := like_root.mp like
      exact ⟨radicand, span, rfl, under⟩
  | literal | symbol | fraction | mixed | group | power | product | signed | sum => cases like

/-- What the number at its end asks for, an atom does. -/
theorem demands_of_lastNumber (h : f.IsBuilt E r) (atom : r = .atom) (hn : f.lastNumber? = some n)
    (literal : n.IsCanonical →
      Demands Cursor.atom (n.text.toList ++ rest) (fun f => ∃ span, f = .literal n span) place) :
    Demands Cursor.atom (f.text.toList ++ rest) (Like f) place := by
  induction h with
  | literal canonical =>
      obtain rfl := Option.some.inj hn
      rw [text]
      exact (literal canonical).imp (fun _ => exists_literal) fun _ => id
  | root atLeast _ radicand =>
      simp only [text, String.toList_append, List.append_assoc]
      exact (demands_atom_radical atLeast (radicand rfl hn)).imp (fun _ => exists_root) fun _ => id
  | symbol | fraction | mixed | group => cases hn
  | bare | power | alone | product | unsigned | signed | single | sum => cases atom

/-! ## Numbers that run together with their neighbours -/

/-- A whole number in front of a quotient of literals is read as a mixed number. -/
theorem misreads_literal_quotient (canonical : n.IsCanonical) (whole : n.isWhole = true)
    (h : g.IsBuilt E r) (numeric : g.isNumericQuotient = true) (rest : List Char) :
    Misreads Cursor.atom (n.text.toList ++ (g.text.toList ++ rest)) fun f =>
      ∃ span, f = .literal n span := by
  induction h generalizing rest with
  | @fraction top bottom span top' bottom' =>
      obtain ⟨litTop, litBottom⟩ := Bool.and_eq_true_iff.mp numeric
      have htop := top'.readsBack (isSeparated_of_isSignedLiteral litTop)
      have hbottom := bottom'.readsBack (isSeparated_of_isSignedLiteral litBottom)
      have written : n.text.toList ++ ((fraction top bottom span).text.toList ++ rest) =
          (n.text ++ "(" ++ top.text ++ ")/(" ++ bottom.text ++ ")").toList ++ rest := by
        simp [text, String.toList_append]
      rw [written]
      refine (reads_atom_mixed canonical whole (readsSum_literal htop litTop)
        (readsSum_literal hbottom litBottom)).misreads ?_
      rintro f ⟨span₁, top, bottom, span₂, span, rfl, -⟩ ⟨span', same⟩
      cases same
  | power _ _ ih =>
      rw [text, String.toList_append, List.append_assoc]
      exact ih numeric _
  | bare _ ih | alone _ ih | unsigned _ ih | single _ ih => exact ih numeric rest
  | literal | symbol | mixed | root | group | product | signed | sum => cases numeric

theorem exists_of_isPowerOfTen (h : g.isPowerOfTen = true) :
    ∃ e span₁ span₂ span, g = .power (.literal .ten span₁) e span₂ span := by
  cases g with
  | power base e span₂ span =>
      cases base with
      | literal m span₁ =>
          obtain rfl : m = .ten := beq_iff_eq.mp h
          exact ⟨e, span₁, span₂, span, rfl⟩
      | symbol | fraction | mixed | root | group | power | product | signed | sum => cases h
  | literal | symbol | fraction | mixed | root | group | product | signed | sum => cases h

/-- A number in front of a power of ten is read in scientific notation. -/
theorem misreads_literal_times (canonical : n.IsCanonical) (plain : n.isScientific = false)
    (ten : g.isPowerOfTen = true) (rest : List Char) :
    Misreads Cursor.atom (n.text.toList ++ '*' :: (g.text.toList ++ rest)) fun f =>
      ∃ span, f = .literal n span := by
  have none : n.powerChars = [] := by
    rw [Numeral.powerChars, Option.isNone_iff_eq_none.mp (Option.isSome_eq_false_iff.mp plain)]
  obtain ⟨e, span₁, span₂, span, rfl⟩ := exists_of_isPowerOfTen ten
  have written : (power (literal .ten span₁) e span₂ span).text.toList =
      '1' :: '0' :: (Superscript.ofNat e.toNat).toList := by
    rw [text, text, String.toList_append]
    rfl
  have taken := power?_raised (.inl rfl) (isRow_ofNat e.toNat) rest
  intro c faces
  rw [written] at faces
  obtain ⟨lexeme, first⟩ := first?_of_power? canonical (by rwa [none])
  refine (allows_atom_scientific faces first).imp ?_
  rintro f d ⟨⟨m, span, rfl, scientific⟩, -⟩ ⟨span', same⟩
  obtain ⟨rfl, -⟩ := Formula.literal.inj same
  rw [plain] at scientific
  cases scientific

/-- An exponent behind a number in scientific notation is read as a part of it. -/
theorem demands_literal_superscript {e : UInt32} (canonical : n.IsCanonical)
    (scientific : n.isScientific = true) (after : Follows factorEnd rest) :
    Demands Cursor.atom (n.text.toList ++ ((Superscript.ofNat e.toNat).toList ++ rest))
      (fun f => ∃ span, f = .literal n span) fun d => d.peek ≠ some .superscript := by
  intro c faces
  obtain ⟨lexeme, first⟩ := first?_superscript canonical scientific (isRow_ofNat e.toNat).2
    (next_superscript_of_follows after rfl)
  refine (allows_atom_scientific faces first).imp ?_
  rintro f d ⟨-, faces₁⟩ -
  exact peek_ne_of_follows after faces₁ rfl rfl

theorem startsWithDigit_of_isNumericQuotient (h : g.IsBuilt E r)
    (numeric : g.isNumericQuotient = true) : g.startsWithDigit = false := by
  induction h with
  | fraction => rfl
  | bare _ ih | power _ _ ih | alone _ ih | unsigned _ ih | single _ ih => exact ih numeric
  | literal | symbol | mixed | root | group | product | signed | sum => cases numeric

/-- The first of two factors that do not stay apart is not read. -/
theorem misreads_neighbour (hf : f.IsBuilt E .factor) (hg : g.IsBuilt E .factor)
    (overlap : f.staysApart g = false) (rest : List Char) :
    Misreads Cursor.power (f.text.toList ++ ((moreFactorsText (g :: gs)).toList ++ rest))
      (Like f) := by
  unfold staysApart at overlap
  split at overlap
  · cases overlap
  · next n hn =>
    cases hf with
    | power => cases hn
    | bare atom =>
        refine demands_bare atom (demands_of_lastNumber atom rfl hn fun canonical => ?_)
        rw [moreFactorsText]
        simp only [Bool.and_eq_false_iff, Bool.not_eq_false', Bool.and_eq_true,
          Bool.or_eq_false_iff] at overlap
        rcases overlap with ⟨whole, numeric⟩ | ⟨plain, ten⟩
        · simp only [startsWithDigit_of_isNumericQuotient hg numeric, Bool.false_eq_true, if_false,
            String.toList_append, List.append_assoc]
          exact misreads_literal_quotient canonical whole hg numeric _
        · have digit : g.startsWithDigit = true := by
            obtain ⟨e, span₁, span₂, span, rfl⟩ := exists_of_isPowerOfTen ten
            rfl
          simp only [digit, if_true, String.toList_append, List.append_assoc]
          exact misreads_literal_times canonical plain ten _

/-- A separated factor is read only up to the next one, if the two stay apart. It may not be read:
the next one may run together in itself and so become a quotient of literals. -/
theorem demands_factor (hf : f.IsBuilt E .factor) (separated : f.isSeparated = true)
    (built : ∀ g ∈ fs, g.IsBuilt E .factor) (apart : fs.head?.all f.staysApart = true)
    (after : Follows productEnd rest) :
    Demands Cursor.power (f.text.toList ++ ((moreFactorsText fs).toList ++ rest)) (Like f)
      (·.Faces ((moreFactorsText fs).toList ++ rest)) := by
  cases hn : f.lastNumber? with
  | none =>
      have follows : Follows factorEnd _ := (follows_moreFactors built after).mono rfl
      refine ((hf.readsBack separated).reads _ follows ?_).demands
      intro n some
      rw [hn] at some
      cases some
  | some n =>
      cases hf with
      | power => cases hn
      | bare atom =>
          refine demands_bare atom (demands_of_lastNumber atom rfl hn fun canonical => ?_)
          exact demands_atom_literal canonical (ends_moreFactors hn built apart after)

/-! ## What is not read back -/

/-- What is known of a formula that is not separated when the one around it is written. -/
def IsMisread : Rank → Formula → Prop
  | .atom, f => ∀ rest, Follows atomEnd rest → Misreads Cursor.atom (f.text.toList ++ rest) (Like f)
  | .factor, f => ∀ rest, Follows factorEnd rest →
      Misreads Cursor.power (f.text.toList ++ rest) (Like f)
  | .product, f => ∀ rest, Follows productEnd rest →
      Misreads Cursor.product (f.text.toList ++ rest) (Like f)
  | .term isFirst, f => ∀ rest, Follows productEnd rest →
      Misreads (·.signedProduct isFirst) ((termText isFirst f).toList ++ rest) (Like f)
  | .sum, f => ∀ rest, Follows sumEnd rest → Misreads Cursor.sum (f.text.toList ++ rest) (Like f)

theorem isMisread_group {inner : Formula} (h : IsMisread .sum inner) (span : Span) :
    IsMisread .atom (.group inner span) := by
  intro rest _
  rw [text, toList_group]
  refine (misreads_atom_of_inner (h _ follows_closeParen)).imp ?_
  intro g like
  cases g with
  | group inner' span' => exact ⟨inner', like_group.mp like, .inl ⟨span', rfl⟩⟩
  | literal | symbol | fraction | mixed | root | power | product | signed | sum => cases like

theorem exists_fraction {top bottom : Formula} (like : Like (.fraction top bottom span) g) :
    ∃ top' bottom' span, g = .fraction top' bottom' span ∧ Like top top' ∧ Like bottom bottom' := by
  cases g with
  | fraction top' bottom' span' => exact ⟨top', bottom', span', rfl, like_fraction.mp like⟩
  | literal | symbol | mixed | root | group | power | product | signed | sum => cases like

theorem isMisread_fraction {top bottom : Formula} (built : top.IsBuilt E .sum)
    (htop : top.isSeparated = false → IsMisread .sum top)
    (hbottom : bottom.isSeparated = false → IsMisread .sum bottom)
    (overlap : (fraction top bottom span).isSeparated = false) :
    IsMisread .atom (.fraction top bottom span) := by
  intro rest _
  rw [text, toList_quotient]
  cases separated : top.isSeparated with
  | false =>
      rw [toList_group]
      refine (misreads_atom_of_inner (htop separated _ follows_closeParen)).imp ?_
      intro g like
      obtain ⟨top', bottom', span', rfl, likeTop, -⟩ := exists_fraction like
      exact ⟨top', likeTop, .inr ⟨bottom', span', rfl⟩⟩
  | true =>
      rw [isSeparated, separated, Bool.true_and] at overlap
      rw [toList_group bottom.text]
      refine (misreads_atom_of_bottom (built.readsBack separated)
        (hbottom overlap _ follows_closeParen)).imp ?_
      intro g like
      obtain ⟨top', bottom', span', rfl, -, likeBottom⟩ := exists_fraction like
      exact ⟨top', bottom', span', rfl, likeBottom⟩

theorem isMisread_root {index : Option UInt32} {radicand : Formula} (h : ∀ i ∈ index, 2 ≤ i)
    (hradicand : IsMisread .atom radicand) (span : Span) :
    IsMisread .atom (.root index radicand span) := by
  intro rest after
  simp only [text, String.toList_append, List.append_assoc]
  exact (demands_atom_radical h (hradicand rest after)).imp (fun _ => exists_root) fun _ => id

theorem isMisread_power {exponent : UInt32} (built : f.IsBuilt E .atom)
    (h : f.isSeparated = false → IsMisread .atom f)
    (overlap : (Formula.power f exponent span₁ span).isSeparated = false) :
    IsMisread .factor (.power f exponent span₁ span) := by
  intro rest after
  rw [text, String.toList_append, List.append_assoc]
  refine misreads_power span₁ span ?_
  cases separated : f.isSeparated with
  | false => exact (h separated _ ((follows_superscript after).mono rfl)).demands
  | true =>
      rw [isSeparated, separated, Bool.true_and, Bool.not_eq_false', Option.any_eq_true] at overlap
      obtain ⟨n, hn, scientific⟩ := overlap
      exact demands_of_lastNumber built rfl hn fun canonical =>
        demands_literal_superscript canonical scientific after

/-! ## Products that are not read back -/

/-- A factor is the product of itself alone. -/
theorem exists_of_like_ofFactors (built : f.IsBuilt E .factor) (like : Like f (ofFactors gs)) :
    ∃ g others, gs = g :: others ∧ Like f g := by
  rcases gs with _ | ⟨g, _ | ⟨g', gs⟩⟩
  · exact absurd like.symm (not_like_product built)
  · exact ⟨g, [], rfl, like⟩
  · exact absurd like.symm (not_like_product built)

/-- A product is that of its own factors. -/
theorem likeRow_of_ofFactors (built : ∀ g ∈ gs, g.IsBuilt E .factor)
    (like : Like (.product fs span) (ofFactors gs)) : LikeRow fs gs := by
  rcases gs with _ | ⟨g, _ | ⟨g', gs⟩⟩
  · exact like_product.mp like
  · exact absurd like (not_like_product (built g List.mem_cons_self))
  · exact like_product.mp like

theorem isMisread_alone (built : f.IsBuilt E .factor) (h : IsMisread .factor f) :
    IsMisread .product f := by
  intro rest after c faces
  rw [Cursor.product]
  refine Allows.map ((misreads_factors (h rest (after.mono rfl)) c faces).imp ?_)
  exact fun fs d other like => other (exists_of_like_ofFactors built like)

theorem exists_of_likeRow_cons (like : LikeRow (f :: fs) gs) :
    ∃ g others, gs = g :: others ∧ Like f g ∧ LikeRow fs others := by
  cases gs with
  | nil => cases like
  | cons g gs => exact ⟨g, gs, rfl, likeRow_cons.mp like⟩

/-- A row whose first formula is not read back is not. -/
theorem misreads_first {read : (c : Cursor) → Outcome c (List Formula)}
    (h : Misreads read cs fun gs => ∃ g others, gs = g :: others ∧ Like f g) :
    Misreads read cs (LikeRow (f :: fs)) := by
  refine h.imp ?_
  intro row like
  obtain ⟨g, others, rfl, like, -⟩ := exists_of_likeRow_cons like
  exact ⟨g, others, rfl, like⟩

/-- Nor is one whose later formulas are not. -/
theorem misreads_later {read : (c : Cursor) → Outcome c (List Formula)}
    (h : Misreads read cs fun row => ∃ f' others, row = f' :: others ∧ others ≠ [] ∧ Like f f' ∧
      LikeRow (g :: gs) others) : Misreads read cs (LikeRow (f :: g :: gs)) := by
  refine h.imp ?_
  intro row like
  obtain ⟨f', others, rfl, like, likeRow⟩ := exists_of_likeRow_cons like
  refine ⟨f', others, rfl, ?_, like, likeRow⟩
  obtain ⟨g', others, rfl, -⟩ := exists_of_likeRow_cons likeRow
  exact List.cons_ne_nil _ _

/-- What is not read as a row of factors is not read so behind another factor either. -/
theorem misreadsMore_moreFactorsText (built : g.IsBuilt E .factor)
    (h : Misreads factors ((factorsText (g :: gs)).toList ++ rest) goods) :
    MisreadsMore ((moreFactorsText (g :: gs)).toList ++ rest) goods := by
  rw [factorsText] at h
  rw [moreFactorsText]
  cases digit : g.startsWithDigit with
  | true =>
      simp only [if_true, String.append_assoc]
      rw [String.toList_append]
      exact misreadsMore_times h
  | false =>
      simp only [Bool.false_eq_true, if_false, String.empty_append]
      have starts := follows_text built (.inr (.inl rfl)) ((moreFactorsText gs).toList ++ rest)
      rw [digit, ← List.append_assoc, ← String.toList_append] at starts
      exact misreadsMore_of_follows h starts rfl rfl

/-- A row of factors is not read back, if one of them is not, or two run together. -/
theorem misreads_factorsText (built : ∀ f ∈ fs, f.IsBuilt E .factor)
    (parts : ∀ f ∈ fs, f.isSeparated = false → IsMisread .factor f)
    (overlap : factorsAreSeparated fs = false) (after : Follows productEnd rest) :
    Misreads factors ((factorsText fs).toList ++ rest) (LikeRow fs) := by
  -- by induction on the row: its first factor is not read, or the cursor is in front of the others
  induction fs with
  | nil => cases overlap
  | cons f fs ih =>
      obtain ⟨hf, hfs⟩ := List.forall_mem_cons.mp built
      obtain ⟨part, parts⟩ := List.forall_mem_cons.mp parts
      rw [factorsText, String.toList_append, List.append_assoc]
      cases separated : f.isSeparated with
      | false =>
          have follows := follows_moreFactors hfs after
          exact misreads_first (misreads_factors (part separated _ (follows.mono rfl)))
      | true =>
          cases fs with
          | nil => simp [factorsAreSeparated, separated] at overlap
          | cons g gs =>
              have hg := hfs g List.mem_cons_self
              cases apart : f.staysApart g with
              | false =>
                  exact misreads_first (misreads_factors (misreads_neighbour hf hg apart rest))
              | true =>
                  have later : factorsAreSeparated (g :: gs) = false := by
                    rw [factorsAreSeparated] at overlap
                    simpa [separated, apart] using overlap
                  exact misreads_later
                    (misreads_factors_cons (demands_factor hf separated hfs apart after)
                      (misreadsMore_moreFactorsText hg (ih hfs parts later)))

theorem isMisread_product (built : ∀ f ∈ fs, f.IsBuilt E .factor)
    (parts : ∀ f ∈ fs, f.isSeparated = false → IsMisread .factor f)
    (overlap : factorsAreSeparated fs = false) (span : Span) :
    IsMisread .product (.product fs span) := by
  intro rest after c faces
  have row := misreads_factorsText built parts overlap after c faces
  rw [Cursor.product]
  refine Allows.map ((row.and (factors_allows faces)).imp ?_)
  rintro gs d ⟨other, E, built⟩ like
  exact other (likeRow_of_ofFactors built like)

/-! ## Sums that are not read back -/

theorem isMisread_unsigned (built : f.IsBuilt E .product) (h : IsMisread .product f)
    (isFirst : Bool) : IsMisread (.term isFirst) f := by
  intro rest after
  rw [termText, isSubtracted_of_product built, Bool.or_false]
  cases isFirst with
  | true =>
      rw [if_pos rfl, String.empty_append]
      refine misreads_unsigned (h rest after) ?_
      intro positive operand span like
      exact not_like_signed built like.symm
  | false =>
      show Misreads (·.signedProduct false) (((if true then "+" else "-") ++ f.text).toList ++ rest)
        (Like f)
      rw [toList_signed]
      refine (misreads_signed (h rest after) true).imp ?_
      intro g like
      exact ⟨g, f.span, like, rfl⟩

theorem isMisread_signed (h : IsMisread .product f) {isFirst positive : Bool}
    (kept : (positive && !isFirst) = false) (span : Span) :
    IsMisread (.term isFirst) (.signed positive f span) := by
  intro rest after
  rw [termText_signed kept, toList_signed]
  refine (misreads_signed (h rest after) positive).imp ?_
  intro g like
  cases g with
  | signed positive' operand span' =>
      obtain ⟨rfl, under⟩ := like_signed.mp like
      refine ⟨operand, span', under, ?_⟩
      rw [kept, if_neg Bool.false_ne_true]
  | literal | symbol | fraction | mixed | root | group | power | product | sum => cases like

/-- A term is the sum of itself alone. -/
theorem exists_of_like_ofTerms {isFirst : Bool} (built : f.IsBuilt E (.term isFirst))
    (like : Like f (ofTerms gs)) : ∃ g others, gs = g :: others ∧ Like f g := by
  rcases gs with _ | ⟨g, _ | ⟨g', gs⟩⟩
  · exact absurd like.symm (not_like_sum built)
  · exact ⟨g, [], rfl, like⟩
  · exact absurd like.symm (not_like_sum built)

/-- A sum is that of its own terms. -/
theorem likeRow_of_ofTerms {isFirst : Bool} (built : AreTerms E isFirst gs)
    (like : Like (.sum fs span) (ofTerms gs)) : LikeRow fs gs := by
  rcases gs with _ | ⟨g, _ | ⟨g', gs⟩⟩
  · exact like_sum.mp like
  · exact absurd like (not_like_sum built.1)
  · exact like_sum.mp like

theorem isMisread_single (built : f.IsBuilt E (.term true)) (h : IsMisread (.term true) f) :
    IsMisread .sum f := by
  intro rest after c faces
  have first := h rest after.sum_of_product
  rw [termText_first] at first
  rw [Cursor.sum]
  refine Allows.map ((misreads_terms first c faces).imp ?_)
  exact fun fs d other like => other (exists_of_like_ofTerms built like)

/-- A row of terms is not read back, if one of them is not. -/
theorem misreads_termsText {isFirst : Bool} (hf : f.IsBuilt E (.term isFirst))
    (hfs : ∀ g ∈ fs, g.IsBuilt E (.term false))
    (first : f.isSeparated = false → IsMisread (.term isFirst) f)
    (parts : ∀ g ∈ fs, g.isSeparated = false → IsMisread (.term false) g)
    (overlap : termsAreSeparated (f :: fs) = false) (after : Follows sumEnd rest) :
    Misreads (·.terms isFirst) ((termText isFirst f ++ moreTermsText fs).toList ++ rest)
      (LikeRow (f :: fs)) := by
  induction fs generalizing f isFirst with
  | nil =>
      rw [termsAreSeparated, termsAreSeparated, Bool.and_true] at overlap
      rw [moreTermsText, String.append_empty]
      exact misreads_first (misreads_terms (first overlap rest after.sum_of_product))
  | cons g gs ih =>
      obtain ⟨hg, hgs⟩ := List.forall_mem_cons.mp hfs
      obtain ⟨part, parts⟩ := List.forall_mem_cons.mp parts
      have follows := follows_moreTerms hfs after
      rw [String.toList_append, List.append_assoc]
      cases separated : f.isSeparated with
      | false => exact misreads_first (misreads_terms (first separated _ follows))
      | true =>
          have later : termsAreSeparated (g :: gs) = false := by
            rw [termsAreSeparated] at overlap
            simpa [separated] using overlap
          rw [moreTermsText_cons] at follows ⊢
          exact misreads_later (misreads_terms_cons (hf.readsBack separated _ follows)
            (ih hg hgs part parts later))

theorem isMisread_sum (hf : f.IsBuilt E (.term true)) (hfs : ∀ g ∈ fs, g.IsBuilt E (.term false))
    (first : f.isSeparated = false → IsMisread (.term true) f)
    (parts : ∀ g ∈ fs, g.isSeparated = false → IsMisread (.term false) g)
    (overlap : termsAreSeparated (f :: fs) = false) (span : Span) :
    IsMisread .sum (.sum (f :: fs) span) := by
  intro rest after c faces
  have row := misreads_termsText hf hfs first parts overlap after
  rw [termText_first] at row
  rw [text, termsText] at faces
  rw [Cursor.sum]
  refine Allows.map (((row c faces).and (terms_allows faces)).imp ?_)
  rintro gs d ⟨other, E, built⟩ like
  exact other (likeRow_of_ofTerms built like)

/-! ## Formulas that are not separated -/

/-- Formulas that are not separated are not read back. -/
theorem IsBuilt.isMisread (h : f.IsBuilt E r) (overlap : f.isSeparated = false) :
    IsMisread r f := by
  induction h with
  | literal | symbol | mixed => cases overlap
  | fraction built _ top bottom => exact isMisread_fraction built top bottom overlap
  | root atLeast _ radicand => exact isMisread_root atLeast (radicand overlap) _
  | group _ inner => exact isMisread_group (inner overlap) _
  | bare built atom =>
      exact fun rest after => demands_bare built (atom overlap rest (after.mono rfl))
  | power built _ base => exact isMisread_power built base overlap
  | alone built factor => exact isMisread_alone built (factor overlap)
  | product _ built factors => exact isMisread_product built factors overlap _
  | unsigned built product => exact isMisread_unsigned built (product overlap) _
  | signed _ kept product => exact isMisread_signed (product overlap) kept _
  | single built term => exact isMisread_single built (term overlap)
  | sum hf _ hfs first others => exact isMisread_sum hf hfs first others overlap _

end Formula

namespace Statement

open Outcome Formula

variable {E : UInt32 → Prop} {f left right : Formula} {cs : List Char} {span : Span}

/-- Whether or not an equals sign follows, the first sum is not read. -/
theorem misreads_left (h : Misreads Cursor.sum cs (Like left)) :
    Misreads Cursor.statement cs fun t => t.unplaced = (formula left).unplaced ∨
      ∃ right span, t.unplaced = (equation left right span).unplaced := by
  intro c faces
  have first := (h c faces).orBack
  rw [Cursor.statement]
  split
  · exact trivial
  · next g c₁ shorter hsum =>
    have other := first.of_eq_ok hsum
    split
    · dsimp only
      split
      · exact trivial
      · split
        · exact trivial
        · rintro (like | ⟨right, span, like⟩)
          · cases like
          · exact other (Statement.equation.inj like).1
    · rintro (like | ⟨right, span, like⟩)
      · exact other (Statement.formula.inj like)
      · cases like

/-- Behind an equals sign the second sum is not read. -/
theorem misreads_right (hleft : ReadsSum left.text (Like left))
    (h : Misreads Cursor.sum cs (Like right)) :
    Misreads Cursor.statement (left.text.toList ++ '=' :: cs) fun t =>
      t.unplaced = (equation left right span).unplaced := by
  intro c faces
  have first : first? ('=' :: cs) = some ⟨.equals, ['='], cs⟩ := rfl
  have after : Follows sumEnd ('=' :: cs) := follows_of_first? first rfl
  obtain ⟨g, c₁, shorter₁, hsum, -, faces₁⟩ := (hleft _ after c faces).orBack.eq_ok
  have second : ((c₁.expect .equals).orBack.andThen fun equals c₂ _ =>
      c₂.sum.orBack.map fun right => (equals, right)).Allows fun p _ => ¬ Like right p.2 :=
    (expect_gives faces₁ first rfl).orBack.allows.andThen fun _ c₂ _ passed =>
      Allows.map (h c₂ passed.2).orBack
  rw [Cursor.statement]
  simp only [hsum, if_pos (peek_of_faces faces₁ first rfl)]
  split
  · exact trivial
  · next equals g' c₂ shorter₂ hright =>
    have other := second.of_eq_ok hright
    split
    · exact trivial
    · exact fun like => other (Statement.equation.inj like).2.1

/-- The text of a statement in which parts run together is not read as that statement. -/
theorem not_read_of_overlap {s : Statement} (built : s.IsBuilt E)
    (overlap : s.isSeparated = false) :
    ¬ ∃ t, Statement.read s.text = .ok t ∧ t.unplaced = s.unplaced := by
  have misread : Misreads Cursor.statement s.text.toList fun t => t.unplaced = s.unplaced := by
    cases s with
    | formula f =>
        have sum := Formula.IsBuilt.isMisread built overlap [] follows_nil
        rw [List.append_nil] at sum
        exact (misreads_left sum).imp fun t like => .inl like
    | equation left right span =>
        have split : (equation left right span).text.toList =
            left.text.toList ++ '=' :: (right.text.toList ++ []) := by
          simp [text, String.toList_append]
        rw [split]
        cases separated : left.isSeparated with
        | false =>
            have follows : Follows sumEnd ('=' :: (right.text.toList ++ [])) :=
              follows_of_first? (show first? ('=' :: _) = some ⟨.equals, ['='], _⟩ from rfl) rfl
            exact (misreads_left (built.1.isMisread separated _ follows)).imp
              fun t like => .inr ⟨right, span, like⟩
        | true =>
            rw [isSeparated, separated, Bool.true_and] at overlap
            exact misreads_right (built.1.readsBack separated)
              (built.2.isMisread overlap [] follows_nil)
  rintro ⟨t, hread, like⟩
  obtain ⟨after, shorter, hstatement, -⟩ := Outcome.eq_ok_of_entire hread
  exact (misread _ (faces_ofText s.text)).of_eq_ok hstatement like

/-- The text of what is read from any text is read as the same again, places aside, exactly if no
parts of it run together. -/
theorem read_text_iff_isSeparated {input : String} {s : Statement}
    (h : Statement.read input = .ok s) :
    (∃ t, Statement.read s.text = .ok t ∧ t.unplaced = s.unplaced) ↔ s.isSeparated = true := by
  have built := (derives_of_read h).2
  constructor
  · intro again
    by_contra overlap
    exact not_read_of_overlap built (Bool.eq_false_of_not_eq_true overlap) again
  · exact exists_read_of_isSeparated built

/-- A whole number and a fraction are kept apart in `2*x(1)/(4)`. -/
theorem read_text_iff_isSeparated_of_product :
    ∃ s t, Statement.read "2 * x(1)/(4) * 10²" = .ok s ∧ s.text = "2x(1)/(4)*10²" ∧
      Statement.read s.text = .ok t ∧ t.unplaced = s.unplaced := by
  have accepted : (match Statement.read "2 * x(1)/(4) * 10²" with
      | .ok s => s.isSeparated && s.text == "2x(1)/(4)*10²"
      | .error _ => false) = true := by decide +kernel
  cases hread : Statement.read "2 * x(1)/(4) * 10²" with
  | error cause =>
      rw [hread] at accepted
      cases accepted
  | ok s =>
      rw [hread] at accepted
      simp only [Bool.and_eq_true, beq_iff_eq] at accepted
      obtain ⟨separated, written⟩ := accepted
      obtain ⟨t, again, like⟩ := (read_text_iff_isSeparated hread).mpr separated
      exact ⟨s, t, rfl, written, again, like⟩

/-- Without its `*` the product `2*(1)/(4)` is written like a mixed number. -/
theorem exists_text_not_read_back :
    ¬ ∀ (input : String) (s : Statement), Statement.read input = .ok s →
      ∃ t, Statement.read s.text = .ok t ∧ t.unplaced = s.unplaced := by
  intro readBack
  have product : (match Statement.read "2*(1)/(4)" with
      | .ok (.formula (.product factors _)) => Formula.factorsText factors == "2(1)/(4)"
      | _ => false) = true := by decide +kernel
  have mixed : (match Statement.read "2(1)/(4)" with
      | .ok (.formula (.mixed _ _ _ _ _ _)) => true
      | _ => false) = true := by decide +kernel
  split at product
  · next factors span hread =>
    obtain ⟨t, again, like⟩ := readBack _ _ hread
    rw [text, Formula.text, beq_iff_eq.mp product] at again
    rw [again] at mixed
    split at mixed
    · next same =>
      obtain rfl := Except.ok.inj same
      cases like
    · cases mixed
  · cases product

end Statement

end StepAlgebra
