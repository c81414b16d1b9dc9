import StepAlgebra.Proofs.Formula.Separated
import StepAlgebra.Proofs.Formula.Soundness
import StepAlgebra.Proofs.Formula.Sum

/-!
# Separated formulas are read back

Each part of a separated formula is read from its own text, wherever this stands. By induction over
the formula, as it is built: a part is read in front of any text that may follow it, and what
follows a factor may, since the two stay apart.

* `Formula.MayPrecede` — what may stand after an atom;
* `Formula.ReadsBack` — what is known of a part when the formula around it is written;
* `Formula.IsBuilt.readsBack` — separated formulas are read back.
-/

namespace StepAlgebra

open Cursor Lexer

/-! ## Numbers after a multiplication sign -/

namespace Lexer

theorem next_places (n : Numeral) {rest : List Char}
    (after : Next (Digit.isWrittenBy · = false) rest) :
    Next (Digit.isWrittenBy · = false) (n.placesChars ++ (n.powerChars ++ rest)) := by
  unfold Numeral.placesChars Numeral.powerChars
  cases n.places with
  | some places => exact next_cons.mpr (by decide)
  | none =>
      cases n.power with
      | some power => exact next_cons.mpr (by decide)
      | none => exact after

/-- A number behind a multiplication sign is no power of ten, unless it is ten and an exponent
follows. -/
theorem power?_times {n : Numeral} {rest : List Char} (nonempty : n.whole ≠ [])
    (after : Next (Digit.isWrittenBy · = false) rest)
    (apart : n = .ten → Next (fun c => Superscript.isDigit c = false ∧ c ≠ '⁻') rest) :
    power? ('*' :: (n.text.toList ++ rest)) = none := by
  rw [Option.eq_none_iff_forall_not_mem]
  rintro ⟨power, left⟩ hpower
  obtain ⟨sign, row, rfl, hsign, hrow⟩ := power?_eq_some hpower
  have split := power?_append hpower
  -- what is behind `10` starts with the raised minus sign or a superscript digit
  obtain ⟨x, more, hx, raised⟩ : ∃ x more, sign ++ row ++ left = x :: more ∧
      (x = '⁻' ∨ Superscript.isDigit x = true) := by
    rcases hsign with rfl | rfl
    · obtain ⟨x, others, rfl⟩ := List.exists_cons_of_ne_nil hrow.1
      exact ⟨x, others ++ left, rfl, .inr (hrow.2 x List.mem_cons_self)⟩
    · exact ⟨'⁻', row ++ left, rfl, .inl rfl⟩
  simp only [List.cons_append, hx, Numeral.toList_text, List.append_assoc] at split
  have split := (List.cons.inj split).2
  have digits := next_places n after
  obtain ⟨d, ds, hwhole⟩ := List.exists_cons_of_ne_nil nonempty
  rw [hwhole, List.map_cons, List.cons_append] at split
  obtain ⟨hd, split⟩ := List.cons.inj split
  cases ds with
  | nil =>
      rw [List.map_nil, List.nil_append] at split
      rw [← split] at digits
      exact absurd (next_cons.mp digits) (by decide)
  | cons e es =>
      rw [List.map_cons, List.cons_append] at split
      obtain ⟨he, split⟩ := List.cons.inj split
      cases es with
      | cons e' es =>
          obtain ⟨rfl, -⟩ := List.cons.inj split
          have plain : ∀ d : Digit, ¬ (d.toChar = '⁻' ∨ Superscript.isDigit d.toChar = true) := by
            decide
          exact plain e' raised
      | nil =>
          rw [List.map_nil, List.nil_append] at split
          unfold Numeral.placesChars Numeral.powerChars at split
          cases hplaces : n.places with
          | some places =>
              rw [hplaces] at split
              obtain ⟨rfl, -⟩ := List.cons.inj split
              revert raised
              decide
          | none =>
              cases hpower : n.power with
              | some power =>
                  rw [hplaces, hpower] at split
                  obtain ⟨rfl, -⟩ := List.cons.inj split
                  revert raised
                  decide
              | none =>
                  rw [hplaces, hpower, List.nil_append, List.nil_append] at split
                  have read : ∀ d e : Digit, '1' = d.toChar → '0' = e.toChar →
                      [d, e] = [.ofNat 1, .ofNat 0] := by decide
                  have ten : n = .ten := by
                    obtain ⟨whole, places, power⟩ := n
                    rw [Numeral.ten, ← read d e hd he, ← hwhole, ← hplaces, ← hpower]
                  have after := apart ten
                  rw [← split] at after
                  obtain ⟨digit, minus⟩ := next_cons.mp after
                  rcases raised with rfl | superscript
                  · exact minus rfl
                  · rw [superscript] at digit
                    cases digit

end Lexer

namespace Formula

variable {E : UInt32 → Prop} {r : Rank} {f g : Formula} {fs : List Formula} {rest : List Char}
  {kinds : List TokenKind}

/-! ## What a factor starts with -/

/-- The kinds of token that a factor starts with, depending on whether it starts with a digit. -/
def startKinds (digit : Bool) : List TokenKind :=
  if digit then [.integer, .decimal, .scientific] else [.name, .openParen, .radical]

theorem follows_text (h : f.IsBuilt E r) (low : r = .atom ∨ r = .factor ∨ r = .product)
    (rest : List Char) : Follows (startKinds f.startsWithDigit) (f.text.toList ++ rest) := by
  induction h generalizing rest with
  | literal canonical =>
      rw [text]
      exact follows_numeral canonical
  | symbol letter =>
      rw [text, String.toList_singleton]
      exact follows_of_first? (first?_letter letter) rfl
  | mixed canonical =>
      simp only [text, String.toList_append, List.append_assoc]
      exact follows_numeral canonical
  | root =>
      simp only [text, String.toList_append, List.append_assoc]
      exact follows_of_first? (show first? _ = some ⟨.radical, ['√'], _⟩ from rfl) rfl
  | fraction | group =>
      simp only [text, String.toList_append, List.append_assoc]
      exact follows_of_first? (show first? _ = some ⟨.openParen, ['('], _⟩ from rfl) rfl
  | bare _ ih => exact ih (.inl rfl) rest
  | power _ _ ih =>
      simp only [text, String.toList_append, List.append_assoc]
      exact ih (.inl rfl) _
  | alone _ ih => exact ih (.inr (.inl rfl)) rest
  | @product fs _ several _ ih =>
      match fs, several with
      | f :: g :: fs, _ =>
          simp only [text, factorsText, String.toList_append, List.append_assoc]
          exact ih f List.mem_cons_self (.inr (.inl rfl)) _
  | unsigned | signed | single | sum => simp at low

theorem follows_moreFactors (built : ∀ f ∈ fs, f.IsBuilt E .factor)
    (after : Follows productEnd rest) :
    Follows (.times :: numberEnd) ((moreFactorsText fs).toList ++ rest) := by
  cases fs with
  | nil => exact after.mono rfl
  | cons g gs =>
      have starts := follows_text (built g List.mem_cons_self) (.inr (.inl rfl))
        ((moreFactorsText gs).toList ++ rest)
      rw [moreFactorsText]
      cases digit : g.startsWithDigit with
      | true =>
          simp only [if_true, String.toList_append, List.append_assoc]
          exact follows_of_first? (show first? _ = some ⟨.times, ['*'], _⟩ from rfl) rfl
      | false =>
          rw [digit] at starts
          simp only [Bool.false_eq_true, if_false, String.toList_append, List.append_assoc]
          exact starts.mono rfl

/-! ## What may follow a factor -/

/-- What may stand after an atom or a power: it does not go on with the number at its end. -/
def MayPrecede (f : Formula) (rest : List Char) : Prop :=
  ∀ n ∈ f.lastNumber?, n.Ends rest ∧ (n.kind = .integer → NoQuotient rest)

theorem mayPrecede_of_follows (after : Follows kinds rest)
    (power : ∀ n ∈ f.lastNumber?, n.isScientific = true → kinds.contains .superscript = false)
    (apart : [TokenKind.integer, .decimal, .scientific, .unknown, .times].any kinds.contains =
      false)
    (closed : kinds.contains .openParen = false) (visible : kinds.contains .blank = false) :
    f.MayPrecede rest := by
  intro n hn
  exact ⟨ends_of_follows after (power n hn) apart,
    fun _ => noQuotient_of_follows after closed visible⟩

/-! ## What is known of a part -/

/-- An atom or a power is read back where it may stand, and it is no quotient of literals unless it
looks like one. -/
structure PartReadsBack (read : (c : Cursor) → Outcome c Formula) (kinds : List TokenKind)
    (f : Formula) : Prop where
  reads : ∀ rest, Follows kinds rest → f.MayPrecede rest → Reads read f.text rest (Like f)
  noQuotient : f.startsWithDigit = false → f.isNumericQuotient = false →
    ∀ rest, Follows kinds rest → NoQuotient (f.text.toList ++ rest)

/-- The text of a term, with a sign unless it is the first. -/
def termText (isFirst : Bool) (f : Formula) : String :=
  (if isFirst || f.isSubtracted then "" else "+") ++ f.text

/-- What is known of a formula when the one around it is written. -/
def ReadsBack : Rank → Formula → Prop
  | .atom, f => PartReadsBack atom atomEnd f
  | .factor, f => PartReadsBack Cursor.power factorEnd f
  | .product, f => ∀ rest, Follows productEnd rest → Reads Cursor.product f.text rest (Like f)
  | .term isFirst, f => ∀ rest, Follows productEnd rest →
      Reads (·.signedProduct isFirst) (termText isFirst f) rest (Like f)
  | .sum, f => ReadsSum f.text (Like f)

/-! ## Atoms -/

theorem readsBack_literal {n : Numeral} (canonical : n.IsCanonical) (span : Span) :
    ReadsBack .atom (.literal n span) where
  reads := by
    intro rest after may
    obtain ⟨ends, stop⟩ := may n rfl
    rw [text]
    refine (reads_atom_literal canonical ends stop).imp ?_
    rintro f ⟨span', rfl⟩
    rfl
  noQuotient := Bool.noConfusion

theorem readsBack_symbol {name : Char} (letter : name.isAlpha = true) (span : Span) :
    ReadsBack .atom (.symbol name span) where
  reads := by
    intro rest after may
    rw [text]
    refine (reads_atom_symbol letter).imp ?_
    rintro f ⟨span', rfl⟩
    rfl
  noQuotient := by
    intro _ _ rest after
    rw [text, String.toList_singleton]
    have follows : Follows [.name] (name :: rest) := follows_of_first? (first?_letter letter) rfl
    exact noQuotient_of_follows follows rfl rfl

theorem readsBack_fraction {top bottom : Formula} (htop : ReadsBack .sum top)
    (hbottom : ReadsBack .sum bottom) (span : Span) :
    ReadsBack .atom (.fraction top bottom span) where
  reads := by
    intro rest after may
    rw [text]
    refine (reads_atom_fraction htop hbottom).imp ?_
    rintro f ⟨top', bottom', span', rfl, likeTop, likeBottom⟩
    exact like_fraction.mpr ⟨likeTop, likeBottom⟩
  noQuotient := by
    intro _ other rest after c faces numeric
    rw [text] at faces
    obtain ⟨q, d, shorter, hquotient, ⟨likeTop, likeBottom⟩, -⟩ :=
      (reads_quotient htop hbottom c faces).eq_ok
    rw [hquotient] at numeric
    have numeric : q.isNumeric = true := numeric
    rw [Quotient.isNumeric, likeTop.isSignedLiteral, likeBottom.isSignedLiteral] at numeric
    rw [isNumericQuotient, numeric] at other
    cases other

/-- A literal is read back as a literal. -/
theorem readsSum_literal (h : ReadsBack .sum f) (literal : f.isSignedLiteral = true) :
    ReadsSum f.text fun g => Like f g ∧ g.isSignedLiteral = true :=
  fun rest after => (h rest after).imp fun g like => ⟨like, by rwa [like.isSignedLiteral]⟩

theorem readsBack_mixed {n : Numeral} {top bottom : Formula} (canonical : n.IsCanonical)
    (whole : n.isWhole = true) (htop : ReadsBack .sum top) (hbottom : ReadsBack .sum bottom)
    (litTop : top.isSignedLiteral = true) (litBottom : bottom.isSignedLiteral = true)
    (span₁ span₂ span : Span) : ReadsBack .atom (.mixed n span₁ top bottom span₂ span) where
  reads := by
    intro rest after may
    rw [text]
    refine (reads_atom_mixed canonical whole (readsSum_literal htop litTop)
      (readsSum_literal hbottom litBottom)).imp ?_
    rintro f ⟨span₁', top', bottom', span₂', span', rfl, likeTop, likeBottom⟩
    rw [Like] at likeTop likeBottom
    rw [Like, unplaced, unplaced, likeTop, likeBottom]
  noQuotient := Bool.noConfusion

theorem readsBack_root {index : Option UInt32} {radicand : Formula} (h : ∀ i ∈ index, 2 ≤ i)
    (hradicand : ReadsBack .atom radicand) (span : Span) :
    ReadsBack .atom (.root index radicand span) where
  reads := by
    intro rest after may
    rw [text]
    refine (reads_atom_radical h (hradicand.reads rest after may)).imp ?_
    rintro f ⟨r, span', rfl, like⟩
    exact like_root.mpr ⟨rfl, like⟩
  noQuotient := by
    intro _ _ rest after
    simp only [text, String.toList_append, List.append_assoc]
    have follows {cs : List Char} : Follows [.radical] ('√' :: cs) :=
      follows_of_first? (show first? _ = some ⟨.radical, ['√'], cs⟩ from rfl) rfl
    exact noQuotient_of_follows follows rfl rfl

theorem readsBack_group {inner : Formula} (h : ReadsBack .sum inner) (span : Span) :
    ReadsBack .atom (.group inner span) where
  reads := by
    intro rest after may
    rw [text]
    refine (reads_atom_group h after).imp ?_
    rintro f ⟨inner', span', rfl, like⟩
    exact like_group.mpr like
  noQuotient := by
    intro _ _ rest after
    rw [text]
    exact noQuotient_of_group h after

/-! ## Factors -/

theorem readsBack_bare (h : ReadsBack .atom f) : ReadsBack .factor f where
  reads := fun rest after may => reads_power_bare (h.reads rest (after.mono rfl) may) after
  noQuotient := fun digit other rest after => h.noQuotient digit other rest (after.mono rfl)

theorem readsBack_power {exponent : UInt32} (h : ReadsBack .atom f)
    (plain : f.lastNumber?.any Numeral.isScientific = false) (span₁ span : Span) :
    ReadsBack .factor (.power f exponent span₁ span) where
  reads := by
    intro rest after _
    have raised := follows_superscript (e := exponent) after
    have may : f.MayPrecede ((Superscript.ofNat exponent.toNat).toList ++ rest) := by
      refine mayPrecede_of_follows raised ?_ rfl rfl rfl
      intro n hn scientific
      rw [Option.mem_def.mp hn, Option.any_some, scientific] at plain
      cases plain
    rw [text]
    refine (reads_power (h.reads _ (raised.mono rfl) may) after).imp ?_
    rintro g ⟨base, span₁', span', rfl, like⟩
    exact like_power.mpr ⟨like, rfl⟩
  noQuotient := by
    intro digit other rest after
    rw [text, String.toList_append, List.append_assoc]
    exact h.noQuotient digit other _ ((follows_superscript after).mono rfl)

/-! ## Products -/

/-- A factor behind a multiplication sign is no power of ten, unless it looks like one. -/
theorem power?_times_text (h : g.IsBuilt E .factor) (digit : g.startsWithDigit = true)
    (other : g.isPowerOfTen = false) (after : Follows (.times :: numberEnd) rest) :
    power? ('*' :: (g.text.toList ++ rest)) = none := by
  have next : Next (fun c => Superscript.isDigit c = false ∧ c ≠ '⁻') rest := fun c hc =>
    ⟨next_superscript_of_follows after rfl c hc,
      next_ne_of_follows after (x := '⁻') (fun _ => rfl) rfl c hc⟩
  have paren {n : Numeral} {cs : List Char} (canonical : n.IsCanonical) :
      power? ('*' :: (n.text.toList ++ '(' :: cs)) = none :=
    power?_times canonical.whole (next_cons.mpr (by decide)) fun _ => next_cons.mpr (by decide)
  cases h with
  | bare atom =>
      cases atom with
      | literal canonical =>
          rw [text]
          exact power?_times canonical.whole (next_digit_of_follows after rfl) fun _ => next
      | mixed canonical =>
          simp only [text, String.toList_append, List.append_assoc]
          exact paren canonical
      | symbol | fraction | root | group => cases digit
  | @power base exponent _ _ atom =>
      cases atom with
      | @literal n _ canonical =>
          have apart : n ≠ .ten := by simpa [isPowerOfTen] using other
          rw [text, String.toList_append, List.append_assoc]
          refine power?_times canonical.whole ?_ fun ten => absurd ten apart
          exact next_digit_of_follows (follows_superscript (after.mono rfl)) rfl
      | mixed canonical =>
          simp only [text, String.toList_append, List.append_assoc]
          exact paren canonical
      | symbol | fraction | root | group => cases digit

/-- The number at the end of a factor ends in front of the next factor, if the two stay apart. -/
theorem ends_moreFactors {n : Numeral} (hn : n ∈ f.lastNumber?)
    (built : ∀ g ∈ fs, g.IsBuilt E .factor) (apart : fs.head?.all f.staysApart = true)
    (after : Follows productEnd rest) : n.Ends ((moreFactorsText fs).toList ++ rest) := by
  cases fs with
  | nil => exact ends_of_follows after (fun _ => rfl) rfl
  | cons g gs =>
      obtain ⟨hg, hgs⟩ := List.forall_mem_cons.mp built
      have later := follows_moreFactors hgs after
      simp only [List.head?_cons, Option.all_some, staysApart, Option.mem_def.mp hn,
        Bool.and_eq_true, Bool.or_eq_true, Bool.not_eq_true'] at apart
      rw [moreFactorsText]
      cases digit : g.startsWithDigit with
      | true =>
          simp only [if_true, String.toList_append, List.append_assoc]
          cases scientific : n.isScientific with
          | true =>
              rw [Numeral.Ends, if_pos scientific]
              exact next_cons.mpr (by decide)
          | false =>
              have other : g.isPowerOfTen = false := by simpa [scientific] using apart.2
              rw [Numeral.Ends, if_neg (by simp [scientific])]
              exact ⟨next_cons.mpr (by decide), power?_times_text hg digit other later⟩
      | false =>
          have starts := follows_text hg (.inr (.inl rfl)) ((moreFactorsText gs).toList ++ rest)
          rw [digit] at starts
          simp only [Bool.false_eq_true, if_false, String.toList_append, List.append_assoc]
          exact ends_of_follows starts (fun _ => rfl) rfl

/-- No quotient of literals stands behind a whole number, if it stays apart from the next factor. -/
theorem noQuotient_moreFactors {n : Numeral} (hn : n ∈ f.lastNumber?) (whole : n.isWhole = true)
    (built : ∀ g ∈ fs, g.IsBuilt E .factor) (parts : ∀ g ∈ fs, ReadsBack .factor g)
    (apart : fs.head?.all f.staysApart = true) (after : Follows productEnd rest) :
    NoQuotient ((moreFactorsText fs).toList ++ rest) := by
  cases fs with
  | nil => exact noQuotient_of_follows after rfl rfl
  | cons g gs =>
      have later := follows_moreFactors (List.forall_mem_cons.mp built).2 after
      simp only [List.head?_cons, Option.all_some, staysApart, Option.mem_def.mp hn, whole,
        Bool.true_and, Bool.and_eq_true, Bool.not_eq_true'] at apart
      rw [moreFactorsText]
      cases digit : g.startsWithDigit with
      | true =>
          simp only [if_true, String.toList_append, List.append_assoc]
          have times : Follows [.times] ('*' :: (g.text.toList ++ ((moreFactorsText gs).toList ++
            rest))) := follows_of_first? (show first? _ = some ⟨.times, ['*'], _⟩ from rfl) rfl
          exact noQuotient_of_follows times rfl rfl
      | false =>
          simp only [Bool.false_eq_true, if_false, String.toList_append, List.append_assoc]
          exact (parts g List.mem_cons_self).noQuotient digit apart.1 _ (later.mono rfl)

/-- A factor may precede the next one if the two stay apart. -/
theorem mayPrecede_moreFactors (built : ∀ g ∈ fs, g.IsBuilt E .factor)
    (parts : ∀ g ∈ fs, ReadsBack .factor g) (apart : fs.head?.all f.staysApart = true)
    (after : Follows productEnd rest) : f.MayPrecede ((moreFactorsText fs).toList ++ rest) := by
  intro n hn
  refine ⟨ends_moreFactors hn built apart after, fun integer => ?_⟩
  exact noQuotient_moreFactors hn (Numeral.isWhole_of_kind integer) built parts apart after

/-- A row of factors is read back, if they are and no two neighbours run together. -/
theorem reads_factorsText (built : ∀ f ∈ fs, f.IsBuilt E .factor)
    (parts : ∀ f ∈ fs, ReadsBack .factor f) (separated : factorsAreSeparated fs = true)
    (nonempty : fs ≠ []) (after : Follows productEnd rest) :
    Reads factors (factorsText fs) rest (LikeRow fs) := by
  induction fs with
  | nil => exact absurd rfl nonempty
  | cons f fs ih =>
      obtain ⟨hf, hparts⟩ := List.forall_mem_cons.mp parts
      have later := (List.forall_mem_cons.mp built).2
      simp only [factorsAreSeparated, Bool.and_eq_true] at separated
      obtain ⟨⟨-, apart⟩, separated⟩ := separated
      have first : Reads Cursor.power f.text ((moreFactorsText fs).toList ++ rest) (Like f) :=
        hf.reads _ ((follows_moreFactors later after).mono rfl)
          (mayPrecede_moreFactors later hparts apart after)
      rw [factorsText]
      cases fs with
      | nil =>
          rw [moreFactorsText, String.append_empty]
          refine (reads_factors_one first after).imp ?_
          rintro fs ⟨g, rfl, like⟩
          exact likeRow_cons.mpr ⟨like, rfl⟩
      | cons g gs =>
          have more := ih later hparts separated (List.cons_ne_nil _ _)
          rw [factorsText] at more
          have both : Reads factors (f.text ++ moreFactorsText (g :: gs)) rest fun fs =>
              ∃ f' others, fs = f' :: others ∧ Like f f' ∧ LikeRow (g :: gs) others := by
            rw [moreFactorsText] at first ⊢
            cases digit : g.startsWithDigit with
            | true =>
                simp only [digit, if_true, String.append_assoc] at first ⊢
                refine reads_factors_times ?_ more
                simpa [String.toList_append] using first
            | false =>
                simp only [digit, Bool.false_eq_true, if_false, String.empty_append] at first ⊢
                exact reads_factors_cons first more
          refine both.imp ?_
          rintro _ ⟨f', others, rfl, like, likeRow⟩
          exact likeRow_cons.mpr ⟨like, likeRow⟩

theorem like_ofFactors (several : 2 ≤ fs.length) (span : Span) {gs : List Formula}
    (like : LikeRow fs gs) : Like (.product fs span) (ofFactors gs) := by
  match fs, several with
  | _ :: _ :: _, _ => exact like.ofFactors

theorem readsBack_alone (h : ReadsBack .factor f) : ReadsBack .product f := by
  intro rest after
  have may : f.MayPrecede rest :=
    mayPrecede_of_follows after (fun _ _ _ => rfl) rfl rfl rfl
  exact reads_product_of_power (h.reads rest (after.mono rfl) may) after

theorem readsBack_product (several : 2 ≤ fs.length) (built : ∀ f ∈ fs, f.IsBuilt E .factor)
    (parts : ∀ f ∈ fs, ReadsBack .factor f) (separated : factorsAreSeparated fs = true)
    (span : Span) : ReadsBack .product (.product fs span) := by
  intro rest after
  have nonempty : fs ≠ [] := by
    rintro rfl
    cases several
  rw [text]
  refine (reads_product (reads_factorsText built parts separated nonempty after)).imp ?_
  rintro f ⟨gs, rfl, like⟩
  exact like_ofFactors several span like

/-! ## Terms -/

/-- A product has no sign in front of it. -/
theorem isSubtracted_of_product (h : f.IsBuilt E .product) : f.isSubtracted = false := by
  cases h with
  | product => rfl
  | alone factor =>
      cases factor with
      | power => rfl
      | bare atom => cases atom <;> rfl

theorem readsBack_unsigned (built : f.IsBuilt E .product) (h : ReadsBack .product f)
    (isFirst : Bool) : ReadsBack (.term isFirst) f := by
  intro rest after
  rw [termText, isSubtracted_of_product built, Bool.or_false]
  cases isFirst with
  | true =>
      rw [if_pos rfl, String.empty_append]
      exact reads_unsigned (h rest after)
  | false => exact reads_plus (h rest after)

theorem termText_signed {isFirst positive : Bool} (kept : (positive && !isFirst) = false)
    (span : Span) :
    termText isFirst (.signed positive f span) = (if positive then "+" else "-") ++ f.text := by
  rw [termText, text]
  cases positive with
  | false => simp [isSubtracted]
  | true =>
      obtain rfl : isFirst = true := by simpa using kept
      simp

theorem readsBack_signed (h : ReadsBack .product f) {isFirst positive : Bool}
    (kept : (positive && !isFirst) = false) (span : Span) :
    ReadsBack (.term isFirst) (.signed positive f span) := by
  intro rest after
  rw [termText_signed kept]
  refine (reads_signed (h rest after) positive).imp ?_
  rintro g ⟨operand, span', like, rfl⟩
  rw [kept, if_neg Bool.false_ne_true]
  exact like_signed.mpr ⟨rfl, like⟩

/-- A later term starts with a sign. -/
theorem first?_termText (h : g.IsBuilt E (.term false)) (rest : List Char) :
    ∃ kind lexeme left, first? ((termText false g).toList ++ rest) = some ⟨kind, lexeme, left⟩ ∧
      kind ∈ [TokenKind.plus, .minus] := by
  cases h with
  | unsigned product =>
      rw [termText, isSubtracted_of_product product]
      simp only [Bool.or_self, Bool.false_eq_true, if_false, String.toList_append]
      exact ⟨.plus, _, _, rfl, by decide⟩
  | @signed _ positive _ span _ kept =>
      obtain rfl : positive = false := by simpa using kept
      rw [termText_signed kept]
      simp only [Bool.false_eq_true, if_false, String.toList_append]
      exact ⟨.minus, _, _, rfl, by decide⟩

theorem moreTermsText_cons (g : Formula) (gs : List Formula) :
    moreTermsText (g :: gs) = termText false g ++ moreTermsText gs := by
  rw [moreTermsText, termText, Bool.false_or]

theorem follows_moreTerms (built : ∀ g ∈ fs, g.IsBuilt E (.term false))
    (after : Follows sumEnd rest) : Follows productEnd ((moreTermsText fs).toList ++ rest) := by
  cases fs with
  | nil => exact after.mono rfl
  | cons g gs =>
      rw [moreTermsText_cons, String.toList_append, List.append_assoc]
      obtain ⟨kind, lexeme, left, first, hkind⟩ :=
        first?_termText (built g List.mem_cons_self) ((moreTermsText gs).toList ++ rest)
      have sub : ∀ kind ∈ [TokenKind.plus, .minus], productEnd.contains kind = true := by decide
      exact follows_of_first? first (sub kind hkind)

theorem sign_moreTerms {c : Cursor} {gs : List Formula} (built : g.IsBuilt E (.term false))
    (faces : c.Faces ((moreTermsText (g :: gs)).toList ++ rest)) : c.sign.isSome = true := by
  rw [moreTermsText_cons, String.toList_append, List.append_assoc] at faces
  obtain ⟨kind, lexeme, left, first, hkind⟩ :=
    first?_termText built ((moreTermsText gs).toList ++ rest)
  have signed : ∀ kind ∈ [TokenKind.plus, .minus],
      (kind != .blank) = true ∧ (sign? kind).isSome = true := by decide
  rw [Cursor.sign, peek_of_faces faces first (signed kind hkind).1, Option.bind_some]
  exact (signed kind hkind).2

/-- A row of terms is read back, if they are. -/
theorem reads_termsText {isFirst : Bool} (first : ReadsBack (.term isFirst) f)
    (built : ∀ g ∈ fs, g.IsBuilt E (.term false)) (parts : ∀ g ∈ fs, ReadsBack (.term false) g)
    (after : Follows sumEnd rest) :
    Reads (·.terms isFirst) (termText isFirst f ++ moreTermsText fs) rest (LikeRow (f :: fs)) := by
  induction fs generalizing f isFirst with
  | nil =>
      rw [moreTermsText, String.append_empty]
      refine (reads_terms_one (first rest after.sum_of_product) after).imp ?_
      rintro fs ⟨g, rfl, like⟩
      exact likeRow_cons.mpr ⟨like, rfl⟩
  | cons g gs ih =>
      obtain ⟨hg, hgs⟩ := List.forall_mem_cons.mp built
      obtain ⟨part, parts⟩ := List.forall_mem_cons.mp parts
      have more := ih part hgs parts
      rw [← moreTermsText_cons] at more
      have here := first _ (follows_moreTerms built after)
      refine (reads_terms_cons here more fun c faces => sign_moreTerms hg faces).imp ?_
      rintro _ ⟨f', others, rfl, like, likeRow⟩
      exact likeRow_cons.mpr ⟨like, likeRow⟩

theorem termText_first (f : Formula) : termText true f = f.text := by
  rw [termText, Bool.true_or, if_pos rfl, String.empty_append]

theorem readsBack_single (h : ReadsBack (.term true) f) : ReadsBack .sum f := by
  refine readsSum_of_signedProduct fun rest after => ?_
  rw [← termText_first]
  exact h rest after

theorem like_ofTerms {gs : List Formula} (nonempty : fs ≠ []) (span : Span)
    (like : LikeRow (f :: fs) gs) : Like (.sum (f :: fs) span) (ofTerms gs) := by
  match fs, nonempty with
  | _ :: _, _ => exact like.ofTerms

theorem readsBack_sum (first : ReadsBack (.term true) f) (nonempty : fs ≠ [])
    (built : ∀ g ∈ fs, g.IsBuilt E (.term false)) (parts : ∀ g ∈ fs, ReadsBack (.term false) g)
    (span : Span) : ReadsBack .sum (.sum (f :: fs) span) := by
  intro rest after
  have row := reads_termsText first built parts after
  rw [termText_first] at row
  rw [text, termsText]
  refine (reads_sum row).imp ?_
  rintro g ⟨gs, rfl, like⟩
  exact like_ofTerms nonempty span like

/-! ## Separated formulas -/

/-- Separated formulas are read back. -/
theorem IsBuilt.readsBack (h : f.IsBuilt E r) (separated : f.isSeparated = true) :
    ReadsBack r f := by
  induction h with
  | literal canonical => exact readsBack_literal canonical _
  | symbol letter => exact readsBack_symbol letter _
  | fraction _ _ top bottom =>
      obtain ⟨hTop, hBottom⟩ := Bool.and_eq_true_iff.mp separated
      exact readsBack_fraction (top hTop) (bottom hBottom) _
  | mixed canonical whole _ _ litTop litBottom top bottom =>
      exact readsBack_mixed canonical whole (top (isSeparated_of_isSignedLiteral litTop))
        (bottom (isSeparated_of_isSignedLiteral litBottom)) litTop litBottom _ _ _
  | root atLeast _ radicand => exact readsBack_root atLeast (radicand separated) _
  | group _ inner => exact readsBack_group (inner separated) _
  | bare _ atom => exact readsBack_bare (atom separated)
  | power _ _ base =>
      obtain ⟨hBase, plain⟩ := Bool.and_eq_true_iff.mp separated
      exact readsBack_power (base hBase) (by simpa using plain) _ _
  | alone _ factor => exact readsBack_alone (factor separated)
  | product several built factors =>
      have parts := isSeparated_of_factors separated
      exact readsBack_product several built (fun f hf => factors f hf (parts f hf)) separated _
  | unsigned built product => exact readsBack_unsigned built (product separated) _
  | signed _ kept product => exact readsBack_signed (product separated) kept _
  | single _ term => exact readsBack_single (term separated)
  | sum _ nonempty built first others =>
      obtain ⟨hFirst, hOthers⟩ := Bool.and_eq_true_iff.mp separated
      have parts := isSeparated_of_terms hOthers
      exact readsBack_sum (first hFirst) nonempty built (fun g hg => others g hg (parts g hg)) _

end Formula

/-- The text of a separated statement is read as that statement, places aside. -/
theorem Statement.exists_read_of_isSeparated {E : UInt32 → Prop} {s : Statement}
    (built : s.IsBuilt E) (separated : s.isSeparated = true) :
    ∃ t, Statement.read s.text = .ok t ∧ t.unplaced = s.unplaced := by
  cases s with
  | formula f =>
      obtain ⟨g, hread, like⟩ := read_of_readsSum (Formula.IsBuilt.readsBack built separated)
      rw [Formula.Like] at like
      exact ⟨.formula g, hread, by rw [unplaced, unplaced, like]⟩
  | equation left right span =>
      obtain ⟨hLeft, hRight⟩ := Bool.and_eq_true_iff.mp separated
      obtain ⟨f, g, span', hread, likeLeft, likeRight⟩ :=
        read_of_readsSum_equals (built.1.readsBack hLeft) (built.2.readsBack hRight)
      rw [Formula.Like] at likeLeft likeRight
      exact ⟨.equation f g span', hread, by rw [unplaced, unplaced, likeLeft, likeRight]⟩

end StepAlgebra
