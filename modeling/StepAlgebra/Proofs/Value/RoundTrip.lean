import StepAlgebra.Proofs.Formula.Sum
import StepAlgebra.Proofs.Particle.Canonical
import StepAlgebra.Value.OfFormula

/-!
# Texts are read back

A particle is legible when its text is read as it in all the places where the text can stand: as a
sum, as a factor of a row, as a term of a row. A canonical particle is legible if its parts are.

* `Particle.Legible` — what is known of a part when the particle around it is written;
* `Particle.Legible.text`, `Particle.Legible.factor`, `Particle.Legible.term` — where its text
  is read;
* `Particle.legible_of_isCanonical` — canonical particles are legible;
* `Value.read_text` — the text of a canonical value reads as that value.
-/

namespace StepAlgebra

namespace Particle

open Cursor Lexer

variable {p q : Particle} {s : Bool} {b : Body} {e : UInt32} {rest : List Char}

/-- The formula stands for the particle. -/
def StandsFor (q : Particle) (f : Formula) : Prop :=
  ofFormula f = q

/-- A particle under an exponent that is written unless it is one. -/
def under (q : Particle) (e : UInt32) : Particle :=
  if e = 1 then q else q.raise e

theorem under_plain (b : Body) (e : UInt32) : under b.plain e = ⟨true, b, e⟩ := by
  unfold under
  split
  · next one => rw [one]; rfl
  · rfl

/-- What may stand after a body without parentheses. -/
def MayPrecede (b : Body) (rest : List Char) : Prop :=
  match b with
  | .number n => n.Ends rest ∧ NoQuotient rest
  | _ => True

/-- What is known of a particle that is read back from its text. -/
structure Legible (p : Particle) : Prop where
  /-- In parentheses the body is read as what gives the particle under the exponent. -/
  enclosed : ∃ q, under q p.exponent = ⟨true, p.body, p.exponent⟩ ∧
    ReadsSum (enclosedText p.exponent p.body) (StandsFor q)
  /-- A simple body is read as an atom. -/
  bare : isSimple p.body = true → ∀ rest, Follows atomEnd rest → MayPrecede p.body rest →
    Reads atom (enclosedText p.exponent p.body) rest (StandsFor p.body.plain)
  /-- A row of factors without an exponent is read as a product. -/
  row : ∀ factors, p.body = .term factors → p.exponent = 1 → ∀ rest, Follows productEnd rest →
    Reads product (enclosedText p.exponent p.body) rest (StandsFor p.body.plain)

/-! ## Where the text of a legible particle is read -/

/-- A body that is one atom is read under its own exponent. -/
theorem Legible.atom (h : Legible ⟨s, b, e⟩)
    (atomic : standsEnclosed s e b = true ∨ isSimple b = true) (after : Follows atomEnd rest)
    (bare : standsEnclosed s e b = false → MayPrecede b rest) :
    Reads Cursor.atom (bodyText s e b) rest fun f => under (ofFormula f) e = ⟨true, b, e⟩ := by
  rw [bodyText_eq]
  cases enclosed : standsEnclosed s e b with
  | true =>
      obtain ⟨q, hq, inner⟩ := h.enclosed
      refine (reads_atom_group inner after).imp ?_
      rintro f ⟨formula, span, rfl, rfl⟩
      exact hq
  | false =>
      have simple : isSimple b = true := atomic.resolve_left (by simp [enclosed])
      refine (h.bare simple rest after (bare enclosed)).imp ?_
      intro f hf
      rw [show ofFormula f = b.plain from hf, under_plain]

/-- With its exponent it is read as a power. -/
theorem Legible.power (h : Legible ⟨s, b, e⟩)
    (atomic : standsEnclosed s e b = true ∨ isSimple b = true) (after : Follows factorEnd rest)
    (number : ∀ n, b = .number n → Follows numberEnd rest ∧ NoQuotient rest) :
    Reads Cursor.power (bodyText s e b ++ exponentText e) rest (StandsFor ⟨true, b, e⟩) := by
  by_cases one : e = 1
  · subst one
    rw [exponentText_one, String.append_empty]
    refine (reads_power_bare (h.atom atomic (after.mono rfl) ?_) after).imp ?_
    · intro _
      cases b with
      | number n =>
          obtain ⟨follows, stop⟩ := number n rfl
          exact ⟨ends_of_follows follows (fun _ => rfl) rfl, stop⟩
      | _ => trivial
    · exact fun f hf => hf
  · rw [exponentText_of_ne one]
    have raised := follows_superscript (e := e) after
    refine (reads_power (h.atom atomic (raised.mono rfl) ?_) after).imp ?_
    · intro open₁
      cases b with
      | number n =>
          -- a scientific number is in parentheses here, so the superscript does not go on with it
          have unscientific : n.isScientific = false := by
            simpa [standsEnclosed, one] using open₁
          refine ⟨ends_of_follows raised ?_ rfl, ?_⟩
          · intro scientific
            rw [unscientific] at scientific
            cases scientific
          · exact noQuotient_of_follows raised rfl rfl
      | _ => trivial
    · rintro f ⟨base, span₁, span, rfl, hbase⟩
      rw [under, if_neg one] at hbase
      exact hbase

/-- Unless it would run into a sum, a particle is read as a product without its sign. -/
theorem Legible.product (h : Legible ⟨s, b, e⟩) (apart : mergesIntoSum ⟨s, b, e⟩ = false)
    (after : Follows productEnd rest) :
    Reads Cursor.product (bodyText s e b ++ exponentText e) rest (StandsFor ⟨true, b, e⟩) := by
  have ofAtomic (atomic : standsEnclosed s e b = true ∨ isSimple b = true) :
      Reads Cursor.product (bodyText s e b ++ exponentText e) rest (StandsFor ⟨true, b, e⟩) := by
    refine reads_product_of_power (h.power atomic (after.mono rfl) ?_) after
    intro n _
    exact ⟨after.mono rfl, noQuotient_of_follows after rfl rfl⟩
  cases b with
  | term factors =>
      by_cases one : e = 1
      · subst one
        rw [bodyText_eq, exponentText_one, String.append_empty]
        exact h.row factors rfl rfl rest after
      · exact ofAtomic (.inl (by simp [standsEnclosed, one]))
  | expression terms =>
      refine ofAtomic (.inl ?_)
      simp only [mergesIntoSum] at apart
      cases s <;> simp_all [standsEnclosed]
  | _ => exact ofAtomic (.inr rfl)

theorem mergesIntoSum_negative (b : Body) (e : UInt32) :
    mergesIntoSum ⟨false, b, e⟩ = false := by
  cases b <;> rfl

/-- A minus sign in front of a formula negates what it stands for. -/
theorem standsFor_signed {operand : Formula} (h : StandsFor ⟨true, b, e⟩ operand) (span : Span) :
    StandsFor ⟨false, b, e⟩ (.signed false operand span) := by
  rw [StandsFor] at h
  rw [StandsFor, ofFormula, h]
  rfl

/-- The whole text is read as a sum. -/
theorem Legible.text (h : Legible p) : ReadsSum p.text (StandsFor p) := by
  obtain ⟨s, b, e⟩ := p
  cases s with
  | false =>
      rw [text_negative]
      intro rest after
      have apart := mergesIntoSum_negative b e
      refine (readsSum_of_minus (fun rest after => h.product apart after) rest
        after).imp ?_
      rintro f ⟨operand, span, rfl, hoperand⟩
      exact standsFor_signed hoperand span
  | true =>
      rw [text_positive]
      cases merges : mergesIntoSum ⟨true, b, e⟩ with
      | false => exact readsSum_of_product fun rest after => h.product merges after
      | true =>
          -- only a positive expression is written as its terms alone
          cases b with
          | expression terms =>
              obtain rfl : e = 1 := by simpa [mergesIntoSum] using merges
              obtain ⟨q, hq, inner⟩ := h.enclosed
              obtain rfl : q = ⟨true, .expression terms, 1⟩ := hq
              rw [bodyText_eq, exponentText_one, String.append_empty]
              exact inner
          | _ => cases merges

/-! ## Rows of factors -/

/-- A particle is read in parentheses wherever an atom is. -/
theorem Legible.group (h : Legible p) (after : Follows factorEnd rest) :
    Reads Cursor.power ("(" ++ p.text ++ ")") rest (StandsFor p) := by
  refine (reads_power_bare (reads_atom_group h.text (after.mono rfl)) after).imp ?_
  rintro f ⟨inner, span, rfl, hinner⟩
  exact hinner

/-- A factor that needs no parentheses is positive, and a power if it is a compound. -/
theorem atomic_of_needsParens {afterNumber : Bool}
    (h : needsParens ⟨s, b, e⟩ afterNumber = false) :
    s = true ∧ (standsEnclosed s e b = true ∨ isSimple b = true) ∧
      (∀ n, b = .number n → afterNumber = false) := by
  simp only [needsParens, Bool.or_eq_false_iff, Bool.not_eq_false'] at h
  obtain ⟨positive, h⟩ := h
  refine ⟨positive, ?_, ?_⟩
  · cases b <;> simp_all [standsEnclosed, isSimple]
  · rintro n rfl
    exact h

/-- The text of a factor is read as a power. -/
theorem Legible.factor (h : Legible p) {afterNumber : Bool} (after : Follows factorEnd rest)
    (number : p.isNumber = true → Follows numberEnd rest ∧ NoQuotient rest) :
    Reads Cursor.power (wrapText (p.needsParens afterNumber) p.text) rest (StandsFor p) := by
  cases parens : p.needsParens afterNumber with
  | true => exact h.group after
  | false =>
      obtain ⟨s, b, e⟩ := p
      obtain ⟨rfl, atomic, -⟩ := atomic_of_needsParens parens
      rw [wrapText_false, text_positive]
      refine h.power atomic after ?_
      rintro n rfl
      exact number rfl

theorem follows_paren {kinds : List TokenKind} (t : String)
    (h : kinds.contains .openParen = true) :
    Follows kinds (("(" ++ t ++ ")").toList ++ rest) := by
  rw [toList_paren]
  exact follows_of_first? (show first? _ = some ⟨.openParen, ['('], _⟩ from rfl) h

theorem follows_exponentText (after : Follows factorEnd rest) :
    Follows atomEnd ((exponentText e).toList ++ rest) := by
  by_cases one : e = 1
  · rw [one, exponentText_one, String.toList_empty, List.nil_append]
    exact after.mono rfl
  · rw [exponentText_of_ne one]
    exact (follows_superscript after).mono rfl

/-- What a simple body without parentheses starts with, if it is no number. -/
theorem follows_bare (canonical : IsCanonicalNode ⟨true, b, e⟩) (h : isSimple b = true)
    (parens : needsParens ⟨true, b, e⟩ true = false) (open₁ : standsEnclosed true e b = false)
    (rest : List Char) :
    Follows [.name, .radical] ((bodyText true e b).toList ++ rest) := by
  cases b with
  | symbol name =>
      rw [bodyText, String.toList_singleton]
      exact follows_of_first? (first?_letter canonical) rfl
  | root index radicand =>
      simp only [bodyText, String.toList_append, List.append_assoc]
      exact follows_of_first? (show first? _ = some ⟨.radical, ['√'], _⟩ from rfl) rfl
  | number n => simp [needsParens] at parens
  | fraction top bottom | mixed n top bottom => simp_all [needsParens, standsEnclosed]
  | term factors | expression terms => cases h

/-- A factor after a number does not go on with the number, nor is it a quotient. -/
theorem Legible.afterNumber (h : Legible p) (canonical : p.IsCanonical)
    (after : Follows factorEnd rest) :
    Follows numberEnd ((wrapText (p.needsParens true) p.text).toList ++ rest) ∧
      NoQuotient ((wrapText (p.needsParens true) p.text).toList ++ rest) := by
  cases parens : p.needsParens true with
  | true =>
      exact ⟨follows_paren _ rfl, noQuotient_of_group h.text (after.mono rfl)⟩
  | false =>
      obtain ⟨s, b, e⟩ := p
      obtain ⟨rfl, atomic, -⟩ := atomic_of_needsParens parens
      rw [wrapText_false, text_positive]
      cases enclosed : standsEnclosed true e b with
      | true =>
          obtain ⟨q, -, inner⟩ := h.enclosed
          rw [bodyText_eq, enclosed, wrapText_true, String.toList_append, List.append_assoc]
          exact ⟨follows_paren _ rfl,
            noQuotient_of_group inner (follows_exponentText after)⟩
      | false =>
          have simple : isSimple b = true := atomic.resolve_left (by simp [enclosed])
          rw [String.toList_append, List.append_assoc]
          have follows := follows_bare canonical.here simple parens enclosed
            ((exponentText e).toList ++ rest)
          exact ⟨follows.mono rfl, noQuotient_of_follows follows rfl rfl⟩

/-- Any factor starts with a token that may follow another factor. -/
theorem Legible.follows (h : Legible p) (canonical : p.IsCanonical) {afterNumber : Bool}
    (after : Follows factorEnd rest) :
    Follows factorEnd ((wrapText (p.needsParens afterNumber) p.text).toList ++ rest) := by
  -- only a number is written differently after a number
  by_cases number : needsParens p afterNumber = needsParens p true
  · rw [number]
    exact (h.afterNumber canonical after).1.mono rfl
  · obtain ⟨s, b, e⟩ := p
    cases b with
    | number n =>
        have node : n.IsCanonical := canonical.here
        cases s with
        | false => exact absurd rfl number
        | true =>
            cases afterNumber with
            | true => exact absurd rfl number
            | false =>
                rw [show needsParens ⟨true, .number n, e⟩ false = false from rfl, wrapText_false,
                  text_positive, bodyText_eq, String.toList_append, List.append_assoc]
                cases standsEnclosed true e (.number n) with
                | true => exact follows_paren _ rfl
                | false => exact (follows_numeral node).mono rfl
    | _ => exact absurd rfl number

variable {ps : List Particle}

/-- What a row of factors starts with, or what follows it. -/
theorem follows_factorsText (legible : ∀ p ∈ ps, Legible p) (canonical : ∀ p ∈ ps, p.IsCanonical)
    (after : Follows productEnd rest) (afterNumber : Bool) :
    Follows factorEnd ((factorsText false afterNumber ps).toList ++ rest) := by
  induction ps generalizing afterNumber with
  | nil => exact after.mono rfl
  | cons p ps ih =>
      obtain ⟨hp, legible⟩ := List.forall_mem_cons.mp legible
      obtain ⟨node, canonical⟩ := List.forall_mem_cons.mp canonical
      rw [factorsText, String.toList_append, List.append_assoc]
      exact hp.follows node (ih legible canonical p.isNumber)

theorem afterNumber_factorsText (legible : ∀ p ∈ ps, Legible p)
    (canonical : ∀ p ∈ ps, p.IsCanonical) (after : Follows productEnd rest) :
    Follows numberEnd ((factorsText false true ps).toList ++ rest) ∧
      NoQuotient ((factorsText false true ps).toList ++ rest) := by
  cases ps with
  | nil => exact ⟨after.mono rfl, noQuotient_of_follows after rfl rfl⟩
  | cons p ps =>
      obtain ⟨hp, legible⟩ := List.forall_mem_cons.mp legible
      obtain ⟨node, canonical⟩ := List.forall_mem_cons.mp canonical
      rw [factorsText, String.toList_append, List.append_assoc]
      exact hp.afterNumber node (follows_factorsText legible canonical after p.isNumber)

/-- A row of legible factors is read as that row. -/
theorem reads_factorsText (legible : ∀ p ∈ ps, Legible p) (canonical : ∀ p ∈ ps, p.IsCanonical)
    (nonempty : ps ≠ []) (after : Follows productEnd rest) (afterNumber : Bool) :
    Reads factors (factorsText false afterNumber ps) rest fun fs => ofRow fs = ps := by
  induction ps generalizing afterNumber with
  | nil => exact absurd rfl nonempty
  | cons p ps ih =>
      obtain ⟨hp, legible⟩ := List.forall_mem_cons.mp legible
      obtain ⟨-, canonical⟩ := List.forall_mem_cons.mp canonical
      have factor : Reads Cursor.power (wrapText (p.needsParens afterNumber) p.text)
          ((factorsText false p.isNumber ps).toList ++ rest) (StandsFor p) := by
        refine hp.factor (follows_factorsText legible canonical after _) ?_
        intro number
        rw [number]
        exact afterNumber_factorsText legible canonical after
      rw [factorsText]
      cases ps with
      | nil =>
          rw [factorsText, String.append_empty]
          refine (reads_factors_one factor after).imp ?_
          rintro fs ⟨f, rfl, rfl⟩
          rfl
      | cons q qs =>
          have more := ih legible canonical (List.cons_ne_nil _ _) p.isNumber
          refine (reads_factors_cons factor more).imp ?_
          rintro fs ⟨f, others, rfl, rfl, hothers⟩
          rw [ofRow, hothers]

/-! ## Rows of terms -/

/-- The text of a term in a row. -/
def termText (isFirst : Bool) (p : Particle) : String :=
  (if !isFirst && p.positive then "+" else "") ++ wrapText p.mergesIntoSum p.text

theorem termText_negative (isFirst : Bool) (b : Body) (e : UInt32) :
    termText isFirst ⟨false, b, e⟩ = "-" ++ (bodyText false e b ++ exponentText e) := by
  rw [← text_negative]
  simp [termText, mergesIntoSum_negative]

theorem termText_positive (b : Body) (e : UInt32) :
    termText false ⟨true, b, e⟩ =
      "+" ++ wrapText (mergesIntoSum ⟨true, b, e⟩) (Particle.text ⟨true, b, e⟩) :=
  rfl

theorem Legible.term (h : Legible p) (after : Follows productEnd rest) (isFirst : Bool) :
    Reads (·.signedProduct isFirst) (termText isFirst p) rest (StandsFor p) := by
  obtain ⟨s, b, e⟩ := p
  cases s with
  | false =>
      rw [termText_negative]
      refine (reads_minus (h.product (mergesIntoSum_negative b e) after)).imp ?_
      rintro f ⟨operand, span, rfl, hoperand⟩
      exact standsFor_signed hoperand span
  | true =>
      have product : Reads Cursor.product (wrapText (mergesIntoSum ⟨true, b, e⟩)
          (Particle.text ⟨true, b, e⟩)) rest (StandsFor ⟨true, b, e⟩) := by
        cases merges : mergesIntoSum ⟨true, b, e⟩ with
        | true => exact reads_product_of_power (h.group (after.mono rfl)) after
        | false =>
            rw [wrapText_false, text_positive]
            exact h.product merges after
      cases isFirst with
      | true => exact reads_unsigned product
      | false => exact reads_plus product

theorem termsText_cons (isFirst : Bool) (p : Particle) (ps : List Particle) :
    termsText isFirst (p :: ps) = termText isFirst p ++ termsText false ps := by
  rw [termsText, termText]

/-- A term after another starts with a sign. -/
theorem exists_sign_termText (p : Particle) :
    ∃ sign cs, (termText false p).toList = sign :: cs ∧ (sign = '+' ∨ sign = '-') := by
  obtain ⟨s, b, e⟩ := p
  cases s with
  | true => exact ⟨'+', _, by rw [termText_positive, String.toList_append]; rfl, .inl rfl⟩
  | false => exact ⟨'-', _, by rw [termText_negative, String.toList_append]; rfl, .inr rfl⟩

theorem first?_termsText (p : Particle) (ps : List Particle) (rest : List Char) :
    ∃ kind lexeme after, first? ((termsText false (p :: ps)).toList ++ rest) =
      some ⟨kind, lexeme, after⟩ ∧ kind ∈ [TokenKind.plus, .minus] := by
  obtain ⟨sign, cs, hsign, rfl | rfl⟩ := exists_sign_termText p
  · rw [termsText_cons, String.toList_append, hsign]
    exact ⟨.plus, _, _, rfl, by decide⟩
  · rw [termsText_cons, String.toList_append, hsign]
    exact ⟨.minus, _, _, rfl, by decide⟩

theorem follows_termsText (ps : List Particle) (after : Follows sumEnd rest) :
    Follows productEnd ((termsText false ps).toList ++ rest) := by
  cases ps with
  | nil => exact after.mono rfl
  | cons p ps =>
      obtain ⟨kind, lexeme, later, first, hkind⟩ := first?_termsText p ps rest
      have sub : ∀ kind ∈ [TokenKind.plus, .minus], productEnd.contains kind = true := by decide
      exact follows_of_first? first (sub kind hkind)

theorem sign_termsText {c : Cursor} {p : Particle}
    (faces : c.Faces ((termsText false (p :: ps)).toList ++ rest)) : c.sign.isSome = true := by
  obtain ⟨kind, lexeme, later, first, hkind⟩ := first?_termsText p ps rest
  have signed : ∀ kind ∈ [TokenKind.plus, .minus],
      (kind != .blank) = true ∧ (sign? kind).isSome = true := by decide
  rw [Cursor.sign, peek_of_faces faces first (signed kind hkind).1, Option.bind_some]
  exact (signed kind hkind).2

/-- A row of legible terms is read as that row. -/
theorem reads_termsText (legible : ∀ p ∈ ps, Legible p) (nonempty : ps ≠ [])
    (after : Follows sumEnd rest) (isFirst : Bool) :
    Reads (·.terms isFirst) (termsText isFirst ps) rest fun fs => ofRow fs = ps := by
  induction ps generalizing isFirst with
  | nil => exact absurd rfl nonempty
  | cons p ps ih =>
      obtain ⟨hp, legible⟩ := List.forall_mem_cons.mp legible
      have term := hp.term (follows_termsText ps after) isFirst
      rw [termsText_cons]
      cases ps with
      | nil =>
          rw [termsText, String.append_empty]
          refine (reads_terms_one term after).imp ?_
          rintro fs ⟨f, rfl, rfl⟩
          rfl
      | cons q qs =>
          have more := ih legible (List.cons_ne_nil _ _) false
          refine (reads_terms_cons term more fun c faces => sign_termsText faces).imp ?_
          rintro fs ⟨f, others, rfl, rfl, hothers⟩
          rw [ofRow, hothers]

/-! ## Canonical particles -/

/-- A simple body that is read as an atom is legible under every sign and exponent. -/
theorem legible_of_bare (simple : isSimple b = true)
    (bare : ∀ rest, Follows atomEnd rest → MayPrecede b rest →
      Reads Cursor.atom (enclosedText e b) rest (StandsFor b.plain)) : Legible ⟨s, b, e⟩ where
  enclosed := by
    refine ⟨b.plain, under_plain b e, readsSum_of_product fun rest after => ?_⟩
    refine reads_product_of_power (reads_power_bare ?_ (after.mono rfl)) after
    refine bare rest (after.mono rfl) ?_
    cases b with
    | number n =>
        exact ⟨ends_of_follows after (fun _ => rfl) rfl,
          noQuotient_of_follows after rfl rfl⟩
    | _ => trivial
  bare := fun _ => bare
  row := by
    rintro factors rfl
    cases simple

/-- A plain number is read as a literal, or as one under a minus sign. -/
theorem readsSum_number {n : Numeral} (canonical : n.IsCanonical) (s : Bool) :
    ReadsSum (Particle.text ⟨s, .number n, 1⟩) fun f =>
      StandsFor ⟨s, .number n, 1⟩ f ∧ f.isSignedLiteral = true := by
  have unsigned : bodyText s 1 (.number n) ++ exponentText 1 = n.text := by
    simp [bodyText, wrapText, exponentText_one]
  have product : ∀ rest, Follows productEnd rest →
      Reads Cursor.product n.text rest fun f => ∃ span, f = .literal n span := by
    intro rest after
    refine reads_product_of_power (reads_power_bare ?_ (after.mono rfl)) after
    exact reads_atom_literal canonical (ends_of_follows after (fun _ => rfl) rfl)
      fun _ => noQuotient_of_follows after rfl rfl
  rw [text_eq, unsigned]
  intro rest after
  cases s with
  | true =>
      rw [signText, if_pos rfl, String.empty_append]
      refine (readsSum_of_product product rest after).imp ?_
      rintro f ⟨span, rfl⟩
      exact ⟨rfl, rfl⟩
  | false =>
      refine (readsSum_of_minus product rest after).imp ?_
      rintro f ⟨operand, span, rfl, span', rfl⟩
      exact ⟨rfl, rfl⟩

theorem standsFor_ofFactors {fs : List Formula} (h : ofRow fs = ps) (several : 2 ≤ ps.length) :
    StandsFor (Body.term ps).plain (Formula.ofFactors fs) := by
  subst h
  match fs, several with
  | f :: g :: fs, _ => rfl

theorem standsFor_ofTerms {fs : List Formula} (h : ofRow fs = ps) (several : 2 ≤ ps.length) :
    StandsFor (Body.expression ps).plain (Formula.ofTerms fs) := by
  subst h
  match fs, several with
  | f :: g :: fs, _ => rfl

theorem legible_term (canonical : IsCanonicalNode ⟨s, .term ps, e⟩)
    (parts : ∀ p ∈ ps, IsCanonical p) (legible : ∀ p ∈ ps, Legible p) :
    Legible ⟨s, .term ps, e⟩ := by
  rcases canonical with several | ⟨raised, f, rfl, compound⟩
  · have text : enclosedText e (.term ps) = factorsText false false ps := by
      have : isLoneFactor ps e = false := by
        rw [isLoneFactor, Bool.and_eq_false_iff, beq_eq_false_iff_ne]
        exact .inr (by omega)
      rw [enclosedText, this]
    have nonempty : ps ≠ [] := by
      rintro rfl
      cases several
    have product : ∀ rest, Follows productEnd rest →
        Reads Cursor.product (enclosedText e (.term ps)) rest
          (StandsFor (Body.term ps).plain) := by
      intro rest after
      rw [text]
      refine (reads_product (reads_factorsText legible parts nonempty after false)).imp ?_
      rintro f ⟨fs, rfl, hrow⟩
      exact standsFor_ofFactors hrow several
    have apart : isSimple (.term ps) ≠ true := Bool.false_ne_true
    exact ⟨⟨_, under_plain _ _, readsSum_of_product product⟩, fun simple => absurd simple apart,
      fun _ _ _ => product⟩
  · -- the only factor has no parentheses of its own, and takes up the exponent as it is
    replace raised : e ≠ 1 := raised
    have lone : isLoneFactor [f] e = true := by
      simp [isLoneFactor, raised]
    have text : enclosedText e (.term [f]) = f.text := by
      simp [enclosedText, lone, factorsText]
    have kept : under f e = ⟨true, .term [f], e⟩ := by
      rw [under, if_neg raised, raise, if_neg]
      rintro ⟨positive, one⟩
      rcases compound with negative | power
      · rw [positive] at negative
        cases negative
      · exact power one
    have apart : isSimple (.term [f]) ≠ true := Bool.false_ne_true
    refine ⟨⟨f, kept, ?_⟩, fun simple => absurd simple apart, fun _ _ one => absurd one raised⟩
    rw [text]
    exact (legible f List.mem_cons_self).text

theorem legible_expression (several : 2 ≤ ps.length) (legible : ∀ p ∈ ps, Legible p) :
    Legible ⟨s, .expression ps, e⟩ := by
  have nonempty : ps ≠ [] := by
    rintro rfl
    cases several
  have apart : isSimple (.expression ps) ≠ true := Bool.false_ne_true
  have other : ∀ factors, Body.expression ps ≠ .term factors := fun _ => Body.noConfusion
  refine ⟨⟨_, under_plain _ _, ?_⟩, fun simple => absurd simple apart,
    fun factors hbody => absurd hbody (other factors)⟩
  have text : enclosedText e (.expression ps) = termsText true ps := by
    simp [enclosedText, bodyText]
  intro rest after
  rw [text]
  refine (reads_sum (reads_termsText legible nonempty after true)).imp ?_
  rintro f ⟨fs, rfl, hrow⟩
  exact standsFor_ofTerms hrow several

theorem legible_number {n : Numeral} (canonical : n.IsCanonical) :
    Legible ⟨s, .number n, e⟩ := by
  refine legible_of_bare rfl fun rest _ ends => ?_
  have text : enclosedText e (.number n) = n.text := by
    simp [enclosedText, bodyText]
  rw [text]
  refine (reads_atom_literal canonical ends.1 fun _ => ends.2).imp ?_
  rintro f ⟨span, rfl⟩
  rfl

theorem legible_symbol {name : Char} (letter : name.isAlpha = true) :
    Legible ⟨s, .symbol name, e⟩ := by
  refine legible_of_bare rfl fun rest _ _ => (reads_atom_symbol letter).imp ?_
  rintro f ⟨span, rfl⟩
  rfl

theorem legible_fraction {top bottom : Particle} (htop : Legible top) (hbottom : Legible bottom) :
    Legible ⟨s, .fraction top bottom, e⟩ := by
  refine legible_of_bare rfl fun rest _ _ => ?_
  have text : enclosedText e (.fraction top bottom) =
      "(" ++ Particle.text top ++ ")/(" ++ Particle.text bottom ++ ")" := by
    simp [enclosedText, bodyText]
  rw [text]
  refine (reads_atom_fraction htop.text hbottom.text).imp ?_
  rintro f ⟨f, g, span, rfl, rfl, rfl⟩
  rfl

/-- A mixed number is read as one since both parts of its fraction are literals. -/
theorem legible_mixed {n t u : Numeral} (hn : n.IsCanonical) (whole : n.isWhole = true)
    (ht : t.IsCanonical) (hu : u.IsCanonical) (s₁ s₂ : Bool) :
    Legible ⟨s, .mixed n ⟨s₁, .number t, 1⟩ ⟨s₂, .number u, 1⟩, e⟩ := by
  refine legible_of_bare rfl fun rest _ _ => ?_
  have text : enclosedText e (.mixed n ⟨s₁, .number t, 1⟩ ⟨s₂, .number u, 1⟩) =
      n.text ++ "(" ++ Particle.text ⟨s₁, .number t, 1⟩ ++ ")/(" ++
        Particle.text ⟨s₂, .number u, 1⟩ ++ ")" := by
    simp [enclosedText, bodyText]
  rw [text]
  refine (reads_atom_mixed hn whole (readsSum_number ht s₁) (readsSum_number hu s₂)).imp ?_
  rintro f ⟨span₁, f, g, span₂, span, rfl, hf, hg⟩
  rw [StandsFor] at hf hg
  rw [StandsFor, ofFormula, hf, hg]

theorem legible_root {index : UInt32} {radicand : Particle} (h : 2 ≤ index)
    (hradicand : Legible radicand) : Legible ⟨s, .root index radicand, e⟩ := by
  refine legible_of_bare rfl fun rest after _ => ?_
  have text : enclosedText e (.root index radicand) =
      "√" ++ indexText index ++ "(" ++ Particle.text radicand ++ ")" := by
    simp [enclosedText, bodyText]
  rw [text]
  refine (reads_atom_root h hradicand.text after).imp ?_
  rintro f ⟨i, f, span₁, span, rfl, rfl, rfl⟩
  rfl

/-- Canonical particles are legible. -/
theorem legible_of_isCanonical (canonical : p.IsCanonical) : Legible p := by
  -- by induction over the tree: the texts of the parts are read back wherever they stand
  induction p using Particle.induct with
  | node p ih =>
      have parts : ∀ q ∈ p.body.parts, IsCanonical q := fun q hq => canonical.part hq
      have legible : ∀ q ∈ p.body.parts, Legible q := fun q hq => ih q hq (parts q hq)
      have node := canonical.here
      obtain ⟨s, b, e⟩ := p
      cases b with
      | number n => exact legible_number node
      | symbol name => exact legible_symbol node
      | fraction top bottom =>
          have htop := legible top List.mem_cons_self
          have hbottom := legible bottom (List.mem_cons_of_mem _ List.mem_cons_self)
          exact legible_fraction htop hbottom
      | mixed n top bottom =>
          obtain ⟨hn, whole, htop, hbottom⟩ := node
          obtain ⟨⟨s₁, t⟩, htop⟩ := Option.isSome_iff_exists.mp htop
          obtain ⟨⟨s₂, u⟩, hbottom⟩ := Option.isSome_iff_exists.mp hbottom
          obtain rfl := plainNumber?_eq_some htop
          obtain rfl := plainNumber?_eq_some hbottom
          have ht : t.IsCanonical := (parts _ List.mem_cons_self).here
          have hu : u.IsCanonical :=
            (parts _ (List.mem_cons_of_mem _ List.mem_cons_self)).here
          exact legible_mixed hn whole ht hu s₁ s₂
      | term factors => exact legible_term node parts legible
      | expression terms => exact legible_expression node legible
      | root index radicand => exact legible_root node (legible radicand List.mem_cons_self)

end Particle

namespace Value

open Particle

/-- Both sides of a canonical value are legible, so the whole text is read back. -/
theorem IsCanonical.reads_back {v : Value} (canonical : v.IsCanonical) : read v.text = .ok v := by
  cases v with
  | particle p =>
      obtain ⟨f, hread, hf⟩ := Cursor.read_of_readsSum (legible_of_isCanonical canonical).text
      rw [StandsFor] at hf
      rw [read, text, hread, Except.map, ofStatement, hf]
  | equation left right =>
      obtain ⟨f, g, span, hread, hf, hg⟩ := Cursor.read_of_readsSum_equals
        (legible_of_isCanonical canonical.1).text (legible_of_isCanonical canonical.2).text
      rw [StandsFor] at hf hg
      rw [read, text, hread, Except.map, ofStatement, hf, hg]

/-- The text of a canonical value reads as that value. -/
theorem read_text (v : Value) (canonical : v.IsCanonical) : read v.text = .ok v :=
  canonical.reads_back

/-- A square of a negative factor beside a mixed number, and a cube root. -/
theorem read_text_of_radical_equation :
    let x := (Body.symbol 'x').plain
    let number := fun n => (Body.number (.ofNat n)).plain
    let square : Particle := ⟨true, .term [x.negate], 2⟩
    let mixed := (Body.mixed (.ofNat 2) (number 1) (number 4)).plain
    let v := Value.equation (Body.expression [square, mixed]).plain (Body.root 3 (number 8)).plain
    v.text = "(-x)²+2(1)/(4)=√[3](8)" ∧ read v.text = .ok v := by
  intro x number square mixed v
  have digits := Numeral.isCanonical_ofNat
  have whole : ∀ n, (Numeral.ofNat n).isWhole = true := fun _ => rfl
  refine ⟨by decide +kernel, read_text v ⟨?_, ?_⟩⟩
  · simp [Particle.IsCanonical, Everywhere, EverywhereInBody, EverywhereInRow, IsCanonicalNode,
      Body.plain, Powered.negate, x, number, square, mixed, plainNumber?, digits, whole]
  · simp [Particle.IsCanonical, Everywhere, EverywhereInBody, IsCanonicalNode, Body.plain, number,
      digits]

end Value

end StepAlgebra
