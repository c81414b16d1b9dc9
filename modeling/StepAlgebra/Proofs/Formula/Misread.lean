import StepAlgebra.Proofs.Formula.Sum
import StepAlgebra.Proofs.Token.LongestMatch

/-!
# What is not read from a text

The productions of the reader once more, for texts from which a value of some kind is not read: the
reading fails, or gives another value, or ends at another place than asked for.

* `Cursor.Demands`, `Cursor.Misreads` — what a reading asks for;
* `Lexer.first?_of_power?` — a number goes on with a power of ten;
* `Cursor.misreads_atom_of_inner`, `Cursor.misreads_factors_cons`, … — one lemma for each place
  where a production can go wrong.
-/

namespace StepAlgebra

open Lexer

/-! ## Numbers that go on -/

namespace Lexer

variable {n : Numeral} {power left rest cs : List Char}

theorem isRow_ofNat (n : Nat) : IsRow Superscript.isDigit (Superscript.ofNat n).toList := by
  obtain ⟨d, ds, -, htext⟩ := Superscript.exists_cons_ofNat n
  rw [htext]
  exact ⟨List.cons_ne_nil _ _, isDigit_of_mem (d :: ds)⟩

theorem next_of_power? (h : power? cs = some (power, left)) :
    Next (fun c => Digit.isWrittenBy c = false ∧ c ≠ '.') cs := by
  unfold power? at h
  split at h
  · exact next_cons.mpr (by decide)
  · exact next_cons.mpr (by decide)
  · cases h

/-- A power of ten behind the places of a number is a part of it. -/
theorem first?_of_power? (canonical : n.IsCanonical)
    (h : power? (n.powerChars ++ rest) = some (power, left)) :
    ∃ lexeme, first? (n.text.toList ++ rest) = some ⟨.scientific, lexeme, left⟩ := by
  have next := next_of_power? h
  rw [first?_number canonical next, number, places?_numeral canonical next]
  simp only [h]
  exact ⟨_, rfl⟩

/-- So are superscript digits behind a number in scientific notation. -/
theorem first?_superscript (canonical : n.IsCanonical) (scientific : n.isScientific = true)
    {row : List Char} (hrow : ∀ c ∈ row, Superscript.isDigit c = true)
    (after : Next (Superscript.isDigit · = false) rest) :
    ∃ lexeme, first? (n.text.toList ++ (row ++ rest)) = some ⟨.scientific, lexeme, rest⟩ := by
  have ends : n.Ends [] := by
    rw [Numeral.Ends, if_pos scientific]
    exact next_nil
  obtain ⟨exponent, hexponent⟩ := Option.isSome_iff_exists.mp scientific
  have alone := power?_numeral ends
  rw [hexponent, Option.map_some] at alone
  obtain ⟨sign, digits, split, hsign, hdigits⟩ := power?_eq_some alone
  have taken := power?_raised hsign hdigits (row ++ rest)
  rw [dropWhile_append_of_next hrow after, ← List.append_assoc sign, ← List.cons_append,
    ← List.cons_append, ← List.cons_append, ← split] at taken
  exact first?_of_power? canonical taken

end Lexer

namespace Cursor

open Outcome

variable {α : Type} {s t : String} {n : Numeral} {cs rest left lexeme : List Char} {c : Cursor}
  {good : Formula → Prop} {goods : List Formula → Prop} {place : Cursor → Prop} {isFirst : Bool}
  {read : (c : Cursor) → Outcome c α}

/-! ## What a reading asks for -/

/-- In front of a text, a good value is read only if the reading ends at such a place. -/
def Demands (read : (c : Cursor) → Outcome c α) (cs : List Char) (good : α → Prop)
    (place : Cursor → Prop) : Prop :=
  ∀ c : Cursor, c.Faces cs → (read c).Allows fun value d => good value → place d

/-- In front of a text, no good value is read. -/
def Misreads (read : (c : Cursor) → Outcome c α) (cs : List Char) (good : α → Prop) : Prop :=
  Demands read cs good fun _ => False

theorem Demands.imp {good good' : α → Prop} {place' : Cursor → Prop}
    (h : Demands read cs good place) (narrow : ∀ value, good' value → good value)
    (weaken : ∀ d, place d → place' d) : Demands read cs good' place' :=
  fun c faces => (h c faces).imp fun value d here good => weaken d (here (narrow value good))

theorem Misreads.imp {good good' : α → Prop} (h : Misreads read cs good)
    (narrow : ∀ value, good' value → good value) : Misreads read cs good' :=
  Demands.imp h narrow fun _ => id

theorem Misreads.demands {good : α → Prop} (h : Misreads read cs good) :
    Demands read cs good place :=
  Demands.imp h (fun _ => id) fun _ => False.elim

theorem Reads.demands {good : α → Prop} (h : Reads read s rest good) :
    Demands read (s.toList ++ rest) good (·.Faces rest) :=
  fun c faces => (h c faces).allows.imp fun _ _ here _ => here.2

/-- Where something else is read, nothing good is. -/
theorem Reads.misreads {good good' : α → Prop} (h : Reads read s rest good')
    (apart : ∀ value, good' value → ¬ good value) : Misreads read (s.toList ++ rest) good :=
  fun c faces => (h c faces).allows.imp fun value _ here => apart value here.1

/-! ## Groups and fractions -/

/-- A formula that starts with a group of another one. -/
def StartsWithGroup (good : Formula → Prop) (f : Formula) : Prop :=
  ∃ inner, good inner ∧ ((∃ span, f = .group inner span) ∨ ∃ bottom span,
    f = .fraction inner bottom span)

theorem misreads_group (inner : Misreads sum cs good) :
    Misreads group ('(' :: cs) fun g => good g.inner := by
  intro c faces
  have opening : first? ('(' :: cs) = some ⟨.openParen, ['('], cs⟩ := rfl
  rw [group]
  refine (expect_gives faces opening rfl).orBack.allows.andThen ?_
  intro token c₁ _ read
  refine (inner c₁ read.2).orBack.andThen ?_
  intro formula c₂ _ other
  exact Allows.orBlame (Allows.map ((allows_true _).imp fun _ _ _ => other)) _

/-- Whether or not a second group follows, the first one is not read. -/
theorem misreads_atom_of_inner (inner : Misreads sum cs good) :
    Misreads atom ('(' :: cs) (StartsWithGroup good) := by
  intro c faces
  have first := misreads_group inner c faces
  rw [atom, peek_of_paren faces]
  simp only [groupOrFraction]
  split
  · exact trivial
  · next top c₁ shorter hgroup =>
    have other := first.of_eq_ok hgroup
    split
    · rintro ⟨inner, here, ⟨span, same⟩ | ⟨bottom, span, same⟩⟩
      · cases same
      · obtain ⟨rfl, -, -⟩ := Formula.fraction.inj same
        exact other here
    · rintro ⟨inner, here, ⟨span, same⟩ | ⟨bottom, span, same⟩⟩
      · obtain ⟨rfl, -⟩ := Formula.group.inj same
        exact other here
      · cases same

/-- Behind a group and a division sign no second group is read, or another one. -/
theorem misreads_atom_of_bottom {good' : Formula → Prop} (top : ReadsSum s good')
    (bottom : Misreads sum cs good) :
    Misreads atom (("(" ++ s ++ ")").toList ++ '/' :: '(' :: cs) fun f =>
      ∃ top bottom span, f = .fraction top bottom span ∧ good bottom := by
  intro c faces
  obtain ⟨first, c₁, shorter₁, hfirst, -, faces₁⟩ :=
    (reads_group (top _ follows_closeParen) c faces).eq_ok
  have divide : first? ('/' :: '(' :: cs) = some ⟨.divide, ['/'], '(' :: cs⟩ := rfl
  have second : ((c₁.expect .divide).andThen fun _ c₂ _ => c₂.group).Allows fun g _ =>
      ¬ good g.inner :=
    (expect_gives faces₁ divide rfl).allows.andThen fun _ c₂ _ passed =>
      misreads_group bottom c₂ passed.2
  rw [toList_group] at faces
  rw [atom, peek_of_paren faces]
  simp only [groupOrFraction, hfirst]
  split
  · next last c₂ shorter₂ hlast =>
    rintro ⟨top, bottom, span, same, here⟩
    obtain ⟨-, rfl, -⟩ := Formula.fraction.inj same
    exact second.of_eq_ok hlast here
  · rintro ⟨top, bottom, span, same, -⟩
    cases same

/-! ## Radicals -/

/-- What an atom under a radical asks for, the radical does. -/
theorem demands_atom_radical {index : Option UInt32} (h : ∀ i ∈ index, 2 ≤ i)
    (radicand : Demands atom cs good place) :
    Demands atom ('√' :: ((Formula.indexText index).toList ++ cs))
      (fun f => ∃ r span, f = .root index r span ∧ good r) place := by
  intro c faces
  have radical : first? ('√' :: ((Formula.indexText index).toList ++ cs)) =
      some ⟨.radical, ['√'], (Formula.indexText index).toList ++ cs⟩ := rfl
  have read : c.root.Allows fun f d => (∃ r span, f = .root index r span ∧ good r) → place d := by
    rw [root]
    refine (expect_gives faces radical rfl).orBack.allows.andThen ?_
    intro sign c₁ _ passed
    obtain ⟨-, faces₁⟩ := passed
    cases index with
    | none =>
        split
        · -- a radical with an index is another one
          refine (allows_true _).andThen ?_
          intro n c₂ _ _
          refine Allows.map ((allows_true _).imp ?_)
          rintro r d - ⟨r', span, same, -⟩
          cases same
        · refine Allows.map ((radicand c₁ faces₁).imp ?_)
          rintro r d here ⟨r', span, same, good⟩
          obtain ⟨-, rfl, -⟩ := Formula.root.inj same
          exact here good
    | some i =>
        rw [if_pos (peek_of_index faces₁)]
        refine (reads_index (h i rfl) c₁ faces₁).allows.andThen ?_
        intro n c₂ _ passed
        refine Allows.map ((radicand c₂ passed.2).imp ?_)
        rintro r d here ⟨r', span, same, good⟩
        obtain ⟨-, rfl, -⟩ := Formula.root.inj same
        exact here good
  rw [atom, peek_of_faces faces radical rfl]
  exact read.orBlame _

/-! ## Numbers -/

/-- A number that ends is read as a literal, or as a part of a mixed number. -/
theorem demands_atom_literal (canonical : n.IsCanonical) (ends : n.Ends rest) :
    Demands atom (n.text.toList ++ rest) (fun f => ∃ span, f = .literal n span)
      (·.Faces rest) := by
  intro c faces
  have first := first?_numeral canonical ends
  have read := (reads_literal canonical ends).demands c faces
  have mixed : c.mixed.Allows fun f d => (∃ span, f = .literal n span) → d.Faces rest := by
    rw [mixed]
    refine (allows_true _).andThen ?_
    intro token c₁ _ _
    split
    · exact trivial
    · split
      · rintro ⟨span, same⟩
        cases same
      · exact trivial
  rw [atom]
  rcases n.kind_cases with hkind | hkind | hkind
  · rw [hkind] at first
    rw [peek_of_faces faces first rfl]
    exact mixed.orElse read
  · rw [hkind] at first
    rw [peek_of_faces faces first rfl]
    exact read
  · rw [hkind] at first
    rw [peek_of_faces faces first rfl]
    exact read.orBlame _

/-- What is cut off in scientific notation is read as such a number. -/
theorem allows_atom_scientific (faces : c.Faces cs)
    (first : first? cs = some ⟨.scientific, lexeme, left⟩) :
    c.atom.Allows fun f d => (∃ m span, f = .literal m span ∧ m.isScientific = true) ∧
      d.Faces left := by
  obtain ⟨token, d, shorter, hadvance, hkind, hlexeme, hfaces⟩ :=
    (advance_gives faces first rfl).eq_ok
  have read : c.literal.Allows fun f d =>
      (∃ m span, f = .literal m span ∧ m.isScientific = true) ∧ d.Faces left := by
    simp only [literal, hadvance, hkind]
    split
    · next numeral hnumeral =>
      obtain ⟨power, -, rfl⟩ := Option.map_eq_some_iff.mp hnumeral
      exact ⟨⟨_, token.span, rfl, rfl⟩, hfaces⟩
    · exact trivial
  rw [atom, peek_of_faces faces first rfl]
  exact read.orBlame _

/-! ## Rows of factors and of terms -/

theorem misreads_factors (h : Misreads power cs good) :
    Misreads factors cs fun fs => ∃ f others, fs = f :: others ∧ good f := by
  intro c faces
  have first := h c faces
  rw [factors]
  split
  · exact trivial
  · next factor c₁ shorter hpower =>
    have other := first.of_eq_ok hpower
    dsimp only
    split
    · rintro ⟨f, others, same, here⟩
      obtain ⟨rfl, -⟩ := List.cons.inj same
      exact other here
    · exact trivial
    · rintro ⟨f, others, same, here⟩
      obtain ⟨rfl, -⟩ := List.cons.inj same
      exact other here

/-- In front of a text, no good factors are read after another one, be it with a multiplication sign
or without. -/
def MisreadsMore (cs : List Char) (goods : List Formula → Prop) : Prop :=
  ∀ c : Cursor, c.Faces cs →
    if c.peek = some .times then
      (c.advance.andThen fun _ d _ => d.factors).Allows fun fs _ => ¬ goods fs
    else
      c.factors.Allows fun fs _ => ¬ goods fs

theorem misreadsMore_times (h : Misreads factors cs goods) : MisreadsMore ('*' :: cs) goods := by
  intro c faces
  have times : first? ('*' :: cs) = some ⟨.times, ['*'], cs⟩ := rfl
  rw [if_pos (peek_of_faces faces times rfl)]
  exact (advance_gives faces times rfl).allows.andThen fun _ d _ passed => h d passed.2.2

theorem misreadsMore_of_follows {kinds : List TokenKind} (h : Misreads factors cs goods)
    (starts : Follows kinds cs) (apart : kinds.contains .times = false)
    (visible : kinds.contains .blank = false) : MisreadsMore cs goods := by
  intro c faces
  rw [if_neg (peek_ne_of_follows starts faces apart visible)]
  exact h c faces

/-- Where the first factor is read, the others are not. -/
theorem misreads_factors_cons (h : Demands power cs good (·.Faces rest))
    (more : MisreadsMore rest goods) :
    Misreads factors cs fun fs => ∃ f others, fs = f :: others ∧ others ≠ [] ∧ good f ∧
      goods others := by
  intro c faces
  have first := h c faces
  rw [factors]
  split
  · exact trivial
  · next factor c₁ shorter hpower =>
    dsimp only
    split
    · rintro ⟨f, others, same, nonempty, -⟩
      exact nonempty (List.cons.inj same).2.symm
    · exact trivial
    · next others after shorter' hmore =>
      rintro ⟨f, others', same, -, here, there⟩
      obtain ⟨rfl, rfl⟩ := List.cons.inj same
      have later := more c₁ (first.of_eq_ok hpower here)
      split at hmore
      · next hpeek =>
        rw [if_pos hpeek] at later
        exact later.of_eq_ok (Option.some.inj hmore) there
      · next kind other hpeek =>
        rw [if_neg (by rw [hpeek]; exact fun times => other (Option.some.inj times))] at later
        split at hmore
        · exact later.of_eq_ok (Option.some.inj hmore) there
        · cases hmore
      · cases hmore

theorem misreads_terms (h : Misreads (·.signedProduct isFirst) cs good) :
    Misreads (·.terms isFirst) cs fun fs => ∃ f others, fs = f :: others ∧ good f := by
  intro c faces
  have first := h c faces
  show Allows _ (c.terms isFirst)
  rw [terms]
  split
  · exact trivial
  · next term c₁ shorter hterm =>
    have other := first.of_eq_ok hterm
    split
    · split
      · exact trivial
      · rintro ⟨f, others, same, here⟩
        obtain ⟨rfl, -⟩ := List.cons.inj same
        exact other here
    · rintro ⟨f, others, same, here⟩
      obtain ⟨rfl, -⟩ := List.cons.inj same
      exact other here

/-- Where the first term is read, the others are not. -/
theorem misreads_terms_cons (h : Reads (·.signedProduct isFirst) s rest good)
    (more : Misreads (·.terms false) rest goods) :
    Misreads (·.terms isFirst) (s.toList ++ rest) fun fs =>
      ∃ f others, fs = f :: others ∧ others ≠ [] ∧ good f ∧ goods others := by
  intro c faces
  obtain ⟨term, c₁, shorter, hterm, -, faces₁⟩ := (h c faces).eq_ok
  show Allows _ (c.terms isFirst)
  rw [terms]
  simp only [hterm]
  split
  · split
    · exact trivial
    · next others after shorter' hothers =>
      rintro ⟨f, others', same, -, -, there⟩
      obtain ⟨-, rfl⟩ := List.cons.inj same
      exact (more c₁ faces₁).of_eq_ok hothers there
  · rintro ⟨f, others, same, nonempty, -⟩
    exact nonempty (List.cons.inj same).2.symm

/-! ## Signs -/

theorem misreads_signed (h : Misreads product cs good) (positive : Bool) :
    Misreads (·.signedProduct isFirst) ((if positive then '+' else '-') :: cs) fun f =>
      ∃ operand span, good operand ∧
        f = if positive && !isFirst then operand else .signed positive operand span := by
  intro c faces
  obtain ⟨signed, passed⟩ := sign_gives faces
  show Allows _ (c.signedProduct isFirst)
  rw [signedProduct, signed]
  refine passed.allows.andThen ?_
  intro token c₁ _ faces₁
  refine Allows.map ((h c₁ faces₁).imp ?_)
  rintro operand d other ⟨operand', span, here, same⟩
  split at same
  · rw [← same] at here
    exact other here
  · obtain ⟨-, rfl, -⟩ := Formula.signed.inj same
    exact other here

/-- A first product is read without a sign, or another formula with one. -/
theorem misreads_unsigned (h : Misreads product cs good)
    (unsigned : ∀ positive operand span, ¬ good (.signed positive operand span)) :
    Misreads (·.signedProduct true) cs good := by
  intro c faces
  show Allows _ (c.signedProduct true)
  rw [signedProduct]
  split
  · exact h c faces
  · refine (allows_true _).andThen ?_
    intro token c₁ _ _
    refine Allows.map ((allows_true _).imp ?_)
    intro operand d _
    rw [Bool.not_true, Bool.and_false, if_neg Bool.false_ne_true]
    exact unsigned _ _ _

end Cursor

end StepAlgebra
