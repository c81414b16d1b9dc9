import StepAlgebra.Proofs.Formula.Grammar
import StepAlgebra.Proofs.Formula.Shown
import StepAlgebra.Proofs.Formula.Sum

/-!
# Derived atoms are read

The reader is greedy where the grammar is ambiguous: an integer that ends an atom takes in a
fraction of literals behind it, which a derivation may have as the next factor. So what is known of
an atom is that the reader stops where the derivation ends it, or else where a quotient would that
starts there.

* `Cursor.Goes`, `Cursor.QuotientWithin` — where a reader stops, and where a quotient does if one
  is read at all;
* `Cursor.GroupComplete`, `Cursor.AtomComplete` — what is known of the tokens of a group and of an
  atom;
* `Cursor.atomComplete_of_number`, `Cursor.atomComplete_of_fraction`, … — one lemma for each
  alternative of an atom.
-/

namespace StepAlgebra

namespace Outcome

variable {c : Cursor} {α : Type} {good : α → Cursor → Prop} {o : Outcome c α}

theorem Gives.of_eq_ok {value : α} {after : Cursor} {shorter : after.remaining < c.remaining}
    (h : o.Gives good) (ho : o = .ok value after shorter) : good value after := by
  rw [ho] at h
  exact h

theorem Fails.ne_ok {value : α} {after : Cursor} {shorter : after.remaining < c.remaining}
    (h : o.Fails) : o ≠ .ok value after shorter := by
  rintro rfl
  exact h

end Outcome

namespace Cursor

open Grammar Outcome

variable {c d : Cursor} {ts us rest a b : List Token} {t : Token} {kinds : List TokenKind}
  {S : List Token → Prop}

/-! ## Where readers go -/

/-- In front of the first tokens, a reader stops in front of the second. -/
def Goes {α : Type} (read : (c : Cursor) → Outcome c α) (ts us : List Token) : Prop :=
  ∀ c : Cursor, c.Shows ts → (read c).Gives fun _ d => d.Shows us

/-- The tokens are over, or go on with one of these kinds. -/
def Ends (kinds : List TokenKind) (ts : List Token) : Prop :=
  ∀ t ∈ ts.head?, t.kind ∈ kinds

/-- The tokens do not go on with this kind. -/
def Apart (kind : TokenKind) (ts : List Token) : Prop :=
  ∀ c : Cursor, c.Shows ts → c.peek ≠ some kind

/-- If a quotient is read from these tokens, it stops in one of these places. -/
def QuotientWithin (ts : List Token) (S : List Token → Prop) : Prop :=
  ∀ (c : Cursor) (q : Quotient) (d : Cursor) (shorter : d.remaining < c.remaining),
    c.Shows ts → c.quotient = .ok q d shorter → ∃ us, S us ∧ d.Shows us

theorem ends_cons (h : kinds.contains t.kind = true) : Ends kinds (t :: ts) := by
  intro u hu
  obtain rfl := Option.some.inj hu
  exact List.contains_iff_mem.mp h

theorem Ends.mono {kinds' : List TokenKind} (h : Ends kinds ts)
    (sub : kinds.all kinds'.contains = true) : Ends kinds' ts :=
  fun t ht => List.contains_iff_mem.mp (List.all_eq_true.mp sub _ (h t ht))

theorem Ends.peek {kind : TokenKind} (h : Ends kinds ts) (shows : c.Shows ts)
    (hpeek : c.peek = some kind) : kind ∈ kinds := by
  rw [peek_of_shows shows, Option.map_eq_some_iff] at hpeek
  obtain ⟨t, ht, rfl⟩ := hpeek
  exact h t ht

theorem Ends.apart {kind : TokenKind} (h : Ends kinds ts) (other : kinds.contains kind = false) :
    Apart kind ts := by
  intro c shows hpeek
  have among := List.contains_iff_mem.mpr (h.peek shows hpeek)
  rw [other] at among
  cases among

theorem apart_cons {kind : TokenKind} (h : t.kind ≠ kind) : Apart kind (t :: ts) := by
  intro c shows hpeek
  rw [peek_of_shows_cons shows] at hpeek
  exact h (Option.some.inj hpeek)

theorem quotientWithin_of_apart (h : Apart .openParen ts) : QuotientWithin ts S := by
  intro c q d shorter shows hquotient
  exact absurd hquotient (quotient_fails (h c shows)).ne_ok

/-! ## Single tokens -/

theorem literal_gives (h : Derives .number a) (shows : c.Shows (a ++ ts)) :
    c.literal.Gives fun f d => (∃ n span, f = .literal n span) ∧ d.Shows ts := by
  cases h with
  | integer hkind | decimal hkind =>
      obtain ⟨token, d, shorter, hadvance, rfl, shows₁⟩ := (advance_gives_of_shows shows).eq_ok
      simp only [literal, hadvance, hkind]
      exact ⟨⟨_, _, rfl⟩, shows₁⟩
  | scientific hkind fits =>
      obtain ⟨token, d, shorter, hadvance, rfl, shows₁⟩ := (advance_gives_of_shows shows).eq_ok
      obtain ⟨numeral, hnumeral⟩ := Option.isSome_iff_exists.mp
        ((Token.isSome_ofScientificText?_iff shows.head_isSpelled hkind).mpr fits)
      simp only [literal, hadvance, hkind, hnumeral]
      exact ⟨⟨_, _, rfl⟩, shows₁⟩

theorem symbol_goes (hkind : t.kind = .name) : Goes symbol (t :: ts) ts := by
  intro c shows
  obtain ⟨token, d, shorter, hexpect, rfl, shows₁⟩ :=
    (expect_gives_of_shows shows hkind).orBack.eq_ok
  obtain ⟨letter, hlexeme, -⟩ := shows.head_isSpelled.exists_letter hkind
  simp only [symbol, hexpect, hlexeme]
  exact shows₁

theorem superscript_goes (hkind : t.kind = .superscript) (fits : t.exponent ≤ 4294967295) :
    Goes superscript (t :: ts) ts := by
  intro c shows
  obtain ⟨token, d, shorter, hexpect, rfl, shows₁⟩ :=
    (expect_gives_of_shows shows hkind).orBack.eq_ok
  obtain ⟨exponent, hread⟩ := Option.isSome_iff_exists.mp
    ((Token.isSome_read?_iff shows.head_isSpelled hkind).mpr fits)
  simp only [superscript, hexpect, hread]
  exact shows₁

theorem index_goes (h : Derives .index a) : Goes index (a ++ rest) rest := by
  cases h with
  | index hopening hinteger low high hclosing =>
      intro c shows
      rw [index]
      refine (expect_gives_of_shows shows hopening).orBack.andThen ?_
      intro opening c₁ _ passed
      obtain ⟨-, shows₁⟩ := passed
      refine (expect_gives_of_shows shows₁ hinteger).orBack.andThen ?_
      intro integer c₂ _ passed
      obtain ⟨rfl, shows₂⟩ := passed
      obtain ⟨n, hn⟩ := Option.isSome_iff_exists.mp
        ((Token.isSome_index?_iff shows₁.head_isSpelled hinteger).mpr ⟨low, high⟩)
      rw [hn]
      exact Gives.map ((expect_gives_of_shows shows₂ hclosing).orBack.imp fun _ _ there => there.2)

/-! ## Groups and quotients -/

/-- A group of something good is read wherever it stands. -/
def GroupComplete (good : Formula → Prop) (a : List Token) : Prop :=
  ∀ (rest : List Token) (c : Cursor), c.Shows (a ++ rest) →
    c.group.Gives fun g d => good g.inner ∧ d.Shows rest

/-- A sum in front of a closing parenthesis is read. -/
def InnerComplete (good : Formula → Prop) (a : List Token) : Prop :=
  ∀ (closing : Token) (rest : List Token), closing.kind = .closeParen →
    ∀ c : Cursor, c.Shows (a ++ closing :: rest) →
      c.sum.Gives fun f d => good f ∧ d.Shows (closing :: rest)

variable {good good' : Formula → Prop}

theorem groupComplete_of_inner {opening closing : Token} (hopening : opening.kind = .openParen)
    (inner : InnerComplete good a) (hclosing : closing.kind = .closeParen) :
    GroupComplete good (opening :: (a ++ [closing])) := by
  intro rest c shows
  rw [List.cons_append, List.append_assoc] at shows
  rw [group]
  refine (expect_gives_of_shows shows hopening).orBack.andThen ?_
  intro token c₁ _ passed
  obtain ⟨-, shows₁⟩ := passed
  refine (inner closing rest hclosing c₁ shows₁).orBack.andThen ?_
  intro f c₂ _ read
  obtain ⟨here, shows₂⟩ := read
  refine Gives.orBlame (Gives.map ?_) _
  exact (expect_gives_of_shows shows₂ hclosing).imp fun _ _ there => ⟨here, there.2⟩

theorem quotient_gives {divide : Token} (ha : GroupComplete good a)
    (hdivide : divide.kind = .divide) (hb : GroupComplete good' b)
    (shows : c.Shows (a ++ divide :: b ++ rest)) :
    c.quotient.Gives fun q d => (good q.top ∧ good' q.bottom) ∧ d.Shows rest := by
  rw [List.append_assoc, List.cons_append] at shows
  rw [quotient]
  refine (ha _ c shows).andThen ?_
  intro g c₁ _ read
  obtain ⟨here, shows₁⟩ := read
  refine (expect_gives_of_shows shows₁ hdivide).orBack.andThen ?_
  intro token c₂ _ passed
  refine Gives.map ?_
  exact (hb rest c₂ passed.2).imp fun _ _ there => ⟨⟨here, there.1⟩, there.2⟩

/-! ## Atoms -/

/-- In front of tokens that go on with no division sign, an atom stops behind its own tokens, or
where a quotient would that starts there; and a quotient that starts with the atom stops behind
it. -/
structure AtomComplete (a : List Token) : Prop where
  atom : ∀ rest, Apart .divide rest → ∀ S : List Token → Prop, S rest → QuotientWithin rest S →
    ∀ c : Cursor, c.Shows (a ++ rest) → c.atom.Gives fun _ d => ∃ us, S us ∧ d.Shows us
  quotient : ∀ rest, Apart .divide rest → QuotientWithin (a ++ rest) (· = rest)

theorem peek_of_group {g : Group} {shorter : d.remaining < c.remaining}
    (h : c.group = .ok g d shorter) : c.peek = some .openParen := by
  by_contra other
  exact (group_fails other).ne_ok h

/-- An atom that starts with no parenthesis is not the start of a quotient. -/
theorem atomComplete_of_goes (apart : ∀ rest, Apart .openParen (a ++ rest))
    (goes : ∀ rest, Goes atom (a ++ rest) rest) : AtomComplete a where
  atom rest _ _ here _ c shows := (goes rest c shows).imp fun _ _ there => ⟨rest, here, there⟩
  quotient rest _ := quotientWithin_of_apart (apart rest)

theorem mixed_within (hkind : t.kind = .integer) (within : QuotientWithin rest S)
    (shows : c.Shows (t :: rest)) :
    c.mixed.Fails ∨ c.mixed.Gives fun _ d => ∃ us, S us ∧ d.Shows us := by
  obtain ⟨token, c₁, shorter, hexpect, -, shows₁⟩ :=
    (expect_gives_of_shows shows hkind).orBack.eq_ok
  rw [mixed]
  simp only [hexpect, Outcome.andThen]
  cases hquotient : c₁.quotient with
  | failed cause after => exact .inl trivial
  | ok q d shorter' =>
      by_cases numeric : q.isNumeric = true
      · simp only [numeric, if_true]
        exact .inr (within c₁ q d shorter' shows₁ hquotient)
      · simp only [numeric, if_false, Bool.false_eq_true]
        exact .inl trivial

/-- A number is read as a literal, unless it is an integer that takes in a quotient behind it. -/
theorem atom_of_number (h : Derives .number a) (within : QuotientWithin rest S)
    (shows : c.Shows (a ++ rest)) :
    (c.atom.Gives fun f d => (∃ n span, f = .literal n span) ∧ d.Shows rest) ∨
      c.atom.Gives fun _ d => ∃ us, S us ∧ d.Shows us := by
  have read := literal_gives h shows
  cases h with
  | integer hkind =>
      rw [atom, peek_of_shows_cons shows, hkind]
      rcases mixed_within hkind within shows with fails | gives
      · exact .inl (fails.orElse read)
      · exact .inr (gives.orElse _)
  | decimal hkind =>
      rw [atom, peek_of_shows_cons shows, hkind]
      exact .inl read
  | scientific hkind fits =>
      rw [atom, peek_of_shows_cons shows, hkind]
      exact .inl (read.orBlame _)

theorem atomComplete_of_number (h : Derives .number a) : AtomComplete a := by
  constructor
  · intro rest _ S here within c shows
    rcases atom_of_number h within shows with literal | taken
    · exact literal.imp fun _ _ there => ⟨rest, here, there.2⟩
    · exact taken
  · intro rest _
    refine quotientWithin_of_apart ?_
    cases h with
    | integer hkind | decimal hkind | scientific hkind =>
        exact apart_cons (by rw [hkind]; decide)

theorem atomComplete_of_name (hkind : t.kind = .name) : AtomComplete [t] := by
  refine atomComplete_of_goes (fun rest => apart_cons (by rw [hkind]; decide)) ?_
  intro rest c shows
  rw [atom, peek_of_shows_cons shows, hkind]
  exact symbol_goes hkind c shows

theorem atomComplete_of_mixed {integer divide : Token} (hinteger : integer.kind = .integer)
    (ha : GroupComplete (·.isSignedLiteral = true) a) (hdivide : divide.kind = .divide)
    (hb : GroupComplete (·.isSignedLiteral = true) b) :
    AtomComplete (integer :: (a ++ divide :: b)) := by
  refine atomComplete_of_goes (fun rest => apart_cons (by rw [hinteger]; decide)) ?_
  intro rest c shows
  have read : c.mixed.Gives fun _ d => d.Shows rest := by
    rw [mixed]
    refine (expect_gives_of_shows shows hinteger).orBack.andThen ?_
    intro token c₁ _ passed
    obtain ⟨q, c₂, shorter, hquotient, ⟨top, bottom⟩, shows₂⟩ :=
      (quotient_gives ha hdivide hb passed.2).eq_ok
    have numeric : q.isNumeric = true := by
      rw [Quotient.isNumeric, top, bottom, Bool.and_self]
    simp only [hquotient, numeric, if_true]
    exact shows₂
  rw [atom, peek_of_shows_cons shows, hinteger]
  exact read.orElse _

theorem atomComplete_of_fraction {divide : Token} (ha : GroupComplete good a)
    (hdivide : divide.kind = .divide) (hb : GroupComplete good' b) :
    AtomComplete (a ++ divide :: b) := by
  constructor
  · intro rest _ S here _ c shows
    rw [List.append_assoc, List.cons_append] at shows
    obtain ⟨top, c₁, shorter₁, htop, -, shows₁⟩ := (ha _ c shows).eq_ok
    have second : ((c₁.expect .divide).andThen fun _ c₂ _ => c₂.group).Gives
        fun g d => good' g.inner ∧ d.Shows rest :=
      (expect_gives_of_shows shows₁ hdivide).andThen fun _ c₂ _ passed => hb rest c₂ passed.2
    obtain ⟨bottom, c₂, shorter₂, hbottom, -, shows₂⟩ := second.eq_ok
    rw [atom, peek_of_group htop]
    simp only [groupOrFraction, htop, hbottom]
    exact ⟨rest, here, shows₂⟩
  · intro rest _ c q d shorter shows hquotient
    exact ⟨rest, rfl, ((quotient_gives ha hdivide hb shows).of_eq_ok hquotient).2⟩

theorem atomComplete_of_group (ha : GroupComplete good a) : AtomComplete a := by
  constructor
  · intro rest apart S here _ c shows
    obtain ⟨top, c₁, shorter₁, htop, -, shows₁⟩ := (ha rest c shows).eq_ok
    -- without a second group the reader goes back to the end of the first one
    have second : ((c₁.expect .divide).andThen fun _ c₂ _ => c₂.group).Fails :=
      (expect_fails (apart c₁ shows₁)).andThen
    obtain ⟨cause, c₂, hsecond⟩ := second.eq_failed
    rw [atom, peek_of_group htop]
    simp only [groupOrFraction, htop, hsecond]
    exact ⟨rest, here, shows₁⟩
  · intro rest apart c q d shorter shows hquotient
    have fails : c.quotient.Fails := by
      rw [quotient]
      refine (ha rest c shows).andThen_fails fun _ c₁ _ read => ?_
      exact (expect_fails (apart c₁ read.2)).orBack.andThen
    exact absurd hquotient fails.ne_ok

theorem atomComplete_of_root {radical : Token} (hradical : radical.kind = .radical)
    (ha : AtomComplete a) : AtomComplete (radical :: a) := by
  constructor
  · intro rest apart S here within c shows
    have read : c.root.Gives fun _ d => ∃ us, S us ∧ d.Shows us := by
      rw [root]
      refine (expect_gives_of_shows shows hradical).orBack.andThen ?_
      intro token c₁ _ passed
      have under := ha.atom rest apart S here within c₁ passed.2
      -- an atom starts here, and no index does
      have plain : c₁.peek ≠ some .openSquare := by
        obtain ⟨f, d, shorter, hatom, -⟩ := under.eq_ok
        obtain ⟨kind, hkind, hpeek⟩ := peek_of_atom hatom
        rw [hpeek]
        rintro ⟨⟩
        revert hkind
        decide
      rw [if_neg plain]
      exact Gives.map under
    rw [atom, peek_of_shows_cons shows, hradical]
    exact read.orBlame _
  · exact fun rest _ => quotientWithin_of_apart (apart_cons (by rw [hradical]; decide))

theorem atomComplete_of_indexedRoot {radical : Token} (hradical : radical.kind = .radical)
    (ha : Derives .index a) (hb : AtomComplete b) : AtomComplete (radical :: (a ++ b)) := by
  constructor
  · intro rest apart S here within c shows
    rw [List.cons_append, List.append_assoc] at shows
    have read : c.root.Gives fun _ d => ∃ us, S us ∧ d.Shows us := by
      rw [root]
      refine (expect_gives_of_shows shows hradical).orBack.andThen ?_
      intro token c₁ _ passed
      have square : c₁.peek = some .openSquare := by
        cases ha with
        | index hopening => rw [peek_of_shows_cons passed.2, hopening]
      rw [if_pos square]
      refine (index_goes ha c₁ passed.2).andThen fun _ c₂ _ shows₂ => ?_
      exact Gives.map (hb.atom rest apart S here within c₂ shows₂)
    rw [atom, peek_of_shows_cons shows, hradical]
    exact read.orBlame _
  · exact fun rest _ => quotientWithin_of_apart (apart_cons (by rw [hradical]; decide))

end Cursor

end StepAlgebra
