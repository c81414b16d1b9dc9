import StepAlgebra.Formula.Parser
import StepAlgebra.Formula.Printer
import StepAlgebra.Particle.Printer
import StepAlgebra.Proofs.Formula.Cursor

/-!
# What is read as an atom

The alternatives of an atom overlap, so what follows is part of each statement: a group is an atom
only if no division sign follows it, and an integer only if no quotient does.

* `Cursor.Reads` — a production passes a text, in front of another;
* `Cursor.Follows` — the kinds of token that may follow;
* `Cursor.reads_atom_literal`, `Cursor.reads_atom_group`, … — one lemma for each alternative, with
  the sums in it given by what is known of them.
-/

namespace StepAlgebra

namespace Cursor

open Lexer Outcome

/-! ## What follows a text -/

/-- The text is over, or goes on with a token of one of these kinds. -/
def Follows (kinds : List TokenKind) (rest : List Char) : Prop :=
  ∀ piece ∈ first? rest, piece.kind ∈ kinds

/-- The kinds of token that end a sum. -/
def sumEnd : List TokenKind :=
  [.closeParen, .equals]

/-- The kinds of token that end a product. -/
def productEnd : List TokenKind :=
  [.closeParen, .equals, .plus, .minus]

/-- The kinds of token that may follow a number in a product. -/
def numberEnd : List TokenKind :=
  [.closeParen, .equals, .plus, .minus, .name, .openParen, .radical]

/-- The kinds of token that may follow a factor. -/
def factorEnd : List TokenKind :=
  [.closeParen, .equals, .plus, .minus, .times, .name, .openParen, .radical, .integer, .decimal,
    .scientific]

/-- The kinds of token that may follow an atom. -/
def atomEnd : List TokenKind :=
  .superscript :: factorEnd

variable {kinds kinds' : List TokenKind} {rest cs : List Char} {c : Cursor}

theorem Follows.mono (h : Follows kinds rest) (sub : kinds.all kinds'.contains = true) :
    Follows kinds' rest := by
  intro piece hpiece
  exact List.contains_iff_mem.mp (List.all_eq_true.mp sub _ (h piece hpiece))

theorem follows_nil : Follows kinds [] := by
  intro piece hpiece
  cases hpiece

theorem follows_of_first? {kind : TokenKind} {lexeme : List Char}
    (first : first? cs = some ⟨kind, lexeme, rest⟩) (h : kinds.contains kind = true) :
    Follows kinds cs := by
  intro other hother
  rw [first] at hother
  obtain rfl := Option.some.inj hother
  exact List.contains_iff_mem.mp h

/-- Nothing but the kinds that may follow is met. -/
theorem peek_of_follows (h : Follows kinds rest) (faces : c.Faces rest) {kind : TokenKind}
    (hpeek : c.peek = some kind) (visible : kinds.contains .blank = false) : kind ∈ kinds := by
  cases hfirst : first? rest with
  | none =>
      cases rest with
      | nil =>
          rw [peek_of_faces_nil faces] at hpeek
          cases hpeek
      | cons x xs => cases hfirst
  | some piece =>
      have hkind := h piece hfirst
      have shown : (piece.kind != .blank) = true := by
        rw [bne_iff_ne]
        intro blank
        rw [blank, ← List.contains_iff_mem, visible] at hkind
        cases hkind
      rw [peek_of_faces faces hfirst shown] at hpeek
      obtain rfl := Option.some.inj hpeek
      exact hkind

theorem peek_ne_of_follows (h : Follows kinds rest) (faces : c.Faces rest) {kind : TokenKind}
    (hkind : kinds.contains kind = false) (visible : kinds.contains .blank = false) :
    c.peek ≠ some kind := by
  intro hpeek
  have among := List.contains_iff_mem.mpr (peek_of_follows h faces hpeek visible)
  rw [hkind] at among
  cases among

/-- Where no number may follow, no digit does. -/
theorem next_digit_of_follows (h : Follows kinds rest)
    (apart : [TokenKind.integer, .decimal, .scientific].any kinds.contains = false) :
    Next (Digit.isWrittenBy · = false) rest := by
  cases rest with
  | nil => exact next_nil
  | cons x xs =>
      have hkind := h _ rfl
      refine next_cons.mpr ?_
      by_contra digit
      obtain ⟨d, rfl⟩ := Digit.exists_toChar (Bool.not_eq_false _ ▸ digit)
      exact List.any_eq_false.mp apart _ (kind_piece_toChar d xs) (List.contains_iff_mem.mpr hkind)

/-- Where no token of a kind may follow, no character of this kind does. -/
theorem next_ne_of_follows (h : Follows kinds rest) {x : Char} {kind : TokenKind}
    (hx : ∀ xs, (piece x xs).kind = kind) (apart : kinds.contains kind = false) :
    Next (· ≠ x) rest := by
  cases rest with
  | nil => exact next_nil
  | cons y ys =>
      refine next_cons.mpr ?_
      rintro rfl
      have hkind := h _ rfl
      rw [hx, ← List.contains_iff_mem, apart] at hkind
      cases hkind

/-- Where no number may follow, and no sign of which one could be a part, no number goes on. -/
theorem next_of_follows (h : Follows kinds rest)
    (apart : [TokenKind.integer, .decimal, .scientific, .unknown, .times].any kinds.contains =
      false) :
    Next (fun c => Digit.isWrittenBy c = false ∧ c ≠ '.' ∧ c ≠ '*') rest := by
  simp only [List.any_cons, List.any_nil, Bool.or_eq_false_iff, and_true] at apart
  obtain ⟨integer, decimal, scientific, unknown, times⟩ := apart
  have numbers : [TokenKind.integer, .decimal, .scientific].any kinds.contains = false := by
    simp only [List.any_cons, List.any_nil, integer, decimal, scientific, Bool.or_self]
  intro c hc
  exact ⟨next_digit_of_follows h numbers c hc,
    next_ne_of_follows h (x := '.') (fun _ => rfl) unknown c hc,
    next_ne_of_follows h (x := '*') (fun _ => rfl) times c hc⟩

/-- Where no exponent may follow, no exponent goes on. -/
theorem next_superscript_of_follows (h : Follows kinds rest)
    (apart : kinds.contains .superscript = false) :
    Next (Superscript.isDigit · = false) rest := by
  cases rest with
  | nil => exact next_nil
  | cons x xs =>
      have hkind := h _ rfl
      refine next_cons.mpr ?_
      by_contra superscript
      obtain ⟨d, rfl⟩ := Superscript.exists_ofDigit (Bool.not_eq_false _ ▸ superscript)
      rw [kind_piece_ofDigit, ← List.contains_iff_mem, apart] at hkind
      cases hkind

/-- A number ends before any of these kinds. -/
theorem ends_of_follows {n : Numeral} (h : Follows kinds rest)
    (power : n.isScientific = true → kinds.contains .superscript = false)
    (apart : [TokenKind.integer, .decimal, .scientific, .unknown, .times].any kinds.contains =
      false) : n.Ends rest := by
  cases scientific : n.isScientific with
  | true =>
      rw [Numeral.Ends, if_pos scientific]
      exact next_superscript_of_follows h (power scientific)
  | false => exact ends_of_next (next_of_follows h apart) scientific

theorem follows_superscript {e : UInt32} (after : Follows factorEnd rest) :
    Follows [.superscript] ((Superscript.ofNat e.toNat).toList ++ rest) :=
  follows_of_first? (first?_exponent _ (next_superscript_of_follows after rfl)) rfl

theorem follows_numeral {n : Numeral} (canonical : n.IsCanonical) :
    Follows [.integer, .decimal, .scientific] (n.text.toList ++ rest) := by
  obtain ⟨d, ds, hwhole⟩ := List.exists_cons_of_ne_nil canonical.whole
  intro piece hpiece
  rw [Numeral.toList_text, hwhole, List.map_cons, List.cons_append, List.cons_append,
    List.cons_append] at hpiece
  obtain rfl := Option.some.inj hpiece
  exact kind_piece_toChar d _

/-! ## Readings -/

variable {α β : Type}

/-- In front of `rest`, the text is passed and a good value is read from it. -/
def Reads (read : (c : Cursor) → Outcome c α) (s : String) (rest : List Char)
    (good : α → Prop) : Prop :=
  ∀ c : Cursor, c.Faces (s.toList ++ rest) →
    (read c).Gives fun value d => good value ∧ d.Faces rest

/-- A text is read as a sum wherever a sum may end. -/
def ReadsSum (s : String) (good : Formula → Prop) : Prop :=
  ∀ rest, Follows sumEnd rest → Reads sum s rest good

/-- No quotient of literals starts here. -/
def NoQuotient (rest : List Char) : Prop :=
  ∀ c : Cursor, c.Faces rest → ¬ c.quotient.Gives fun q _ => q.isNumeric = true

theorem Reads.imp {read : (c : Cursor) → Outcome c α} {s : String} {good good' : α → Prop}
    (h : Reads read s rest good) (weaken : ∀ value, good value → good' value) :
    Reads read s rest good' :=
  fun c faces => (h c faces).imp fun value _ here => ⟨weaken value here.1, here.2⟩

variable {s t : String} {good : Formula → Prop}

/-! ## Groups and quotients -/

theorem toList_group (s : String) (rest : List Char) :
    ("(" ++ s ++ ")").toList ++ rest = '(' :: (s.toList ++ ')' :: rest) := by
  simp [String.toList_append]

theorem reads_group (inner : Reads sum s (')' :: rest) good) :
    Reads group ("(" ++ s ++ ")") rest fun g => good g.inner := by
  intro c faces
  rw [toList_group] at faces
  rw [group]
  have opening : first? ('(' :: (s.toList ++ ')' :: rest)) =
      some ⟨.openParen, ['('], s.toList ++ ')' :: rest⟩ := rfl
  refine (expect_gives faces opening rfl).orBack.andThen ?_
  intro open₁ c₁ _ read
  rcases read with ⟨-, faces₁⟩
  refine (inner c₁ faces₁).orBack.andThen ?_
  intro formula c₂ _ read
  rcases read with ⟨here, faces₂⟩
  have closing : first? (')' :: rest) = some ⟨.closeParen, [')'], rest⟩ := rfl
  refine Gives.orBlame (Gives.map ?_) _
  exact (expect_gives faces₂ closing rfl).imp fun _ _ there => ⟨here, there.2⟩

theorem follows_closeParen : Follows sumEnd (')' :: rest) :=
  follows_of_first? (show first? (')' :: rest) = some ⟨.closeParen, [')'], rest⟩ from rfl) rfl

theorem toList_quotient (s t : String) (rest : List Char) :
    ("(" ++ s ++ ")/(" ++ t ++ ")").toList ++ rest =
      ("(" ++ s ++ ")").toList ++ '/' :: (("(" ++ t ++ ")").toList ++ rest) := by
  simp [String.toList_append]

theorem reads_quotient {good' : Formula → Prop} (top : ReadsSum s good)
    (bottom : ReadsSum t good') :
    Reads quotient ("(" ++ s ++ ")/(" ++ t ++ ")") rest fun q => good q.top ∧ good' q.bottom := by
  intro c faces
  rw [toList_quotient] at faces
  rw [quotient]
  refine (reads_group (top _ follows_closeParen) c faces).andThen ?_
  intro first c₁ _ read
  rcases read with ⟨here, faces₁⟩
  have divide : first? ('/' :: (("(" ++ t ++ ")").toList ++ rest)) =
      some ⟨.divide, ['/'], ("(" ++ t ++ ")").toList ++ rest⟩ := rfl
  refine (expect_gives faces₁ divide rfl).orBack.andThen ?_
  intro sign c₂ _ read
  rcases read with ⟨-, faces₂⟩
  refine Gives.map ?_
  exact (reads_group (bottom _ follows_closeParen) c₂ faces₂).imp
    fun _ _ there => ⟨⟨here, there.1⟩, there.2⟩

theorem group_fails (h : c.peek ≠ some .openParen) : c.group.Fails := by
  rw [group]
  exact (expect_fails h).orBack.andThen

theorem quotient_fails (h : c.peek ≠ some .openParen) : c.quotient.Fails := by
  rw [quotient]
  exact (group_fails h).andThen

theorem noQuotient_of_follows (h : Follows kinds rest) (apart : kinds.contains .openParen = false)
    (visible : kinds.contains .blank = false) : NoQuotient rest :=
  fun _ faces => (quotient_fails (peek_ne_of_follows h faces apart visible)).not_gives

theorem noQuotient_of_group (inner : ReadsSum s good) (after : Follows atomEnd rest) :
    NoQuotient (("(" ++ s ++ ")").toList ++ rest) := by
  intro c faces
  rw [quotient]
  refine ((reads_group (inner _ follows_closeParen) c faces).andThen_fails ?_).not_gives
  intro first c₁ _ read
  rcases read with ⟨-, faces₁⟩
  have divide : c₁.peek ≠ some .divide :=
    peek_ne_of_follows after faces₁ rfl rfl
  exact (expect_fails divide).orBack.andThen

/-! ## Atoms -/

/-- A number is read as it is written. -/
theorem reads_literal {n : Numeral} (canonical : n.IsCanonical) (ends : n.Ends rest) :
    Reads literal n.text rest fun f => ∃ span, f = .literal n span := by
  intro c faces
  have visible : (n.kind != .blank) = true := by
    rcases n.kind_cases with hkind | hkind | hkind <;> rw [hkind] <;> rfl
  obtain ⟨token, d, shorter, hadvance, hkind, hlexeme, hfaces⟩ :=
    (advance_gives faces (first?_numeral canonical ends) visible).eq_ok
  simp only [literal, hadvance]
  cases hpower : n.power with
  | none =>
      have back := Numeral.ofDecimalText_text hpower
      cases hplaces : n.places with
      | none =>
          simp only [Numeral.kind, hpower, hplaces, Option.isSome_none, Bool.false_eq_true,
            if_false] at hkind
          simp only [hkind, hlexeme, back]
          exact ⟨⟨token.span, rfl⟩, hfaces⟩
      | some places =>
          simp only [Numeral.kind, hpower, hplaces, Option.isSome_none, Option.isSome_some,
            Bool.false_eq_true, if_false, if_true] at hkind
          simp only [hkind, hlexeme, back]
          exact ⟨⟨token.span, rfl⟩, hfaces⟩
  | some power =>
      have back := Numeral.ofScientificText?_text canonical hpower
      simp only [Numeral.kind, hpower, Option.isSome_some, if_true] at hkind
      simp only [hkind, hlexeme, back]
      exact ⟨⟨token.span, rfl⟩, hfaces⟩

theorem mixed_fails {n : Numeral} (canonical : n.IsCanonical) (ends : n.Ends rest)
    (whole : n.kind = .integer) (stop : NoQuotient rest)
    (faces : c.Faces (n.text.toList ++ rest)) : c.mixed.Fails := by
  have first := first?_numeral canonical ends
  rw [whole] at first
  rw [mixed]
  refine (expect_gives faces first rfl).orBack.andThen_fails ?_
  intro token c₁ _ read
  rcases read with ⟨-, faces₁⟩
  have stop := stop c₁ faces₁
  cases hquotient : c₁.quotient with
  | failed cause after => exact trivial
  | ok q after shorter =>
      have apart : ¬ q.isNumeric = true := by
        rwa [hquotient] at stop
      simp only [if_neg apart]
      exact trivial

/-- A number is an atom, if no quotient of literals follows it, or it is not whole. -/
theorem reads_atom_literal {n : Numeral} (canonical : n.IsCanonical) (ends : n.Ends rest)
    (stop : n.kind = .integer → NoQuotient rest) :
    Reads atom n.text rest fun f => ∃ span, f = .literal n span := by
  intro c faces
  have first := first?_numeral canonical ends
  have read := reads_literal canonical ends c faces
  rw [atom]
  rcases n.kind_cases with hkind | hkind | hkind
  · -- only an integer could have been the whole part of a mixed number, which is tried first
    rw [hkind] at first
    rw [peek_of_faces faces first rfl]
    exact (mixed_fails canonical ends hkind (stop hkind) faces).orElse read
  · rw [hkind] at first
    rw [peek_of_faces faces first rfl]
    exact read
  · rw [hkind] at first
    rw [peek_of_faces faces first rfl]
    exact read.orBlame _

/-- A letter is an atom. -/
theorem reads_atom_symbol {x : Char} (letter : x.isAlpha = true) :
    Reads atom (String.singleton x) rest fun f => ∃ span, f = .symbol x span := by
  intro c faces
  have split : (String.singleton x).toList ++ rest = x :: rest := by simp
  rw [split] at faces
  have first : first? (x :: rest) = some ⟨.name, [x], rest⟩ := first?_letter letter
  obtain ⟨token, d, shorter, hexpect, hlexeme, hfaces⟩ :=
    (expect_gives faces first rfl).orBack.eq_ok
  rw [atom, peek_of_faces faces first rfl]
  simp only [symbol, hexpect, hlexeme]
  exact ⟨⟨token.span, rfl⟩, hfaces⟩

theorem peek_of_paren {cs : List Char} (faces : c.Faces ('(' :: cs)) :
    c.peek = some .openParen :=
  peek_of_faces faces (show first? ('(' :: cs) = some ⟨.openParen, ['('], cs⟩ from rfl) rfl

theorem toList_paren (s : String) : ("(" ++ s ++ ")").toList = '(' :: (s.toList ++ [')']) := by
  simp [String.toList_append]

/-- Two groups with a division sign between them are an atom. -/
theorem reads_atom_fraction {good' : Formula → Prop} (top : ReadsSum s good)
    (bottom : ReadsSum t good') :
    Reads atom ("(" ++ s ++ ")/(" ++ t ++ ")") rest fun f =>
      ∃ top bottom span, f = .fraction top bottom span ∧ good top ∧ good' bottom := by
  intro c faces
  rw [toList_quotient] at faces
  have peek : c.peek = some .openParen := by
    rw [toList_paren] at faces
    exact peek_of_paren faces
  obtain ⟨first, c₁, shorter₁, hfirst, here, faces₁⟩ :=
    (reads_group (top _ follows_closeParen) c faces).eq_ok
  have divide : first? ('/' :: (("(" ++ t ++ ")").toList ++ rest)) =
      some ⟨.divide, ['/'], ("(" ++ t ++ ")").toList ++ rest⟩ := rfl
  have second : ((c₁.expect .divide).andThen fun _ c₂ _ => c₂.group).Gives fun g d =>
      good' g.inner ∧ d.Faces rest :=
    (expect_gives faces₁ divide rfl).andThen fun _ c₂ _ there =>
      reads_group (bottom _ follows_closeParen) c₂ there.2
  obtain ⟨last, c₂, shorter₂, hlast, there, faces₂⟩ := second.eq_ok
  rw [atom, peek]
  simp only [groupOrFraction, hfirst, hlast]
  exact ⟨⟨_, _, _, rfl, here, there⟩, faces₂⟩

/-- A group with no division sign after it is an atom. -/
theorem reads_atom_group (inner : ReadsSum s good) (after : Follows atomEnd rest) :
    Reads atom ("(" ++ s ++ ")") rest fun f =>
      ∃ inner span, f = .group inner span ∧ good inner := by
  intro c faces
  have peek : c.peek = some .openParen := by
    rw [toList_paren] at faces
    exact peek_of_paren faces
  obtain ⟨first, c₁, shorter₁, hfirst, here, faces₁⟩ :=
    (reads_group (inner _ follows_closeParen) c faces).eq_ok
  have divide : c₁.peek ≠ some .divide :=
    peek_ne_of_follows after faces₁ rfl rfl
  -- without a second group the reader goes back to the end of the first one
  have second : ((c₁.expect .divide).andThen fun _ c₂ _ => c₂.group).Fails :=
    (expect_fails divide).andThen
  obtain ⟨cause, c₂, hsecond⟩ := second.eq_failed
  rw [atom, peek]
  simp only [groupOrFraction, hfirst, hsecond]
  exact ⟨⟨_, _, rfl, here⟩, faces₁⟩

/-- A whole number in front of a quotient of literals is an atom. -/
theorem reads_atom_mixed {n : Numeral} (canonical : n.IsCanonical) (whole : n.isWhole = true)
    {good' : Formula → Prop} (top : ReadsSum s fun f => good f ∧ f.isSignedLiteral = true)
    (bottom : ReadsSum t fun f => good' f ∧ f.isSignedLiteral = true) :
    Reads atom (n.text ++ "(" ++ s ++ ")/(" ++ t ++ ")") rest fun f =>
      ∃ span₁ top bottom span₂ span, f = .mixed n span₁ top bottom span₂ span ∧
        good top ∧ good' bottom := by
  intro c faces
  have split : (n.text ++ "(" ++ s ++ ")/(" ++ t ++ ")").toList ++ rest =
      n.text.toList ++ (("(" ++ s ++ ")/(" ++ t ++ ")").toList ++ rest) := by
    simp [String.toList_append]
  rw [split] at faces
  simp only [Numeral.isWhole, Bool.and_eq_true, Option.isNone_iff_eq_none] at whole
  have integer : n.kind = .integer := by
    simp [Numeral.kind, whole.1, whole.2]
  have ends : n.Ends (("(" ++ s ++ ")/(" ++ t ++ ")").toList ++ rest) := by
    refine ends_of_next ?_ (by simp [Numeral.isScientific, whole.2])
    simp only [String.toList_append]
    exact next_cons.mpr (by decide)
  have first := first?_numeral canonical ends
  rw [integer] at first
  have read : c.mixed.Gives fun f d => (∃ span₁ top bottom span₂ span,
      f = .mixed n span₁ top bottom span₂ span ∧ good top ∧ good' bottom) ∧ d.Faces rest := by
    rw [mixed]
    refine (expect_gives faces first rfl).orBack.andThen ?_
    intro token c₁ _ number
    obtain ⟨lexeme, faces₁⟩ := number
    obtain ⟨q, c₂, shorter, hquotient, ⟨here, there⟩, faces₂⟩ :=
      (reads_quotient top bottom c₁ faces₁).eq_ok
    have numeric : q.isNumeric = true := by
      rw [Quotient.isNumeric, here.2, there.2, Bool.and_self]
    simp only [hquotient, numeric, if_true, lexeme, Numeral.ofDecimalText_text whole.2]
    exact ⟨⟨_, _, _, _, _, rfl, here.1, there.1⟩, faces₂⟩
  rw [atom, peek_of_faces faces first rfl]
  exact read.orElse _

/-! ## Radicals -/

theorem index?_natText {i : UInt32} (h : 2 ≤ i) {token : Token}
    (lexeme : token.lexeme.toList = (Digits.natText i.toNat).toList) : index? token = some i := by
  have text : token.lexeme = Digits.natText i.toNat := String.toList_injective lexeme
  have low : 2 ≤ i.toNat := UInt32.le_iff_toNat_le.mp h
  have high : i.toNat < UInt32.size := i.toNat_lt
  rw [index?, text, Digits.number?_natText]
  simp only [low, high, and_self, if_true, UInt32.ofNat_toNat]

/-- A written index is read back. -/
theorem reads_index {i : UInt32} (h : 2 ≤ i) :
    Reads index ("[" ++ Digits.natText i.toNat ++ "]") rest (· = i) := by
  intro c faces
  have numeral : (Numeral.ofNat i.toNat).text = Digits.natText i.toNat := by
    simp [Numeral.text, Numeral.ofNat, Digits.natText]
  have ends : (Numeral.ofNat i.toNat).Ends (']' :: rest) :=
    ends_of_next (next_cons.mpr (by decide)) rfl
  have digits : first? ((Digits.natText i.toNat).toList ++ ']' :: rest) =
      some ⟨.integer, (Digits.natText i.toNat).toList, ']' :: rest⟩ := by
    rw [← numeral]
    exact first?_numeral (Numeral.isCanonical_ofNat _) ends
  have split : ("[" ++ Digits.natText i.toNat ++ "]").toList ++ rest =
      '[' :: ((Digits.natText i.toNat).toList ++ ']' :: rest) := by
    simp [String.toList_append]
  rw [split] at faces
  have opening : first? ('[' :: ((Digits.natText i.toNat).toList ++ ']' :: rest)) =
      some ⟨.openSquare, ['['], (Digits.natText i.toNat).toList ++ ']' :: rest⟩ := rfl
  have closing : first? (']' :: rest) = some ⟨.closeSquare, [']'], rest⟩ := rfl
  rw [index]
  refine (expect_gives faces opening rfl).orBack.andThen ?_
  intro opened c₁ _ bracket
  obtain ⟨-, faces₁⟩ := bracket
  refine (expect_gives faces₁ digits rfl).orBack.andThen ?_
  intro token c₂ _ number
  obtain ⟨lexeme, faces₂⟩ := number
  rw [index?_natText h lexeme]
  refine Gives.map ?_
  exact (expect_gives faces₂ closing rfl).orBack.imp fun _ _ there => ⟨rfl, there.2⟩

theorem peek_of_index {i : UInt32} (faces : c.Faces ((Formula.indexText (some i)).toList ++ cs)) :
    c.peek = some .openSquare := by
  have first : first? ((Formula.indexText (some i)).toList ++ cs) =
      some ⟨.openSquare, ['['], (Digits.natText i.toNat).toList ++ ']' :: cs⟩ := by
    simp only [Formula.indexText, String.toList_append, List.append_assoc]
    rfl
  exact peek_of_faces faces first rfl

theorem peek_of_atom {d : Cursor} {f : Formula} {shorter : d.remaining < c.remaining}
    (h : c.atom = .ok f d shorter) : ∃ kind ∈ atomStart, c.peek = some kind := by
  rw [atom] at h
  split at h
  case h_3 hpeek => exact ⟨.openParen, by decide, hpeek⟩
  case h_4 hpeek => exact ⟨.integer, by decide, hpeek⟩
  case h_5 hpeek => exact ⟨.name, by decide, hpeek⟩
  case h_6 hpeek => exact ⟨.decimal, by decide, hpeek⟩
  case h_7 hpeek => exact ⟨.scientific, by decide, hpeek⟩
  case h_8 hpeek => exact ⟨.radical, by decide, hpeek⟩
  all_goals cases h

/-- A radical with an atom under it is an atom. -/
theorem reads_atom_radical {index : Option UInt32} (h : ∀ i ∈ index, 2 ≤ i)
    (radicand : Reads atom s rest good) :
    Reads atom ("√" ++ Formula.indexText index ++ s) rest fun f =>
      ∃ r span, f = .root index r span ∧ good r := by
  intro c faces
  have split : ("√" ++ Formula.indexText index ++ s).toList ++ rest =
      '√' :: ((Formula.indexText index).toList ++ (s.toList ++ rest)) := by
    simp [String.toList_append]
  rw [split] at faces
  have radical : first? ('√' :: ((Formula.indexText index).toList ++ (s.toList ++ rest))) =
      some ⟨.radical, ['√'], (Formula.indexText index).toList ++ (s.toList ++ rest)⟩ := rfl
  have read : c.root.Gives fun f d => (∃ r span, f = .root index r span ∧ good r) ∧
      d.Faces rest := by
    rw [root]
    refine (expect_gives faces radical rfl).orBack.andThen ?_
    intro sign c₁ _ read
    rcases read with ⟨-, faces₁⟩
    cases index with
    | none =>
        -- an atom is read here, and none starts with a square bracket
        obtain ⟨r, c₂, shorter, hatom, here, faces₂⟩ := (radicand c₁ faces₁).eq_ok
        obtain ⟨kind, hkind, hpeek⟩ := peek_of_atom hatom
        have peek : c₁.peek ≠ some .openSquare := by
          rw [hpeek]
          rintro ⟨⟩
          revert hkind
          decide
        simp only [if_neg peek, hatom]
        exact ⟨⟨r, _, rfl, here⟩, faces₂⟩
    | some i =>
        rw [if_pos (peek_of_index faces₁)]
        refine (reads_index (h i rfl) c₁ faces₁).andThen ?_
        intro n c₂ _ read
        obtain ⟨rfl, faces₂⟩ := read
        exact Gives.map ((radicand c₂ faces₂).imp fun r _ there => ⟨⟨r, _, rfl, there.1⟩, there.2⟩)
  rw [atom, peek_of_faces faces radical rfl]
  exact read.orBlame _

/-- A radical with a group under it is an atom; the index two is not written. -/
theorem reads_atom_root {i : UInt32} (h : 2 ≤ i) (inner : ReadsSum s good)
    (after : Follows atomEnd rest) :
    Reads atom ("√" ++ indexText i ++ "(" ++ s ++ ")") rest fun f =>
      ∃ index inner span₁ span, f = .root index (.group inner span₁) span ∧ index.getD 2 = i ∧
        good inner := by
  obtain ⟨index, text, value, atLeast⟩ : ∃ index, indexText i = Formula.indexText index ∧
      index.getD 2 = i ∧ ∀ j ∈ index, 2 ≤ j := by
    by_cases two : i = 2
    · exact ⟨none, by rw [indexText, if_pos two]; rfl, two.symm, by simp⟩
    · exact ⟨some i, by rw [indexText, if_neg two]; rfl, rfl, by simpa using h⟩
  have split : "√" ++ indexText i ++ "(" ++ s ++ ")" =
      "√" ++ Formula.indexText index ++ ("(" ++ s ++ ")") := by
    rw [text]
    simp only [String.append_assoc]
  rw [split]
  refine (reads_atom_radical atLeast (reads_atom_group inner after)).imp ?_
  rintro f ⟨r, span, rfl, inner, span₁, rfl, here⟩
  exact ⟨index, inner, span₁, span, rfl, value, here⟩

end Cursor

end StepAlgebra
