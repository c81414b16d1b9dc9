import StepAlgebra.Proofs.Token.Lexer
import StepAlgebra.Proofs.Token.Rules

/-!
# A text is cut by longest match

The rules of the tokens share beginnings: the text `2*10x` starts like a power of ten and is none,
and `2.x` starts like a decimal. So the reader looks ahead, and takes what the rules allow.

* `Lexer.piece_longest` — a piece is the longest that any rule matches;
* `Lexer.split_of_scan` — every token is such a piece of the text, at its place;
* `Token.scan_partitions_by_longest_match` — the tokens make up the text.
-/

namespace StepAlgebra

open Lexer

/-- The rule of a kind matches a front of the text that is not empty. -/
structure TokenKind.Opens (kind : TokenKind) (front cs : List Char) : Prop where
  nonempty : front ≠ []
  isFront : front <+: cs
  matched : kind.Matches front

/-- A token is what longest match takes from a text: as long as any rule allows, and an unknown
character if no rule matches. -/
structure Token.IsLongestMatch (t : Token) (cs : List Char) : Prop where
  longest : (∃ kind front, TokenKind.Opens kind front cs) →
    t.kind.Opens t.lexeme.toList cs ∧
      ∀ kind front, TokenKind.Opens kind front cs → front.length ≤ t.lexeme.length
  unknown : (¬∃ kind front, TokenKind.Opens kind front cs) →
    t.kind = .unknown ∧ t.lexeme.length = 1

/-- Spans that follow one another from one offset to another, without gaps. -/
inductive Span.Tile : Nat → List Span → Nat → Prop
  | nil {offset : Nat} : Tile offset [] offset
  | cons {start middle stop : Nat} {spans : List Span} :
      Tile middle spans stop → Tile start (⟨start, middle⟩ :: spans) stop

namespace Lexer

open TokenKind

variable {p : Char → Bool} {c : Char} {a b cs digits ds row rest rest' : List Char}

/-! ## Rows as long as they can be -/

theorem isRow_takeWhile (h : cs.takeWhile p ≠ []) : IsRow p (cs.takeWhile p) :=
  ⟨h, List.all_eq_true.mp List.all_takeWhile⟩

theorem isRow_cons_takeWhile (hc : p c = true) : IsRow p (c :: cs.takeWhile p) := by
  rw [← List.takeWhile_cons_of_pos hc]
  exact isRow_takeWhile (by simp [hc])

theorem length_le_takeWhile (hrow : ∀ c ∈ row, p c = true) (h : row <+: cs) :
    row.length ≤ (cs.takeWhile p).length := by
  obtain ⟨rest, rfl⟩ := h
  rw [List.takeWhile_append_of_pos hrow, List.length_append]
  omega

theorem next_dropWhile : Next (p · = false) (cs.dropWhile p) := by
  intro c hc
  have h := List.head?_dropWhile_not p cs
  rw [Option.mem_def.mp hc] at h
  simpa using h

/-- Two rows that are taken whole from one text are the same. -/
theorem row_unique (ha : ∀ c ∈ a, p c = true) (hb : ∀ c ∈ b, p c = true)
    (hrest : Next (p · = false) rest) (hrest' : Next (p · = false) rest')
    (split : a ++ rest = b ++ rest') : a = b ∧ rest = rest' := by
  have rows := congrArg (List.takeWhile p) split
  rw [takeWhile_append_of_next ha hrest, takeWhile_append_of_next hb hrest'] at rows
  subst rows
  exact ⟨rfl, List.append_cancel_left split⟩

/-! ## Numbers -/

theorem places?_eq_some {places : List Char} (h : places? cs = some (places, rest)) :
    ∃ ds, places = '.' :: ds ∧ IsRow Digit.isWrittenBy ds := by
  unfold places? at h
  split at h
  · split at h
    · cases h
    · next some =>
        cases h
        exact ⟨_, rfl, isRow_takeWhile some⟩
  · cases h

/-- A point and digits are cut off, with all digits that follow. -/
theorem places?_point (hds : IsRow Digit.isWrittenBy ds) (rest : List Char) :
    places? ('.' :: (ds ++ rest)) = some ('.' :: (ds ++ rest.takeWhile Digit.isWrittenBy),
      rest.dropWhile Digit.isWrittenBy) := by
  rw [places?, List.takeWhile_append_of_pos hds.2, List.dropWhile_append_of_pos hds.2]
  split
  · next none => exact absurd (List.append_eq_nil_iff.mp none).1 hds.1
  · rfl

theorem raised?_eq_some {lead power : List Char} (h : raised? lead cs = some (power, rest)) :
    ∃ row, power = lead ++ row ∧ IsRow Superscript.isDigit row := by
  unfold raised? at h
  split at h
  · cases h
  · next some =>
      cases h
      exact ⟨_, rfl, isRow_takeWhile some⟩

theorem raised?_row {lead : List Char} (hrow : IsRow Superscript.isDigit row) :
    raised? lead (row ++ rest) = some (lead ++ (row ++ rest.takeWhile Superscript.isDigit),
      rest.dropWhile Superscript.isDigit) := by
  rw [raised?, List.takeWhile_append_of_pos hrow.2, List.dropWhile_append_of_pos hrow.2]
  split
  · next none => exact absurd (List.append_eq_nil_iff.mp none).1 hrow.1
  · rfl

theorem power?_eq_some {power : List Char} (h : power? cs = some (power, rest)) :
    ∃ sign row, power = '*' :: '1' :: '0' :: (sign ++ row) ∧ (sign = [] ∨ sign = ['⁻']) ∧
      IsRow Superscript.isDigit row := by
  unfold power? at h
  split at h
  · obtain ⟨row, rfl, hrow⟩ := raised?_eq_some h
    exact ⟨['⁻'], row, rfl, .inr rfl, hrow⟩
  · obtain ⟨row, rfl, hrow⟩ := raised?_eq_some h
    exact ⟨[], row, rfl, .inl rfl, hrow⟩
  · cases h

/-- A power of ten is cut off, with all superscript digits that follow. -/
theorem power?_raised {sign : List Char} (hsign : sign = [] ∨ sign = ['⁻'])
    (hrow : IsRow Superscript.isDigit row) (rest : List Char) :
    power? ('*' :: '1' :: '0' :: (sign ++ (row ++ rest))) =
      some ('*' :: '1' :: '0' :: (sign ++ (row ++ rest.takeWhile Superscript.isDigit)),
        rest.dropWhile Superscript.isDigit) := by
  rcases hsign with rfl | rfl
  · rw [List.nil_append, power?]
    · exact raised?_row hrow
    · -- a superscript digit is no superscript minus sign
      rintro more minus
      have digit := hrow.head minus.symm
      revert digit
      decide
  · exact raised?_row hrow

/-- A number is what its kind says. -/
theorem matches_number (hdigits : IsRow Digit.isWrittenBy digits) :
    Matches (number digits rest).kind (number digits rest).lexeme := by
  unfold number
  cases hplaces : places? rest with
  | none =>
      simp only [Option.getD_none]
      cases hpower : power? rest with
      | none => simpa using matches_integer.mpr hdigits
      | some q =>
          obtain ⟨sign, row, split, hsign, hrow⟩ := power?_eq_some hpower
          refine matches_scientific.mpr ⟨digits, [], sign, row, ?_, hdigits, .inl rfl, hsign, hrow⟩
          simp [split]
  | some q =>
      obtain ⟨ds, split, hds⟩ := places?_eq_some hplaces
      simp only [Option.getD_some, split]
      cases hpower : power? q.2 with
      | none => exact matches_decimal.mpr ⟨digits, ds, rfl, hdigits, hds⟩
      | some q =>
          obtain ⟨sign, row, split, hsign, hrow⟩ := power?_eq_some hpower
          refine matches_scientific.mpr
            ⟨digits, '.' :: ds, sign, row, ?_, hdigits, .inr ⟨ds, rfl, hds⟩, hsign, hrow⟩
          simp [split]

/-- A number goes on at least as far as its places. -/
theorem length_places_le (digits : List Char) {places : List Char}
    (h : places? rest = some (places, rest')) :
    (digits ++ places).length ≤ (number digits rest).lexeme.length := by
  rw [number, h]
  simp only [Option.getD_some]
  split
  · exact (List.prefix_append _ _).length_le
  · exact Nat.le_refl _

theorem number_of_power {power after : List Char}
    (hplaces : (places? rest).getD ([], rest) = (ds, rest'))
    (hpower : power? rest' = some (power, after)) :
    number digits rest = ⟨.scientific, digits ++ ds ++ power, after⟩ := by
  rw [number, hplaces]
  simp only [hpower]

/-- No rule for numbers matches more than the number that is read. -/
theorem length_le_number {kind : TokenKind} {front : List Char}
    (hdigits : IsRow Digit.isWrittenBy digits) (hrest : Next (Digit.isWrittenBy · = false) rest)
    (hkind : kind ∈ [TokenKind.integer, .decimal, .scientific]) (matched : kind.Matches front)
    (isFront : front <+: digits ++ rest) :
    front.length ≤ (number digits rest).lexeme.length := by
  have least := number_lexeme_length digits rest
  simp only [List.mem_cons, List.not_mem_nil, or_false] at hkind
  rcases hkind with rfl | rfl | rfl
  case inl =>
    have rows := length_le_takeWhile (matches_integer.mp matched).2 isFront
    rw [takeWhile_append_of_next hdigits.2 hrest] at rows
    omega
  case inr.inl =>
    obtain ⟨whole, ds, rfl, hwhole, hds⟩ := matches_decimal.mp matched
    obtain ⟨more, split⟩ := isFront
    rw [List.append_assoc, List.cons_append] at split
    obtain ⟨rfl, rfl⟩ := row_unique hwhole.2 hdigits.2 (next_cons.mpr (by decide)) hrest split
    have places := length_places_le whole (places?_point hds more)
    simp at places ⊢
    omega
  case inr.inr =>
    obtain ⟨whole, places, sign, power, rfl, hwhole, hplaces, hsign, hpower⟩ :=
      matches_scientific.mp matched
    obtain ⟨more, split⟩ := isFront
    simp only [List.append_assoc, List.cons_append] at split
    have raised := power?_raised hsign hpower more
    rcases hplaces with rfl | ⟨ds, rfl, hds⟩
    · obtain ⟨rfl, rfl⟩ := row_unique hwhole.2 hdigits.2 (next_cons.mpr (by decide)) hrest split
      have whole : places? ('*' :: '1' :: '0' :: (sign ++ (power ++ more))) = none :=
        places?_of_next (next_cons.mpr (by decide))
      rw [number_of_power (by rw [whole, Option.getD_none]) raised]
      simp
    · rw [List.cons_append] at split
      obtain ⟨rfl, rfl⟩ := row_unique hwhole.2 hdigits.2 (next_cons.mpr (by decide)) hrest split
      have places := places?_point hds ('*' :: '1' :: '0' :: (sign ++ (power ++ more)))
      rw [number_of_power (by rw [places]; rfl) raised]
      simp
      omega

/-! ## Pieces -/

theorem isBlank_of_isWrittenBy (h : Digit.isWrittenBy c = true) : isBlank c = false := by
  obtain ⟨d, rfl⟩ := Digit.exists_toChar h
  exact isBlank_toChar d

theorem isBlank_of_isDigit (h : Superscript.isDigit c = true) : isBlank c = false := by
  obtain ⟨d, rfl⟩ := Superscript.exists_ofDigit h
  exact isBlank_ofDigit d

theorem isWrittenBy_of_isDigit (h : Superscript.isDigit c = true) :
    Digit.isWrittenBy c = false := by
  obtain ⟨d, rfl⟩ := Superscript.exists_ofDigit h
  exact Superscript.isWrittenBy_ofDigit d

theorem piece_isFront : (piece c cs).lexeme <+: c :: cs :=
  ⟨(piece c cs).rest, piece_append c cs⟩

theorem piece_nonempty : (piece c cs).lexeme ≠ [] :=
  List.ne_nil_of_length_pos (piece_lexeme_pos c cs)

/-- The rule of its kind matches a piece, unless the kind is unknown. -/
theorem matches_piece (known : (piece c cs).kind ≠ .unknown) :
    Matches (piece c cs).kind (piece c cs).lexeme := by
  revert known
  unfold piece
  by_cases blank : isBlank c = true
  · rw [if_pos blank]
    intro _
    exact matches_blank.mpr (isRow_cons_takeWhile blank)
  rw [if_neg blank]
  by_cases digit : Digit.isWrittenBy c = true
  · rw [if_pos digit]
    intro _
    exact matches_number (isRow_cons_takeWhile digit)
  rw [if_neg digit]
  by_cases superscript : Superscript.isDigit c = true
  · rw [if_pos superscript]
    intro _
    exact matches_superscript.mpr (isRow_cons_takeWhile superscript)
  rw [if_neg superscript]
  exact matches_symbolKind

/-- No rule matches more than the piece that is read. -/
theorem length_le_piece {kind : TokenKind} {front : List Char} (h : kind.Opens front (c :: cs)) :
    front.length ≤ (piece c cs).lexeme.length := by
  obtain ⟨d, others, rfl⟩ := List.exists_cons_of_ne_nil h.nonempty
  obtain rfl : d = c := (List.cons_prefix_cons.mp h.isFront).1
  have pos := piece_lexeme_pos d cs
  rcases matches_cases h.matched with ⟨-, hrow⟩ | ⟨hkind, digit⟩ | ⟨-, hrow⟩ | ⟨rfl, -⟩
  case inl =>
    have blank := hrow.2 d List.mem_cons_self
    have rows := length_le_takeWhile hrow.2 h.isFront
    rw [List.takeWhile_cons_of_pos blank] at rows
    rwa [piece, if_pos blank]
  case inr.inl =>
    have blank := isBlank_of_isWrittenBy digit
    have isFront := h.isFront
    rw [← List.takeWhile_append_dropWhile (l := cs) (p := Digit.isWrittenBy)] at isFront
    rw [piece, if_neg (by simp [blank]), if_pos digit]
    exact length_le_number (isRow_cons_takeWhile digit) next_dropWhile hkind h.matched isFront
  case inr.inr.inl =>
    have superscript := hrow.2 d List.mem_cons_self
    have rows := length_le_takeWhile hrow.2 h.isFront
    rw [List.takeWhile_cons_of_pos superscript] at rows
    rwa [piece, if_neg (by simp [isBlank_of_isDigit superscript]),
      if_neg (by simp [isWrittenBy_of_isDigit superscript]), if_pos superscript]
  case inr.inr.inr => exact pos

/-- A piece is unknown only if no rule matches, and then it is one character. -/
theorem alone_of_unknown (h : (piece c cs).kind = .unknown) :
    (piece c cs).lexeme = [c] ∧ ¬∃ kind front, TokenKind.Opens kind front (c :: cs) := by
  unfold piece at h ⊢
  by_cases blank : isBlank c = true
  · rw [if_pos blank] at h
    cases h
  rw [if_neg blank] at h ⊢
  by_cases digit : Digit.isWrittenBy c = true
  · rw [if_pos digit] at h
    have number := kind_number (c :: cs.takeWhile Digit.isWrittenBy)
      (cs.dropWhile Digit.isWrittenBy)
    rw [h] at number
    simp at number
  rw [if_neg digit] at h ⊢
  by_cases superscript : Superscript.isDigit c = true
  · rw [if_pos superscript] at h
    cases h
  rw [if_neg superscript] at h ⊢
  refine ⟨rfl, ?_⟩
  rintro ⟨kind, front, opens⟩
  obtain ⟨d, others, rfl⟩ := List.exists_cons_of_ne_nil opens.nonempty
  obtain rfl : d = c := (List.cons_prefix_cons.mp opens.isFront).1
  rcases matches_cases opens.matched with ⟨-, hrow⟩ | ⟨-, isDigit⟩ | ⟨-, hrow⟩ | ⟨-, rfl, known⟩
  · exact blank (hrow.2 d List.mem_cons_self)
  · exact digit isDigit
  · exact superscript (hrow.2 d List.mem_cons_self)
  · exact known h

/-- A token read off a text is what longest match takes from it. -/
theorem isLongestMatch_piece (span : Span) :
    (Token.mk (piece c cs).kind (String.ofList (piece c cs).lexeme) span).IsLongestMatch
      (c :: cs) := by
  constructor
  · intro some
    have known : (piece c cs).kind ≠ .unknown := fun h => (alone_of_unknown h).2 some
    refine ⟨⟨?_, ?_, ?_⟩, ?_⟩
    · rw [String.toList_ofList]
      exact piece_nonempty
    · rw [String.toList_ofList]
      exact piece_isFront
    · rw [String.toList_ofList]
      exact matches_piece known
    · intro kind front opens
      rw [String.length_ofList]
      exact length_le_piece opens
  · intro none
    have unknown : (piece c cs).kind = .unknown := by
      by_contra known
      exact none ⟨_, _, piece_nonempty, piece_isFront, matches_piece known⟩
    refine ⟨unknown, ?_⟩
    rw [String.length_ofList, (alone_of_unknown unknown).1]
    rfl

/-! ## The whole text -/

theorem join_scan (offset : Nat) (cs : List Char) :
    String.join ((scan offset cs).map Token.lexeme) = String.ofList cs := by
  induction offset, cs using scan.induct with
  | case1 offset => simp [scan_nil]
  | case2 offset c cs lexeme stop ih =>
      rw [scan, List.map_cons, String.join_cons, ih, ← String.ofList_append, piece_append]

theorem tile_scan (offset : Nat) (cs : List Char) :
    Span.Tile offset ((scan offset cs).map Token.span)
      (offset + (String.ofList cs).utf8ByteSize) := by
  induction offset, cs using scan.induct with
  | case1 offset => simpa [scan_nil] using .nil
  | case2 offset c cs lexeme stop ih =>
      rw [← piece_append c cs, String.ofList_append, String.utf8ByteSize_append, ← Nat.add_assoc,
        piece_append, scan, List.map_cons]
      exact .cons ih

/-- Every token of a text stands where its span says, and is what longest match takes there. -/
theorem split_of_scan {t : Token} {later : List Token} (offset : Nat) (cs : List Char) :
    ∀ earlier, scan offset cs = earlier ++ t :: later →
      ∃ after, String.ofList cs = String.join (earlier.map Token.lexeme) ++ t.lexeme ++ after ∧
        t.span.start = offset + (String.join (earlier.map Token.lexeme)).utf8ByteSize ∧
        t.span.stop = t.span.start + t.lexeme.utf8ByteSize ∧
        t.IsLongestMatch (t.lexeme ++ after).toList := by
  induction offset, cs using scan.induct with
  | case1 offset => simp [scan_nil]
  | case2 offset c cs lexeme stop ih =>
      intro earlier h
      have front : String.ofList (c :: cs) = lexeme ++ String.ofList (piece c cs).rest := by
        rw [← String.ofList_append, piece_append]
      rw [scan] at h
      cases earlier with
      | nil =>
          obtain ⟨rfl, rfl⟩ := List.cons.inj h
          refine ⟨String.ofList (piece c cs).rest, ?_, rfl, rfl, ?_⟩
          · simpa using front
          · rw [← String.ofList_append, piece_append, String.toList_ofList]
            exact isLongestMatch_piece _
      | cons first earlier =>
          obtain ⟨rfl, hrest⟩ := List.cons.inj h
          obtain ⟨after, split, start, stop, longest⟩ := ih earlier hrest
          refine ⟨after, ?_, ?_, stop, longest⟩
          · rw [front, split, List.map_cons, String.join_cons, String.append_assoc,
              String.append_assoc, String.append_assoc]
          · rw [start, List.map_cons, String.join_cons, String.utf8ByteSize_append, Nat.add_assoc]

end Lexer

namespace Token

/-- The tokens of a text make it up, their spans follow one another from its start to its end, and
each of them is what longest match takes at its place. -/
theorem scan_partitions_by_longest_match (input : String) :
    String.join ((scan input).map lexeme) = input ∧
      Span.Tile 0 ((scan input).map span) input.utf8ByteSize ∧
      ∀ earlier t later, scan input = earlier ++ t :: later →
        ∃ before after, input = before ++ t.lexeme ++ after ∧
          t.span = ⟨before.utf8ByteSize, (before ++ t.lexeme).utf8ByteSize⟩ ∧
          before = String.join (earlier.map lexeme) ∧
          t.IsLongestMatch (t.lexeme ++ after).toList := by
  refine ⟨?_, ?_, ?_⟩
  · rw [scan, join_scan, String.ofList_toList]
  · have tile := tile_scan 0 input.toList
    rwa [String.ofList_toList, Nat.zero_add] at tile
  · intro earlier t later h
    obtain ⟨after, split, start, stop, longest⟩ := split_of_scan 0 input.toList earlier h
    rw [String.ofList_toList] at split
    rw [Nat.zero_add] at start
    refine ⟨_, after, split, ?_, rfl, longest⟩
    rw [String.utf8ByteSize_append, ← start, ← stop]

/-- In a power of ten that breaks off before its digits, the raised minus sign is left over. -/
theorem scan_partitions_by_longest_match_of_lone_minus :
    let minus : Token := ⟨.unknown, "⁻", ⟨4, 7⟩⟩
    scan "3*10⁻x" = [⟨.integer, "3", ⟨0, 1⟩⟩, ⟨.times, "*", ⟨1, 2⟩⟩, ⟨.integer, "10", ⟨2, 4⟩⟩] ++
        minus :: [⟨.name, "x", ⟨7, 8⟩⟩] ∧
      minus.IsLongestMatch "⁻x".toList := by
  intro minus
  have cut : scan "3*10⁻x" = [⟨.integer, "3", ⟨0, 1⟩⟩, ⟨.times, "*", ⟨1, 2⟩⟩,
      ⟨.integer, "10", ⟨2, 4⟩⟩] ++ minus :: [⟨.name, "x", ⟨7, 8⟩⟩] := by decide +kernel
  obtain ⟨before, after, split, -, hbefore, longest⟩ :=
    (scan_partitions_by_longest_match "3*10⁻x").2.2 _ _ _ cut
  refine ⟨cut, ?_⟩
  have hafter : "3*10⁻" ++ "x" = "3*10⁻" ++ after := by
    rw [hbefore] at split
    exact split
  rwa [← (String.append_right_inj _).mp hafter] at longest

end Token

end StepAlgebra
