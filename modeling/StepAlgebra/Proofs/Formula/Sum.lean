import StepAlgebra.Proofs.Formula.Atom

/-!
# What is read as a sum

The productions above an atom, each with what ends it. A row of factors goes on as long as an atom
starts, and a row of terms as long as there is a sign.

* `Cursor.reads_power`, `Cursor.reads_factors_cons`, `Cursor.reads_terms_cons` — the steps of a
  row;
* `Cursor.readsSum_of_product`, `Cursor.readsSum_of_minus` — what is read in one of the lower
  productions is read as a sum.
-/

namespace StepAlgebra

namespace Cursor

open Lexer Outcome

variable {c d : Cursor} {rest : List Char} {s t : String} {good : Formula → Prop}
  {goods : List Formula → Prop} {isFirst : Bool}

/-! ## Where a production starts -/

theorem peek_of_power {f : Formula} {shorter : d.remaining < c.remaining}
    (h : c.power = .ok f d shorter) : ∃ kind ∈ atomStart, c.peek = some kind := by
  rw [power] at h
  split at h
  · cases h
  · next hatom => exact peek_of_atom hatom

theorem peek_of_factors {fs : List Formula} {shorter : d.remaining < c.remaining}
    (h : c.factors = .ok fs d shorter) : ∃ kind ∈ atomStart, c.peek = some kind := by
  rw [factors] at h
  split at h
  · cases h
  · next hpower => exact peek_of_power hpower

theorem peek_of_product {f : Formula} {shorter : d.remaining < c.remaining}
    (h : c.product = .ok f d shorter) : ∃ kind ∈ atomStart, c.peek = some kind := by
  rw [product] at h
  cases hfactors : c.factors with
  | failed cause after =>
      rw [hfactors] at h
      cases h
  | ok fs after shorter' => exact peek_of_factors hfactors

/-- No atom starts with a sign. -/
theorem sign_of_start (h : ∃ kind ∈ atomStart, c.peek = some kind) : c.sign = none := by
  obtain ⟨kind, hkind, hpeek⟩ := h
  have unsigned : ∀ kind ∈ atomStart, sign? kind = none := by decide
  rw [sign, hpeek, Option.bind_some, unsigned kind hkind]

/-! ## Powers -/

theorem reads_power_bare (h : Reads atom s rest good) (after : Follows factorEnd rest) :
    Reads power s rest good := by
  intro c faces
  obtain ⟨base, c₁, shorter, hbase, here, faces₁⟩ := (h c faces).eq_ok
  have none : c₁.peek ≠ some .superscript :=
    peek_ne_of_follows after faces₁ rfl rfl
  rw [power]
  simp only [hbase, if_neg none]
  exact ⟨here, faces₁⟩

theorem reads_superscript {e : UInt32} (after : Follows factorEnd rest) :
    Reads superscript (Superscript.ofNat e.toNat) rest fun read => read.1 = e := by
  intro c faces
  have first := first?_exponent e.toNat (next_superscript_of_follows after rfl)
  obtain ⟨token, c₁, shorter, hexpect, hlexeme, faces₁⟩ :=
    (expect_gives faces first rfl).orBack.eq_ok
  have text : token.lexeme = Superscript.ofNat e.toNat := String.toList_injective hlexeme
  simp only [superscript, hexpect, text, Superscript.read?_ofNat e.toNat_lt, UInt32.ofNat_toNat]
  exact ⟨rfl, faces₁⟩

/-- An atom and an exponent on it. -/
theorem reads_power {e : UInt32}
    (h : Reads atom s ((Superscript.ofNat e.toNat).toList ++ rest) good)
    (after : Follows factorEnd rest) :
    Reads power (s ++ Superscript.ofNat e.toNat) rest fun f =>
      ∃ base span₁ span, f = .power base e span₁ span ∧ good base := by
  intro c faces
  rw [String.toList_append, List.append_assoc] at faces
  obtain ⟨base, c₁, shorter, hbase, here, faces₁⟩ := (h c faces).eq_ok
  have first := first?_exponent e.toNat (next_superscript_of_follows after rfl)
  obtain ⟨⟨exponent, span⟩, c₂, shorter', hsuperscript, hexponent, faces₂⟩ :=
    (reads_superscript after c₁ faces₁).orBack.eq_ok
  obtain rfl : exponent = e := hexponent
  rw [power]
  simp only [hbase, if_pos (peek_of_faces faces₁ first rfl), hsuperscript]
  exact ⟨⟨base, span, _, rfl, here⟩, faces₂⟩

/-! ## Products -/

/-- A row of factors ends where a product does. -/
theorem reads_factors_one (h : Reads power s rest good) (after : Follows productEnd rest) :
    Reads factors s rest fun fs => ∃ f, fs = [f] ∧ good f := by
  intro c faces
  obtain ⟨factor, c₁, shorter, hfactor, here, faces₁⟩ := (h c faces).eq_ok
  rw [factors]
  cases hpeek : c₁.peek with
  | none =>
      simp only [hfactor, hpeek]
      exact ⟨⟨factor, rfl, here⟩, faces₁⟩
  | some kind =>
      -- none of the kinds that end a product starts an atom, nor is it a multiplication sign
      have ends := peek_of_follows after faces₁ hpeek rfl
      simp only [productEnd, List.mem_cons, List.not_mem_nil, or_false] at ends
      rcases ends with rfl | rfl | rfl | rfl
      all_goals
        simp only [hfactor, hpeek, atomStart]
        exact ⟨⟨factor, rfl, here⟩, faces₁⟩

/-- A row of factors goes on where another row starts. -/
theorem reads_factors_cons (h : Reads power s (t.toList ++ rest) good)
    (more : Reads factors t rest goods) :
    Reads factors (s ++ t) rest fun fs => ∃ f others, fs = f :: others ∧ good f ∧ goods others := by
  intro c faces
  rw [String.toList_append, List.append_assoc] at faces
  obtain ⟨factor, c₁, shorter, hfactor, here, faces₁⟩ := (h c faces).eq_ok
  obtain ⟨others, c₂, shorter', hothers, there, faces₂⟩ := (more c₁ faces₁).eq_ok
  -- the row after the first factor has been read, so an atom starts there
  obtain ⟨kind, hkind, hpeek⟩ := peek_of_factors hothers
  rw [factors]
  simp only [atomStart, List.mem_cons, List.not_mem_nil, or_false] at hkind
  rcases hkind with rfl | rfl | rfl | rfl | rfl | rfl
  all_goals
    simp only [hfactor, hpeek, atomStart, List.mem_cons, true_or, or_true, if_true, hothers]
    exact ⟨⟨factor, others, rfl, here, there⟩, faces₂⟩

/-- And where another row stands behind a multiplication sign. -/
theorem reads_factors_times (h : Reads power s ('*' :: (t.toList ++ rest)) good)
    (more : Reads factors t rest goods) :
    Reads factors (s ++ ("*" ++ t)) rest fun fs =>
      ∃ f others, fs = f :: others ∧ good f ∧ goods others := by
  intro c faces
  have split : (s ++ ("*" ++ t)).toList ++ rest = s.toList ++ '*' :: (t.toList ++ rest) := by
    simp [String.toList_append]
  rw [split] at faces
  obtain ⟨factor, c₁, shorter, hfactor, here, faces₁⟩ := (h c faces).eq_ok
  have first : first? ('*' :: (t.toList ++ rest)) = some ⟨.times, ['*'], t.toList ++ rest⟩ := rfl
  obtain ⟨token, c₂, shorter₂, htimes, -, -, faces₂⟩ := (advance_gives faces₁ first rfl).eq_ok
  obtain ⟨others, c₃, shorter₃, hothers, there, faces₃⟩ := (more c₂ faces₂).eq_ok
  rw [factors]
  simp only [hfactor, peek_of_faces faces₁ first rfl, htimes, Outcome.andThen, hothers]
  exact ⟨⟨factor, others, rfl, here, there⟩, faces₃⟩

theorem reads_product (h : Reads factors s rest goods) :
    Reads product s rest fun f => ∃ fs, f = Formula.ofFactors fs ∧ goods fs := by
  intro c faces
  rw [product]
  exact Gives.map ((h c faces).imp fun fs _ here => ⟨⟨fs, rfl, here.1⟩, here.2⟩)

theorem reads_product_of_power (h : Reads power s rest good) (after : Follows productEnd rest) :
    Reads product s rest good := by
  refine (reads_product (reads_factors_one h after)).imp ?_
  rintro f ⟨fs, rfl, f, rfl, here⟩
  exact here

/-! ## Terms -/

theorem reads_unsigned (h : Reads product s rest good) :
    Reads (·.signedProduct isFirst) s rest good := by
  intro c faces
  obtain ⟨f, d, shorter, hproduct, here⟩ := (h c faces).eq_ok
  show Gives _ (c.signedProduct isFirst)
  rw [signedProduct, sign_of_start (peek_of_product hproduct)]
  simp only [hproduct]
  exact here

/-- A sign in front of a text is passed. -/
theorem sign_gives {positive : Bool} {cs : List Char}
    (faces : c.Faces ((if positive then '+' else '-') :: cs)) :
    c.sign = some positive ∧ c.advance.Gives fun _ d => d.Faces cs := by
  have first : first? ((if positive then '+' else '-') :: cs) =
      some ⟨if positive then .plus else .minus, [if positive then '+' else '-'], cs⟩ := by
    cases positive <;> rfl
  have visible : ((if positive then .plus else .minus : TokenKind) != .blank) = true := by
    cases positive <;> rfl
  have signed : c.sign = some positive := by
    rw [sign, peek_of_faces faces first visible]
    cases positive <;> rfl
  exact ⟨signed, (advance_gives faces first visible).imp fun _ _ passed => passed.2.2⟩

theorem toList_signed (positive : Bool) (s : String) (rest : List Char) :
    ((if positive then "+" else "-") ++ s).toList ++ rest =
      (if positive then '+' else '-') :: (s.toList ++ rest) := by
  cases positive <;> simp [String.toList_append]

/-- The sign in front of what is read stays, but a plus sign between terms is forgotten. -/
theorem reads_signed (h : Reads product s rest good) (positive : Bool) :
    Reads (·.signedProduct isFirst) ((if positive then "+" else "-") ++ s) rest fun f =>
      ∃ operand span, good operand ∧
        f = if positive && !isFirst then operand else .signed positive operand span := by
  intro c faces
  rw [toList_signed] at faces
  obtain ⟨signed, passed⟩ := sign_gives faces
  show Gives _ (c.signedProduct isFirst)
  rw [signedProduct, signed]
  refine passed.andThen ?_
  intro token c₁ _ faces₁
  refine Gives.map ?_
  exact (h c₁ faces₁).imp fun f _ here => ⟨⟨f, _, here.1, rfl⟩, here.2⟩

/-- A minus sign stays in front of what is read. -/
theorem reads_minus (h : Reads product s rest good) :
    Reads (·.signedProduct isFirst) ("-" ++ s) rest fun f =>
      ∃ operand span, f = .signed false operand span ∧ good operand := by
  refine (reads_signed h false).imp ?_
  rintro f ⟨operand, span, here, rfl⟩
  exact ⟨operand, span, rfl, here⟩

/-- A plus sign between terms is passed and forgotten. -/
theorem reads_plus (h : Reads product s rest good) :
    Reads (·.signedProduct false) ("+" ++ s) rest good := by
  refine (reads_signed h true).imp ?_
  rintro f ⟨operand, span, here, rfl⟩
  exact here

/-- A row of terms ends where a sum does. -/
theorem reads_terms_one (h : Reads (·.signedProduct isFirst) s rest good)
    (after : Follows sumEnd rest) :
    Reads (·.terms isFirst) s rest fun fs => ∃ f, fs = [f] ∧ good f := by
  intro c faces
  obtain ⟨term, c₁, shorter, hterm, here, faces₁⟩ := (h c faces).eq_ok
  have none : c₁.sign.isSome = false := by
    cases hpeek : c₁.peek with
    | none => rw [sign, hpeek, Option.bind_none, Option.isSome_none]
    | some kind =>
        have unsigned : ∀ kind ∈ sumEnd, (sign? kind).isSome = false := by decide
        rw [sign, hpeek, Option.bind_some]
        exact unsigned kind (peek_of_follows after faces₁ hpeek rfl)
  show Gives _ (c.terms isFirst)
  rw [terms]
  simp only [hterm, none, Bool.false_eq_true, if_false]
  exact ⟨⟨term, rfl, here⟩, faces₁⟩

/-- A row of terms goes on where there is a sign. -/
theorem reads_terms_cons (h : Reads (·.signedProduct isFirst) s (t.toList ++ rest) good)
    (more : Reads (·.terms false) t rest goods)
    (signed : ∀ c : Cursor, c.Faces (t.toList ++ rest) → c.sign.isSome = true) :
    Reads (·.terms isFirst) (s ++ t) rest fun fs =>
      ∃ f others, fs = f :: others ∧ good f ∧ goods others := by
  intro c faces
  rw [String.toList_append, List.append_assoc] at faces
  obtain ⟨term, c₁, shorter, hterm, here, faces₁⟩ := (h c faces).eq_ok
  obtain ⟨others, c₂, shorter', hothers, there, faces₂⟩ := (more c₁ faces₁).eq_ok
  show Gives _ (c.terms isFirst)
  rw [terms]
  simp only [hterm, signed c₁ faces₁, if_true, hothers]
  exact ⟨⟨term, others, rfl, here, there⟩, faces₂⟩

theorem reads_sum (h : Reads (·.terms true) s rest goods) :
    Reads sum s rest fun f => ∃ fs, f = Formula.ofTerms fs ∧ goods fs := by
  intro c faces
  rw [sum]
  exact Gives.map ((h c faces).imp fun fs _ here => ⟨⟨fs, rfl, here.1⟩, here.2⟩)

/-! ## What is read as a sum -/

theorem Follows.sum_of_product (h : Follows sumEnd rest) : Follows productEnd rest :=
  h.mono rfl

theorem readsSum_of_signedProduct
    (h : ∀ rest, Follows productEnd rest → Reads (·.signedProduct true) s rest good) :
    ReadsSum s good := by
  intro rest after
  refine (reads_sum (reads_terms_one (h rest after.sum_of_product) after)).imp ?_
  rintro f ⟨fs, rfl, f, rfl, here⟩
  exact here

theorem readsSum_of_product (h : ∀ rest, Follows productEnd rest → Reads product s rest good) :
    ReadsSum s good :=
  readsSum_of_signedProduct fun rest after => reads_unsigned (h rest after)

theorem readsSum_of_minus (h : ∀ rest, Follows productEnd rest → Reads product s rest good) :
    ReadsSum ("-" ++ s) fun f => ∃ operand span, f = .signed false operand span ∧ good operand :=
  readsSum_of_signedProduct fun rest after => reads_minus (h rest after)

/-! ## Statements -/

/-- A sum alone is a statement. -/
theorem read_of_readsSum (h : ReadsSum s good) :
    ∃ f, Statement.read s = .ok (.formula f) ∧ good f := by
  have faces : (ofText s).Faces (s.toList ++ []) := by
    rw [List.append_nil]
    exact faces_ofText s
  obtain ⟨f, d, shorter, hsum, here, faces₁⟩ := (h [] follows_nil _ faces).orBack.eq_ok
  have nothing := peek_of_faces_nil faces₁
  refine ⟨f, ?_, here⟩
  simp [Statement.read, statement, hsum, Outcome.entire, Outcome.toExcept, nothing]

/-- Two sums with an equals sign between them are a statement. -/
theorem read_of_readsSum_equals {good' : Formula → Prop} (h : ReadsSum s good)
    (h' : ReadsSum t good') :
    ∃ f g span, Statement.read (s ++ "=" ++ t) = .ok (.equation f g span) ∧ good f ∧ good' g := by
  have faces : (ofText (s ++ "=" ++ t)).Faces (s.toList ++ '=' :: (t.toList ++ [])) := by
    have split : s.toList ++ '=' :: (t.toList ++ []) = (s ++ "=" ++ t).toList := by
      simp [String.toList_append]
    rw [split]
    exact faces_ofText _
  have first : first? ('=' :: (t.toList ++ [])) = some ⟨.equals, ['='], t.toList ++ []⟩ := rfl
  have after : Follows sumEnd ('=' :: (t.toList ++ [])) := follows_of_first? first rfl
  obtain ⟨f, c₁, shorter₁, hleft, here, faces₁⟩ := (h _ after _ faces).orBack.eq_ok
  have equals := peek_of_faces faces₁ first rfl
  obtain ⟨token, c₂, shorter₂, hequals, -, faces₂⟩ :=
    (expect_gives faces₁ first rfl).orBack.eq_ok
  obtain ⟨g, c₃, shorter₃, hright, there, faces₃⟩ := (h' [] follows_nil c₂ faces₂).orBack.eq_ok
  have nothing := peek_of_faces_nil faces₃
  refine ⟨f, g, f.span.through g.span, ?_, here, there⟩
  simp [Statement.read, statement, hleft, equals, hequals, hright, Outcome.andThen, Outcome.map,
    nothing, Outcome.entire, Outcome.toExcept]

end Cursor

end StepAlgebra
