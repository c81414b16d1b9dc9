import StepAlgebra.Proofs.Formula.Built
import StepAlgebra.Proofs.Formula.Grammar
import StepAlgebra.Proofs.Formula.Shown

/-!
# What is read is derived

Whatever a production of the reader passes is derived by the production of the grammar, and what
it gives is a formula of that rank, with the exponents that the tokens write. One lemma for each
production supposes this of the calls that start further on; by induction on the tokens that are
left it holds of all.

* `Grammar.Yields` — a production derives some tokens, and a formula is read from them;
* `Cursor.passes` — what each production passes;
* `Statement.IsDerived` — a statement is an equation where an equals sign was derived;
* `Statement.derives_of_read` — what a whole text is.
-/

namespace StepAlgebra

namespace Grammar

/-- The tokens of a literal in a production; only in a sum can it have a sign. -/
def Production.literal : Production → Production
  | .sum => .numeric
  | _ => .number

/-- The rank of what is read by a production. -/
def Production.rank : Production → Formula.Rank
  | .number | .atom => .atom
  | .factor => .factor
  | .product => .product
  | _ => .sum

/-- The exponents that are written in a row of tokens. -/
def Written (a : List Token) (e : UInt32) : Prop :=
  ∃ t ∈ a, t.kind = .superscript ∧ t.exponent = e.toNat

/-- A production derives the tokens that a formula of its rank is read from, and if this is a
literal they are those of a literal. -/
structure Yields (k : Production) (f : Formula) (a : List Token) : Prop where
  derives : Derives k a
  literal : f.isSignedLiteral = true → Derives k.literal a
  built : f.IsBuilt (Written a) k.rank

end Grammar

/-- What is built from some tokens is built from more. -/
theorem Formula.IsBuilt.within {f : Formula} {r : Rank} {a b : List Token}
    (h : f.IsBuilt (Grammar.Written a) r) (sub : a ⊆ b) : f.IsBuilt (Grammar.Written b) r :=
  h.mono fun _ ⟨t, ht, here⟩ => ⟨t, sub ht, here⟩

namespace Cursor

open Grammar Outcome

variable {c : Cursor} {ts : List Token}

theorem isSign_of_sign? {t : Token} {positive : Bool} (h : sign? t.kind = some positive) :
    t.IsSign := by
  unfold sign? at h
  split at h
  · next hkind => exact .inl hkind
  · next hkind => exact .inr hkind
  · cases h

/-! ## Single tokens -/

theorem literal_passes (h : c.Shows ts) : c.literal.Passes ts (Yields .number) := by
  unfold literal
  dsimp only
  split
  · trivial
  · next token after shorter hadvance =>
    obtain ⟨a, b, rfl, shows, -, spelled, rfl⟩ := (advance_passes h).of_eq_ok hadvance
    split
    · next hkind =>
      refine ⟨[token], b, rfl, shows, .integer hkind, fun _ => .integer hkind, ?_⟩
      exact .literal (Token.isCanonical_of_integer spelled hkind).1
    · next hkind =>
      refine ⟨[token], b, rfl, shows, .decimal hkind, fun _ => .decimal hkind, ?_⟩
      exact .literal (Token.isCanonical_of_decimal spelled hkind)
    · next hkind =>
      split
      · next numeral hnumeral =>
        have fits := (Token.isSome_ofScientificText?_iff spelled hkind).mp (by simp [hnumeral])
        refine ⟨[token], b, rfl, shows, .scientific hkind fits, fun _ => .scientific hkind fits, ?_⟩
        exact .literal (Token.isCanonical_of_scientific spelled hkind hnumeral)
      · trivial
    · trivial

theorem symbol_passes (h : c.Shows ts) : c.symbol.Passes ts (Yields .atom) := by
  unfold symbol
  split
  · trivial
  · next token after shorter hexpect =>
    obtain ⟨a, b, rfl, shows, hkind, spelled, rfl⟩ :=
      (expect_passes h .name).orBack.of_eq_ok hexpect
    obtain ⟨letter, hlexeme, alpha⟩ := spelled.exists_letter hkind
    simp only [hlexeme]
    exact ⟨[token], b, rfl, shows, .nameAtom hkind, Bool.noConfusion, .symbol alpha⟩

theorem superscript_passes (h : c.Shows ts) : c.superscript.Passes ts fun read a =>
    ∃ t : Token, t.kind = .superscript ∧ t.exponent ≤ 4294967295 ∧
      t.exponent = read.1.toNat ∧ a = [t] := by
  unfold superscript
  split
  · trivial
  · next token after shorter hexpect =>
    obtain ⟨a, b, rfl, shows, hkind, spelled, rfl⟩ :=
      (expect_passes h .superscript).orBack.of_eq_ok hexpect
    split
    · next exponent hread =>
      have fits := (Token.isSome_read?_iff spelled hkind).mp (by simp [hread])
      exact ⟨[token], b, rfl, shows, token, hkind, fits,
        (Token.toNat_of_read? spelled hkind hread).symm, rfl⟩
    · trivial

theorem two_le_index {t : Token} {n : UInt32} (h : index? t = some n) : 2 ≤ n := by
  unfold index? at h
  split at h
  · next m hm =>
    split at h
    · next fits =>
      rw [← Option.some.inj h, UInt32.le_iff_toNat_le, UInt32.toNat_ofNat_of_lt' fits.2]
      exact fits.1
    · cases h
  · cases h

theorem index_passes (h : c.Shows ts) :
    c.index.Passes ts fun n a => Derives .index a ∧ 2 ≤ n := by
  unfold index
  refine (expect_passes h .openSquare).orBack.andThen ?_
  intro opening c₁ _ a b passed shows₁
  obtain ⟨hopening, -, rfl⟩ := passed
  refine (expect_passes shows₁ .integer).orBack.andThen ?_
  intro token c₂ _ a b passed shows₂
  obtain ⟨hinteger, spelled, rfl⟩ := passed
  split
  · next n hn =>
    obtain ⟨low, high⟩ := (Token.isSome_index?_iff spelled hinteger).mp (by simp [hn])
    refine Passes.map ((expect_passes shows₂ .closeSquare).orBack.imp ?_)
    rintro closing a ⟨hclosing, -, rfl⟩
    exact ⟨.index hopening hinteger low high hclosing, two_le_index hn⟩
  · trivial

/-! ## Groups -/

/-- What holds of the sums that are read from a cursor. -/
def SumPasses (c : Cursor) : Prop :=
  ∀ ts, c.Shows ts → c.sum.Passes ts (Yields .sum)

/-- A group of a sum, or of a literal if it holds one. -/
theorem group_passes (sums : ∀ d : Cursor, d.remaining < c.remaining → d.SumPasses)
    (h : c.Shows ts) : c.group.Passes ts fun g a => Derives .group a ∧
      (g.inner.isSignedLiteral = true → Derives .numericGroup a) ∧
        g.inner.IsBuilt (Written a) .sum := by
  rw [group]
  refine (expect_passes h .openParen).orBack.andThen ?_
  intro opening c₁ shorter a b passed shows₁
  obtain ⟨hopening, -, rfl⟩ := passed
  refine (sums c₁ shorter b shows₁).orBack.andThen ?_
  intro inner c₂ _ a b hinner shows₂
  refine Passes.orBlame (Passes.map ((expect_passes shows₂ .closeParen).imp ?_)) _
  rintro closing _ ⟨hclosing, -, rfl⟩
  exact ⟨.group hopening hinner.derives hclosing,
    fun literal => .numericGroup hopening (hinner.literal literal) hclosing,
    hinner.built.within (by simp)⟩

theorem quotient_passes (sums : ∀ d : Cursor, d.remaining < c.remaining → d.SumPasses)
    (h : c.Shows ts) : c.quotient.Passes ts fun q a => Derives .fraction a ∧
      (q.isNumeric = true → ∀ integer : Token, integer.kind = .integer →
        Derives .mixed (integer :: a)) ∧ q.top.IsBuilt (Written a) .sum ∧
          q.bottom.IsBuilt (Written a) .sum := by
  rw [quotient]
  refine (group_passes sums h).andThen ?_
  intro top c₁ shorter₁ a b htop shows₁
  refine (expect_passes shows₁ .divide).orBack.andThen ?_
  intro divide c₂ shorter₂ _ b passed shows₂
  obtain ⟨hdivide, -, rfl⟩ := passed
  have below : c₂.remaining < c.remaining := Nat.lt_trans shorter₂ shorter₁
  refine Passes.map ((group_passes (fun d hd => sums d (Nat.lt_trans hd below)) shows₂).imp ?_)
  intro bottom a' hbottom
  refine ⟨.fraction htop.1 hdivide hbottom.1, fun numeric integer hinteger => ?_,
    htop.2.2.within (by simp), hbottom.2.2.within (by simp)⟩
  obtain ⟨litTop, litBottom⟩ := Bool.and_eq_true_iff.mp numeric
  exact .mixed hinteger (htop.2.1 litTop) hdivide (hbottom.2.1 litBottom)

/-! ## Atoms -/

theorem mixed_passes (sums : ∀ d : Cursor, d.remaining < c.remaining → d.SumPasses)
    (h : c.Shows ts) : c.mixed.Passes ts (Yields .atom) := by
  rw [mixed]
  refine (expect_passes h .integer).orBack.andThen ?_
  intro token c₁ shorter a b passed shows₁
  obtain ⟨hinteger, spelled, rfl⟩ := passed
  split
  · trivial
  · next q after shorter' hquotient =>
    obtain ⟨a, b, rfl, shows₂, -, hmixed, htop, hbottom⟩ :=
      (quotient_passes (fun d hd => sums d (Nat.lt_trans hd shorter)) shows₁).of_eq_ok hquotient
    split
    · next numeric =>
      obtain ⟨litTop, litBottom⟩ := Bool.and_eq_true_iff.mp numeric
      obtain ⟨canonical, whole⟩ := Token.isCanonical_of_integer spelled hinteger
      exact ⟨a, b, rfl, shows₂, .mixedAtom (hmixed numeric token hinteger), Bool.noConfusion,
        .mixed canonical whole (htop.within (by simp)) (hbottom.within (by simp)) litTop litBottom⟩
    · trivial

/-- What holds of the atoms that are read from a cursor. -/
def AtomPasses (c : Cursor) : Prop :=
  ∀ ts, c.Shows ts → c.atom.Passes ts (Yields .atom)

theorem root_passes (atoms : ∀ d : Cursor, d.remaining < c.remaining → d.AtomPasses)
    (h : c.Shows ts) : c.root.Passes ts (Yields .atom) := by
  rw [root]
  refine (expect_passes h .radical).orBack.andThen ?_
  intro radical c₁ shorter a b passed shows₁
  obtain ⟨hradical, -, rfl⟩ := passed
  split
  · refine (index_passes shows₁).andThen ?_
    intro n c₂ shorter' a b hindex shows₂
    obtain ⟨hindex, two⟩ := hindex
    refine Passes.map ((atoms c₂ (Nat.lt_trans shorter' shorter) b shows₂).imp ?_)
    intro radicand a' hradicand
    have derived : Derives .root (radical :: (a ++ a')) :=
      .indexedRoot hradical hindex hradicand.derives
    refine ⟨.rootAtom derived, Bool.noConfusion, .root ?_ (hradicand.built.within (by simp))⟩
    rintro _ ⟨⟩
    exact two
  · refine Passes.map ((atoms c₁ shorter b shows₁).imp ?_)
    intro radicand a hradicand
    exact ⟨.rootAtom (.root hradical hradicand.derives), Bool.noConfusion,
      .root (by simp) (hradicand.built.within (by simp))⟩

theorem groupOrFraction_passes (sums : ∀ d : Cursor, d.remaining < c.remaining → d.SumPasses)
    (h : c.Shows ts) : c.groupOrFraction.Passes ts (Yields .atom) := by
  rw [groupOrFraction]
  split
  · trivial
  · next top c₁ shorter hgroup =>
    obtain ⟨a, b, rfl, shows₁, htop⟩ := (group_passes sums h).of_eq_ok hgroup
    have second : ((c₁.expect .divide).andThen fun _ c₂ _ => c₂.group).Passes b
        fun g s => (∃ divide a', s = divide :: a' ∧ divide.kind = .divide ∧ Derives .group a') ∧
          g.inner.IsBuilt (Written s) .sum := by
      refine (expect_passes shows₁ .divide).andThen ?_
      intro divide c₂ shorter₂ _ b passed shows₂
      obtain ⟨hdivide, -, rfl⟩ := passed
      have below : c₂.remaining < c.remaining := Nat.lt_trans shorter₂ shorter
      refine (group_passes (fun d hd => sums d (Nat.lt_trans hd below)) shows₂).imp ?_
      intro bottom a' hbottom
      exact ⟨⟨divide, a', rfl, hdivide, hbottom.1⟩, hbottom.2.2.within (by simp)⟩
    split
    · next bottom c₂ shorter' hsecond =>
      obtain ⟨_, b, rfl, shows₂, ⟨divide, a', rfl, hdivide, hbottom⟩, built⟩ :=
        second.of_eq_ok hsecond
      refine ⟨a ++ divide :: a', b, by simp, shows₂, ?_, Bool.noConfusion, ?_⟩
      · exact .fractionAtom (.fraction htop.1 hdivide hbottom)
      · exact .fraction (htop.2.2.within (by simp)) (built.within (by simp))
    · exact ⟨a, b, rfl, shows₁, .groupAtom htop.1, Bool.noConfusion, .group htop.2.2⟩

theorem atom_passes (sums : ∀ d : Cursor, d.remaining < c.remaining → d.SumPasses)
    (atoms : ∀ d : Cursor, d.remaining < c.remaining → d.AtomPasses) : c.AtomPasses := by
  intro ts h
  have number : c.literal.Passes ts (Yields .atom) := (literal_passes h).imp fun f a read =>
    ⟨.numberAtom read.derives, read.literal, read.built⟩
  rw [atom]
  split
  · trivial
  · trivial
  · exact groupOrFraction_passes sums h
  · exact (mixed_passes sums h).orElse number
  · exact symbol_passes h
  · exact number
  · exact number.orBlame _
  · exact (root_passes atoms h).orBlame _
  · trivial

/-! ## Products -/

theorem power_passes (atoms : c.AtomPasses) (h : c.Shows ts) :
    c.power.Passes ts (Yields .factor) := by
  rw [power]
  split
  · trivial
  · next base c₁ shorter hatom =>
    obtain ⟨a, b, rfl, shows₁, hbase⟩ := (atoms ts h).of_eq_ok hatom
    split
    · split
      · trivial
      · next exponent place c₂ shorter' hsuperscript =>
        obtain ⟨_, b, rfl, shows₂, superscript, hkind, fits, hexponent, rfl⟩ :=
          (superscript_passes shows₁).orBack.of_eq_ok hsuperscript
        refine ⟨a ++ [superscript], b, by simp, shows₂, ?_, Bool.noConfusion, ?_⟩
        · exact .raised hbase.derives hkind fits
        · exact .power (hbase.built.within (by simp)) ⟨superscript, by simp, hkind, hexponent⟩
    · exact ⟨a, b, rfl, shows₁, .bare hbase.derives, hbase.literal, .bare hbase.built⟩

/-- A row of factors is a product, and if it is a single literal its tokens are. -/
structure YieldsFactors (fs : List Formula) (a : List Token) : Prop where
  nonempty : fs ≠ []
  derives : Derives .product a
  literal : ∀ f, fs = [f] → f.isSignedLiteral = true → Derives .number a
  built : ∀ f ∈ fs, f.IsBuilt (Written a) .factor

/-- What holds of the factors that are read from a cursor. -/
def FactorsPasses (c : Cursor) : Prop :=
  ∀ ts, c.Shows ts → c.factors.Passes ts YieldsFactors

/-- A factor alone is a row. -/
theorem yieldsFactors_singleton {f : Formula} {a : List Token} (h : Yields .factor f a) :
    YieldsFactors [f] a where
  nonempty := List.cons_ne_nil f []
  derives := by simpa using Derives.product h.derives .noFactors
  literal := by
    intro g hg
    obtain rfl := List.singleton_inj.mp hg
    exact h.literal
  built := List.forall_mem_singleton.mpr h.built

/-- A factor in front of others is a row, which is no literal. -/
theorem yieldsFactors_cons {f : Formula} {fs : List Formula} {a b : List Token}
    (h : Yields .factor f a) (nonempty : fs ≠ []) (more : Derives .factors b)
    (built : ∀ f ∈ fs, f.IsBuilt (Written b) .factor) : YieldsFactors (f :: fs) (a ++ b) where
  nonempty := List.cons_ne_nil f fs
  derives := .product h.derives more
  literal := fun _ hg => absurd (List.cons.inj hg).2 nonempty
  built := List.forall_mem_cons.mpr ⟨h.built.within (by simp),
    fun g hg => (built g hg).within (by simp)⟩

/-- What is read as a product goes on with another. -/
theorem derives_factors {a : List Token} (h : Derives .product a) : Derives .factors a := by
  cases h with
  | product first others => exact .juxtaposed first others

theorem derives_factors_times {a : List Token} {times : Token} (htimes : times.kind = .times)
    (h : Derives .product a) : Derives .factors (times :: a) := by
  cases h with
  | product first others => exact .multiplied htimes first others

/-- The reading of what follows a factor, if another factor does. -/
def moreFactors (c : Cursor) : Option (Outcome c (List Formula)) :=
  match c.peek with
  | some .times => some (c.advance.andThen fun _ d _ => d.factors)
  | some kind => if kind ∈ atomStart then some c.factors else none
  | none => none

theorem factors_eq (c : Cursor) : c.factors = match c.power with
    | .failed cause after => .failed cause after
    | .ok factor c₁ shorter =>
        match c₁.moreFactors with
        | none => .ok [factor] c₁ shorter
        | some (.failed cause after) => .failed cause after
        | some (.ok others after shorter') =>
            .ok (factor :: others) after (Nat.lt_trans shorter' shorter) := by
  rw [factors]
  rfl

theorem moreFactors_cases {o : Outcome c (List Formula)} (h : c.moreFactors = some o) :
    (c.peek = some .times ∧ o = c.advance.andThen fun _ d _ => d.factors) ∨
      (∃ kind ∈ atomStart, c.peek = some kind) ∧ o = c.factors := by
  unfold moreFactors at h
  split at h
  · next hpeek => exact .inl ⟨hpeek, (Option.some.inj h).symm⟩
  · next kind _ hpeek =>
    split at h
    · next starts => exact .inr ⟨⟨kind, starts, hpeek⟩, (Option.some.inj h).symm⟩
    · cases h
  · cases h

/-- More factors follow a multiplication sign, or nothing. -/
theorem moreFactors_passes {good : List Formula → List Token → Prop} {o : Outcome c (List Formula)}
    (rows : ∀ d : Cursor, d.remaining ≤ c.remaining → ∀ ts, d.Shows ts → d.factors.Passes ts good)
    (h : c.Shows ts) (ho : c.moreFactors = some o) :
    o.Passes ts fun fs s => ∃ between a, s = between ++ a ∧ good fs a ∧
      (between = [] ∨ ∃ times, between = [times] ∧ times.kind = .times) := by
  rcases moreFactors_cases ho with ⟨hpeek, rfl⟩ | ⟨-, rfl⟩
  · refine (advance_passes h).andThen ?_
    intro times d shorter _ b passed shows
    obtain ⟨hkind, -, rfl⟩ := passed
    have htimes : times.kind = .times := Option.some.inj (hkind.symm.trans hpeek)
    exact (rows d (Nat.le_of_lt shorter) b shows).imp fun fs a read =>
      ⟨[times], a, rfl, read, .inr ⟨times, rfl, htimes⟩⟩
  · exact (rows c (Nat.le_refl _) ts h).imp fun fs a read => ⟨[], a, rfl, read, .inl rfl⟩

theorem factors_passes (atoms : c.AtomPasses)
    (rows : ∀ d : Cursor, d.remaining < c.remaining → d.FactorsPasses) : c.FactorsPasses := by
  intro ts h
  rw [factors_eq]
  split
  · trivial
  · next factor c₁ shorter hpower =>
    obtain ⟨a, b, rfl, shows₁, hfactor⟩ := (power_passes atoms h).of_eq_ok hpower
    split
    · exact ⟨a, b, rfl, shows₁, yieldsFactors_singleton hfactor⟩
    · trivial
    · next others after shorter' hmore =>
      have later := fun d (hd : d.remaining ≤ c₁.remaining) =>
        rows d (Nat.lt_of_le_of_lt hd shorter)
      obtain ⟨_, r, rfl, shows₂, between, s, rfl, read, sign⟩ :=
        moreFactors_passes later shows₁ hmore
      have derives : Derives .factors (between ++ s) := by
        rcases sign with rfl | ⟨times, rfl, htimes⟩
        · exact derives_factors read.derives
        · exact derives_factors_times htimes read.derives
      refine ⟨a ++ (between ++ s), r, by simp, shows₂, ?_⟩
      exact yieldsFactors_cons hfactor read.nonempty derives fun f hf =>
        (read.built f hf).within (by simp)

theorem product_passes (rows : c.FactorsPasses) (h : c.Shows ts) :
    c.product.Passes ts (Yields .product) := by
  rw [product]
  refine Passes.map ((rows ts h).imp ?_)
  intro fs a read
  refine ⟨read.derives, fun literal => ?_, .ofFactors read.nonempty read.built⟩
  match fs with
  | [] => exact absurd rfl read.nonempty
  | [f] => exact read.literal f rfl literal
  | _ :: _ :: _ => cases literal

/-! ## Sums -/

/-- A product in front of which the cursor has a sign, or has none. -/
structure YieldsSigned (isFirst signed : Bool) (f : Formula) (a : List Token) : Prop where
  derives : if signed then
      ∃ sign b, a = sign :: b ∧ sign.IsSign ∧ Derives .product b
    else
      Derives .product a
  literal : f.isSignedLiteral = true → Derives .numeric a
  built : f.IsBuilt (Written a) (.term isFirst)

theorem signedProduct_passes (isFirst : Bool) (here : c.FactorsPasses)
    (rows : ∀ d : Cursor, d.remaining < c.remaining → d.FactorsPasses) (h : c.Shows ts) :
    (c.signedProduct isFirst).Passes ts (YieldsSigned isFirst c.sign.isSome) := by
  rw [signedProduct]
  split
  · next hsign =>
    refine (product_passes here h).imp fun f a read => ⟨?_, ?_, .unsigned read.built⟩
    · rw [hsign]
      exact read.derives
    · exact fun literal => .unsigned (read.literal literal)
  · next positive hsign =>
    refine (advance_passes h).andThen ?_
    intro token c₁ shorter _ b passed shows₁
    obtain ⟨hpeek, -, rfl⟩ := passed
    have signed : token.IsSign := by
      rw [sign, hpeek, Option.bind_some] at hsign
      exact isSign_of_sign? hsign
    refine Passes.map ((product_passes (rows c₁ shorter) shows₁).imp ?_)
    intro operand a read
    have derives : if c.sign.isSome then
        ∃ sign b, [token] ++ a = sign :: b ∧ sign.IsSign ∧ Derives .product b
      else Derives .product ([token] ++ a) := by
      rw [hsign, Option.isSome_some, if_pos rfl]
      exact ⟨token, a, rfl, signed, read.derives⟩
    have built : operand.IsBuilt (Written ([token] ++ a)) .product := read.built.within (by simp)
    split
    · exact ⟨derives, fun literal => .signed signed (read.literal literal), .unsigned built⟩
    · next kept =>
      refine ⟨derives, fun literal => ?_, .signed built (Bool.eq_false_of_not_eq_true kept)⟩
      -- the operand of a signed literal is a literal itself
      have operandLiteral : operand.isSignedLiteral = true := by
        cases operand with
        | literal => rfl
        | _ => cases literal
      exact .signed signed (read.literal operandLiteral)

/-- A row of terms is a sum, and if it is a single literal its tokens are. In front of a sign it
is also the rest of a sum. -/
structure YieldsTerms (isFirst signed : Bool) (fs : List Formula) (a : List Token) : Prop where
  derives : Derives .sum a
  rest : signed = true → Derives .terms a
  literal : ∀ f, fs = [f] → f.isSignedLiteral = true → Derives .numeric a
  built : Formula.AreTerms (Written a) isFirst fs

/-- What holds of the terms that are read from a cursor. -/
def TermsPasses (c : Cursor) : Prop :=
  ∀ isFirst ts, c.Shows ts → (c.terms isFirst).Passes ts (YieldsTerms isFirst c.sign.isSome)

theorem yieldsTerms_cons {isFirst signed : Bool} {f : Formula} {fs : List Formula}
    {a b : List Token} (h : YieldsSigned isFirst signed f a) (more : Derives .terms b)
    (built : ∀ g ∈ fs, g.IsBuilt (Written b) (.term false)) (literal : fs = [] → b = []) :
    YieldsTerms isFirst signed (f :: fs) (a ++ b) := by
  obtain ⟨derives, hliteral, hbuilt⟩ := h
  have rows : Derives .sum (a ++ b) ∧ (signed = true → Derives .terms (a ++ b)) := by
    cases signed with
    | true =>
        obtain ⟨sign, a, rfl, hsign, hproduct⟩ := derives
        exact ⟨.signedSum hsign hproduct more, fun _ => .term hsign hproduct more⟩
    | false => exact ⟨.sum derives more, Bool.noConfusion⟩
  refine ⟨rows.1, rows.2, ?_, hbuilt.within (by simp), fun g hg => (built g hg).within (by simp)⟩
  intro g hg isLiteral
  obtain ⟨rfl, hfs⟩ := List.cons.inj hg
  rw [literal hfs, List.append_nil]
  exact hliteral isLiteral

theorem terms_passes (here : c.FactorsPasses)
    (rows : ∀ d : Cursor, d.remaining < c.remaining → d.FactorsPasses)
    (more : ∀ d : Cursor, d.remaining < c.remaining → d.TermsPasses) : c.TermsPasses := by
  intro isFirst ts h
  rw [terms]
  split
  · trivial
  · next term c₁ shorter hterm =>
    obtain ⟨a, b, rfl, shows₁, read⟩ :=
      (signedProduct_passes isFirst here rows h).of_eq_ok hterm
    split
    · next signed =>
      split
      · trivial
      · next others after shorter' hothers =>
        obtain ⟨s, r, rfl, shows₂, readMore⟩ := (more c₁ shorter false b shows₁).of_eq_ok hothers
        refine ⟨a ++ s, r, by simp, shows₂, ?_⟩
        exact yieldsTerms_cons read (readMore.rest signed) readMore.built.later
          fun none => absurd none readMore.built.nonempty
    · refine ⟨a, b, rfl, shows₁, ?_⟩
      simpa using yieldsTerms_cons read .noTerms (List.forall_mem_nil _) fun _ => rfl

theorem sum_passes_of_terms (here : c.TermsPasses) : c.SumPasses := by
  intro ts h
  rw [sum]
  refine Passes.map ((here true ts h).imp ?_)
  intro fs a read
  refine ⟨read.derives, fun literal => ?_, .ofTerms read.built⟩
  match fs with
  | [] => exact absurd rfl read.built.nonempty
  | [f] => exact read.literal f rfl literal
  | _ :: _ :: _ => cases literal

/-- The order in which the productions call each other: what holds of each of them as soon as it
holds of the calls that it makes, further on or further down, holds of all. -/
theorem reading_induct {atom factors terms sum : Cursor → Prop}
    (hatom : ∀ c, (∀ d : Cursor, d.remaining < c.remaining → atom d ∧ sum d) → atom c)
    (hfactors : ∀ c, atom c → (∀ d : Cursor, d.remaining < c.remaining → factors d) → factors c)
    (hterms : ∀ c, factors c →
      (∀ d : Cursor, d.remaining < c.remaining → factors d ∧ terms d) → terms c)
    (hsum : ∀ c, terms c → sum c) (c : Cursor) : atom c ∧ factors c ∧ terms c ∧ sum c := by
  -- by induction on the tokens that are left, of which every production passes one at least
  induction hn : c.remaining using Nat.strong_induction_on generalizing c with
  | _ n ih =>
      subst hn
      have earlier := fun d : Cursor => fun hd => ih d.remaining hd d rfl
      have atoms : atom c := hatom c fun d hd => ⟨(earlier d hd).1, (earlier d hd).2.2.2⟩
      have rows : factors c := hfactors c atoms fun d hd => (earlier d hd).2.1
      have more : terms c :=
        hterms c rows fun d hd => ⟨(earlier d hd).2.1, (earlier d hd).2.2.1⟩
      exact ⟨atoms, rows, more, hsum c more⟩

/-- What each production passes is derived. -/
theorem passes (c : Cursor) : c.AtomPasses ∧ c.FactorsPasses ∧ c.TermsPasses ∧ c.SumPasses := by
  refine reading_induct ?_ ?_ ?_ ?_ c
  · exact fun c later => atom_passes (fun d hd => (later d hd).2) fun d hd => (later d hd).1
  · exact fun c atoms later => factors_passes atoms later
  · exact fun c rows later =>
      terms_passes rows (fun d hd => (later d hd).1) fun d hd => (later d hd).2
  · exact fun c terms => sum_passes_of_terms terms

theorem sum_passes (c : Cursor) : c.SumPasses :=
  (passes c).2.2.2

end Cursor

/-! ## Statements -/

/-- A formula is read from what a sum derives, an equation from two sums with an equals sign between
them. -/
def Statement.IsDerived (a : List Token) : Statement → Prop
  | .formula _ => Grammar.Derives .sum a
  | .equation _ _ _ => ∃ left equals right, a = left ++ equals :: right ∧
      Grammar.Derives .sum left ∧ equals.kind = .equals ∧ Grammar.Derives .sum right

theorem Statement.IsDerived.derives {a : List Token} {s : Statement} (h : s.IsDerived a) :
    Grammar.Derives .statement a := by
  cases s with
  | formula f => exact .formula h
  | equation left right place =>
      obtain ⟨left, equals, right, rfl, hleft, hequals, hright⟩ := h
      exact .equation hleft hequals hright

namespace Cursor

open Grammar Outcome

variable {c : Cursor} {ts : List Token}

/-- The reading of the right side of an equation, with the equals sign in front of it. -/
def rightSide (c : Cursor) : Outcome c (Token × Formula) :=
  (c.expect .equals).orBack.andThen fun equals d _ =>
    d.sum.orBack.map fun right => (equals, right)

theorem rightSide_passes {good : Formula → List Token → Prop}
    (sums : ∀ (d : Cursor) (ts : List Token), d.Shows ts → d.sum.Passes ts good) (h : c.Shows ts) :
    c.rightSide.Passes ts fun read s =>
      ∃ a, s = read.1 :: a ∧ read.1.kind = .equals ∧ good read.2 a := by
  refine (expect_passes h .equals).orBack.andThen ?_
  intro equals d _ _ b passed shows
  obtain ⟨hequals, -, rfl⟩ := passed
  refine Passes.map ((sums d b shows).orBack.imp ?_)
  exact fun right a read => ⟨a, rfl, hequals, read⟩

/-- What a statement passes is derived. -/
theorem statement_passes (h : c.Shows ts) : c.statement.Passes ts fun s a =>
    s.IsDerived a ∧ s.IsBuilt (Written a) := by
  rw [statement]
  split
  · trivial
  · next left c₁ shorter hleft =>
    obtain ⟨a, b, rfl, shows₁, readLeft⟩ := (sum_passes c ts h).orBack.of_eq_ok hleft
    split
    · dsimp only
      split
      · trivial
      · next equals right c₂ shorter' hright =>
        obtain ⟨_, r, rfl, shows₂, a', rfl, hequals, readRight⟩ :=
          (rightSide_passes sum_passes shows₁).of_eq_ok hright
        split
        · trivial
        · refine ⟨a ++ equals :: a', r, by simp, shows₂, ?_, readLeft.built.within (by simp),
            readRight.built.within (by simp)⟩
          exact ⟨a, equals, a', rfl, readLeft.derives, hequals, readRight.derives⟩
    · exact ⟨a, b, rfl, shows₁, readLeft.derives, readLeft.built⟩

end Cursor

/-- A statement is read from tokens that it is derived from, and the reader builds it with the
exponents that are written in the text. -/
theorem Statement.isDerived_of_read {input : String} {s : Statement}
    (h : Statement.read input = .ok s) :
    s.IsDerived ((Token.scan input).filter (!·.isBlank)) ∧
      s.IsBuilt (Grammar.Written (Token.scan input)) := by
  obtain ⟨derived, built⟩ := (Cursor.statement_passes (Cursor.shows_ofText input)).of_entire h
  refine ⟨derived, ?_⟩
  have visible : (Token.scan input).filter (!·.isBlank) ⊆ Token.scan input :=
    fun t ht => (List.mem_filter.mp ht).1
  cases s with
  | formula f => exact Formula.IsBuilt.within built visible
  | equation left right place =>
      exact ⟨Formula.IsBuilt.within built.1 visible, Formula.IsBuilt.within built.2 visible⟩

/-- A text that is read is derived, and the reader builds the statement with the exponents that are
written in it. -/
theorem Statement.derives_of_read {input : String} {s : Statement}
    (h : Statement.read input = .ok s) :
    Grammar.Derives .statement ((Token.scan input).filter (!·.isBlank)) ∧
      s.IsBuilt (Grammar.Written (Token.scan input)) :=
  (isDerived_of_read h).imp_left Statement.IsDerived.derives

end StepAlgebra
