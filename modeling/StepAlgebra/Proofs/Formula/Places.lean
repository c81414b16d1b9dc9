import StepAlgebra.Proofs.Formula.Outline
import StepAlgebra.Proofs.Formula.Soundness

/-!
# Places in the text

The reader puts the place of a node together from those of its first and its last part, or of the
parentheses, the sign or the radical sign around them. Each production covers the tokens that it
passes; only a plus sign in front of a later term is left out of the term, and the sum around it
still runs over the sign.

* `Cursor.covers` — every production covers what it passes;
* `Statement.places_are_nested` — the places in a statement that is read.
-/

namespace StepAlgebra

namespace Cursor

open Formula Outline Outcome

variable {c : Cursor} {ts : List Token}

/-! ## Single tokens -/

theorem literal_covers (h : c.Shows ts) : c.literal.Passes ts Formula.Covers := by
  unfold literal
  dsimp only
  split
  · trivial
  · next token after shorter hadvance =>
    obtain ⟨a, b, rfl, shows, -, -, rfl⟩ := (advance_passes h).of_eq_ok hadvance
    split
    · exact ⟨[token], b, rfl, shows, covers_singleton token⟩
    · exact ⟨[token], b, rfl, shows, covers_singleton token⟩
    · split
      · exact ⟨[token], b, rfl, shows, covers_singleton token⟩
      · trivial
    · trivial

theorem symbol_covers (h : c.Shows ts) : c.symbol.Passes ts Formula.Covers := by
  unfold symbol
  split
  · trivial
  · next token after shorter hexpect =>
    obtain ⟨a, b, rfl, shows, -, -, rfl⟩ := (expect_passes h .name).orBack.of_eq_ok hexpect
    split
    · exact ⟨[token], b, rfl, shows, covers_singleton token⟩
    · trivial

/-- An exponent stands where its token does. -/
theorem superscript_covers (h : c.Shows ts) :
    c.superscript.Passes ts fun read a => (node read.2 []).Covers a := by
  unfold superscript
  split
  · trivial
  · next token after shorter hexpect =>
    obtain ⟨a, b, rfl, shows, -, -, rfl⟩ := (expect_passes h .superscript).orBack.of_eq_ok hexpect
    split
    · exact ⟨[token], b, rfl, shows, covers_singleton token⟩
    · trivial

/-! ## Groups -/

/-- A group covers some tokens. -/
structure Group.Covers (g : Group) (a : List Token) : Prop where
  nonempty : a ≠ []
  place_eq : g.place = Token.rowSpan a
  parts : AreAmong [g.inner.outline] a

/-- A quotient covers some tokens. -/
structure Quotient.Covers (q : Quotient) (a : List Token) : Prop where
  nonempty : a ≠ []
  place_eq : q.place = Token.rowSpan a
  parts : AreAmong [q.top.outline, q.bottom.outline] a

theorem Group.Covers.over {top bottom : Group} {a b : List Token} (h : top.Covers a)
    (h' : bottom.Covers b) (divide : Token) : (top.over bottom).Covers (a ++ ([divide] ++ b)) where
  nonempty := List.append_ne_nil_of_left_ne_nil h.nonempty _
  place_eq := by
    rw [Group.over, Token.rowSpan_append [divide] h.nonempty h'.nonempty, h.place_eq, h'.place_eq]
  parts := h.parts.append (h'.parts.behind [divide])

/-- What holds of the sums that are read from a cursor. -/
def SumCovers (c : Cursor) : Prop :=
  ∀ ts, c.Shows ts → c.sum.Passes ts Formula.Covers

theorem group_covers (sums : ∀ d : Cursor, d.remaining < c.remaining → d.SumCovers)
    (h : c.Shows ts) : c.group.Passes ts Group.Covers := by
  rw [group]
  refine (expect_passes h .openParen).orBack.andThen ?_
  intro opening c₁ shorter a b passed shows₁
  obtain ⟨-, -, rfl⟩ := passed
  refine (sums c₁ shorter b shows₁).orBack.andThen ?_
  intro inner c₂ _ a b hinner shows₂
  refine Passes.orBlame (Passes.map ((expect_passes shows₂ .closeParen).imp ?_)) _
  rintro closing _ ⟨-, -, rfl⟩
  refine ⟨List.cons_ne_nil _ _, ?_, [opening], a, [closing], rfl, hinner, trivial⟩
  exact (Token.rowSpan_append a (List.cons_ne_nil opening []) (List.cons_ne_nil closing [])).symm

theorem quotient_covers (sums : ∀ d : Cursor, d.remaining < c.remaining → d.SumCovers)
    (h : c.Shows ts) : c.quotient.Passes ts Quotient.Covers := by
  rw [quotient]
  refine (group_covers sums h).andThen ?_
  intro top c₁ shorter₁ a b htop shows₁
  refine (expect_passes shows₁ .divide).orBack.andThen ?_
  intro divide c₂ shorter₂ _ b passed shows₂
  obtain ⟨-, -, rfl⟩ := passed
  have below : c₂.remaining < c.remaining := Nat.lt_trans shorter₂ shorter₁
  refine Passes.map ((group_covers (fun d hd => sums d (Nat.lt_trans hd below)) shows₂).imp ?_)
  exact fun bottom a' hbottom => htop.over hbottom divide

/-! ## Atoms -/

theorem mixed_covers (sums : ∀ d : Cursor, d.remaining < c.remaining → d.SumCovers)
    (h : c.Shows ts) : c.mixed.Passes ts Formula.Covers := by
  rw [mixed]
  refine (expect_passes h .integer).orBack.andThen ?_
  intro token c₁ shorter a b passed shows₁
  obtain ⟨-, -, rfl⟩ := passed
  split
  · trivial
  · next q after shorter' hquotient =>
    obtain ⟨a, b, rfl, shows₂, hq⟩ :=
      (quotient_covers (fun d hd => sums d (Nat.lt_trans hd shorter)) shows₁).of_eq_ok hquotient
    split
    · have fraction : (node q.place [q.top.outline, q.bottom.outline]).Covers a :=
        ⟨hq.nonempty, hq.place_eq, hq.parts⟩
      exact ⟨a, b, rfl, shows₂, (covers_singleton token).followedBy [] fraction⟩
    · trivial

/-- What holds of the atoms that are read from a cursor. -/
def AtomCovers (c : Cursor) : Prop :=
  ∀ ts, c.Shows ts → c.atom.Passes ts Formula.Covers

theorem root_covers (atoms : ∀ d : Cursor, d.remaining < c.remaining → d.AtomCovers)
    (h : c.Shows ts) : c.root.Passes ts Formula.Covers := by
  have covers (radical : Token) (index : Option UInt32) (skipped : List Token) (radicand : Formula)
      (a : List Token) (hradicand : radicand.Covers a) :
      (Formula.root index radicand (radical.span.through radicand.span)).Covers
        ([radical] ++ (skipped ++ a)) := by
    rw [← place_outline]
    exact Outline.Covers.behind hradicand radical skipped
  rw [root]
  refine (expect_passes h .radical).orBack.andThen ?_
  intro radical c₁ shorter a b passed shows₁
  obtain ⟨-, -, rfl⟩ := passed
  split
  · refine (index_passes shows₁).andThen ?_
    intro n c₂ shorter' skipped b _ shows₂
    refine Passes.map ((atoms c₂ (Nat.lt_trans shorter' shorter) b shows₂).imp ?_)
    exact fun radicand a => covers radical (some n) skipped radicand a
  · refine Passes.map ((atoms c₁ shorter b shows₁).imp ?_)
    exact fun radicand a => covers radical none [] radicand a

theorem groupOrFraction_covers (sums : ∀ d : Cursor, d.remaining < c.remaining → d.SumCovers)
    (h : c.Shows ts) : c.groupOrFraction.Passes ts Formula.Covers := by
  rw [groupOrFraction]
  split
  · trivial
  · next top c₁ shorter hgroup =>
    obtain ⟨a, b, rfl, shows₁, htop⟩ := (group_covers sums h).of_eq_ok hgroup
    have second : ((c₁.expect .divide).andThen fun _ c₂ _ => c₂.group).Passes b
        fun g s => ∃ divide a', s = [divide] ++ a' ∧ g.Covers a' := by
      refine (expect_passes shows₁ .divide).andThen ?_
      intro divide c₂ shorter₂ _ b passed shows₂
      obtain ⟨-, -, rfl⟩ := passed
      have below : c₂.remaining < c.remaining := Nat.lt_trans shorter₂ shorter
      refine (group_covers (fun d hd => sums d (Nat.lt_trans hd below)) shows₂).imp ?_
      exact fun bottom a' hbottom => ⟨divide, a', rfl, hbottom⟩
    split
    · next bottom c₂ shorter' hsecond =>
      obtain ⟨_, b, rfl, shows₂, divide, a', rfl, hbottom⟩ := second.of_eq_ok hsecond
      have q := htop.over hbottom divide
      exact ⟨a ++ ([divide] ++ a'), b, by simp, shows₂, q.nonempty, q.place_eq, q.parts⟩
    · exact ⟨a, b, rfl, shows₁, htop.nonempty, htop.place_eq, htop.parts⟩

theorem atom_covers (sums : ∀ d : Cursor, d.remaining < c.remaining → d.SumCovers)
    (atoms : ∀ d : Cursor, d.remaining < c.remaining → d.AtomCovers) : c.AtomCovers := by
  intro ts h
  rw [atom]
  split
  · trivial
  · trivial
  · exact groupOrFraction_covers sums h
  · exact (mixed_covers sums h).orElse (literal_covers h)
  · exact symbol_covers h
  · exact literal_covers h
  · exact (literal_covers h).orBlame _
  · exact (root_covers atoms h).orBlame _
  · trivial

/-! ## Products -/

theorem power_covers (atoms : c.AtomCovers) (h : c.Shows ts) :
    c.power.Passes ts Formula.Covers := by
  rw [power]
  split
  · trivial
  · next base c₁ shorter hatom =>
    obtain ⟨a, b, rfl, shows₁, hbase⟩ := (atoms ts h).of_eq_ok hatom
    split
    · split
      · trivial
      · next exponent place c₂ shorter' hsuperscript =>
        obtain ⟨a', b, rfl, shows₂, hplace⟩ :=
          (superscript_covers shows₁).orBack.of_eq_ok hsuperscript
        refine ⟨a ++ a', b, by simp, shows₂, ?_⟩
        rw [← place_outline]
        exact Outline.Covers.followedBy hbase [] hplace
    · exact ⟨a, b, rfl, shows₁, hbase⟩

/-- What holds of the factors that are read from a cursor. -/
def FactorsCovers (c : Cursor) : Prop :=
  ∀ ts, c.Shows ts → c.factors.Passes ts RowCovers

theorem factors_covers (atoms : c.AtomCovers)
    (rows : ∀ d : Cursor, d.remaining < c.remaining → d.FactorsCovers) : c.FactorsCovers := by
  intro ts h
  rw [factors_eq]
  split
  · trivial
  · next factor c₁ shorter hpower =>
    obtain ⟨a, b, rfl, shows₁, hfactor⟩ := (power_covers atoms h).of_eq_ok hpower
    split
    · exact ⟨a, b, rfl, shows₁, .single hfactor⟩
    · trivial
    · next others after shorter' hmore =>
      have later := fun d (hd : d.remaining ≤ c₁.remaining) =>
        rows d (Nat.lt_of_le_of_lt hd shorter)
      obtain ⟨_, r, rfl, shows₂, between, s, rfl, row, -⟩ :=
        moreFactors_passes later shows₁ hmore
      exact ⟨a ++ (between ++ s), r, by simp, shows₂, .cons between hfactor row⟩

theorem product_covers (here : c.FactorsCovers) (h : c.Shows ts) :
    c.product.Passes ts Formula.Covers := by
  rw [product]
  exact Passes.map ((here ts h).imp fun _ _ row => row.ofFactors)

/-! ## Sums -/

/-- A term covers what is passed, or what follows a plus sign in front of a later term. -/
theorem signedProduct_covers (isFirst : Bool) (here : c.FactorsCovers)
    (rows : ∀ d : Cursor, d.remaining < c.remaining → d.FactorsCovers) (h : c.Shows ts) :
    (c.signedProduct isFirst).Passes ts fun f a =>
      ∃ skipped b, a = skipped ++ b ∧ f.Covers b ∧ (isFirst = true → skipped = []) := by
  rw [signedProduct]
  split
  · exact (product_covers here h).imp fun f a covers => ⟨[], a, rfl, covers, fun _ => rfl⟩
  · next positive hsign =>
    refine (advance_passes h).andThen ?_
    intro token c₁ shorter a b passed shows₁
    obtain ⟨-, -, rfl⟩ := passed
    refine Passes.map ((product_covers (rows c₁ shorter) shows₁).imp ?_)
    intro operand a covers
    split
    · next dropped =>
      refine ⟨[token], a, rfl, covers, ?_⟩
      rintro rfl
      simp at dropped
    · refine ⟨[], [token] ++ a, rfl, ?_, fun _ => rfl⟩
      rw [← place_outline]
      exact Outline.Covers.behind covers token []

/-- What holds of the terms that are read from a cursor. -/
def TermsCovers (c : Cursor) : Prop :=
  ∀ isFirst ts, c.Shows ts → (c.terms isFirst).Passes ts fun fs a =>
    ∃ skipped b, a = skipped ++ b ∧ RowCovers fs b ∧ (isFirst = true → skipped = [])

theorem terms_covers (here : c.FactorsCovers)
    (rows : ∀ d : Cursor, d.remaining < c.remaining → d.FactorsCovers)
    (more : ∀ d : Cursor, d.remaining < c.remaining → d.TermsCovers) : c.TermsCovers := by
  intro isFirst ts h
  rw [terms]
  split
  · trivial
  · next term c₁ shorter hterm =>
    obtain ⟨_, r, rfl, shows₁, skipped, a, rfl, hcovers, first⟩ :=
      (signedProduct_covers isFirst here rows h).of_eq_ok hterm
    split
    · split
      · trivial
      · next others after shorter' hothers =>
        obtain ⟨_, r, rfl, shows₂, between, b, rfl, hrow, -⟩ :=
          (more c₁ shorter false r shows₁).of_eq_ok hothers
        exact ⟨skipped ++ (a ++ (between ++ b)), r, by simp, shows₂, skipped, _, rfl,
          .cons between hcovers hrow, first⟩
    · exact ⟨skipped ++ a, r, rfl, shows₁, skipped, a, rfl, .single hcovers, first⟩

theorem sum_covers_of_terms (here : c.TermsCovers) : c.SumCovers := by
  intro ts h
  rw [sum]
  refine Passes.map ((here true ts h).imp ?_)
  rintro fs a ⟨skipped, b, rfl, row, first⟩
  rw [first rfl]
  exact row.ofTerms

/-- Every production covers what it passes. -/
theorem covers (c : Cursor) : c.AtomCovers ∧ c.FactorsCovers ∧ c.TermsCovers ∧ c.SumCovers := by
  refine reading_induct ?_ ?_ ?_ ?_ c
  · exact fun c later => atom_covers (fun d hd => (later d hd).2) fun d hd => (later d hd).1
  · exact fun c atoms later => factors_covers atoms later
  · exact fun c rows later =>
      terms_covers rows (fun d hd => (later d hd).1) fun d hd => (later d hd).2
  · exact fun c terms => sum_covers_of_terms terms

theorem sum_covers (c : Cursor) : c.SumCovers :=
  (covers c).2.2.2

/-- A statement covers some tokens. -/
theorem statement_covers (h : c.Shows ts) :
    c.statement.Passes ts fun s a => s.outline.Covers a := by
  rw [statement]
  split
  · trivial
  · next left c₁ shorter hleft =>
    obtain ⟨a, b, rfl, shows₁, hleft⟩ := (sum_covers c ts h).orBack.of_eq_ok hleft
    split
    · dsimp only
      split
      · trivial
      · next equals right c₂ shorter' hright =>
        obtain ⟨_, r, rfl, shows₂, a', rfl, -, hright⟩ :=
          (rightSide_passes sum_covers shows₁).of_eq_ok hright
        split
        · trivial
        · refine ⟨a ++ ([equals] ++ a'), r, by simp, shows₂, ?_⟩
          have covers := Outline.Covers.followedBy hleft [equals] hright
          rw [left.place_outline, right.place_outline] at covers
          exact covers
    · exact ⟨a, b, rfl, shows₁, hleft⟩

end Cursor

/-! ## Whole texts -/

/-- The places in a statement that is read are those of its tokens. It runs from the first token
that is not blank to the last; every node starts and ends with such a token, and the parts of a
node are within it, in order and apart. -/
theorem Statement.places_are_nested (input : String) (s : Statement)
    (h : Statement.read input = .ok s) :
    let tokens := (Token.scan input).filter (!·.isBlank)
    (∃ first last, tokens.head? = some first ∧ tokens.getLast? = some last ∧
      s.span = first.span.through last.span) ∧
    ∀ node ∈ s.outline.nodes, node.IsPlaced tokens := by
  intro tokens
  have covers := (Cursor.statement_covers (Cursor.shows_ofText input)).of_entire h
  have ordered : Token.AreOrdered tokens :=
    (Token.areOrdered_scan 0 input.toList).1.sublist List.filter_sublist
  refine ⟨?_, Outline.isPlaced_of_covers _ covers ordered⟩
  obtain ⟨first, last, hfirst, hlast, run⟩ := Token.exists_rowSpan covers.nonempty
  exact ⟨first, last, hfirst, hlast, by rw [← place_outline, covers.place_eq, run]⟩

theorem Statement.places_are_nested_in_equation :
    ∃ s, Statement.read " 2 (1)/(4) + x² = -y " = .ok s ∧ s.span = ⟨1, 21⟩ ∧
      ∀ node ∈ s.outline.nodes,
        node.IsPlaced ((Token.scan " 2 (1)/(4) + x² = -y ").filter (!·.isBlank)) := by
  have accepted : (Statement.read " 2 (1)/(4) + x² = -y ").isOk = true := by decide +kernel
  cases hread : Statement.read " 2 (1)/(4) + x² = -y " with
  | error cause =>
      rw [hread] at accepted
      cases accepted
  | ok s =>
      obtain ⟨⟨first, last, hfirst, hlast, run⟩, placed⟩ := places_are_nested _ s hread
      have two : some first = some ⟨.integer, "2", ⟨1, 2⟩⟩ := hfirst.symm.trans (by decide +kernel)
      have y : some last = some ⟨.name, "y", ⟨20, 21⟩⟩ := hlast.symm.trans (by decide +kernel)
      refine ⟨s, rfl, ?_, placed⟩
      rw [run, Option.some.inj two, Option.some.inj y]
      rfl

end StepAlgebra
