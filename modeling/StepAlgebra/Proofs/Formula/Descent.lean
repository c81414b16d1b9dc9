import StepAlgebra.Formula.Parser
import StepAlgebra.Proofs.Formula.Cursor

/-!
# Every reading ends

The productions of the reader call each other, and themselves where the terms of a sum or the
factors of a product go on. One level of the recursion is written out with the calls as a parameter,
and the parameter takes only calls that are below the one that makes them: at a cursor with fewer
tokens left, or at the same cursor and further down the grammar.

* `Reader.step` — one level of the recursion;
* `Reader.read_eq_step` — the productions are what this level makes of themselves;
* `Reader.unrolled_eq_read` — a bounded number of levels is enough;
* `Outcome.Moves` — a cursor stays in its text and does not go back;
* `Reader.readings_end_further_on` — what holds of every call of a production.
-/

namespace StepAlgebra

open Cursor

/-- The productions that call each other. -/
inductive Reader where
  | group
  | quotient
  | mixed
  | root
  | groupOrFraction
  | atom
  | power
  | factors
  | product
  | signedProduct (isFirst : Bool)
  | terms (isFirst : Bool)
  | sum
  | statement

namespace Reader

/-- What a production gives. -/
def Result : Reader → Type
  | group => Cursor.Group
  | quotient => Cursor.Quotient
  | factors | terms _ => List Formula
  | statement => Statement
  | mixed | root | groupOrFraction | atom | power | product | signedProduct _ | sum => Formula

/-- How far up the grammar a production stands. -/
def rank : Reader → Nat
  | group => 0
  | quotient | mixed | root | groupOrFraction => 1
  | atom => 2
  | power => 3
  | factors => 4
  | product => 5
  | signedProduct _ => 6
  | terms _ => 7
  | sum => 8
  | statement => 9

/-- A production reads from a cursor. -/
def read : (r : Reader) → (c : Cursor) → Outcome c r.Result
  | group, c => c.group
  | quotient, c => c.quotient
  | mixed, c => c.mixed
  | root, c => c.root
  | groupOrFraction, c => c.groupOrFraction
  | atom, c => c.atom
  | power, c => c.power
  | factors, c => c.factors
  | product, c => c.product
  | signedProduct isFirst, c => c.signedProduct isFirst
  | terms isFirst, c => c.terms isFirst
  | sum, c => c.sum
  | statement, c => c.statement

/-- The call of a production at a cursor is below another if fewer tokens are left, or if it stands
further down the grammar at the same cursor. -/
def Below (q : Reader) (d : Cursor) (r : Reader) (c : Cursor) : Prop :=
  d.remaining < c.remaining ∨ d = c ∧ q.rank < r.rank

theorem remaining_lt_trans {c d e : Cursor} (h : e.remaining < d.remaining)
    (h' : d.remaining < c.remaining) : e.remaining < c.remaining :=
  Nat.lt_trans h h'

/-- What follows a factor, if another factor does: a multiplication sign or nothing, and a row of
factors that is given. -/
def furtherFactors (c : Cursor)
    (row : (d : Cursor) → d.remaining ≤ c.remaining → Outcome d (List Formula)) :
    Option (Outcome c (List Formula)) :=
  match c.peek with
  | some .times => some (c.advance.andThen fun _ d shorter => row d (Nat.le_of_lt shorter))
  | some kind => if kind ∈ atomStart then some (row c (Nat.le_refl _)) else none
  | none => none

/-- One level of the recursion: what a production makes of the outcomes of the calls below it. It
has no other calls to make. -/
def step : (r : Reader) → (c : Cursor) →
    ((q : Reader) → (d : Cursor) → Below q d r c → Outcome d q.Result) → Outcome c r.Result
  | group, c, call =>
      (c.expect .openParen).orBack.andThen fun opening c₁ shorter =>
        (call sum c₁ (.inl shorter)).orBack.andThen fun inner c₂ _ =>
          ((c₂.expect .closeParen).map fun closing =>
            (⟨inner, opening.span.through closing.span⟩ : Cursor.Group)).orBlame
              (.unclosedParen opening.span)
  | quotient, c, call =>
      (call group c (.inr ⟨rfl, by decide⟩)).andThen fun top c₁ shorter =>
        (c₁.expect .divide).orBack.andThen fun _ c₂ shorter' =>
          (call group c₂ (.inl (remaining_lt_trans shorter' shorter))).map (Cursor.Group.over top)
  | mixed, c, call =>
      (c.expect .integer).orBack.andThen fun token c₁ shorter =>
        match call quotient c₁ (.inl shorter) with
        | .failed cause _ => .failed cause c₁
        | .ok q after shorter =>
            if Cursor.Quotient.isNumeric q then
              .ok (Formula.mixed (Numeral.ofDecimalText token.lexeme.toList) token.span
                (Cursor.Quotient.top q) (Cursor.Quotient.bottom q) (Cursor.Quotient.place q)
                (token.span.through (Cursor.Quotient.place q))) after shorter
            else
              .failed (.notMixed after.span) c₁
  | root, c, call =>
      (c.expect .radical).orBack.andThen fun radical c₁ shorter =>
        if c₁.peek = some .openSquare then
          c₁.index.andThen fun n c₂ shorter' =>
            (call atom c₂ (.inl (remaining_lt_trans shorter' shorter))).map fun radicand =>
              Formula.root (some n) radicand (radical.span.through (Formula.span radicand))
        else
          (call atom c₁ (.inl shorter)).map fun radicand =>
            Formula.root none radicand (radical.span.through (Formula.span radicand))
  | groupOrFraction, c, call =>
      match call group c (.inr ⟨rfl, by decide⟩) with
      | .failed cause _ => .failed cause c
      | .ok top c₁ shorter =>
          match (c₁.expect .divide).andThen fun _ c₂ shorter' =>
              call group c₂ (.inl (remaining_lt_trans shorter' shorter)) with
          | .ok bottom c₂ shorter' =>
              .ok (Cursor.Group.over top bottom).formula c₂ (remaining_lt_trans shorter' shorter)
          | .failed _ _ =>
              .ok (Formula.group (Cursor.Group.inner top) (Cursor.Group.place top)) c₁ shorter
  | atom, c, call =>
      match c.peek with
      | none => .failed (.endOfInput c.span) c
      | some .closeParen => .failed (.unopenedParen c.span) c
      | some .openParen => call groupOrFraction c (.inr ⟨rfl, by decide⟩)
      | some .integer => (call mixed c (.inr ⟨rfl, by decide⟩)).orElse c.literal
      | some .name => c.symbol
      | some .decimal => c.literal
      | some .scientific => c.literal.orBlame (.unexpectedToken c.span [.openParen] .scientific)
      | some .radical =>
          (call root c (.inr ⟨rfl, by decide⟩)).orBlame
            (.unexpectedToken c.span [.openParen] .radical)
      | some found => .failed (.unexpectedToken c.span atomStart found) c
  | power, c, call =>
      match call atom c (.inr ⟨rfl, by decide⟩) with
      | .failed cause after => .failed cause after
      | .ok base c₁ shorter =>
          if c₁.peek = some .superscript then
            match c₁.superscript.orBack with
            | .failed cause after => .failed cause after
            | .ok (exponent, place) c₂ shorter' =>
                .ok (Formula.power base exponent place ((Formula.span base).through place)) c₂
                  (remaining_lt_trans shorter' shorter)
          else
            .ok base c₁ shorter
  | factors, c, call =>
      match call power c (.inr ⟨rfl, by decide⟩) with
      | .failed cause after => .failed cause after
      | .ok factor c₁ shorter =>
          let row (d : Cursor) (le : d.remaining ≤ c₁.remaining) : Outcome d (List Formula) :=
            call factors d (.inl (Nat.lt_of_le_of_lt le shorter))
          match furtherFactors c₁ row with
          | none => .ok [factor] c₁ shorter
          | some (.failed cause after) => .failed cause after
          | some (.ok others after shorter') =>
              .ok (factor :: others) after (remaining_lt_trans shorter' shorter)
  | product, c, call => (call factors c (.inr ⟨rfl, by decide⟩)).map Formula.ofFactors
  | signedProduct isFirst, c, call =>
      match c.sign with
      | none => call product c (.inr ⟨rfl, Nat.lt_succ_self 5⟩)
      | some positive =>
          c.advance.andThen fun token c₁ shorter =>
            (call product c₁ (.inl shorter)).map fun operand =>
              if positive && !isFirst then
                operand
              else
                Formula.signed positive operand (token.span.through (Formula.span operand))
  | terms isFirst, c, call =>
      match call (signedProduct isFirst) c (.inr ⟨rfl, Nat.lt_succ_self 6⟩) with
      | .failed cause after => .failed cause after
      | .ok term c₁ shorter =>
          if c₁.sign.isSome then
            match call (terms false) c₁ (.inl shorter) with
            | .failed cause after => .failed cause after
            | .ok others after shorter' =>
                .ok (term :: others) after (remaining_lt_trans shorter' shorter)
          else
            .ok [term] c₁ shorter
  | sum, c, call => (call (terms true) c (.inr ⟨rfl, by decide⟩)).map Formula.ofTerms
  | statement, c, call =>
      match (call sum c (.inr ⟨rfl, by decide⟩)).orBack with
      | .failed cause after => .failed cause after
      | .ok left c₁ shorter =>
          if c₁.peek = some .equals then
            let right := (c₁.expect .equals).orBack.andThen fun equals c₂ shorter' =>
              (call sum c₂ (.inl (remaining_lt_trans shorter' shorter))).orBack.map fun right =>
                (equals, right)
            match right with
            | .failed cause after => .failed cause after
            | .ok (equals, right) c₂ shorter' =>
                if c₂.peek = some .equals then
                  .failed (.chainedEquation equals.span c₂.span) c₂
                else
                  .ok (Statement.equation left right
                    ((Formula.span left).through (Formula.span right))) c₂
                    (remaining_lt_trans shorter' shorter)
          else
            .ok (Statement.formula left) c₁ shorter

theorem read_eq_step (r : Reader) (c : Cursor) : r.read c = r.step c fun q d _ => q.read d := by
  cases r with
  | group => exact Cursor.group.eq_1 c
  | quotient => exact Cursor.quotient.eq_1 c
  | mixed => exact Cursor.mixed.eq_1 c
  | root => exact Cursor.root.eq_1 c
  | groupOrFraction => exact Cursor.groupOrFraction.eq_1 c
  | atom => exact Cursor.atom.eq_1 c
  | power => exact Cursor.power.eq_1 c
  | factors => exact Cursor.factors.eq_1 c
  | product => exact Cursor.product.eq_1 c
  | signedProduct isFirst => exact Cursor.signedProduct.eq_1 c isFirst
  | terms isFirst =>
      refine (Cursor.terms.eq_1 c isFirst).trans ?_
      simp only [step, read]
      cases c.signedProduct isFirst with
      | failed cause after => rfl
      | ok term c₁ shorter => cases c₁.terms false <;> rfl
  | sum => exact Cursor.sum.eq_1 c
  | statement => rfl

/-! ## The recursion ends -/

variable {q r : Reader} {c d : Cursor}

/-- A token weighs more than all productions of the grammar. -/
def weight (r : Reader) (c : Cursor) : Nat :=
  10 * c.remaining + r.rank

theorem rank_le (r : Reader) : r.rank ≤ 9 := by
  cases r <;> simp [rank]

theorem weight_lt_of_below (h : Below q d r c) : q.weight d < r.weight c := by
  have low := q.rank_le
  unfold weight
  rcases h with fewer | ⟨rfl, lower⟩ <;> omega

/-- What comes of a call after so many levels of the recursion, if the calls of the last level are
answered in any way. -/
def unrolled (answer : (r : Reader) → (c : Cursor) → Outcome c r.Result) :
    Nat → (r : Reader) → (c : Cursor) → Outcome c r.Result
  | 0, r, c => answer r c
  | n + 1, r, c => r.step c fun q d _ => unrolled answer n q d

/-- A call whose weight is below the number of levels never gets to the last one. -/
theorem unrolled_eq_read (answer : (r : Reader) → (c : Cursor) → Outcome c r.Result) {n : Nat}
    (h : r.weight c < n) : unrolled answer n r c = r.read c := by
  induction n generalizing r c with
  | zero => exact absurd h (Nat.not_lt_zero _)
  | succ n ih =>
      have same : (fun q d (_ : Below q d r c) => unrolled answer n q d) =
          fun q d _ => q.read d := by
        funext q d below
        exact ih (Nat.lt_of_lt_of_le (weight_lt_of_below below) (Nat.le_of_lt_succ h))
      rw [unrolled, same, read_eq_step]

/-- What holds of a production as soon as it holds of the calls below holds of all. -/
theorem read_induct {P : (r : Reader) → (c : Cursor) → Outcome c r.Result → Prop}
    (next : ∀ r c (call : (q : Reader) → (d : Cursor) → Below q d r c → Outcome d q.Result),
      (∀ q d below, P q d (call q d below)) → P r c (r.step c call)) (r : Reader) (c : Cursor) :
    P r c (r.read c) := by
  induction hn : r.weight c using Nat.strong_induction_on generalizing r c with
  | _ n ih =>
      subst hn
      rw [read_eq_step]
      exact next r c _ fun q d below => ih _ (weight_lt_of_below below) q d rfl

end Reader

/-! ## Cursors only move forward -/

/-- Another cursor in the same text that stands no further back. -/
structure Cursor.Reaches (c d : Cursor) : Prop where
  finish : d.finish = c.finish
  suffix : d.rest <:+ c.rest

/-- The cursor stays in its text and does not go back, whether the attempt succeeds or fails. -/
def Outcome.Moves {c : Cursor} {α : Type} : Outcome c α → Prop
  | ok _ after _ | failed _ after => c.Reaches after

namespace Cursor

variable {c d e : Cursor}

theorem Reaches.refl (c : Cursor) : c.Reaches c :=
  ⟨rfl, List.suffix_rfl⟩

theorem Reaches.trans (h : c.Reaches d) (h' : d.Reaches e) : c.Reaches e :=
  ⟨h'.finish.trans h.finish, h'.suffix.trans h.suffix⟩

end Cursor

namespace Outcome

variable {c : Cursor} {α β : Type} {o : Outcome c α}

theorem Moves.of_eq_ok {value : α} {after : Cursor} {shorter : after.remaining < c.remaining}
    (h : o.Moves) (ho : o = .ok value after shorter) : c.Reaches after := by
  rw [ho] at h
  exact h

theorem Moves.of_eq_failed {cause : ReadError} {after : Cursor} (h : o.Moves)
    (ho : o = .failed cause after) : c.Reaches after := by
  rw [ho] at h
  exact h

theorem Moves.map (h : o.Moves) (f : α → β) : (o.map f).Moves := by
  cases o <;> exact h

theorem Moves.orBack (h : o.Moves) : o.orBack.Moves := by
  cases o with
  | ok => exact h
  | failed => exact .refl c

theorem Moves.orBlame (h : o.Moves) (cause : ReadError) : (o.orBlame cause).Moves := by
  cases o with
  | ok => exact h
  | failed => exact .refl c

theorem Moves.orElse {second : Outcome c α} (h : o.Moves) (h' : second.Moves) :
    (o.orElse second).Moves := by
  cases o with
  | ok => exact h
  | failed => exact h'

theorem Moves.andThen {f : α → (d : Cursor) → d.remaining < c.remaining → Outcome d β}
    (h : o.Moves) (next : ∀ value d shorter, (f value d shorter).Moves) : (o.andThen f).Moves := by
  cases o with
  | failed => exact h
  | ok value d shorter =>
      simp only [Outcome.andThen]
      cases second : f value d shorter with
      | failed cause after => exact h.trans ((next value d shorter).of_eq_failed second)
      | ok result after shorter' => exact h.trans ((next value d shorter).of_eq_ok second)

end Outcome

namespace Cursor

open Outcome

theorem advance_moves (c : Cursor) : c.advance.Moves := by
  -- by induction on the tokens that are left, of which each blank takes one away
  induction hn : c.remaining generalizing c with
  | zero =>
      rw [advance]
      split
      · exact .refl c
      · next hrest =>
        rw [remaining, hrest] at hn
        cases hn
  | succ n ih =>
      rw [advance]
      split
      · exact .refl c
      · next token rest hrest =>
        have here : c.Reaches (c.past token rest) := ⟨rfl, by
          rw [hrest]
          exact List.suffix_cons token rest⟩
        have later := ih (c.past token rest) (by simpa [remaining, past, hrest] using hn)
        dsimp only
        split
        · split
          · next hadvance => exact here.trans (later.of_eq_ok hadvance)
          · next hadvance => exact here.trans (later.of_eq_failed hadvance)
        · exact here

theorem expect_moves (c : Cursor) (kind : TokenKind) : (c.expect kind).Moves := by
  unfold expect
  split
  · next hadvance => exact (advance_moves c).of_eq_failed hadvance
  · next hadvance =>
    have here := (advance_moves c).of_eq_ok hadvance
    split <;> exact here

theorem literal_moves (c : Cursor) : c.literal.Moves := by
  unfold literal
  dsimp only
  split
  · exact .refl c
  · next hadvance =>
    have here := (advance_moves c).of_eq_ok hadvance
    split
    · exact here
    · exact here
    · split <;> exact here
    · exact .refl c

theorem symbol_moves (c : Cursor) : c.symbol.Moves := by
  unfold symbol
  split
  · next hexpect => exact (expect_moves c .name).orBack.of_eq_failed hexpect
  · next hexpect =>
    have here := (expect_moves c .name).orBack.of_eq_ok hexpect
    split <;> exact here

theorem superscript_moves (c : Cursor) : c.superscript.Moves := by
  unfold superscript
  split
  · next hexpect => exact (expect_moves c .superscript).orBack.of_eq_failed hexpect
  · next hexpect =>
    have here := (expect_moves c .superscript).orBack.of_eq_ok hexpect
    split <;> exact here

theorem index_moves (c : Cursor) : c.index.Moves := by
  refine (expect_moves c .openSquare).orBack.andThen fun _ c₁ _ => ?_
  refine (expect_moves c₁ .integer).orBack.andThen fun token c₂ _ => ?_
  split
  · exact (expect_moves c₂ .closeSquare).orBack.map _
  · exact .refl c₂

end Cursor

namespace Reader

open Outcome

theorem furtherFactors_moves {c : Cursor} {o : Outcome c (List Formula)}
    {row : (d : Cursor) → d.remaining ≤ c.remaining → Outcome d (List Formula)}
    (rows : ∀ d le, (row d le).Moves) (h : furtherFactors c row = some o) : o.Moves := by
  unfold furtherFactors at h
  split at h
  · rw [← Option.some.inj h]
    exact (advance_moves c).andThen fun _ d _ => rows d _
  · split at h
    · rw [← Option.some.inj h]
      exact rows c _
    · cases h
  · cases h

/-- A level of the recursion moves forward if the calls below do. -/
theorem step_moves (r : Reader) (c : Cursor)
    (call : (q : Reader) → (d : Cursor) → Below q d r c → Outcome d q.Result)
    (calls : ∀ q d below, (call q d below).Moves) : (r.step c call).Moves := by
  cases r with
  | group =>
      refine (expect_moves c .openParen).orBack.andThen fun _ c₁ shorter => ?_
      refine (calls sum c₁ (.inl shorter)).orBack.andThen fun _ c₂ _ => ?_
      exact ((expect_moves c₂ .closeParen).map _).orBlame _
  | quotient =>
      refine (calls group c _).andThen fun _ c₁ shorter => ?_
      refine (expect_moves c₁ .divide).orBack.andThen fun _ c₂ shorter' => ?_
      exact (calls group c₂ _).map _
  | mixed =>
      refine (expect_moves c .integer).orBack.andThen fun _ c₁ shorter => ?_
      split
      · exact .refl c₁
      · next hquotient =>
        split
        · exact (calls quotient c₁ _).of_eq_ok hquotient
        · exact .refl c₁
  | root =>
      refine (expect_moves c .radical).orBack.andThen fun _ c₁ shorter => ?_
      split
      · exact (index_moves c₁).andThen fun _ c₂ _ => (calls atom c₂ _).map _
      · exact (calls atom c₁ _).map _
  | groupOrFraction =>
      simp only [step]
      split
      · exact .refl c
      · next top c₁ shorter hgroup =>
        have here := (calls group c _).of_eq_ok hgroup
        split
        · next hsecond =>
          have second := (expect_moves c₁ .divide).andThen fun _ c₂ shorter' =>
            calls group c₂ (.inl (Nat.lt_trans shorter' shorter))
          exact here.trans (second.of_eq_ok hsecond)
        · exact here
  | atom =>
      rw [step]
      cases c.peek with
      | none => exact Reaches.refl c
      | some kind =>
          cases kind with
          | openParen => exact calls groupOrFraction c _
          | integer => exact (calls mixed c _).orElse (literal_moves c)
          | name => exact symbol_moves c
          | decimal => exact literal_moves c
          | scientific => exact (literal_moves c).orBlame _
          | radical => exact (calls root c _).orBlame _
          | closeParen | blank | equals | plus | minus | times | divide | superscript | openSquare
          | closeSquare | unknown => exact Reaches.refl c
  | power =>
      simp only [step]
      split
      · next hatom => exact (calls atom c _).of_eq_failed hatom
      · next base c₁ shorter hatom =>
        have here := (calls atom c _).of_eq_ok hatom
        split
        · split
          · next hsuperscript =>
            exact here.trans ((superscript_moves c₁).orBack.of_eq_failed hsuperscript)
          · next hsuperscript =>
            exact here.trans ((superscript_moves c₁).orBack.of_eq_ok hsuperscript)
        · exact here
  | factors =>
      simp only [step]
      split
      · next hpower => exact (calls power c _).of_eq_failed hpower
      · next factor c₁ shorter hpower =>
        have here := (calls power c _).of_eq_ok hpower
        have more := fun o => furtherFactors_moves (o := o) fun d le =>
          calls factors d (.inl (Nat.lt_of_le_of_lt le shorter))
        split
        · exact here
        · next hmore => exact here.trans ((more _ hmore).of_eq_failed rfl)
        · next hmore => exact here.trans ((more _ hmore).of_eq_ok rfl)
  | product => exact (calls factors c _).map _
  | signedProduct isFirst =>
      simp only [step]
      split
      · exact calls product c _
      · exact (advance_moves c).andThen fun _ c₁ _ => (calls product c₁ _).map _
  | terms isFirst =>
      simp only [step]
      split
      · next hterm => exact (calls (signedProduct isFirst) c _).of_eq_failed hterm
      · next term c₁ shorter hterm =>
        have here := (calls (signedProduct isFirst) c _).of_eq_ok hterm
        split
        · split
          · next hothers => exact here.trans ((calls (terms false) c₁ _).of_eq_failed hothers)
          · next hothers => exact here.trans ((calls (terms false) c₁ _).of_eq_ok hothers)
        · exact here
  | sum => exact (calls (terms true) c _).map _
  | statement =>
      simp only [step]
      split
      · next hleft => exact (calls sum c _).orBack.of_eq_failed hleft
      · next left c₁ shorter hleft =>
        have here := (calls sum c _).orBack.of_eq_ok hleft
        have second := (expect_moves c₁ .equals).orBack.andThen fun equals c₂ shorter' =>
          (calls sum c₂ (.inl (Nat.lt_trans shorter' shorter))).orBack.map fun right =>
            (equals, right)
        split
        · split
          · next hright => exact here.trans (second.of_eq_failed hright)
          · next hright =>
            have there := here.trans (second.of_eq_ok hright)
            split <;> exact there
        · exact here

/-- Every production moves forward. -/
theorem read_moves (r : Reader) (c : Cursor) : (r.read c).Moves :=
  read_induct (P := fun _ _ o => o.Moves) step_moves r c

/-! ## Places among the tokens -/

/-- The rest of some tokens is what is left behind as many as were passed. -/
theorem exists_eq_drop {tokens rest : List Token} {i : Nat} (h : rest <:+ tokens.drop i) :
    ∃ n, n + rest.length = tokens.length - i ∧ rest = tokens.drop (i + n) := by
  obtain ⟨passed, eq⟩ := h
  refine ⟨passed.length, ?_, ?_⟩
  · rw [← List.length_append, eq, List.length_drop]
  · rw [← List.drop_drop, ← eq, List.drop_left]

/-- Every reading ends further on in the text. What a production does is one level of the recursion,
whose calls are all below its own: fewer tokens are left, or the production stands further down the
grammar. So as many levels as the call weighs are enough, whatever would be answered beyond them.
After a success the cursor stands further on among the tokens, at the latest behind the last one;
after a failure it stands no further back, and in front of the attempt if it is put back. -/
theorem readings_end_further_on (r : Reader) (c : Cursor) :
    r.read c = r.step c (fun q d _ => q.read d) ∧
    (∀ (answer : (r : Reader) → (c : Cursor) → Outcome c r.Result) (n : Nat),
      10 * c.remaining + r.rank < n → unrolled answer n r c = r.read c) ∧
    (∀ (tokens : List Token) (i : Nat), c.rest = tokens.drop i →
      (∀ value after shorter, r.read c = .ok value after shorter →
        ∃ j, i < j ∧ j ≤ tokens.length ∧ after.rest = tokens.drop j) ∧
      ∀ cause after, r.read c = .failed cause after → ∃ j, i ≤ j ∧ after.rest = tokens.drop j) ∧
    ∀ (α : Type) (o : Outcome c α) cause after, o.orBack = .failed cause after → after = c := by
  refine ⟨read_eq_step r c, fun answer n => unrolled_eq_read answer, ?_, ?_⟩
  · intro tokens i hrest
    have moves := r.read_moves c
    refine ⟨fun value after shorter h => ?_, fun cause after h => ?_⟩
    · obtain ⟨n, passed, rest⟩ := exists_eq_drop (hrest ▸ (moves.of_eq_ok h).suffix)
      rw [remaining, remaining, hrest, List.length_drop] at shorter
      exact ⟨i + n, by omega, by omega, rest⟩
    · obtain ⟨n, -, rest⟩ := exists_eq_drop (hrest ▸ (moves.of_eq_failed h).suffix)
      exact ⟨i + n, Nat.le_add_right _ _, rest⟩
  · intro α o cause after h
    cases o with
    | ok => cases h
    | failed => exact (Outcome.failed.inj h).2.symm

end Reader

end StepAlgebra
