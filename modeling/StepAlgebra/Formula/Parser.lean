import StepAlgebra.Formula.Basic
import StepAlgebra.Formula.Cursor

/-!
# Reading formulas

One function for each production of the grammar

    statement ::= sum ("=" sum)?
    sum       ::= sign? product (sign product)*
    product   ::= power ("*"? power)*
    power     ::= atom superscript?
    atom      ::= mixed | fraction | literal | symbol | root | group

Each starts at a cursor and ends in an `Outcome`. A call starts where fewer tokens are left, or at
a production further down the grammar, so every reading ends; in the measure one token weighs as
much as the nine ranks of the productions. The alternatives of an atom overlap: an atom that begins
like none of them, or like one that then fails, is blamed on its first token, unless that token
opens a group. The first token is looked at to choose among them; to try them in order comes to the
same (`Cursor.atom_eq_atomInOrder`).
-/

namespace StepAlgebra.Cursor

/-- The kinds of token that an atom begins with. -/
def atomStart : List TokenKind :=
  [.integer, .decimal, .scientific, .name, .openParen, .radical]

/-- Reads a number of any of the three forms. -/
def literal (c : Cursor) : Outcome c Formula :=
  let refuse (found : TokenKind) : Outcome c Formula :=
    .failed (.unexpectedToken c.span [.integer, .decimal, .scientific] found) c
  match c.advance with
  | .failed _ _ => refuse .unknown
  | .ok token after shorter =>
      match token.kind with
      | .integer | .decimal =>
          .ok (.literal (Numeral.ofDecimalText token.lexeme.toList) token.span) after shorter
      | .scientific =>
          match Numeral.ofScientificText? token.lexeme.toList with
          | some numeral => .ok (.literal numeral token.span) after shorter
          | none => .failed (.exponentTooLarge token.span) after
      | found => refuse found

/-- Reads the name of a variable, which is one letter. -/
def symbol (c : Cursor) : Outcome c Formula :=
  match (c.expect .name).orBack with
  | .failed cause after => .failed cause after
  | .ok token after shorter =>
      match token.lexeme.toList with
      | letter :: _ => .ok (.symbol letter token.span) after shorter
      | [] => .failed (.unexpectedToken token.span [.name] .unknown) after

/-- Reads an exponent, with its place. -/
def superscript (c : Cursor) : Outcome c (UInt32 × Span) :=
  match (c.expect .superscript).orBack with
  | .failed cause after => .failed cause after
  | .ok token after shorter =>
      match Superscript.read? token.lexeme with
      | some exponent => .ok (exponent, token.span) after shorter
      | none => .failed (.exponentTooLarge token.span) after

/-- The index that a whole number gives to a radical. -/
def index? (token : Token) : Option UInt32 :=
  match Digits.number? token.lexeme with
  | some n => if 2 ≤ n ∧ n < UInt32.size then some (UInt32.ofNat n) else none
  | none => none

/-- Reads the index of a radical in its square brackets. -/
def index (c : Cursor) : Outcome c UInt32 :=
  (c.expect .openSquare).orBack.andThen fun _ c₁ _ =>
    (c₁.expect .integer).orBack.andThen fun token c₂ _ =>
      match index? token with
      | some n => (c₂.expect .closeSquare).orBack.map fun _ => n
      | none => .failed (.invalidIndex token.span) c₂

/-- The sign that a kind of token is, true for plus. -/
def sign? : TokenKind → Option Bool
  | .plus => some true
  | .minus => some false
  | _ => none

/-- The sign in front of the cursor. -/
def sign (c : Cursor) : Option Bool :=
  c.peek.bind sign?

/-- A formula read in parentheses, with the place of the whole group. -/
structure Group where
  inner : Formula
  place : Span

/-- The parts of a fraction, with its place. -/
structure Quotient where
  top : Formula
  bottom : Formula
  place : Span

/-- The quotient of two groups. -/
def Group.over (top bottom : Group) : Quotient :=
  ⟨top.inner, bottom.inner, top.place.through bottom.place⟩

/-- The fraction that a quotient is. -/
def Quotient.formula (q : Quotient) : Formula :=
  .fraction q.top q.bottom q.place

/-- A quotient belongs to a mixed number only if its parts are literals. -/
def Quotient.isNumeric (q : Quotient) : Bool :=
  q.top.isSignedLiteral && q.bottom.isSignedLiteral

mutual

/-- Reads a sum in parentheses. -/
def group (c : Cursor) : Outcome c Group :=
  (c.expect .openParen).orBack.andThen fun opening c₁ _ =>
    c₁.sum.orBack.andThen fun inner c₂ _ =>
      ((c₂.expect .closeParen).map fun closing =>
        (⟨inner, opening.span.through closing.span⟩ : Group)).orBlame (.unclosedParen opening.span)
termination_by 9 * c.remaining + 0

/-- Reads two groups with a division sign between them. -/
def quotient (c : Cursor) : Outcome c Quotient :=
  c.group.andThen fun top c₁ _ =>
    (c₁.expect .divide).orBack.andThen fun _ c₂ _ =>
      c₂.group.map top.over
termination_by 9 * c.remaining + 1

/-- Reads a whole number and the quotient of literals after it. -/
def mixed (c : Cursor) : Outcome c Formula :=
  (c.expect .integer).orBack.andThen fun token c₁ _ =>
    match c₁.quotient with
    | .failed cause _ => .failed cause c₁
    | .ok q after shorter =>
        if q.isNumeric then
          .ok (.mixed (Numeral.ofDecimalText token.lexeme.toList) token.span q.top q.bottom
            q.place (token.span.through q.place)) after shorter
        else
          .failed (.notMixed after.span) c₁
termination_by 9 * c.remaining + 1

/-- Reads a radical with an optional index, and the atom under it. -/
def root (c : Cursor) : Outcome c Formula :=
  (c.expect .radical).orBack.andThen fun radical c₁ _ =>
    if c₁.peek = some .openSquare then
      c₁.index.andThen fun n c₂ _ =>
        c₂.atom.map fun radicand =>
          .root (some n) radicand (radical.span.through radicand.span)
    else
      c₁.atom.map fun radicand =>
        .root none radicand (radical.span.through radicand.span)
termination_by 9 * c.remaining + 1

/-- Reads a group, and a second one if they are parts of a fraction. -/
def groupOrFraction (c : Cursor) : Outcome c Formula :=
  match c.group with
  | .failed cause _ => .failed cause c
  | .ok top c₁ shorter =>
      match (c₁.expect .divide).andThen fun _ c₂ _ => c₂.group with
      | .ok bottom c₂ shorter' =>
          .ok (top.over bottom).formula c₂ (Nat.lt_trans shorter' shorter)
      | .failed _ _ => .ok (.group top.inner top.place) c₁ shorter
termination_by 9 * c.remaining + 1

/-- Reads the smallest unit that an exponent can be attached to. -/
def atom (c : Cursor) : Outcome c Formula :=
  match c.peek with
  | none => .failed (.endOfInput c.span) c
  | some .closeParen => .failed (.unopenedParen c.span) c
  | some .openParen => c.groupOrFraction
  | some .integer => c.mixed.orElse c.literal
  | some .name => c.symbol
  | some .decimal => c.literal
  | some .scientific =>
      c.literal.orBlame (.unexpectedToken c.span [.openParen] .scientific)
  | some .radical =>
      c.root.orBlame (.unexpectedToken c.span [.openParen] .radical)
  | some found => .failed (.unexpectedToken c.span atomStart found) c
termination_by 9 * c.remaining + 2

/-- Reads an atom and the exponent on it, if there is one. -/
def power (c : Cursor) : Outcome c Formula :=
  match c.atom with
  | .failed cause after => .failed cause after
  | .ok base c₁ shorter =>
      if c₁.peek = some .superscript then
        match c₁.superscript.orBack with
        | .failed cause after => .failed cause after
        | .ok (exponent, place) c₂ shorter' =>
            .ok (.power base exponent place (base.span.through place)) c₂
              (Nat.lt_trans shorter' shorter)
      else
        .ok base c₁ shorter
termination_by 9 * c.remaining + 3

/-- Reads one or more factors, with or without multiplication signs between them. -/
def factors (c : Cursor) : Outcome c (List Formula) :=
  match c.power with
  | .failed cause after => .failed cause after
  | .ok factor c₁ shorter =>
      let more : Option (Outcome c₁ (List Formula)) :=
        match c₁.peek with
        | some .times => some (c₁.advance.andThen fun _ c₂ _ => c₂.factors)
        | some kind => if kind ∈ atomStart then some c₁.factors else none
        | none => none
      match more with
      | none => .ok [factor] c₁ shorter
      | some (.failed cause after) => .failed cause after
      | some (.ok others after shorter') =>
          .ok (factor :: others) after (Nat.lt_trans shorter' shorter)
termination_by 9 * c.remaining + 4

/-- Reads a product of one or more factors. -/
def product (c : Cursor) : Outcome c Formula :=
  c.factors.map Formula.ofFactors
termination_by 9 * c.remaining + 5

/-- Reads a product after a sign. The sign stays in the formula if it is a minus, or if it is
written in front of the first term. -/
def signedProduct (c : Cursor) (isFirst : Bool) : Outcome c Formula :=
  match c.sign with
  | none => c.product
  | some positive =>
      c.advance.andThen fun token c₁ _ =>
        c₁.product.map fun operand =>
          if positive && !isFirst then
            operand
          else
            .signed positive operand (token.span.through operand.span)
termination_by 9 * c.remaining + 6

/-- Reads one or more terms, with signs between them. -/
def terms (c : Cursor) (isFirst : Bool) : Outcome c (List Formula) :=
  match c.signedProduct isFirst with
  | .failed cause after => .failed cause after
  | .ok term c₁ shorter =>
      if c₁.sign.isSome then
        match c₁.terms false with
        | .failed cause after => .failed cause after
        | .ok others after shorter' =>
            .ok (term :: others) after (Nat.lt_trans shorter' shorter)
      else
        .ok [term] c₁ shorter
termination_by 9 * c.remaining + 7

/-- Reads a sum of one or more terms. -/
def sum (c : Cursor) : Outcome c Formula :=
  (c.terms true).map Formula.ofTerms
termination_by 9 * c.remaining + 8

end

/-- Reads a fraction. -/
def fraction (c : Cursor) : Outcome c Formula :=
  c.quotient.map Quotient.formula

/-- Reads a group as a formula. -/
def parenthesised (c : Cursor) : Outcome c Formula :=
  c.group.map fun g => .group g.inner g.place

/-- Reads a sum, or two sums with an equals sign between them. -/
def statement (c : Cursor) : Outcome c Statement :=
  match c.sum.orBack with
  | .failed cause after => .failed cause after
  | .ok left c₁ shorter =>
      if c₁.peek = some .equals then
        let right := (c₁.expect .equals).orBack.andThen fun equals c₂ _ =>
          c₂.sum.orBack.map fun right => (equals, right)
        match right with
        | .failed cause after => .failed cause after
        | .ok (equals, right) c₂ shorter' =>
            if c₂.peek = some .equals then
              .failed (.chainedEquation equals.span c₂.span) c₂
            else
              .ok (.equation left right (left.span.through right.span)) c₂
                (Nat.lt_trans shorter' shorter)
      else
        .ok (.formula left) c₁ shorter

end StepAlgebra.Cursor

namespace StepAlgebra

/-- Reads a text as one complete statement. -/
def Statement.read (input : String) : Except ReadError Statement :=
  (Cursor.ofText input).statement.entire.toExcept

end StepAlgebra
