import StepAlgebra.Formula.Error
import StepAlgebra.Token.Lexer

/-!
# Cursors

A cursor stands between two tokens of a text. Reading moves it forward and passes over blanks.
An `Outcome` says where the cursor stands after an attempt to read, failed ones included, and a
success carries the proof that fewer tokens are left than before. Every recursion of the parser
rests on that proof.
-/

namespace StepAlgebra

/-- A place between the tokens of a text. -/
structure Cursor where
  /-- The span of the token just passed, or the empty span at the start of the text. -/
  passed : Span := Span.point 0
  /-- The tokens not yet passed. -/
  rest : List Token
  /-- The empty span after the last token of the text. -/
  finish : Span

namespace Cursor

/-- The cursor in front of the first token of a text. -/
def ofText (input : String) : Cursor :=
  let tokens := Token.scan input
  let stop := match tokens.getLast? with
    | some last => last.span.stop
    | none => 0
  { rest := tokens, finish := Span.point stop }

/-- The number of tokens not yet passed. -/
def remaining (c : Cursor) : Nat :=
  c.rest.length

/-- The next token that is not blank. -/
def ahead (c : Cursor) : Option Token :=
  c.rest.find? (!·.isBlank)

/-- The kind of the next token that is not blank. -/
def peek (c : Cursor) : Option TokenKind :=
  c.ahead.map Token.kind

/-- The place of the next token that is not blank, or the end of the text. -/
def span (c : Cursor) : Span :=
  match c.ahead with
  | some token => token.span
  | none => c.finish

/-- The cursor after a token, in front of the tokens that follow it. -/
def past (c : Cursor) (token : Token) (rest : List Token) : Cursor :=
  { c with passed := token.span, rest }

end Cursor

/-- What comes of an attempt to read from a cursor. -/
inductive Outcome (c : Cursor) (α : Type) where
  /-- A value was read, and fewer tokens are left. -/
  | ok (value : α) (after : Cursor) (shorter : after.remaining < c.remaining)
  /-- Nothing was read; the cursor may have moved all the same. -/
  | failed (cause : ReadError) (after : Cursor)

namespace Outcome

variable {c : Cursor} {α β : Type}

/-- Changes the value that was read. -/
def map (f : α → β) : Outcome c α → Outcome c β
  | ok value after shorter => ok (f value) after shorter
  | failed cause after => failed cause after

/-- Goes on reading after a success. -/
def andThen (first : Outcome c α)
    (second : α → (d : Cursor) → d.remaining < c.remaining → Outcome d β) : Outcome c β :=
  match first with
  | failed cause after => failed cause after
  | ok value d shorter =>
      match second value d shorter with
      | failed cause after => failed cause after
      | ok value after shorter' => ok value after (Nat.lt_trans shorter' shorter)

/-- Puts the cursor back after a failure. -/
def orBack : Outcome c α → Outcome c α
  | ok value after shorter => ok value after shorter
  | failed cause _ => failed cause c

/-- Puts the cursor back after a failure, and gives it another cause. -/
def orBlame (cause : ReadError) : Outcome c α → Outcome c α
  | ok value after shorter => ok value after shorter
  | failed _ _ => failed cause c

/-- Reads something else after a failure. -/
def orElse (first second : Outcome c α) : Outcome c α :=
  match first with
  | ok value after shorter => ok value after shorter
  | failed _ _ => second

/-- Accepts a value only if nothing but blanks is left after it. -/
def entire : Outcome c α → Outcome c α
  | failed cause after => failed cause after
  | ok value after shorter =>
      match after.peek with
      | none => ok value after shorter
      | some .closeParen => failed (.unopenedParen after.span) after
      | some _ => failed (.trailingInput after.span) after

/-- The value read, or the cause of the failure. -/
def toExcept : Outcome c α → Except ReadError α
  | ok value _ _ => .ok value
  | failed cause _ => .error cause

end Outcome

namespace Cursor

/-- Passes the blanks in front of a token and the token itself; without one, passes all blanks
and fails. -/
def advance (c : Cursor) : Outcome c Token :=
  match h : c.rest with
  | [] => .failed (.endOfInput c.finish) c
  | token :: rest =>
      let d := c.past token rest
      have shorter : d.remaining < c.remaining := by simp [d, past, remaining, h]
      if token.isBlank then
        match d.advance with
        | .ok value after shorter' => .ok value after (Nat.lt_trans shorter' shorter)
        | .failed cause after => .failed cause after
      else
        .ok token d shorter
termination_by c.remaining

/-- Passes a token of the given kind; a token of another kind is passed too, and refused. -/
def expect (c : Cursor) (kind : TokenKind) : Outcome c Token :=
  match c.advance with
  | .failed cause after => .failed cause after
  | .ok token after shorter =>
      if token.kind = kind then
        .ok token after shorter
      else
        .failed (.unexpectedToken token.span [kind] token.kind) after

end Cursor

end StepAlgebra
