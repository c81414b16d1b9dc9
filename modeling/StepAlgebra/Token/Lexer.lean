import StepAlgebra.Text.Superscript
import StepAlgebra.Token

/-!
# Reading tokens

The text is cut from left to right into the longest pieces that some kind of token allows. A
character that starts no piece is an unknown token of its own, so nothing of the text is lost.
-/

namespace StepAlgebra.Lexer

/-- A piece cut off the front of a text, with what is left. -/
structure Piece where
  kind : TokenKind
  lexeme : List Char
  rest : List Char

/-- The characters that make up blank tokens. -/
def isBlank (c : Char) : Bool :=
  c == ' ' || c == '\t' || c == '\n' || c == '\r'

/-- The letters that name variables. -/
def isLetter (c : Char) : Bool :=
  c.isAlpha

/-- Cuts off a point and the digits after it; a point without digits is not cut off. -/
def places? : List Char → Option (List Char × List Char)
  | '.' :: cs =>
      match cs.takeWhile Digit.isWrittenBy with
      | [] => none
      | ds => some ('.' :: ds, cs.dropWhile Digit.isWrittenBy)
  | _ => none

/-- Cuts off the superscript digits of a power of ten, if there are any, after what is written in
front of them. -/
def raised? (lead cs : List Char) : Option (List Char × List Char) :=
  match cs.takeWhile Superscript.isDigit with
  | [] => none
  | ds => some (lead ++ ds, cs.dropWhile Superscript.isDigit)

/-- Cuts off a multiplication by a power of ten, such as `*10⁻⁷`. -/
def power? : List Char → Option (List Char × List Char)
  | '*' :: '1' :: '0' :: '⁻' :: cs => raised? ['*', '1', '0', '⁻'] cs
  | '*' :: '1' :: '0' :: cs => raised? ['*', '1', '0'] cs
  | _ => none

/-- Completes a number after its leading digits: in scientific form if a power of ten follows,
with decimal places if a point and digits follow, else whole. -/
def number (digits rest : List Char) : Piece :=
  let (places, afterPlaces) := (places? rest).getD ([], rest)
  match power? afterPlaces with
  | some (power, afterPower) => ⟨.scientific, digits ++ places ++ power, afterPower⟩
  | none => ⟨if places.isEmpty then .integer else .decimal, digits ++ places, afterPlaces⟩

/-- The kind of a token that is a single character. -/
def symbolKind (c : Char) : TokenKind :=
  match c with
  | '=' => .equals
  | '+' => .plus
  | '-' | '−' => .minus
  | '*' | '·' | '×' => .times
  | '/' => .divide
  | '√' => .radical
  | '(' => .openParen
  | ')' => .closeParen
  | '[' => .openSquare
  | ']' => .closeSquare
  | _ => if isLetter c then .name else .unknown

/-- Cuts the first piece off a text that starts with `c`. -/
def piece (c : Char) (cs : List Char) : Piece :=
  if isBlank c then
    ⟨.blank, c :: cs.takeWhile isBlank, cs.dropWhile isBlank⟩
  else if Digit.isWrittenBy c then
    number (c :: cs.takeWhile Digit.isWrittenBy) (cs.dropWhile Digit.isWrittenBy)
  else if Superscript.isDigit c then
    ⟨.superscript, c :: cs.takeWhile Superscript.isDigit, cs.dropWhile Superscript.isDigit⟩
  else
    ⟨symbolKind c, [c], cs⟩

/-! ## Nothing is lost -/

theorem places?_append {cs read rest : List Char} (h : places? cs = some (read, rest)) :
    read ++ rest = cs := by
  unfold places? at h
  split at h
  · split at h
    · cases h
    · cases h
      simp [List.takeWhile_append_dropWhile]
  · cases h

theorem raised?_append {lead cs read rest : List Char} (h : raised? lead cs = some (read, rest)) :
    read ++ rest = lead ++ cs := by
  unfold raised? at h
  split at h
  · cases h
  · cases h
    simp [List.takeWhile_append_dropWhile]

theorem power?_append {cs read rest : List Char} (h : power? cs = some (read, rest)) :
    read ++ rest = cs := by
  unfold power? at h
  split at h
  · exact raised?_append h
  · exact raised?_append h
  · cases h

theorem number_append (digits rest : List Char) :
    (number digits rest).lexeme ++ (number digits rest).rest = digits ++ rest := by
  unfold number
  cases hp : places? rest with
  | none =>
    cases hq : power? rest with
    | none => simp [hq]
    | some q => simp [hq, power?_append hq]
  | some p =>
    have hrest := places?_append hp
    cases hq : power? p.2 with
    | none => simp [hq, hrest]
    | some q => simp [hq, power?_append hq, hrest]

/-- The piece and what is left make up the text. -/
theorem piece_append (c : Char) (cs : List Char) :
    (piece c cs).lexeme ++ (piece c cs).rest = c :: cs := by
  unfold piece
  split
  · simp [List.takeWhile_append_dropWhile]
  · split
    · simp [number_append, List.takeWhile_append_dropWhile]
    · split
      · simp [List.takeWhile_append_dropWhile]
      · rfl

theorem number_lexeme_length (digits rest : List Char) :
    digits.length ≤ (number digits rest).lexeme.length := by
  unfold number
  simp only
  split
  · rw [List.append_assoc, List.length_append]
    exact Nat.le_add_right _ _
  · rw [List.length_append]
    exact Nat.le_add_right _ _

/-- A piece is never empty. -/
theorem piece_lexeme_pos (c : Char) (cs : List Char) : 0 < (piece c cs).lexeme.length := by
  unfold piece
  split
  · simp
  · split
    · exact Nat.lt_of_lt_of_le (by simp) (number_lexeme_length _ _)
    · split <;> simp

/-- What is left after a piece is shorter than the text. -/
theorem piece_rest_length (c : Char) (cs : List Char) :
    (piece c cs).rest.length < (c :: cs).length := by
  have h := congrArg List.length (piece_append c cs)
  have := piece_lexeme_pos c cs
  simp only [List.length_append] at h
  omega

/-- The tokens of a text whose first character stands at the given offset. -/
def scan (offset : Nat) : List Char → List Token
  | [] => []
  | c :: cs =>
      let lexeme := String.ofList (piece c cs).lexeme
      let stop := offset + lexeme.utf8ByteSize
      ⟨(piece c cs).kind, lexeme, ⟨offset, stop⟩⟩ :: scan stop (piece c cs).rest
termination_by cs => cs.length
decreasing_by exact piece_rest_length c cs

end StepAlgebra.Lexer

namespace StepAlgebra

/-- The tokens of a text, blank ones included. -/
def Token.scan (input : String) : List Token :=
  Lexer.scan 0 input.toList

end StepAlgebra
