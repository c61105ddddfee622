import StackScript.Token.Basic
import StackScript.Text.Letter
import StackScript.Decimal.Nearest

/-!
# Reading tokens

`tokenize` cuts a source into tokens, longest match first, and ends the list with an end-of-input
token; the first character that begins no token stops it with a `LexError`.

* Space, tab, carriage return and line feed separate tokens, and `//` starts a comment that runs
  to the end of its line.
* `=`, `!`, `<` and `>` take a following `=` into one token.
* A string runs from `"` to the next `"`, may span lines and has no escapes.
* A number is ASCII digits with an optional point and more digits: `7.` is the number `7` and
  a dot.  Its value is the nearest double, so a very long literal is infinity.
* A word starts with a letter or `_` and goes on with letters, digits and `_`; a reserved word
  is its own kind of token.

Every step past the blanks consumes at least one character, which is the measure that ends the
loop.
-/

namespace StackScript

/-- Why a source cannot be cut into tokens. -/
inductive LexError where
  /-- A character that begins no token. -/
  | unexpectedChar (c : Char) (span : Span)
  /-- A string whose closing quote is missing; the span runs to the end of the source. -/
  | unterminatedString (span : Span)
deriving Repr, Inhabited

namespace LexError

/-- Where the error was found. -/
def span : LexError → Span
  | unexpectedChar _ s => s
  | unterminatedString s => s

/-- The error's text, with its place. -/
def message : LexError → String
  | unexpectedChar c s => "Unexpected character '" ++ c.toString ++ "' at " ++ s.render
  | unterminatedString s => "Unterminated string at " ++ s.render

end LexError

namespace Lexer

/-- The characters that only separate tokens. -/
def isBlank (c : Char) : Bool := c = ' ' ∨ c = '\t' ∨ c = '\r' ∨ c = '\n'

/-- A character that may go on a word. -/
def isWordChar (c : Char) : Bool := Text.isLetterOrNumeral c || c = '_'

/-- A character that may begin a word. -/
def isWordStart (c : Char) : Bool := Text.isLetter c || c = '_'

/-- What is left of the source after a token, never longer than what followed its first
character. -/
abbrev Rest (r : List Char) := { s : List Char // s.length ≤ r.length }

/-- The rest after dropping a prefix that satisfies `p`. -/
def dropRest (p : Char → Bool) (r : List Char) : Rest r :=
  ⟨r.dropWhile p, (List.dropWhile_suffix p).length_le⟩

/-- An operator of one character, or of two when the next character is `=`. -/
def withEqual (r : List Char) (double single : TokenKind) : TokenKind × Rest r :=
  match r with
  | '=' :: s => (double, ⟨s, by simp⟩)
  | s => (single, ⟨s, Nat.le_refl _⟩)

/-- The kind of a one-character token. -/
def single? : Char → Option TokenKind
  | '(' => some .leftParen
  | ')' => some .rightParen
  | '{' => some .leftBrace
  | '}' => some .rightBrace
  | ',' => some .comma
  | '.' => some .dot
  | ';' => some .semicolon
  | '+' => some .plus
  | '-' => some .minus
  | '*' => some .star
  | '/' => some .slash
  | _ => none

/-- The value of a number literal with whole digits `whole` and fraction digits `frac`. -/
def numberValue (whole frac : List Char) : Float :=
  Decimal.ofDecimal false (Decimal.digitsValue (whole ++ frac)) (-(frac.length : Int))

/-- The number that begins with the digit `c` and goes on in `r`: more digits, then a point
and digits only when a digit follows the point. -/
def number (c : Char) (r : List Char) : TokenKind × List Char × Rest r :=
  let whole := c :: r.takeWhile Char.isDigit
  let after := r.dropWhile Char.isDigit
  have hafter : after.length ≤ r.length := (List.dropWhile_suffix _).length_le
  match after, hafter with
  | '.' :: d :: s, h =>
    if d.isDigit then
      let frac := d :: s.takeWhile Char.isDigit
      (.number (numberValue whole frac), whole ++ '.' :: frac,
        ⟨s.dropWhile Char.isDigit, by
          have := (List.dropWhile_suffix (l := s) Char.isDigit).length_le
          simp at h; omega⟩)
    else (.number (numberValue whole []), whole, ⟨'.' :: d :: s, h⟩)
  | a, h => (.number (numberValue whole []), whole, ⟨a, h⟩)

/-- The word that begins with `c` and goes on in `r`, and its kind. -/
def word (c : Char) (r : List Char) : TokenKind × List Char × Rest r :=
  let name := String.ofList (c :: r.takeWhile isWordChar)
  ((TokenKind.keyword? name).getD (.identifier name), c :: r.takeWhile isWordChar,
    dropRest isWordChar r)

/-- One token that begins with `c`, at place `p`, with the rest of the source `r`: the token,
the rest after it and the place there. -/
def token (c : Char) (r : List Char) (p : Pos) : Except LexError (Token × Rest r × Pos) :=
  let finish (kind : TokenKind) (text : List Char) (rest : Rest r) :=
    let q := p.stepAll text
    Except.ok (⟨kind, p.spanTo q⟩, rest, q)
  match single? c with
  | some k => finish k [c] ⟨r, Nat.le_refl _⟩
  | none =>
    if c = '=' then
      let (k, s) := withEqual r .equalEqual .equal
      finish k (c :: r.take (r.length - s.1.length)) s
    else if c = '!' then
      let (k, s) := withEqual r .bangEqual .bang
      finish k (c :: r.take (r.length - s.1.length)) s
    else if c = '<' then
      let (k, s) := withEqual r .lessEqual .less
      finish k (c :: r.take (r.length - s.1.length)) s
    else if c = '>' then
      let (k, s) := withEqual r .greaterEqual .greater
      finish k (c :: r.take (r.length - s.1.length)) s
    else if c = '"' then
      let body := r.takeWhile (· != '"')
      match h : r.dropWhile (· != '"') with
      | [] =>
        let q := p.stepAll (c :: body)
        .error (.unterminatedString (p.spanTo q))
      | _ :: s =>
        finish (.string (String.ofList body)) (c :: body ++ ['"'])
          ⟨s, by
            have := (List.dropWhile_suffix (l := r) (· != '"')).length_le
            rw [h] at this; simp at this; omega⟩
    else if c.isDigit then
      let (k, text, s) := number c r
      finish k text s
    else if isWordStart c then
      let (k, text, s) := word c r
      finish k text s
    else .error (.unexpectedChar c (p.spanTo (p.step c)))

/-- Skip the rest of a comment: everything up to the next line feed. -/
def skipComment (r : List Char) : Rest r := dropRest (· != '\n') r

/-- The tokens of `cs`, read from place `p`, after the tokens `acc` already read. -/
def tokensFrom (cs : List Char) (p : Pos) (acc : Array Token) : Except LexError (Array Token) :=
  match cs with
  | [] => .ok (acc.push ⟨.eof, p.spanTo p⟩)
  | c :: r =>
    if isBlank c then tokensFrom r (p.step c) acc
    else if c = '/' ∧ r.head? = some '/' then
      let s := skipComment r
      tokensFrom s.1 (p.stepAll (c :: r.take (r.length - s.1.length))) acc
    else
      match token c r p with
      | .error e => .error e
      | .ok (t, s, q) => tokensFrom s.1 q (acc.push t)
termination_by cs.length
decreasing_by
  · simp
  · have := (skipComment r).2
    simp; omega
  · have := s.2
    simp; omega

end Lexer

/-- The tokens of a source, ending with the end of input, or the first error. -/
def tokenize (source : String) : Except LexError (List Token) :=
  (Lexer.tokensFrom source.toList Pos.origin #[]).map Array.toList

end StackScript
