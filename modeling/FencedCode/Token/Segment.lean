import FencedCode.Diagnostic

/-!
# Segments of a source text

A source text falls into consecutive segments: trivia, which stands for nothing, tokens, and
pieces that are no token. `Segment.cut` takes the next segment off the symbols of a text, and
`Segment.all` repeats it to the end.
-/

namespace FencedCode

/-! ## 1. Classes of symbols -/

namespace Symbol

/-- Does the symbol start a word? -/
def isLetter : Symbol → Bool
  | scalar c => c.isAlpha || c == '_'
  | stray _ => false

/-- Is the symbol a decimal digit? -/
def isDigit : Symbol → Bool
  | scalar c => c.isDigit
  | stray _ => false

/-- Does the symbol continue a word? -/
def isWord (r : Symbol) : Bool :=
  r.isLetter || r.isDigit

/-- Is the symbol skipped between tokens? -/
def isGap : Symbol → Bool
  | scalar c => c == ' ' || c == '\t' || c == '\r' || c == '\n' || c == '\x00'
  | stray _ => false

/-- Is the symbol a line feed? -/
def isLineFeed (r : Symbol) : Bool :=
  r == scalar '\n'

end Symbol

/-! ## 2. Segments -/

/-- What a segment stands for. -/
inductive Content where
  | trivia
  | token (kind : Kind) (literal : Option Literal)
  | error (cause : LexicalError)

/-- A piece of a source text. -/
structure Segment where
  /-- What it stands for. -/
  content : Content
  /-- Its first symbol. -/
  head : Symbol
  /-- Its other symbols. -/
  tail : List Symbol

namespace Segment

/-- The symbols of a segment. -/
def symbols (s : Segment) : List Symbol :=
  s.head :: s.tail

/-- The text of a segment. -/
def text (s : Segment) : Text :=
  Symbol.encode s.symbols

/-! ## 3. Segments by their first symbol -/

/-- A comment runs to the end of its line. -/
def comment (r : Symbol) (rest : List Symbol) : Segment :=
  ⟨.trivia, r, rest.takeWhile fun c => !c.isLineFeed⟩

/-- A word is as long as possible; some words are reserved. -/
def word (r : Symbol) (rest : List Symbol) : Segment :=
  let tail := rest.takeWhile Symbol.isWord
  ⟨.token (.ofWord (Symbol.encode (r :: tail))) none, r, tail⟩

/-- The fraction that may follow the digits of a number: a point and at least one digit. -/
def fraction : List Symbol → List Symbol
  | .scalar '.' :: d :: rest =>
    if d.isDigit then .scalar '.' :: d :: rest.takeWhile Symbol.isDigit else []
  | _ => []

/-- The integer literal that digits denote. -/
def intContent (digits : Text) : Content :=
  let n := Text.readDigits 0 digits
  if n < Nat.pow 2 63 then .token .intLit (some (.int (Int64.ofNat n)))
  else .error (.intOutOfRange digits)

/-- The float nearest to the number that digits around a point denote. -/
def readFloat (whole fraction : Text) : Float :=
  Float.ofScientific (Text.readDigits (Text.readDigits 0 whole) fraction) true fraction.length

/-- The float literal that digits, a point and digits denote. -/
def floatContent (whole fraction : Text) : Content :=
  let x := readFloat whole fraction
  if x.isInf then .error (.floatOutOfRange (whole ++ 46 :: fraction))
  else .token .floatLit (some (.float x))

/-- A number is digits with or without a fraction. A word that follows at once spoils it. -/
def number (r : Symbol) (rest : List Symbol) : Segment :=
  let whole := rest.takeWhile Symbol.isDigit
  let behind := rest.drop whole.length
  let frac := fraction behind
  let after := behind.drop frac.length
  let spoil := if after.head?.any Symbol.isLetter then after.takeWhile Symbol.isWord else []
  let content :=
    if !spoil.isEmpty then .error .wordAfterNumber
    else if frac.isEmpty then intContent (Symbol.encode (r :: whole))
    else floatContent (Symbol.encode (r :: whole)) (Symbol.encode frac.tail)
  ⟨content, r, whole ++ frac ++ spoil⟩

/-- A character literal is one symbol between its marks, not a line feed. -/
def character (r closing : Symbol) (failure : LexicalError) (rest : List Symbol) : Segment :=
  match rest with
  | c :: d :: _ =>
    if !c.isLineFeed && d == closing then ⟨.token .charLit (some (.char c.code)), r, [c, d]⟩
    else ⟨.error failure, r, []⟩
  | _ => ⟨.error failure, r, []⟩

/-- The token for the value between two double quotes: two values are truth values. -/
def stringContent (value : Text) : Content :=
  if value = utf8 "TRUE" then .token .trueLit (some (.bool true))
  else if value = utf8 "FALSE" then .token .falseLit (some (.bool false))
  else .token .stringLit (some (.string value))

/-- A string literal ends at the next double quote of its line. -/
def string (r : Symbol) (rest : List Symbol) : Segment :=
  let inner := rest.takeWhile fun c => !c.isLineFeed && c != .scalar '"'
  match rest.drop inner.length with
  | q :: _ =>
    if q == .scalar '"' then ⟨stringContent (Symbol.respell inner), r, inner ++ [q]⟩
    else ⟨.error .unterminatedString, r, inner⟩
  | [] => ⟨.error .unterminatedString, r, inner⟩

/-- A mark that is a token by itself. -/
def mark? (c : Char) : Option Kind :=
  match c with
  | '(' => some .leftParen
  | ')' => some .rightParen
  | ',' => some .comma
  | ':' => some .colon
  | ';' => some .semicolon
  | '+' => some .plus
  | '-' => some .minus
  | '*' => some .star
  | '/' => some .slash
  | '%' => some .percent
  | '&' => some .ampersand
  | '=' => some .assign
  | '>' => some .greater
  | '<' => some .less
  | _ => none

/-- A mark of two characters. -/
def doubleMark? (c d : Char) : Option Kind :=
  match c, d with
  | '=', '=' => some .equalEqual
  | '>', '=' => some .greaterEqual
  | '<', '=' => some .lessEqual
  | '<', '>' => some .notEqual
  | _, _ => none

/-- A mark of two characters if the next symbol makes one. -/
def doubleMark (c : Char) (rest : List Symbol) : Option (Kind × Symbol) :=
  match rest with
  | .scalar d :: _ => (doubleMark? c d).map fun k => (k, .scalar d)
  | _ => none

/-- A mark, the longest that fits, or a character that starts no token. -/
def mark (c : Char) (rest : List Symbol) : Segment :=
  match doubleMark c rest with
  | some (k, d) => ⟨.token k none, .scalar c, [d]⟩
  | none =>
    match mark? c with
    | some k => ⟨.token k none, .scalar c, []⟩
    | none => ⟨.error (.unexpected c), .scalar c, []⟩

/-- The next segment of a text that starts with `r`. -/
def cut (r : Symbol) (rest : List Symbol) : Segment :=
  if r.isGap then ⟨.trivia, r, []⟩
  else if r.isLetter then word r rest
  else if r.isDigit then number r rest
  else match r with
    | .scalar '#' => comment r rest
    | .scalar '$' => ⟨.token .newline (some (.char 10)), r, []⟩
    | .scalar '\'' => character r r .unterminatedChar rest
    | .scalar '[' => character r (.scalar ']') .unexpectedBracket rest
    | .scalar '"' => string r rest
    | .scalar c => mark c rest
    | .stray _ => ⟨.error (.unexpected r.char), r, []⟩

/-! ## 4. All segments -/

/-- The segments of symbols of which the first `skip` belong to a segment already cut. -/
def allFrom : Nat → List Symbol → List Segment
  | _, [] => []
  | skip + 1, _ :: rest => allFrom skip rest
  | 0, r :: rest =>
    let s := cut r rest
    s :: allFrom s.tail.length rest

/-- The segments of a text. -/
def all (rs : List Symbol) : List Segment :=
  allFrom 0 rs

end Segment

end FencedCode
