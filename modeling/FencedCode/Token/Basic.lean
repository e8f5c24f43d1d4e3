import FencedCode.Decimal.Notation
import FencedCode.Text.Quoted
import FencedCode.Token.Kind

/-!
# Tokens

A token is a kind, the text it was read from, the value it denotes when it is a literal, and the
place where it starts.
-/

namespace FencedCode

/-- A place in a source text. -/
structure Position where
  /-- Bytes before the place. -/
  offset : Nat
  /-- Line, counted from one; zero where there is no place. -/
  line : Nat
  /-- Column in symbols, counted from one. -/
  column : Nat
  deriving DecidableEq, Repr, Inhabited

namespace Position

/-- The start of a text. -/
def start : Position := ⟨0, 1, 1⟩

/-- No place at all. -/
def none : Position := ⟨0, 0, 0⟩

/-- The place behind a symbol. -/
def after (p : Position) (r : Symbol) : Position :=
  if r = .scalar '\n' then ⟨p.offset + r.width, p.line + 1, 1⟩
  else ⟨p.offset + r.width, p.line, p.column + 1⟩

/-- The place behind some symbols. -/
def afterAll (p : Position) (rs : List Symbol) : Position :=
  rs.foldl after p

/-- Line and column. -/
def label (p : Position) : Text :=
  Text.ofNat p.line ++ 58 :: Text.ofNat p.column

end Position

/-- The value of a literal. -/
inductive Literal where
  | string (text : Text)
  /-- A character, by its code point; a host may give a number that is none. -/
  | char (code : Int)
  | int (value : Int64)
  | float (value : Float)
  | bool (value : Bool)

/-- A truth value in listings. -/
def boolText (b : Bool) : Text :=
  utf8 (if b then "true" else "false")

/-- The character of a code point, U+FFFD where there is none. -/
def charOfCode (code : Int) : Char :=
  if 0 ≤ code ∧ code.toNat.isValidChar then Char.ofNat code.toNat else Symbol.replacement

/-- A literal in listings. -/
def Literal.listing : Literal → Text
  | string t => t
  | char code => Text.ofInt code
  | int n => Text.ofInt n.toInt
  | float x => Decimal.listing x
  | bool b => boolText b

/-- A lexical unit. -/
structure Token where
  /-- Its category. -/
  kind : Kind
  /-- The text it was read from. -/
  lexeme : Text
  /-- The value it denotes, for a literal. -/
  literal : Option Literal := none
  /-- Where it starts. -/
  pos : Position
  deriving Inhabited

namespace Token

/-- A token that stands nowhere. -/
def absent : Token := { kind := .eof, lexeme := [], pos := .none }

/-- The end of a text at the given place. -/
def endAt (p : Position) : Token := { kind := .eof, lexeme := [], pos := p }

/-- The line of a token. -/
def line (t : Token) : Nat := t.pos.line

/-- A token on one line: kind, quoted lexeme, and the literal if there is one. -/
def text (t : Token) : Text :=
  t.kind.label ++ 32 :: Text.quoted t.lexeme
    ++ (match t.literal with
        | some l => 32 :: l.listing
        | none => [])

end Token

end FencedCode
