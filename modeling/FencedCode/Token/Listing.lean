import FencedCode.Token.Scan

/-!
# Listing of tokens

One line per token: place and kind in columns, the quoted lexeme, and the literal if there is
one, a character quoted.
-/

namespace FencedCode.Token

/-- A text brought to a width by blanks behind it. The texts here are ASCII, so that each byte
    shows as one character. -/
def column (width : Nat) (t : Text) : Text :=
  t ++ Text.padding width t.length

/-- The literal at the end of a line. -/
def literalColumn : Option Literal → Text
  | none => []
  | some (.char code) => 32 :: Text.quotedChar (charOfCode code)
  | some l => 32 :: l.listing

/-- The line of a token. -/
def listing (t : Token) : Text :=
  column 7 t.pos.label ++ 32 :: column 18 t.kind.label ++ 32 :: Text.quoted t.lexeme
    ++ literalColumn t.literal

/-- The lines of all tokens. -/
def listings (ts : List Token) : Text :=
  ts.flatMap fun t => Text.line t.listing

end FencedCode.Token
