import FencedCode.Text.Printable
import FencedCode.Text.Symbol

/-!
# Quoted text

A text between quote marks, on one line and without ambiguity: the quote mark and the
backslash are escaped, controls have short or hexadecimal escapes, a stray byte is written
`\xff`, and any other character that is not printable by its code point. Printable
characters stand for themselves.
-/

namespace FencedCode.Text

/-- The escape of a code point that has a letter of its own. -/
def shortEscape? (code : Nat) : Option UInt8 :=
  match code with
  | 7 => some 97
  | 8 => some 98
  | 9 => some 116
  | 10 => some 110
  | 11 => some 118
  | 12 => some 102
  | 13 => some 114
  | _ => none

/-- A character inside quotes of the given mark. -/
def escapeChar (mark : UInt8) (c : Char) : Text :=
  let code := c.toNat
  if code = mark.toNat ∨ code = 92 then 92 :: String.utf8EncodeChar c
  else if isPrintable code then String.utf8EncodeChar c
  else match shortEscape? code with
    | some letter => [92, letter]
    | none =>
      if code < 0x20 ∨ code = 0x7F then 92 :: 120 :: hex 2 code
      else if code < 0x10000 then 92 :: 117 :: hex 4 code
      else 92 :: 85 :: hex 8 code

/-- A symbol of a text inside double quotes. -/
def escapeSymbol : Symbol → Text
  | .scalar c => escapeChar 34 c
  | .stray b => 92 :: 120 :: hex 2 b.toNat

/-- The text in double quotes. -/
def quoted (t : Text) : Text :=
  34 :: (Symbol.decode t).flatMap escapeSymbol ++ [34]

/-- The character in single quotes. -/
def quotedChar (c : Char) : Text :=
  39 :: escapeChar 39 c ++ [39]

end FencedCode.Text
