import FencedCode.Text.Symbol

/-!
# Blank text

White space in the sense of Unicode: the ASCII blanks, U+0085, U+00A0 and the space
separators. A text is blank when each of its symbols is.
-/

namespace FencedCode.Text

/-- Is the code point white space? -/
def isSpace (code : Nat) : Bool :=
  (9 ≤ code && code ≤ 13) || code == 0x20 || code == 0x85 || code == 0xA0 || code == 0x1680
    || (0x2000 ≤ code && code ≤ 0x200A) || code == 0x2028 || code == 0x2029 || code == 0x202F
    || code == 0x205F || code == 0x3000

/-- Does the text show nothing? -/
def isBlank (t : Text) : Bool :=
  (Symbol.decode t).all fun r => isSpace r.code

end FencedCode.Text
