/-!
# Text

A text is a list of bytes: program sources, input lines, messages and output need not be
valid UTF-8. This file fixes the type, the way string constants enter it (`utf8`), decimal
numerals, and padding to a width.
-/

namespace FencedCode

/-- A text: bytes, of which nothing is assumed. -/
abbrev Text := List UInt8

/-- The bytes of a string constant. -/
def utf8 (s : String) : Text :=
  s.toList.flatMap String.utf8EncodeChar

namespace Text

/-! ## 1. Numerals -/

/-- The byte of a decimal digit. -/
def digit (d : Nat) : UInt8 :=
  UInt8.ofNat (48 + d % 10)

/-- The byte of a hexadecimal digit, in lower case. -/
def hexDigit (d : Nat) : UInt8 :=
  if d % 16 < 10 then UInt8.ofNat (48 + d % 16) else UInt8.ofNat (87 + d % 16)

/-- The decimal digits of `n`, most significant first, in front of `acc`. `fuel` bounds the
    number of digits. -/
def digitsInto : Nat → Nat → Text → Text
  | 0, _, acc => acc
  | fuel + 1, n, acc =>
    if n < 10 then digit n :: acc else digitsInto fuel (n / 10) (digit (n % 10) :: acc)

/-- The decimal numeral of a natural number, without leading zeros. -/
def ofNat (n : Nat) : Text :=
  digitsInto (n + 1) n []

/-- The decimal numeral of an integer, with a minus sign when it is negative. -/
def ofInt : Int → Text
  | .ofNat n => ofNat n
  | .negSucc n => 45 :: ofNat (n + 1)

/-- Exactly `width` hexadecimal digits of `n`, the low ones. -/
def hex : Nat → Nat → Text
  | 0, _ => []
  | width + 1, n => hex width (n / 16) ++ [hexDigit n]

/-- The number a text of decimal digits denotes, from a number read so far. -/
def readDigits (acc : Nat) (t : Text) : Nat :=
  t.foldl (fun n b => 10 * n + (b.toNat - 48)) acc

/-! ## 2. Layout -/

/-- Blanks that bring a text which shows `shown` characters to `width`. -/
def padding (width shown : Nat) : Text :=
  List.replicate (width - shown) 32

/-- Texts with `separator` between neighbours. -/
def join (separator : Text) : List Text → Text
  | [] => []
  | [t] => t
  | t :: ts => t ++ separator ++ join separator ts

/-- A text and the line feed that ends it. -/
def line (t : Text) : Text :=
  t ++ [10]

end Text

end FencedCode
