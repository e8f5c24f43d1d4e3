/-!
# Binary parts of a float

A finite float is a sign, a whole number `mantissa` and a power of two: `mantissa · 2 ^ exponent`.
This file reads these parts off the bits and puts them together again.
-/

namespace FencedCode

/-- The parts of a finite float. -/
structure Binary where
  /-- Is the sign bit set? -/
  negative : Bool
  /-- The significand as a whole number, below `2 ^ 53`. -/
  mantissa : Nat
  /-- The power of two it is multiplied by, at least `-1074`. -/
  exponent : Int
  deriving DecidableEq, Repr

namespace Binary

/-- The eleven exponent bits. -/
def exponentField (bits : UInt64) : Nat :=
  bits.toNat / Nat.pow 2 52 % Nat.pow 2 11

/-- The fifty-two bits below them. -/
def fraction (bits : UInt64) : Nat :=
  bits.toNat % Nat.pow 2 52

/-- The top bit. -/
def signBit (bits : UInt64) : Bool :=
  Nat.pow 2 63 ≤ bits.toNat

/-- The parts of a float; of an infinity or a NaN, those its bits would have as a number. -/
def ofFloat (x : Float) : Binary :=
  let bits := x.toBits
  let e := exponentField bits
  if e = 0 then ⟨signBit bits, fraction bits, -1074⟩
  else ⟨signBit bits, Nat.pow 2 52 + fraction bits, (e : Int) - 1075⟩

/-- The float with the given sign that is nearest to `mantissa · 2 ^ exponent`. -/
def toFloat (b : Binary) : Float :=
  let x := Float.scaleB (Float.ofNat b.mantissa) b.exponent
  if b.negative then -x else x

end Binary

end FencedCode
