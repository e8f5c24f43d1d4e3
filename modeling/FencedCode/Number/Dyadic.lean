import FencedCode.Decimal.Binary

/-!
# Dyadic numbers

Whole multiples of powers of two, on which addition and multiplication are exact. Rounding to a
float happens once, at the end: to the nearest, a tie to the even neighbour.
-/

namespace FencedCode.Number

/-- The number `mantissa · 2 ^ exponent`. -/
structure Dyadic where
  /-- The signed whole number. -/
  mantissa : Int
  /-- The power of two it is multiplied by. -/
  exponent : Int

namespace Dyadic

/-- A finite float, exactly. -/
def ofFloat (x : Float) : Dyadic :=
  let b := Binary.ofFloat x
  ⟨if b.negative then -(b.mantissa : Int) else b.mantissa, b.exponent⟩

/-- The exact product. -/
def mul (a b : Dyadic) : Dyadic :=
  ⟨a.mantissa * b.mantissa, a.exponent + b.exponent⟩

/-- The exact sum. -/
def add (a b : Dyadic) : Dyadic :=
  let e := min a.exponent b.exponent
  let raised (d : Dyadic) : Int := d.mantissa * Int.ofNat (Nat.pow 2 (d.exponent - e).toNat)
  ⟨raised a + raised b, e⟩

/-- `n / 2 ^ shift`, rounded to the nearest whole number, a tie to the even one. -/
def roundShift (n shift : Nat) : Nat :=
  let unit := Nat.pow 2 shift
  let q := n / unit
  let r := n % unit
  if 2 * r > unit ∨ (2 * r = unit ∧ q % 2 = 1) then q + 1 else q

/-- The whole number nearest to a finite float, a tie to the even one. -/
def roundHalfEven (x : Float) : Int :=
  let b := Binary.ofFloat x
  let n := roundShift (b.mantissa * Nat.pow 2 b.exponent.toNat) (-b.exponent).toNat
  if b.negative then -(n : Int) else n

/-- The nearest float. -/
def toFloat (a : Dyadic) : Float :=
  let n := a.mantissa.natAbs
  let shift := (max ((Nat.log2 n : Int) - 52) (-1074 - a.exponent)).toNat
  Binary.toFloat ⟨a.mantissa < 0, roundShift n shift, a.exponent + shift⟩

end Dyadic

/-- `a · b + c` with one rounding. -/
def fusedMulAdd (a b c : Float) : Float :=
  (((Dyadic.ofFloat a).mul (.ofFloat b)).add (.ofFloat c)).toFloat

/-- A positive float as a fraction in [½, 1) and a power of two. -/
def split (x : Float) : Float × Int :=
  let b := Binary.ofFloat x
  let bits : Int := Nat.log2 b.mantissa + 1
  (Binary.toFloat ⟨b.negative, b.mantissa, -bits⟩, b.exponent + bits)

end FencedCode.Number
