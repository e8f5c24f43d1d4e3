import FencedCode.Decimal.Binary

/-!
# Remainder of floats

The exact remainder of a division whose quotient is truncated toward zero: it is smaller than
the divisor and has the sign of the dividend, also when it is zero.
-/

namespace FencedCode.Number

/-- The remainder of `x` by `y`; a NaN when there is none. -/
def remainder (x y : Float) : Float :=
  if y == 0 || x.isInf || x.isNaN || y.isNaN then 0.0 / 0.0
  else if y.isInf then x
  else
    let a := Binary.ofFloat x
    let b := Binary.ofFloat y
    let e := min a.exponent b.exponent
    let m := a.mantissa * Nat.pow 2 (a.exponent - e).toNat
    let n := b.mantissa * Nat.pow 2 (b.exponent - e).toNat
    Binary.toFloat ⟨a.negative, m % n, e⟩

end FencedCode.Number
