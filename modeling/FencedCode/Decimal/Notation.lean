import FencedCode.Decimal.Shortest
import FencedCode.Text.Basic

/-!
# How floats are written

The shortest decimal of a float in two layouts: the one that programs display, and the one that
listings of tokens and trees use.
-/

namespace FencedCode.Decimal

/-! ## 1. Layouts of a decimal -/

/-- The digits of the coefficient. -/
def digits (d : Decimal) : Text :=
  Text.ofNat d.coefficient

/-- The power of ten of the leading digit. -/
def magnitude (d : Decimal) : Int :=
  d.exponent + (d.digits.length : Int) - 1

/-- Digits with a decimal point where it belongs, and neither point nor fraction for a whole
    number. -/
def positional (d : Decimal) : Text :=
  let ds := d.digits
  if d.exponent ≥ 0 then ds ++ List.replicate d.exponent.toNat 48
  else
    let places := (-d.exponent).toNat
    if places < ds.length then ds.take (ds.length - places) ++ 46 :: ds.drop (ds.length - places)
    else 48 :: 46 :: List.replicate (places - ds.length) 48 ++ ds

/-- The leading digit, then the others as a fraction; `lone` is written where there are none. -/
def significand (d : Decimal) (lone : Text) : Text :=
  match d.digits with
  | [] => []
  | [a] => a :: lone
  | a :: rest => a :: 46 :: rest

/-! ## 2. Layouts of a float -/

/-- The text of a sign. -/
def sign (negative : Bool) : Text :=
  if negative then [45] else []

/-- A float as programs display it: positional when it is zero or its magnitude is in
    [0.001, 10 000 000), otherwise with a fraction, an `E` and the bare exponent. -/
def display (x : Float) : Text :=
  if x.isNaN then utf8 "NaN"
  else if x.isInf then utf8 (if x > 0 then "Infinity" else "-Infinity")
  else
    let b := Binary.ofFloat x
    let d := shortest b
    if x.abs == 0 || (0.001 ≤ x.abs && x.abs < 10000000) then sign b.negative ++ d.positional
    else sign b.negative ++ d.significand (utf8 ".0") ++ 69 :: Text.ofInt d.magnitude

/-- A float in listings: positional when the leading digit stands at 10⁻⁴ to 10⁵, otherwise with
    an `e`, a sign and at least two exponent digits. -/
def listing (x : Float) : Text :=
  if x.isNaN then utf8 "NaN"
  else if x.isInf then utf8 (if x > 0 then "+Inf" else "-Inf")
  else
    let b := Binary.ofFloat x
    let d := shortest b
    if -4 ≤ d.magnitude ∧ d.magnitude < 6 then sign b.negative ++ d.positional
    else
      let e := Text.ofNat d.magnitude.natAbs
      sign b.negative ++ d.significand [] ++ 101 :: (if d.magnitude < 0 then 45 else 43)
        :: (if e.length < 2 then 48 :: e else e)

end FencedCode.Decimal
