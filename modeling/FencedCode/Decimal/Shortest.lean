import FencedCode.Decimal.Binary

/-!
# The shortest decimal of a float

Every decimal inside a float's rounding interval reads back as that float. This file finds the
one on the coarsest decimal grid that has a point in the interval; of two such points it takes
the nearer, and of two equally near ones the one with an even last digit.

All of it is exact arithmetic on natural numbers.
-/

namespace FencedCode

/-- The number `coefficient · 10 ^ exponent`. -/
structure Decimal where
  /-- The digits, as a whole number. -/
  coefficient : Nat
  /-- The power of ten they are multiplied by. -/
  exponent : Int
  deriving DecidableEq, Repr

namespace Decimal

/-! ## 1. The rounding interval -/

/-- A range of numbers as numerators over one denominator. -/
structure Interval where
  /-- The least number. -/
  low : Nat
  /-- The number itself. -/
  value : Nat
  /-- The greatest number. -/
  high : Nat
  /-- The common denominator. -/
  den : Nat
  /-- Do the two ends belong to the range? -/
  closed : Bool

namespace Interval

/-- The numbers that round to `mantissa · 2 ^ exponent`: half a unit to both sides, but only a
    quarter downwards where the next lower binade has a finer grid. The ends belong to the
    interval when the mantissa is even. -/
def ofBinary (b : Binary) : Interval :=
  let up := Nat.pow 2 (b.exponent - 2).toNat
  let below := if b.mantissa = Nat.pow 2 52 ∧ b.exponent > -1074 then 1 else 2
  { low := (4 * b.mantissa - below) * up
    value := 4 * b.mantissa * up
    high := (4 * b.mantissa + 2) * up
    den := Nat.pow 2 (2 - b.exponent).toNat
    closed := b.mantissa % 2 = 0 }

/-- The interval measured in units of `10 ^ k`. -/
def scale (i : Interval) (k : Int) : Interval :=
  let up := Nat.pow 10 (-k).toNat
  { i with
    low := i.low * up
    value := i.value * up
    high := i.high * up
    den := i.den * Nat.pow 10 k.toNat }

/-- Is the whole number `c` in the interval? -/
def holds (i : Interval) (c : Nat) : Bool :=
  if i.closed then i.low ≤ c * i.den && c * i.den ≤ i.high
  else i.low < c * i.den && c * i.den < i.high

/-- The whole number in the interval that is nearest to its value, if the interval holds a whole
    number next to it. -/
def nearest? (i : Interval) : Option Nat :=
  let c := i.value / i.den
  let r := i.value % i.den
  let upward : Bool := 2 * r > i.den || (2 * r == i.den && c % 2 == 1)
  match i.holds c, i.holds (c + 1) with
  | true, true => some (if upward then c + 1 else c)
  | true, false => some c
  | false, true => some (c + 1)
  | false, false => none

end Interval

/-! ## 2. The coarsest grid -/

/-- The decimal on the coarsest grid from `10 ^ k` down; on the last grid tried, the value
    rounded down. -/
def search (i : Interval) : Nat → Int → Decimal
  | 0, k => ⟨(i.scale k).value / (i.scale k).den, k⟩
  | fuel + 1, k =>
    match (i.scale k).nearest? with
    | some c => ⟨c, k⟩
    | none => search i fuel (k - 1)

/-- Moves trailing zeros of the coefficient to the exponent. -/
def strip : Nat → Decimal → Decimal
  | 0, d => d
  | fuel + 1, d =>
    if d.coefficient ≠ 0 ∧ d.coefficient % 10 = 0 then
      strip fuel ⟨d.coefficient / 10, d.exponent + 1⟩
    else d

/-- A power of ten that is not below the magnitude. -/
def firstGrid (b : Binary) : Int :=
  ((Nat.log2 b.mantissa : Int) + b.exponent + 1) * 30103 / 100000 + 1

/-- The shortest decimal that reads back as the given magnitude. The last grid of the search is
    one on which the magnitude itself lies. -/
def shortest (b : Binary) : Decimal :=
  if b.mantissa = 0 then ⟨0, 0⟩
  else
    let first := firstGrid b
    let d := search (.ofBinary b) (first - min b.exponent 0).toNat first
    strip (d.coefficient + 1) d

end Decimal

end FencedCode
