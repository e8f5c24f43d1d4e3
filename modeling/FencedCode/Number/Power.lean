import FencedCode.Number.Dyadic

/-!
# Powers of floats

`power x y` takes the whole part of the exponent by repeated squaring of the base's fraction,
with the powers of two counted apart so that nothing overflows on the way, and the rest of the
exponent through logarithm and exponential.
-/

namespace FencedCode.Number

/-! ## 1. Logarithm and exponential -/

/-- The natural logarithm of a positive finite float: the power of two is split off, and the
    rest is a series in `s = f / (2 + f)`. -/
def logarithm (x : Float) : Float :=
  let (f1, k1) := split x
  let (f1, k) := if f1 < 0.70710678118654752440 then (f1 * 2, k1 - 1) else (f1, k1)
  let f := f1 - 1
  let k := Float.ofInt k
  let s := f / (2 + f)
  let s2 := s * s
  let s4 := s2 * s2
  let t1 := s2 * (6.666666666666735130e-01 + s4 * (2.857142874366239149e-01
    + s4 * (1.818357216161805012e-01 + s4 * 1.479819860511658591e-01)))
  let t2 := s4 * (3.999999999940941908e-01 + s4 * (2.222219843214978396e-01
    + s4 * 1.531383769920937332e-01))
  let r := t1 + t2
  let hfsq := 0.5 * f * f
  k * 6.93147180369123816490e-01
    - ((hfsq - (s * (hfsq + r) + k * 1.90821492927058770002e-10)) - f)

/-- The coefficients `1/n!` of the exponential series, the highest first. -/
def seriesCoefficients : List Float :=
  [1.9841269841269841270e-4, 1.3888888888888888889e-3, 8.3333333333333333333e-3,
   4.1666666666666666667e-2, 1.6666666666666666667e-1, 0.5, 1.0]

/-- The exponential of a finite float: a multiple of `ln 2` is taken off, a sixteenth of the rest
    goes through the series for `e ^ t - 1`, and four doublings undo the sixteenth. -/
def exponential (x : Float) : Float :=
  if x > 7.09782712893384e+02 then 1.0 / 0.0
  else
    let k := (Dyadic.roundHalfEven (x * 1.4426950408889634))
    let kf := Float.ofInt k
    let t := fusedMulAdd (-kf) 0.69314718055966295651160180568695068359375 x
    let t := fusedMulAdd (-kf) 0.28235290563031577122588448175013436025525412068e-12 t
    let t := t * 0.0625
    let p := seriesCoefficients.foldl (fun p c => fusedMulAdd p t c) 2.4801587301587301587e-5
    let t := t * p
    let double (t : Float) : Float := t * (t + 2)
    Float.scaleB (double (double (double (double t))) + 1) k

/-! ## 2. Whole exponents -/

/-- Is the float an odd whole number? -/
def isOdd (x : Float) : Bool :=
  let b := Binary.ofFloat x
  if b.exponent ≥ 0 then b.exponent = 0 && b.mantissa % 2 = 1
  else
    let unit := Nat.pow 2 (-b.exponent).toNat
    b.mantissa % unit = 0 && b.mantissa / unit % 2 = 1

/-- Multiplies `acc · 2 ^ accExp` by the `i`-th power of `x · 2 ^ xExp`, squaring once per binary
    digit of `i`. It stops once the power of two alone decides the result. -/
def squaring : Nat → Nat → Float → Int → Float → Int → Float × Int
  | 0, _, _, _, acc, accExp => (acc, accExp)
  | fuel + 1, i, x, xExp, acc, accExp =>
    if i = 0 then (acc, accExp)
    else if xExp < -4096 ∨ 4096 < xExp then (acc, accExp + xExp)
    else
      let (acc, accExp) := if i % 2 = 1 then (acc * x, accExp + xExp) else (acc, accExp)
      let sq := x * x
      if sq < 0.5 then squaring fuel (i / 2) (sq + sq) (2 * xExp - 1) acc accExp
      else squaring fuel (i / 2) sq (2 * xExp) acc accExp

/-! ## 3. The power function -/

/-- What an exponent too large to count gives: the limit of the powers. -/
def limitPower (x : Float) (grows : Bool) : Float :=
  if x == -1 then 1
  else if (x.abs < 1) == grows then 0
  else 1.0 / 0.0

/-- A power of a zero; the sign shows only for odd exponents. -/
def zeroPower (x y : Float) : Float :=
  let negative := (Binary.ofFloat x).negative && isOdd y
  if y < 0 then (if negative then -1.0 / 0.0 else 1.0 / 0.0)
  else if negative then x else 0

/-- A power of a finite nonzero base with a finite exponent. -/
def finitePower (x y : Float) : Float :=
  let whole := y.abs.floor
  let rest := y.abs - whole
  if rest != 0 && x < 0 then 0.0 / 0.0
  else if whole ≥ 9.223372036854775808e18 then limitPower x (y > 0)
  else
    let (whole, rest) := if rest > 0.5 then (whole + 1, rest - 1) else (whole, rest)
    let start := if rest != 0 then exponential (rest * logarithm x) else 1
    let (x1, xe) := split x
    let (a, ae) := squaring 64 whole.toUInt64.toNat x1 xe start 0
    if y < 0 then Float.scaleB (1 / a) (-ae) else Float.scaleB a ae

/-- `x` to the power `y`. -/
def power (x y : Float) : Float :=
  if y == 0 || x == 1 then 1
  else if y == 1 then x
  else if x.isNaN || y.isNaN then 0.0 / 0.0
  else if x == 0 then zeroPower x y
  else if y.isInf then limitPower x (y > 0)
  else if x.isInf then
    if x < 0 then zeroPower (-0.0) (-y) else if y < 0 then 0 else 1.0 / 0.0
  else if y == 0.5 then x.sqrt
  else if y == -0.5 then 1 / x.sqrt
  else finitePower x y

end FencedCode.Number
