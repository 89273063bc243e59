/-!
# Finite binary numbers of 64 bits

A `Double` is a sign, a mantissa below `2 ^ 53` and a power of two, so that every operation is exact
arithmetic on natural numbers followed by one rounding. `Double.round` takes a fraction to the
nearest representable number and an exact tie to the even mantissa, and `Double.ofDecimal` reads a
decimal significand with its power of ten.
-/

namespace EffectPrograms

/-- The number `± mantissa * 2 ^ exponent`. What `Double.round` builds is normal: the mantissa has
53 bits, or the exponent is the least one. -/
structure Double where
  /-- Whether the sign is minus; zero has both signs. -/
  negative : Bool
  /-- The significant bits, below `2 ^ 53`. -/
  mantissa : Nat
  /-- The power of two, from `-1074` to `971`. -/
  exponent : Int
deriving DecidableEq, Repr

namespace Double

/-- The exponent below which no bits are kept. -/
def leastExponent : Int := -1074

/-- The exponent above which a number of 53 bits is out of range. -/
def greatestExponent : Int := 971

/-- The least mantissa of a number above the least exponent, `2 ^ 52`. -/
def hiddenBit : Nat := Nat.pow 2 52

/-- Zero with the given sign. -/
def zero (negative : Bool) : Double := ⟨negative, 0, leastExponent⟩

/-- Whether the magnitude is zero. -/
def isZero (x : Double) : Bool := x.mantissa == 0

/-- The same magnitude under another sign. -/
def withSign (x : Double) (negative : Bool) : Double := { x with negative := negative }

/-- `n / d` rounded to the nearest natural number, a half to the even one. -/
def roundDiv (n d : Nat) : Nat :=
  let q := n / d
  let r := n % d
  if d < 2 * r || (2 * r == d && q % 2 == 1) then q + 1 else q

/-- `n / (d * 2 ^ e)` as a fraction of natural numbers. -/
def scaled (n d : Nat) (e : Int) : Nat × Nat :=
  if 0 ≤ e then (n, d * Nat.pow 2 e.toNat) else (n * Nat.pow 2 (-e).toNat, d)

/-- The exponent at which `n / d` has 53 bits before the point, or the least exponent. -/
def exponentOf (n d : Nat) : Int :=
  let guess : Int := (Nat.log2 n : Int) - Nat.log2 d - 52
  let (sn, sd) := scaled n d guess
  max (if sn < hiddenBit * sd then guess - 1 else guess) leastExponent

/-- The fraction `n / d` rounded to the nearest number; none if it is out of range. -/
def round (negative : Bool) (n d : Nat) : Option Double :=
  if n == 0 then some (zero negative)
  else
    let e := exponentOf n d
    let (sn, sd) := scaled n d e
    let m := roundDiv sn sd
    let (m, e) := if m == 2 * hiddenBit then (hiddenBit, e + 1) else (m, e)
    if greatestExponent < e then none else some ⟨negative, m, e⟩

/-- The magnitude as a fraction. -/
def toRatio (x : Double) : Nat × Nat := scaled x.mantissa 1 (-x.exponent)

/-- The rounded product; none if it is out of range. -/
def mul (x y : Double) : Option Double :=
  let (xn, xd) := x.toRatio
  let (yn, yd) := y.toRatio
  round (x.negative != y.negative) (xn * yn) (xd * yd)

/-- The rounded quotient by a number other than zero; none if it is out of range. -/
def div (x y : Double) : Option Double :=
  let (xn, xd) := x.toRatio
  let (yn, yd) := y.toRatio
  round (x.negative != y.negative) (xn * yd) (xd * yn)

/-- The integer rounded to the nearest number; integers of 64 bits are in range. -/
def ofInt (n : Int) : Double :=
  (round (n < 0) n.natAbs 1).getD (zero false)

/-- `10 ^ k` rounded; `k` up to 308 is in range. -/
def powerOfTen (k : Nat) : Double := (round false (Nat.pow 10 k) 1).getD (zero false)

/-- The greatest power of ten that is in range. -/
def greatestPowerOfTen : Nat := 308

/-- Divides by the greatest power of ten so many times, and stops at zero. -/
def divideRepeatedly : Nat → Double → Double
  | 0, x => x
  | k + 1, x =>
    if x.isZero then x
    else divideRepeatedly k ((x.div (powerOfTen greatestPowerOfTen)).getD (zero false))

/-- The number `± significand * 10 ^ exponent` in two roundings, one of the significand and one of
its product with, or quotient by, a rounded power of ten. None if it is out of range. -/
def ofDecimal (negative : Bool) (significand : Nat) (exponent : Int) : Option Double := do
  let x ← round false significand 1
  if 0 ≤ exponent then
    if exponent.toNat ≤ greatestPowerOfTen then
      return (← x.mul (powerOfTen exponent.toNat)).withSign negative
    else if x.isZero then return zero negative
    else none
  else
    let k := (-exponent).toNat
    let repeats := (k - 1) / greatestPowerOfTen
    let y := divideRepeatedly repeats x
    if y.isZero then return zero negative
    return (← y.div (powerOfTen (k - greatestPowerOfTen * repeats))).withSign negative

/-- Equality of numbers: the two zeros are equal. -/
def same (x y : Double) : Bool := (x.isZero && y.isZero) || x == y

end Double

end EffectPrograms
