import EffectPrograms.Number.Double

/-!
# The shortest decimal that reads back

A number stands for the interval of reals that round to it. `Double.shortest` is the decimal with
the fewest digits in that interval, and of those the nearest to the number. It tests, for one digit
and then for more, the two neighbours of the number on the grid of decimals with that many digits:
if any point of a grid lies in the interval, so does one of the two.
-/

namespace EffectPrograms

/-- The number `digits * 10 ^ exponent`. -/
structure Decimal where
  /-- The significant digits, the last of which is not zero unless all are. -/
  digits : Nat
  /-- The power of ten of the last digit. -/
  exponent : Int
deriving DecidableEq, Repr

namespace Decimal

/-- `digits * 10 ^ exponent` as a fraction. -/
def toRatio (x : Decimal) : Nat × Nat :=
  if 0 ≤ x.exponent then (x.digits * Nat.pow 10 x.exponent.toNat, 1)
  else (x.digits, Nat.pow 10 (-x.exponent).toNat)

/-- Drops at most so many zeros at the end of the digits. -/
def trim : Nat → Decimal → Decimal
  | 0, x => x
  | k + 1, x =>
    if x.digits != 0 && x.digits % 10 == 0 then trim k ⟨x.digits / 10, x.exponent + 1⟩ else x

end Decimal

namespace Double

/-- The least `k ≤ fuel` with `1 ≤ 10 ^ k * (n / d)`, for a fraction below one. -/
def leadingZeros (n d : Nat) : Nat → Nat
  | 0 => 0
  | k + 1 => if d ≤ n then 0 else leadingZeros (n * 10) d k + 1

/-- The `e` with `10 ^ (e - 1) ≤ n / d < 10 ^ e`. -/
def magnitude (n d : Nat) : Int :=
  if d ≤ n then ((Nat.toDigits 10 (n / d)).length : Int)
  else 1 - (leadingZeros n d 400 : Int)

/-- The ends of the interval that rounds to the number, in units of `2 ^ (exponent - 2)`. Below the
least mantissa of a normal number the grid is twice as fine. -/
def interval (x : Double) : Nat × Nat :=
  let below := if x.mantissa == hiddenBit && leastExponent < x.exponent then 1 else 2
  (4 * x.mantissa - below, 4 * x.mantissa + 2)

/-- Whether the decimal rounds to the number. The ends round to an even mantissa. -/
def contains (x : Double) (c : Decimal) : Bool :=
  let (low, high) := x.interval
  let (un, ud) := scaled 1 1 (2 - x.exponent)
  let (cn, cd) := c.toRatio
  let lowSide := low * un * cd
  let highSide := high * un * cd
  let here := cn * ud
  if x.mantissa % 2 == 0 then lowSide ≤ here && here ≤ highSide
  else lowSide < here && here < highSide

/-- The nearer of the two neighbours of the number on the grid of decimals with `n` digits that
round to the number; of two equally near the one with an even last digit. -/
def neighbour? (x : Double) (n : Nat) : Option Decimal :=
  let (vn, vd) := x.toRatio
  let e := magnitude vn vd - n
  let (gn, gd) := Decimal.toRatio ⟨1, e⟩
  let top := vn * gd
  let bottom := vd * gn
  let low : Decimal := ⟨top / bottom, e⟩
  let high : Decimal := ⟨top / bottom + 1, e⟩
  let rest := 2 * (top % bottom)
  let lowNearer := rest < bottom || (rest == bottom && low.digits % 2 == 0)
  match x.contains low, x.contains high with
  | true, true => some (if lowNearer then low else high)
  | true, false => some low
  | false, true => some high
  | false, false => none

/-- The first grid with a hit, from `n` digits on. -/
def shortestFrom (x : Double) : Nat → Nat → Decimal
  | 0, _ => ⟨0, 0⟩
  | fuel + 1, n =>
    match x.neighbour? n with
    | some c => c.trim 20
    | none => shortestFrom x fuel (n + 1)

/-- The shortest decimal that rounds to the magnitude of the number: at most 17 digits. -/
def shortest (x : Double) : Decimal :=
  if x.isZero then ⟨0, 0⟩ else shortestFrom x 17 1

end Double

end EffectPrograms
