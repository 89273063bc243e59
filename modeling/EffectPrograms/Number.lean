import EffectPrograms.Number.Shortest

/-!
# Numbers of a value

A number is an integer or a `Double`; the two never compare equal. `Number.text` is the one place
that says how a number is written: an integer in decimal, a `Double` with its shortest digits, in
the layout that `Number.layout` fixes.
-/

namespace EffectPrograms

/-- A number as values carry it. -/
inductive Number where
  /-- An integer from `-2 ^ 63` to `2 ^ 64 - 1`. -/
  | integer (n : Int)
  /-- A finite floating-point number. -/
  | double (x : Double)
deriving DecidableEq, Repr

namespace Number

/-- Equality of numbers: an integer equals no `Double`, and the two zeros are equal. -/
def same : Number → Number → Bool
  | integer m, integer n => m == n
  | double x, double y => x.same y
  | _, _ => false

/-- Where the point of a decimal is written. -/
structure Layout where
  /-- Positional from this power of ten of the first digit on. -/
  positionalFrom : Int
  /-- Positional below this power of ten of the first digit. -/
  positionalBelow : Int
  /-- Follows the digits of a positional number without a fraction. -/
  wholeSuffix : String
  /-- Stands before an exponent that is not negative. -/
  positiveMark : String
  /-- Stands before the magnitude of a negative exponent. -/
  negativeMark : String

/-- Values are positional from `1e-5` to below `1e16`, keep a `.0`, and always sign an exponent that
is not negative. -/
def layout : Layout where
  positionalFrom := -5
  positionalBelow := 16
  wholeSuffix := ".0"
  positiveMark := "e+"
  negativeMark := "e-"

/-- `k` zeros. -/
def zeros (k : Nat) : String := String.ofList (List.replicate k '0')

/-- A decimal in the given layout. -/
def Layout.write (l : Layout) (x : Decimal) : String :=
  let digits := Nat.toDigits 10 x.digits
  let first : Int := x.exponent + digits.length - 1
  if l.positionalFrom ≤ first && first < l.positionalBelow then
    if 0 ≤ x.exponent then
      String.ofList digits ++ zeros x.exponent.toNat ++ l.wholeSuffix
    else if 0 ≤ first then
      let whole := first.toNat + 1
      String.ofList (digits.take whole) ++ "." ++ String.ofList (digits.drop whole)
    else "0." ++ zeros (-first - 1).toNat ++ String.ofList digits
  else
    let head := String.ofList (digits.take 1)
    let tail := digits.drop 1
    let fraction := if tail.isEmpty then "" else "." ++ String.ofList tail
    let mark := if first < 0 then l.negativeMark else l.positiveMark
    head ++ fraction ++ mark ++ toString first.natAbs

/-- A floating-point number as text, zero with its sign. -/
def doubleText (x : Double) : String :=
  (if x.negative then "-" else "") ++ layout.write x.shortest

/-- A number as text. -/
def text : Number → String
  | integer n => toString n
  | double x => doubleText x

end Number

end EffectPrograms
