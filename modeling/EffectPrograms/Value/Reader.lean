import EffectPrograms.Value

/-!
# Reading values

A reader takes what it reads off the front of a list of characters and gives the rest, or refuses.
`Value.read?` reads a whole text. A number whose significand does not fit 64 bits is cut there:
further digits before the point count as powers of ten, further digits after it are dropped. Of two
members of one name the later value counts, in the place of the first.
-/

namespace EffectPrograms.Value.Reader

/-- Blank characters between the parts of a value. -/
def isBlank (c : Char) : Bool := c == ' ' || c == '\n' || c == '\t' || c == '\r'

/-- The text after the blanks at its front. -/
def skipBlanks (cs : List Char) : List Char := cs.dropWhile isBlank

/-- The value of a hexadecimal digit. -/
def hexDigit? (c : Char) : Option Nat :=
  if c.isDigit then some (c.toNat - '0'.toNat)
  else if 'a' ≤ c && c ≤ 'f' then some (c.toNat - 'a'.toNat + 10)
  else if 'A' ≤ c && c ≤ 'F' then some (c.toNat - 'A'.toNat + 10)
  else none

/-- The number that four hexadecimal digits stand for. -/
def hexUnit? (a b c d : Char) : Option Nat := do
  return ((← hexDigit? a) * 16 + (← hexDigit? b)) * 256 + ((← hexDigit? c) * 16 + (← hexDigit? d))

/-- The character that follows a backslash in a short escape. -/
def shortEscape? : Char → Option Char
  | '"' => some '"'
  | '\\' => some '\\'
  | '/' => some '/'
  | 'b' => some '\x08'
  | 'f' => some '\x0c'
  | 'n' => some '\n'
  | 'r' => some '\r'
  | 't' => some '\t'
  | _ => none

/-- Whether a unit of four digits is the first half of a pair. -/
def isHighHalf (n : Nat) : Bool := 0xd800 ≤ n && n < 0xdc00

/-- Whether a unit of four digits is the second half of a pair. -/
def isLowHalf (n : Nat) : Bool := 0xdc00 ≤ n && n < 0xe000

/-- The character that a pair of halves stands for. -/
def joinHalves (high low : Nat) : Char :=
  Char.ofNat (0x10000 + (high - 0xd800) * 0x400 + (low - 0xdc00))

/-- The characters of a string up to its closing quote. Controls below the blank have to be escaped,
and after the first half of a pair, kept in `high`, has to stand the second. -/
def stringBody (high : Option Nat) : List Char → Option (List Char × List Char)
  | [] => none
  | '"' :: rest => if high.isSome then none else some ([], rest)
  | '\\' :: 'u' :: a :: b :: c :: d :: rest => do
    let unit ← hexUnit? a b c d
    match high with
    | some first =>
      if isLowHalf unit then
        let (body, rest) ← stringBody none rest
        some (joinHalves first unit :: body, rest)
      else none
    | none =>
      if isHighHalf unit then stringBody (some unit) rest
      else if isLowHalf unit then none
      else
        let (body, rest) ← stringBody none rest
        some (Char.ofNat unit :: body, rest)
  | '\\' :: c :: rest => do
    if high.isSome then none
    else
      let escaped ← shortEscape? c
      let (body, rest) ← stringBody none rest
      some (escaped :: body, rest)
  | c :: rest => do
    if high.isSome || c.toNat < 0x20 then none
    else
      let (body, rest) ← stringBody none rest
      some (c :: body, rest)

/-- A string after its opening quote. -/
def string (cs : List Char) : Option (String × List Char) :=
  (stringBody none cs).map fun (body, rest) => (String.ofList body, rest)

/-- Takes digits into the significand as long as it fits 64 bits, and gives the digits left over. -/
def absorb (significand : Nat) : List Char → Nat × List Char
  | [] => (significand, [])
  | c :: rest =>
    let next := significand * 10 + (c.toNat - '0'.toNat)
    if next < Nat.pow 2 64 then absorb next rest else (significand, c :: rest)

/-- The digits of a whole number: a zero stands alone. -/
def wholeDigits (cs : List Char) : Option (List Char × List Char) :=
  let digits := cs.takeWhile Char.isDigit
  let rest := cs.dropWhile Char.isDigit
  match digits with
  | [] => none
  | '0' :: _ :: _ => none
  | _ => some (digits, rest)

/-- The digits after a point, if a point follows; there is at least one. -/
def fractionDigits : List Char → Option (Option (List Char) × List Char)
  | '.' :: cs =>
    let digits := cs.takeWhile Char.isDigit
    if digits.isEmpty then none else some (some digits, cs.dropWhile Char.isDigit)
  | cs => some (none, cs)

/-- The digits of an exponent, at least one, under the given sign. -/
def exponentDigits (negative : Bool) (cs : List Char) : Option (Option Int × List Char) :=
  let digits := cs.takeWhile Char.isDigit
  if digits.isEmpty then none
  else
    let n : Int := digits.foldl (fun n c => n * 10 + (c.toNat - '0'.toNat)) 0
    some (some (if negative then -n else n), cs.dropWhile Char.isDigit)

/-- The exponent, if its mark follows. -/
def exponent (cs : List Char) : Option (Option Int × List Char) :=
  match cs with
  | 'e' :: rest | 'E' :: rest =>
    match rest with
    | '+' :: rest => exponentDigits false rest
    | '-' :: rest => exponentDigits true rest
    | _ => exponentDigits false rest
  | _ => some (none, cs)

/-- A whole number without its sign: an integer if it fits a word, otherwise rounded. -/
def wholeNumber (negative : Bool) (n : Nat) : Number :=
  if negative then
    if n == 0 then .double (Double.zero true)
    else if n ≤ Nat.pow 2 63 then .integer (-(n : Int))
    else .double (Double.ofInt (-(n : Int)))
  else .integer n

/-- A number after its sign. -/
def unsignedNumber (negative : Bool) (cs : List Char) : Option (Number × List Char) := do
  let (whole, cs) ← wholeDigits cs
  let (fraction, cs) ← fractionDigits cs
  let (power, cs) ← exponent cs
  let (significand, dropped) := absorb 0 whole
  match fraction, power, dropped with
  | none, none, [] => some (wholeNumber negative significand, cs)
  | _, _, _ =>
    let digits := fraction.getD []
    let (significand, ignored) := absorb significand digits
    let point : Int := (dropped.length : Int) - (digits.length - ignored.length : Nat)
    let x ← Double.ofDecimal negative significand (point + power.getD 0)
    some (.double x, cs)

/-- A number. -/
def number : List Char → Option (Number × List Char)
  | '-' :: rest => unsignedNumber true rest
  | cs => unsignedNumber false cs

mutual

/-- A value, with the depth of nesting and the number of parts bounded by the fuel. -/
def value : Nat → List Char → Option (Value × List Char)
  | 0, _ => none
  | fuel + 1, cs =>
    match skipBlanks cs with
    | 'n' :: 'u' :: 'l' :: 'l' :: rest => some (.null, rest)
    | 't' :: 'r' :: 'u' :: 'e' :: rest => some (.bool true, rest)
    | 'f' :: 'a' :: 'l' :: 's' :: 'e' :: rest => some (.bool false, rest)
    | '"' :: rest => (string rest).map fun (s, rest) => (.string s, rest)
    | '[' :: rest =>
      match skipBlanks rest with
      | ']' :: rest => some (.array [], rest)
      | rest => (items fuel rest).map fun (vs, rest) => (.array vs, rest)
    | '\x7b' :: rest =>
      match skipBlanks rest with
      | '\x7d' :: rest => some (.object [], rest)
      | rest => (members fuel rest).map fun (ms, rest) => (.object (Entries.ofPairs ms), rest)
    | rest => (number rest).map fun (n, rest) => (.number n, rest)

/-- The items of a list up to its closing bracket. -/
def items : Nat → List Char → Option (List Value × List Char)
  | 0, _ => none
  | fuel + 1, cs => do
    let (v, rest) ← value fuel cs
    match skipBlanks rest with
    | ',' :: rest =>
      let (vs, rest) ← items fuel rest
      some (v :: vs, rest)
    | ']' :: rest => some ([v], rest)
    | _ => none

/-- The members of an object up to its closing bracket. -/
def members : Nat → List Char → Option (List (String × Value) × List Char)
  | 0, _ => none
  | fuel + 1, cs =>
    match skipBlanks cs with
    | '"' :: rest => do
      let (name, rest) ← string rest
      match skipBlanks rest with
      | ':' :: rest =>
        let (v, rest) ← value fuel rest
        match skipBlanks rest with
        | ',' :: rest =>
          let (ms, rest) ← members fuel rest
          some ((name, v) :: ms, rest)
        | '\x7d' :: rest => some ([(name, v)], rest)
        | _ => none
      | _ => none
    | _ => none

end

end Reader

/-- The value that a text holds, with nothing but blanks around it. -/
def read? (text : String) : Option Value :=
  let cs := text.toList
  match Reader.value (cs.length + 1) cs with
  | some (v, rest) => if (Reader.skipBlanks rest).isEmpty then some v else none
  | none => none

end EffectPrograms.Value
