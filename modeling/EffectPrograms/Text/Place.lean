/-!
# Places at the end of a text

A reason that a codec gives may end with the place in a text where it was met, as in
`no digit at line 3 column 14`. `Text.plainPlace` brings that end into its plain form: the numbers
stand without leading zeros, and a place in line 0, which no text has, is left out.
-/

namespace EffectPrograms.Text

/-- A place in a text. -/
structure Place where
  line : Nat
  column : Nat
deriving DecidableEq, Repr

namespace Place

/-- The text after a word at its front. -/
def after? (word : String) (cs : List Char) : Option (List Char) :=
  if word.toList.isPrefixOf cs then some (cs.drop word.length) else none

/-- The number that digits stand for, if there are any and it fits 64 bits. -/
def number? (digits : List Char) : Option Nat :=
  let n := digits.foldl (fun n c => n * 10 + (c.toNat - '0'.toNat)) 0
  if digits.isEmpty || Nat.pow 2 64 ≤ n then none else some n

/-- The place that a text consists of. -/
def read? (cs : List Char) : Option Place := do
  let cs ← after? " at line " cs
  let line := cs.takeWhile Char.isDigit
  let cs ← after? " column " (cs.dropWhile Char.isDigit)
  let column := cs.takeWhile Char.isDigit
  if (cs.dropWhile Char.isDigit).isEmpty then
    return { line := ← number? line, column := ← number? column }
  else none

/-- The place in its plain form. -/
def text (p : Place) : String :=
  if p.line = 0 then "" else " at line " ++ toString p.line ++ " column " ++ toString p.column

/-- A text in two: the place at its end, and what stands before it. -/
def split? : List Char → Option (List Char × Place)
  | [] => none
  | c :: rest =>
    match read? (c :: rest) with
    | some p => some ([], p)
    | none => (split? rest).map fun (before, p) => (c :: before, p)

end Place

/-- A text with the place at its end, if there is one, in its plain form. -/
def plainPlace (s : String) : String :=
  match Place.split? s.toList with
  | some (before, p) => String.ofList before ++ p.text
  | none => s

end EffectPrograms.Text
