import EffectPrograms.Settings
import EffectPrograms.Value.Reader

/-!
# Reading settings

A text of settings is an object with the members `max_depth` and `yield_between_steps`, each of
which may be missing, or a list of the two in this order, which may be short. Members of other names
are skipped. The text is read from the front, and the first flaw counts.
-/

namespace EffectPrograms.Settings

open Value.Reader (skipBlanks)

/-- Why a text holds no settings. -/
inductive Flaw where
  /-- It does not follow the grammar. -/
  | malformed
  /-- It follows the grammar and holds something else. -/
  | undecodable (fault : DecodeFault)

namespace Reader

/-! ## Values to skip

A skipped value only has to follow the grammar. Its escapes may stand for any half of a pair, and
its numbers may be out of range. -/

/-- The text after a string whose opening quote is taken. -/
def skipString : List Char → Option (List Char)
  | [] => none
  | '"' :: rest => some rest
  | '\\' :: 'u' :: a :: b :: c :: d :: rest =>
    if (Value.Reader.hexUnit? a b c d).isSome then skipString rest else none
  | '\\' :: c :: rest => if (Value.Reader.shortEscape? c).isSome then skipString rest else none
  | c :: rest => if c.toNat < 0x20 then none else skipString rest

/-- The text after a number. -/
def skipNumber (cs : List Char) : Option (List Char) := do
  let cs := match cs with
    | '-' :: rest => rest
    | cs => cs
  let (_, cs) ← Value.Reader.wholeDigits cs
  let (_, cs) ← Value.Reader.fractionDigits cs
  let (_, cs) ← Value.Reader.exponent cs
  return cs

mutual

/-- The text after a value, with the depth of nesting and the number of parts bounded by the fuel.
-/
def skipValue : Nat → List Char → Option (List Char)
  | 0, _ => none
  | fuel + 1, cs =>
    match skipBlanks cs with
    | 'n' :: 'u' :: 'l' :: 'l' :: rest => some rest
    | 't' :: 'r' :: 'u' :: 'e' :: rest => some rest
    | 'f' :: 'a' :: 'l' :: 's' :: 'e' :: rest => some rest
    | '"' :: rest => skipString rest
    | '[' :: rest =>
      match skipBlanks rest with
      | ']' :: rest => some rest
      | rest => skipItems fuel rest
    | '\x7b' :: rest =>
      match skipBlanks rest with
      | '\x7d' :: rest => some rest
      | rest => skipMembers fuel rest
    | rest => skipNumber rest

/-- The text after the items of a list and its closing bracket. -/
def skipItems : Nat → List Char → Option (List Char)
  | 0, _ => none
  | fuel + 1, cs => do
    match skipBlanks (← skipValue fuel cs) with
    | ',' :: rest => skipItems fuel rest
    | ']' :: rest => some rest
    | _ => none

/-- The text after the members of an object and its closing bracket. -/
def skipMembers : Nat → List Char → Option (List Char)
  | 0, _ => none
  | fuel + 1, cs =>
    match skipBlanks cs with
    | '"' :: rest => do
      match skipBlanks (← skipString rest) with
      | ':' :: rest =>
        match skipBlanks (← skipValue fuel rest) with
        | ',' :: rest => skipMembers fuel rest
        | '\x7d' :: rest => some rest
        | _ => none
      | _ => none
    | _ => none

end

/-! ## Values to take -/

/-- Takes something off the front of a text. -/
abbrev Reading (α : Type) := StateT (List Char) (Except Flaw) α

variable {α : Type}

/-- Takes what a reader takes. -/
def taking (reader : List Char → Option (α × List Char)) : Reading α := fun cs =>
  match reader cs with
  | some r => .ok r
  | none => .error .malformed

/-- Skips what a reader skips. -/
def skipping (reader : List Char → Option (List Char)) : Reading Unit :=
  taking fun cs => (reader cs).map fun rest => ((), rest)

/-- The first character that is no blank, which stays. -/
def front : Reading (Option Char) := do
  modify skipBlanks
  return (← get).head?

/-- Takes the characters of a word. -/
def word (s : String) : Reading Unit :=
  skipping fun cs => if s.toList.isPrefixOf cs then some (cs.drop s.length) else none

/-- Takes a character, after blanks. -/
def mark (c : Char) : Reading Unit := do
  if (← front) = some c then modify (List.drop 1) else throw .malformed

/-- Refuses a value of another kind. A list or an object is not read any further. -/
def unexpected (expected : String) : Reading α := do
  let found : Shape ← match ← front with
    | some 'n' => do word "null"; pure .null
    | some 't' => do word "true"; pure (.bool true)
    | some 'f' => do word "false"; pure (.bool false)
    | some '"' => do mark '"'; .string <$> taking Value.Reader.string
    | some '[' => pure .sequence
    | some '\x7b' => pure .map
    | _ => .number <$> taking Value.Reader.number
  throw (.undecodable (.wrongType found expected))

/-- Takes a limit of depth: `null` or a natural number of 64 bits. -/
def depth : Reading (Option Nat) := do
  match ← front with
  | some 'n' => word "null"; return none
  | some c =>
    if c = '-' || c.isDigit then
      let n ← taking Value.Reader.number
      match Decoder.integerNumber 0 (Decoder.greatestUnsigned 64) "usize" n with
      | .ok n => return some n.toNat
      | .error fault => throw (.undecodable fault)
    else unexpected "usize"
  | none => throw .malformed

/-- Takes a truth value. -/
def flag : Reading Bool := do
  match ← front with
  | some 't' => word "true"; return true
  | some 'f' => word "false"; return false
  | some _ => unexpected "a boolean"
  | none => throw .malformed

/-- Goes to the next part before the closing bracket: whether there is one. Between two parts there
is a comma. -/
def nextPart (closing : Char) (isFirst : Bool) : Reading Bool := do
  if (← front) = some closing then return false
  if !isFirst then
    mark ','
    if (← front) = some closing then throw .malformed
  return true

/-- Takes the items of a list after its opening bracket. -/
def fromList : Reading Settings := do
  if !(← nextPart ']' true) then return {}
  let maxDepth ← depth
  if !(← nextPart ']' false) then return { maxDepth }
  return { maxDepth, yieldBetweenSteps := ← flag }

/-- The members that were found. -/
structure Found where
  maxDepth : Option (Option Nat) := none
  yieldBetweenSteps : Option Bool := none

/-- The defaults, except for what was found. -/
def Found.settings (found : Found) : Settings where
  maxDepth := found.maxDepth.getD none
  yieldBetweenSteps := found.yieldBetweenSteps.getD true

/-- Takes one member whose name is taken. A name that comes twice is refused before its value. -/
def member (name : String) (found : Found) : Reading Found := do
  if name = "max_depth" then
    if found.maxDepth.isSome then throw (.undecodable (.repeatedField name))
    mark ':'
    return { found with maxDepth := some (← depth) }
  else if name = "yield_between_steps" then
    if found.yieldBetweenSteps.isSome then throw (.undecodable (.repeatedField name))
    mark ':'
    return { found with yieldBetweenSteps := some (← flag) }
  else
    mark ':'
    skipping fun cs => skipValue (cs.length + 1) cs
    return found

/-- Takes the members of an object after its opening bracket; the fuel bounds their number. -/
def fromMembers : Nat → Bool → Found → Reading Settings
  | 0, _, _ => throw .malformed
  | fuel + 1, isFirst, found => do
    if !(← nextPart '\x7d' isFirst) then return found.settings
    mark '"'
    let name ← taking Value.Reader.string
    fromMembers fuel false (← member name found)

/-- Takes settings. -/
def settings : Reading Settings := do
  match ← front with
  | some '[' =>
    mark '['
    let s ← fromList
    mark ']'
    return s
  | some '\x7b' =>
    mark '\x7b'
    let s ← fromMembers ((← get).length + 1) true {}
    mark '\x7d'
    return s
  | _ => unexpected "struct ExecutorConfig"

end Reader

/-- The settings that a text holds, with nothing but blanks around them. -/
def read (text : String) : Except Flaw Settings := do
  let (s, rest) ← Reader.settings.run text.toList
  if (skipBlanks rest).isEmpty then .ok s else .error .malformed

end EffectPrograms.Settings
