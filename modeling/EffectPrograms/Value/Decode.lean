import EffectPrograms.Text.Place
import EffectPrograms.Text.Quoted
import EffectPrograms.Value

/-!
# Decoding values

A decoder takes a value to something of a known type, or says why it cannot. The fault names what
was found and what was expected; of several faults the first in the order of the value counts.
-/

namespace EffectPrograms

/-- What a fault says of the value it found. -/
inductive Shape where
  | null
  | bool (b : Bool)
  | number (n : Number)
  | string (s : String)
  | sequence
  | map
deriving Repr

/-- A shape in a message. -/
def Shape.text : Shape → String
  | .null => "null"
  | .bool b => "boolean `" ++ (if b then "true" else "false") ++ "`"
  | .number (.integer n) => "integer `" ++ toString n ++ "`"
  | .number (.double x) => "floating point `" ++ Number.doubleText x ++ "`"
  | .string s => "string " ++ Text.quote s
  | .sequence => "sequence"
  | .map => "map"

/-- What a fault says of a value. -/
def Value.shape : Value → Shape
  | .null => .null
  | .bool b => .bool b
  | .number n => .number n
  | .string s => .string s
  | .array _ => .sequence
  | .object _ => .map

/-- Why a value could not be decoded. -/
inductive DecodeFault where
  /-- A value of another kind stood there. -/
  | wrongType (found : Shape) (expected : String)
  /-- A value of the right kind stood there, but none that is admitted. -/
  | wrongValue (found : Shape) (expected : String)
  /-- A list held another number of items. -/
  | wrongLength (found : Nat) (expected : String)
  | missingField (name : String)
  | repeatedField (name : String)
  /-- The decoder gave a reason of its own. -/
  | refused (reason : String)
deriving Repr

/-- The fault in words. -/
def DecodeFault.message : DecodeFault → String
  | .wrongType found expected => "invalid type: " ++ found.text ++ ", expected " ++ expected
  | .wrongValue found expected => "invalid value: " ++ found.text ++ ", expected " ++ expected
  | .wrongLength found expected => "invalid length " ++ toString found ++ ", expected " ++ expected
  | .missingField name => "missing field `" ++ name ++ "`"
  | .repeatedField name => "duplicate field `" ++ name ++ "`"
  | .refused reason => Text.plainPlace reason

/-- Takes a value to something of type `α`. -/
abbrev Decoder (α : Type) := Value → Except DecodeFault α

namespace Decoder

variable {α β : Type}

/-- Refuses a value of another kind. -/
def mismatch (expected : String) (v : Value) : Except DecodeFault α :=
  .error (.wrongType v.shape expected)

/-- Any value. -/
def value : Decoder Value := .ok

/-- A string. -/
def string : Decoder String
  | .string s => .ok s
  | v => mismatch "a string" v

/-- A truth value. -/
def bool : Decoder Bool
  | .bool b => .ok b
  | v => mismatch "a boolean" v

/-- Nothing but `null`. -/
def unit : Decoder Unit
  | .null => .ok ()
  | v => mismatch "unit" v

/-- A string of one character. -/
def character : Decoder Char
  | .string s =>
    match s.toList with
    | [c] => .ok c
    | _ => .error (.wrongValue (.string s) "a character")
  | v => mismatch "a character" v

/-- An integer in a range. A floating-point number is no integer, even if it is whole. -/
def integerNumber (low high : Int) (expected : String) : Number → Except DecodeFault Int
  | .integer n =>
    if low ≤ n && n ≤ high then .ok n else .error (.wrongValue (.number (.integer n)) expected)
  | .double x => .error (.wrongType (.number (.double x)) expected)

/-- An integer in a range. -/
def integer (low high : Int) (expected : String) : Decoder Int
  | .number n => integerNumber low high expected n
  | v => mismatch expected v

/-- An integer with a sign and the given number of bits. -/
def signed (bits : Nat) : Decoder Int :=
  let bound : Int := (Nat.pow 2 (bits - 1) : Nat)
  integer (-bound) (bound - 1) ("i" ++ toString bits)

/-- The greatest integer without a sign of the given number of bits. -/
def greatestUnsigned (bits : Nat) : Int := (Nat.pow 2 bits - 1 : Nat)

/-- An integer without a sign and of the given number of bits. -/
def unsigned (bits : Nat) : Decoder Int :=
  integer 0 (greatestUnsigned bits) ("u" ++ toString bits)

/-- Any number, as a floating-point number. -/
def double : Decoder Double
  | .number (.integer n) => .ok (Double.ofInt n)
  | .number (.double x) => .ok x
  | v => mismatch "f64" v

/-- Nothing for `null`, and what `decode` makes of any other value. -/
def optional (decode : Decoder α) : Decoder (Option α)
  | .null => .ok none
  | v => (decode v).map some

/-- A list of items, decoded from the front. -/
def list (decode : Decoder α) : Decoder (List α)
  | .array items => items.mapM decode
  | v => mismatch "a sequence" v

/-- Two items in a list, decoded from the front; `expected` names the pair, and `whole` what a list
that is too short should have been. -/
def twoItems (expected whole : String) (first : Decoder α) (second : Decoder β) :
    Decoder (α × β)
  | .array items =>
    match items with
    | [] => .error (.wrongLength 0 whole)
    | x :: rest => do
      let a ← first x
      match rest with
      | [] => .error (.wrongLength 1 whole)
      | y :: rest =>
        let b ← second y
        if rest.isEmpty then .ok (a, b)
        else .error (.wrongLength items.length "fewer elements in array")
  | v => mismatch expected v

/-- A list of two items. -/
def pair (first : Decoder α) (second : Decoder β) : Decoder (α × β) :=
  twoItems "a tuple of size 2" "a tuple of size 2" first second

/-- Two members of an object, decoded in the order of the object, with members of other names left
out. What is missing is named only at the end, the first before the second. -/
def twoMembers (firstName : String) (first : Decoder α) (secondName : String) (second : Decoder β)
    (members : Entries Value) : Except DecodeFault (α × β) := do
  let step (found : Option α × Option β) (entry : String × Value) := do
    if entry.1 = firstName then return (some (← first entry.2), found.2)
    else if entry.1 = secondName then return (found.1, some (← second entry.2))
    else return found
  match ← members.foldlM step (none, none) with
  | (some a, some b) => .ok (a, b)
  | (none, _) => .error (.missingField firstName)
  | (_, none) => .error (.missingField secondName)

/-- The one member of an object under a name, with members of other names left out. -/
def oneMember (name : String) (decode : Decoder α) (members : Entries Value) :
    Except DecodeFault α :=
  match members.get? name with
  | some v => decode v
  | none => .error (.missingField name)

end Decoder

end EffectPrograms
