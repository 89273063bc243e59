import EffectPrograms.Entries
import EffectPrograms.Number

/-!
# Values

Arguments, bindings and results are values: nothing, truth values, numbers, strings, lists and
objects. An object keeps its members in order, but `Value.same`, the equality that programs see,
ignores the order.
-/

namespace EffectPrograms

/-- A value that operations take and deliver. -/
inductive Value where
  /-- The value of everything that has none. -/
  | null
  | bool (b : Bool)
  | number (n : Number)
  | string (s : String)
  | array (items : List Value)
  /-- Members in order, each name once. -/
  | object (members : List (String × Value))
deriving Repr, Inhabited

namespace Value

/-- An integer as a value. -/
def ofInt (n : Int) : Value := .number (.integer n)

/-- A natural number as a value. -/
def ofNat (n : Nat) : Value := ofInt n

mutual

/-- Equality as programs see it: numbers as `Number.same`, objects without regard to order. -/
def same : Value → Value → Bool
  | .null, .null => true
  | .bool b, .bool c => b == c
  | .number m, .number n => m.same n
  | .string s, .string t => s == t
  | .array xs, .array ys => sameItems xs ys
  | .object ms, .object ns => ms.length == ns.length && sameMembers ms ns
  | _, _ => false

/-- Equality of lists, item by item. -/
def sameItems : List Value → List Value → Bool
  | [], [] => true
  | x :: xs, y :: ys => same x y && sameItems xs ys
  | _, _ => false

/-- Whether every member on the left has an equal one of its name on the right. -/
def sameMembers : List (String × Value) → List (String × Value) → Bool
  | [], _ => true
  | (name, x) :: rest, ns =>
    (match ns.lookup name with
      | some y => same x y
      | none => false) && sameMembers rest ns

end

/-- The member of an object under a name. -/
def member? (name : String) : Value → Option Value
  | .object members => members.lookup name
  | _ => none

/-- The members of an object. -/
def members? : Value → Option (Entries Value)
  | .object members => some members
  | _ => none

/-- Whether the value is exactly `true`. -/
def isTrue : Value → Bool
  | .bool b => b
  | _ => false

end Value

end EffectPrograms
