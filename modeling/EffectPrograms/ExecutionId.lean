import EffectPrograms.Value.Reader

/-!
# Identifiers of executions

An identifier is a number of 128 bits. Its text has 32 hexadecimal digits in groups of 8, 4, 4, 4
and 12, and reads back.
-/

namespace EffectPrograms

/-- The identifier of an execution. -/
structure ExecutionId where
  number : BitVec 128
deriving DecidableEq, Repr

namespace ExecutionId

/-- The identifier of the `n`-th execution. -/
def nth (n : Nat) : ExecutionId := ⟨.ofNat 128 n⟩

/-- All 32 digits, with zeros in front. -/
def digits (id : ExecutionId) : List Char :=
  let digits := Nat.toDigits 16 id.number.toNat
  List.replicate (32 - digits.length) '0' ++ digits

/-- The digits in their groups. -/
def text (id : ExecutionId) : String :=
  let ds := id.digits
  "-".intercalate <|
    [ds.take 8, (ds.drop 8).take 4, (ds.drop 12).take 4, (ds.drop 16).take 4, ds.drop 20].map
      String.ofList

/-- The number that hexadecimal digits stand for. -/
def hexNumber? (ds : List Char) : Option Nat :=
  ds.foldlM (fun n c => (Value.Reader.hexDigit? c).map (n * 16 + ·)) 0

/-- The identifier whose text it is, with the groups or without them. -/
def ofText? (s : String) : Option ExecutionId := do
  let ds := s.toList.filter (· != '-')
  if ds.length = 32 then return nth (← hexNumber? ds) else none

end ExecutionId

end EffectPrograms
