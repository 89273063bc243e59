import EffectPrograms.Program
import EffectPrograms.Services.Slot

/-!
# Stubs of services

A stub stands for a service outside the program. It keeps the arguments of every call and answers
each call with the same preset value.
-/

namespace EffectPrograms

/-- A stand-in for a service. -/
structure Stub where
  name : String
  /-- The arguments of the calls so far, the oldest first. -/
  calls : List (List Value) := []
  /-- What every call is answered with. -/
  result : Value := .null

namespace Stub

/-- A call: the answer, and the stub that remembers the call. -/
def record (stub : Stub) (args : List Value) : Value × Stub :=
  (stub.result, { stub with calls := stub.calls ++ [args] })

/-- The same stub with another answer to later calls. -/
def withResult (stub : Stub) (v : Value) : Stub := { stub with result := v }

/-- The number of calls so far. -/
def count (stub : Stub) : Nat := stub.calls.length

/-- A call as an io that completes with the answer. -/
def call {σ : Type} (slot : Slot σ Stub) (args : List Value) : Operation σ :=
  .io (.ofAction (slot.run fun stub => stub.record args))

end Stub

end EffectPrograms
