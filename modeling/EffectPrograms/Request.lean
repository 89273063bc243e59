import EffectPrograms.Value.Printer

/-!
# Requests

A request asks for one operation of an algebra with named arguments. Its arguments stand in the
order in which the operation declares its parameters, and nothing changes them once the request is
made.
-/

namespace EffectPrograms

/-- An operation of an algebra, asked for with arguments. -/
structure Request where
  /-- The algebra that the operation belongs to. -/
  algebra : String
  /-- The operation within its algebra. -/
  operation : String
  /-- The arguments in the order of the parameters. -/
  arguments : Entries Value

namespace Request

/-- The arguments as one object. -/
def argumentsValue (r : Request) : Value := .object r.arguments

/-- The request in a message: algebra, operation and the arguments in compact form. -/
def text (r : Request) : String :=
  r.algebra ++ "." ++ r.operation ++ "(" ++ r.argumentsValue.compact ++ ")"

/-- Equality as programs see it: the order of arguments does not matter. -/
def same (r other : Request) : Bool :=
  r.algebra == other.algebra && r.operation == other.operation
    && r.argumentsValue.same other.argumentsValue

end Request

end EffectPrograms
