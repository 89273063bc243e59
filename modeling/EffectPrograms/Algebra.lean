import EffectPrograms.Fault

/-!
# Algebras

An algebra is a named list of operations with their parameters. `Algebra.call` makes a request from
the values of the arguments, and refuses names that are not declared and wrong numbers of values. It
does nothing else: what a request means is up to an interpreter.
-/

namespace EffectPrograms

/-- The parameters of an operation. -/
structure Signature where
  /-- Names of the parameters in order. -/
  params : List String
  /-- What callers may expect as the result, for readers only. -/
  result : Option String := none
deriving DecidableEq, Repr

/-- The same parameters with what callers may expect as the result. -/
def Signature.returning (s : Signature) (result : String) : Signature :=
  { s with result := some result }

/-- The number of values that a request takes. -/
def Signature.arity (s : Signature) : Nat := s.params.length

/-- A named group of operations. Of two operations of one name the first counts. -/
structure Algebra where
  name : String
  /-- Operations in the order of declaration. -/
  operations : List (String × Signature)
deriving DecidableEq, Repr

/-- What makes requests for one operation. -/
structure Constructor where
  algebra : String
  operation : String
  signature : Signature
deriving DecidableEq, Repr

namespace Constructor

/-- The request with the given values under the names of the parameters. -/
def call (c : Constructor) (values : List Value) : Except Fault Request :=
  if values.length = c.signature.arity then
    .ok ⟨c.algebra, c.operation, Entries.ofPairs (c.signature.params.zip values)⟩
  else .error (.wrongArity c.algebra c.operation c.signature.arity values.length)

/-- The operation with the names of its parameters. -/
def text (c : Constructor) : String :=
  c.algebra ++ "." ++ c.operation ++ "(" ++ ", ".intercalate c.signature.params ++ ")"

end Constructor

namespace Algebra

/-- The names of the operations in order. -/
def operationNames (a : Algebra) : List String := a.operations.map Prod.fst

/-- The signature of an operation. -/
def signature? (a : Algebra) (operation : String) : Option Signature :=
  a.operations.lookup operation

/-- What makes requests for an operation. -/
def constructorOf (a : Algebra) (operation : String) : Except Fault Constructor :=
  match a.signature? operation with
  | some signature => .ok ⟨a.name, operation, signature⟩
  | none => .error (.unknownOperation a.name operation)

/-- A request for an operation with the given values. -/
def call (a : Algebra) (operation : String) (values : List Value) : Except Fault Request := do
  (← a.constructorOf operation).call values

end Algebra

end EffectPrograms
