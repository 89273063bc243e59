import EffectPrograms.Interpreter

/-!
# Registries

A registry holds at most one interpreter for each algebra. An algebra that is registered again is
refused, so the first interpreter of an algebra serves it.
-/

namespace EffectPrograms

/-- Interpreters of different algebras. -/
structure Registry (σ : Type) where
  /-- The interpreters in the order of registration. -/
  interpreters : List (Interpreter σ) := []

namespace Registry

variable {σ : Type}

/-- No interpreter is registered. -/
def empty : Registry σ := {}

/-- The interpreter of an algebra. -/
def find? (registry : Registry σ) (algebra : String) : Option (Interpreter σ) :=
  registry.interpreters.find? fun i => i.algebra == algebra

/-- Whether an algebra has an interpreter. -/
def contains (registry : Registry σ) (algebra : String) : Bool :=
  (registry.find? algebra).isSome

/-- Registers an interpreter for an algebra that has none. -/
def register (registry : Registry σ) (i : Interpreter σ) : Except Fault (Registry σ) :=
  if registry.contains i.algebra then .error (.interpreterTaken i.algebra)
  else .ok ⟨registry.interpreters ++ [i]⟩

/-- Registers interpreters in order; the first refusal counts. -/
def ofList (interpreters : List (Interpreter σ)) : Except Fault (Registry σ) :=
  interpreters.foldlM register empty

/-- The algebras that have an interpreter, sorted. -/
def algebras (registry : Registry σ) : List String :=
  (registry.interpreters.map Interpreter.algebra).mergeSort

/-- The number of interpreters. -/
def size (registry : Registry σ) : Nat := registry.interpreters.length

/-- Gives a request to the interpreter of its algebra. Beside the answer there may be steps that are
to replace the rest of the composite; with a fault there are none. -/
def dispatch (registry : Registry σ) (r : Request) (world : σ) :
    Except Fault (Answer σ × Option (List (Step σ))) × σ :=
  match registry.find? r.algebra with
  | none => (.error (.noInterpreter r), world)
  | some i =>
    let (result, pass) := i.interpret r { world := world }
    (result.map fun answer => (answer, pass.replacement), pass.world)

/-- The registry in a message: the algebras that it serves. -/
def text (registry : Registry σ) : String :=
  "Registry \x7b algebras: ["
    ++ ", ".intercalate (registry.algebras.map Text.quote) ++ "] \x7d"

end Registry

end EffectPrograms
