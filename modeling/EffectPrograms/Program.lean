import EffectPrograms.Environment
import EffectPrograms.Io

/-!
# Programs

A program is a composite: a list of steps that runs from the front in an environment of its own.
Programs are data. Building one performs nothing; of what it holds only the io have effects, and
only an execution performs them. A deferred step is a function of the environment at the time it is
reached; like a handler it may look at the world.
-/

namespace EffectPrograms

mutual

/-- What a step does. -/
inductive Operation (σ : Type) where
  /-- Asks the interpreter of an algebra. -/
  | request (r : Request)
  /-- Performs a side effect and takes its value. -/
  | io (io : Io σ)
  /-- Runs a composite in an environment of its own. -/
  | composite (steps : List (Step σ))
  /-- Leaves the composite with a value. -/
  | returning (v : Value)

/-- One element of a composite. -/
inductive Step (σ : Type) where
  /-- Does something and drops its value. -/
  | op (o : Operation σ)
  /-- Binds the value of the inner step under a name. -/
  | bind (name : String) (inner : Step σ)
  /-- Computes the step to run when it is reached. -/
  | deferred (f : Environment → σ → Deferral σ)

/-- What a deferred step comes to. -/
inductive Deferral (σ : Type) where
  | fault (f : Fault) (world : σ)
  | yields (s : Step σ) (world : σ)

end

/-- A composite before it runs. -/
abbrev Program (σ : Type) := List (Step σ)

variable {σ : Type}

namespace Operation

/-- Whether an execution resolves the operation without an interpreter. -/
def isBuiltin : Operation σ → Bool
  | .request _ => false
  | _ => true

/-- The request, if the operation is one. -/
def request? : Operation σ → Option Request
  | .request r => some r
  | _ => none

/-- The operation in a message. -/
def text : Operation σ → String
  | .request r => r.text
  | .io _ => "io"
  | .composite steps => "composite(" ++ toString steps.length ++ " steps)"
  | .returning v => "returning(" ++ v.compact ++ ")"

/-- The program that does nothing else. A composite is a program as it is. -/
def toProgram : Operation σ → Program σ
  | .composite steps => steps
  | other => [.op other]

end Operation

namespace Step

/-- A step that asks for a request. -/
def request (r : Request) : Step σ := .op (.request r)

/-- A step that leaves the composite with a value. -/
def returning (v : Value) : Step σ := .op (.returning v)

/-- A step that runs a composite. -/
def composite (steps : List (Step σ)) : Step σ := .op (.composite steps)

/-- A deferred step that does not look at the world. -/
def fromEnvironment (f : Environment → Except Fault (Step σ)) : Step σ :=
  .deferred fun env world =>
    match f env with
    | .ok s => .yields s world
    | .error e => .fault e world

end Step

end EffectPrograms
