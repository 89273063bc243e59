import EffectPrograms.Algebra.Typed
import EffectPrograms.Program

/-!
# Interpreters

An interpreter says what the requests of one algebra mean. It performs nothing: it answers with a
value, with an operation to resolve instead, or with steps to run as a composite, and the execution
goes on from there. While it works on a request it may also ask for the rest of the composite that
the request stands in to be replaced.

A fan-out applies several interpreters to the same request. Their answers become one sequence, in
which every branch takes its turn; the value of the last branch is the value of the whole.
-/

namespace EffectPrograms

/-- What an interpreter makes of a request. -/
inductive Answer (σ : Type) where
  /-- Done, without a value. -/
  | unit
  /-- The value of the request. -/
  | value (v : Value)
  /-- An operation to resolve in place of the request. -/
  | operation (o : Operation σ)
  /-- Steps to run as a composite of their own. -/
  | sequence (steps : List (Step σ))

variable {σ : Type}

/-- An operation as an answer. To return a value is to answer with it. -/
def Answer.ofOperation : Operation σ → Answer σ
  | .returning v => .value v
  | other => .operation other

/-- What one dispatch works on. -/
structure Pass (σ : Type) where
  /-- Steps that are to replace the rest of the composite. The last replacement asked for counts. -/
  replacement : Option (List (Step σ)) := none
  world : σ

/-- Where the failure of a handler comes from. -/
inductive Cause where
  /-- A fault that the handler met. -/
  | fault (f : Fault)
  /-- A reason of the handler's own. -/
  | stated (reason : String)

/-- The failure of a handler, with what was said about it on the way out. -/
structure Failure where
  cause : Cause
  /-- Descriptions of what failed, the outermost first. -/
  contexts : List String := []

namespace Failure

/-- Describes what failed. -/
def within (x : Failure) (context : String) : Failure :=
  { x with contexts := context :: x.contexts }

/-- The fault of the execution. A fault that the handler met passes through as it is; any other
failure names the request. -/
def toFault (r : Request) (x : Failure) : Fault :=
  match x.cause, x.contexts with
  | .fault f, _ => f
  | .stated reason, [] => .handlerFailed r.algebra r.operation reason []
  | .stated reason, outer :: inner =>
    .handlerFailed r.algebra r.operation outer (inner ++ [reason])

end Failure

/-- A computation of a handler. -/
abbrev Handling (σ α : Type) := ExceptT Failure (StateM (Pass σ)) α

/-- What answers the requests for one operation. -/
abbrev Handler (σ : Type) := Request → Handling σ (Answer σ)

/-- A computation of an interpreter. -/
abbrev Dispatching (σ α : Type) := ExceptT Fault (StateM (Pass σ)) α

/-- In a handler a fault is a failure. -/
instance : MonadLift (Except Fault) (ExceptT Failure (StateM (Pass σ))) where
  monadLift
    | .ok a => pure a
    | .error f => throw { cause := .fault f }

/-- Asks for the rest of the composite to be replaced, in place of any earlier replacement. -/
def Handling.replaceRemainder (steps : List (Step σ)) : Handling σ Unit :=
  modify fun pass => { pass with replacement := some steps }

/-- A handler's computation as part of a dispatch. -/
def Handling.dispatching {α : Type} (r : Request) (h : Handling σ α) : Dispatching σ α :=
  h.adapt (Failure.toFault r)

/-- What says what the requests of an algebra mean. -/
inductive Interpreter (σ : Type) where
  /-- A table of handlers, one for an operation. -/
  | table (algebra : String) (handlers : List (String × Handler σ))
  /-- One function over the operations of a typed algebra. -/
  | typed (algebra : String) (handle : Request → Except Fault (Handling σ (Answer σ)))
  /-- Several interpreters at once. The value of the last branch is bound under `resultName` in the
  composite that the fan-out answers with. -/
  | fanOut (algebra resultName : String) (branches : List (Interpreter σ))

/-- An interpreter of a typed algebra. -/
def TypedAlgebra.interpreter {α : Type} (t : TypedAlgebra α)
    (handle : α → Handling σ (Answer σ)) : Interpreter σ :=
  .typed t.name fun r => (t.recover r).map handle

/-! ## Answers of a fan-out -/

namespace FanOut

/-- A deferred step that leaves the composite with what is bound under a name. -/
def returnBound (name : String) : Step σ :=
  .fromEnvironment fun env => .ok (.returning (env.valueOf name))

/-- The step of a branch that is not the last: its value is dropped. A value has no step, and
neither has an operation that only returns one. -/
def earlierStep? : Answer σ → Option (Step σ)
  | .unit | .value _ | .operation (.returning _) => none
  | .operation o => some (.op o)
  | .sequence steps => some (.composite steps)

/-- The steps of the last branch: its value leaves the composite. -/
def lastSteps (name : String) : Answer σ → List (Step σ)
  | .unit => []
  | .value v | .operation (.returning v) => [.returning v]
  | .operation o => [.bind name (.op o), returnBound name]
  | .sequence steps => [.bind name (.composite steps), returnBound name]

/-- The sequence for the answers of all branches, in order. -/
def combine (name : String) : List (Answer σ) → List (Step σ)
  | [] => []
  | [answer] => lastSteps name answer
  | answer :: rest => (earlierStep? answer).toList ++ combine name rest

end FanOut

namespace Interpreter

/-- An interpreter with one handler for each operation. A later handler replaces an earlier one. -/
def ofHandlers (algebra : String) (handlers : List (String × Handler σ)) : Interpreter σ :=
  .table algebra (Entries.ofPairs handlers)

/-- The algebra that the interpreter serves. -/
def algebra : Interpreter σ → String
  | .table algebra _ => algebra
  | .typed algebra _ => algebra
  | .fanOut algebra _ _ => algebra

/-- A fan-out over branches that all have to serve the algebra. -/
def fanOut? (algebra : String) (branches : List (Interpreter σ)) : Except Fault (Interpreter σ) :=
  match branches.find? fun branch => branch.algebra != algebra with
  | some stray => .error (.foreignBranch algebra stray.algebra)
  | none => .ok (.fanOut algebra "last" branches)

/-- The operations with a handler of their own, sorted. -/
def operations : Interpreter σ → List String
  | .table _ handlers => (handlers.map Prod.fst).mergeSort
  | _ => []

mutual

/-- What the interpreter makes of a request. -/
def interpret : Interpreter σ → Request → Dispatching σ (Answer σ)
  | .table algebra handlers, r =>
    if r.algebra ≠ algebra then throw (.foreignRequest algebra r)
    else
      match handlers.lookup r.operation with
      | some handler => (handler r).dispatching r
      | none => throw (.unknownOperation algebra r.operation)
  | .typed _ handle, r =>
    match handle r with
    | .ok run => run.dispatching r
    | .error f => throw f
  | .fanOut _ resultName branches, r => do
    return .sequence (FanOut.combine resultName (← interpretEach branches r))

/-- What each interpreter makes of a request, from the first on. -/
def interpretEach : List (Interpreter σ) → Request → Dispatching σ (List (Answer σ))
  | [], _ => return []
  | branch :: rest, r => do
    let answer ← interpret branch r
    return answer :: (← interpretEach rest r)

end

/-- The interpreter in a message: its algebra and its operations. -/
def text (i : Interpreter σ) : String :=
  "Interpreter \x7b algebra: " ++ Text.quote i.algebra ++ ", operations: ["
    ++ ", ".intercalate (i.operations.map Text.quote) ++ "] \x7d"

end Interpreter

end EffectPrograms
