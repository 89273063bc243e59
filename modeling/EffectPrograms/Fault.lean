import EffectPrograms.Request
import EffectPrograms.Value.Decode

/-!
# Faults

A fault is a defect of a program, of an interpreter or of the way an execution is driven. It aborts
the execution; failures that belong to the job of a program travel as ordinary values instead.
`Fault.message` is the one place that words a fault.
-/

namespace EffectPrograms

/-- Where an execution stands. -/
inductive Status where
  /-- Ready for the next step. -/
  | running
  /-- Suspended until the result of an io is delivered. -/
  | awaitingIo
  /-- Has delivered its outcome. -/
  | done
  /-- Was aborted by a fault. -/
  | failed
deriving DecidableEq, Repr

/-- The status in a message. -/
def Status.text : Status → String
  | .running => "Running"
  | .awaitingIo => "AwaitingIo"
  | .done => "Done"
  | .failed => "Failed"

/-- What is wrong with a step. -/
inductive StepDefect where
  /-- It binds under the empty name. -/
  | unnamedBinding
  /-- A binding stands directly inside another. -/
  | nestedBinding (outer inner : String)
  /-- A typed operation has no encoding. -/
  | unencodable (algebra reason : String)
  /-- A typed operation is encoded as something other than an operation with arguments. -/
  | malformedEncoding (algebra : String) (found : Value)
  /-- No composite is open that it could belong to. -/
  | nothingOpen
  /-- A deferred step or a handler gave a reason of its own. -/
  | stated (reason : String)

/-- The defect in words. -/
def StepDefect.message : StepDefect → String
  | .unnamedBinding => "binding name is empty"
  | .nestedBinding outer inner =>
    "binding |" ++ outer ++ "| wraps another binding |" ++ inner ++ "|"
  | .unencodable algebra reason =>
    algebra ++ " operation failed to encode: " ++ Text.plainPlace reason
  | .malformedEncoding algebra found =>
    algebra ++ " operation must encode as \x7boperation, arguments\x7d, got " ++ found.compact
  | .nothingOpen => "execution has no open composite"
  | .stated reason => reason

/-- How an io broke its contract to complete exactly once. -/
inductive ContractBreach where
  | completedTwice
  | neverCompleted
  /-- A deferred step or a handler gave a reason of its own. -/
  | stated (reason : String)

/-- The breach in words. -/
def ContractBreach.message : ContractBreach → String
  | .completedTwice => "io completion callback invoked more than once"
  | .neverCompleted => "io completion callback was dropped without being invoked"
  | .stated reason => reason

/-- Why settings cannot be used. -/
inductive SettingsDefect where
  /-- They admit no open composite at all. -/
  | noDepth
  /-- A deferred step or a handler gave a reason of its own. -/
  | stated (reason : String)

/-- The defect in words. -/
def SettingsDefect.message : SettingsDefect → String
  | .noDepth => "max_depth must allow at least the top-level composite"
  | .stated reason => reason

/-- What aborts an execution or refuses to build a part of one. -/
inductive Fault where
  /-- A constructor was given another number of arguments than it declares. -/
  | wrongArity (algebra operation : String) (expected received : Nat)
  /-- An interpreter was handed a request of another algebra. -/
  | foreignRequest (interpreter : String) (request : Request)
  /-- A fan-out was built over a branch of another algebra. -/
  | foreignBranch (fanOut branch : String)
  /-- The algebra declares no such operation, or has no handler for it. -/
  | unknownOperation (algebra operation : String)
  /-- A name was bound twice in one composite. -/
  | nameTaken (name : String)
  /-- No interpreter is registered for the algebra of the request. -/
  | noInterpreter (request : Request)
  | invalidStep (defect : StepDefect)
  | brokenContract (breach : ContractBreach)
  /-- A handler reported a failure of its own; `causes` are the failures behind the reason. -/
  | handlerFailed (algebra operation reason : String) (causes : List String)
  /-- A handler asked for an argument that the request does not carry. -/
  | noArgument (algebra operation name : String)
  /-- An argument could not be decoded. -/
  | invalidArgument (algebra operation name : String) (fault : DecodeFault) (found : Value)
  /-- An algebra was registered twice. -/
  | interpreterTaken (algebra : String)
  /-- More composites would be open at once than the limit admits. -/
  | tooDeep (limit : Nat)
  /-- An execution was driven that cannot go on that way. -/
  | notRunning (status : Status)
  | badSettings (defect : SettingsDefect)

/-- How a fault says that something belongs to another algebra. -/
def mismatchMessage (interpreter algebra rendered : String) : String :=
  "Tried to interpret operation " ++ rendered ++ " as an operation in the " ++ interpreter
    ++ " algebra, but it belongs to the " ++ algebra ++ " algebra"

/-- The fault in words. -/
def Fault.message : Fault → String
  | .wrongArity algebra operation expected received =>
    "Called " ++ algebra ++ "." ++ operation ++ " with " ++ toString received ++ " arguments; "
      ++ toString expected ++ " arguments are expected"
  | .foreignRequest interpreter request =>
    mismatchMessage interpreter request.algebra request.text
  | .foreignBranch fanOut branch => mismatchMessage fanOut branch ("fan-out branch for " ++ branch)
  | .unknownOperation algebra operation =>
    "Tried to interpret unknown operation |" ++ operation ++ "| as an operation in the " ++ algebra
      ++ " algebra"
  | .nameTaken name =>
    "Tried to bind to variable |" ++ name ++ "|, but it was already defined in this scope"
  | .noInterpreter request =>
    "Executor received operation that it does not have an interpreter for: " ++ request.text
  | .invalidStep defect => "Invalid step: " ++ defect.message
  | .brokenContract breach => "Handler contract violated: " ++ breach.message
  | .handlerFailed algebra operation reason _ =>
    "Handler for " ++ algebra ++ "." ++ operation ++ " failed: " ++ reason
  | .noArgument algebra operation name =>
    "Operation " ++ algebra ++ "." ++ operation ++ " has no argument |" ++ name ++ "|"
  | .invalidArgument algebra operation name fault found =>
    "Argument |" ++ name ++ "| of " ++ algebra ++ "." ++ operation ++ " is invalid: "
      ++ fault.message ++ " (got " ++ found.compact ++ ")"
  | .interpreterTaken algebra =>
    "An interpreter for the " ++ algebra ++ " algebra is already registered"
  | .tooDeep limit => "Composite nesting exceeded the limit of " ++ toString limit ++ " frames"
  | .notRunning status => "Execution cannot advance while " ++ status.text
  | .badSettings defect => "Configuration error: " ++ defect.message

namespace Request

/-- The argument under a name, which has to be there. -/
def require (r : Request) (name : String) : Except Fault Value :=
  match r.arguments.get? name with
  | some v => .ok v
  | none => .error (.noArgument r.algebra r.operation name)

/-- The argument under a name, decoded. -/
def parse {α : Type} (r : Request) (decode : Decoder α) (name : String) : Except Fault α := do
  let v ← r.require name
  match decode v with
  | .ok a => .ok a
  | .error fault => .error (.invalidArgument r.algebra r.operation name fault v)

end Request

end EffectPrograms
