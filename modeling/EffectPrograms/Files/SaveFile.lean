import EffectPrograms.Execution.Run
import EffectPrograms.Files.Backends

/-!
# Saving a file

A program that saves one file, and the interpreters that it runs with: the save is logged, then
posted.
-/

namespace EffectPrograms.Files

variable {σ : Type}

/-- Saves contents at a place. -/
def saveFile (path : FilePath) (contents : String) : Except Fault (Operation σ) := do
  return .request (← CloudFiles.typedAlgebra.lower (.saveFile path contents))

/-- The interpreters for files. -/
def registry (logger : Slot σ Stub) (http : Http.Services σ) : Except Fault (Registry σ) := do
  Registry.ofList [← toLogAndHttp, Http.interpreter http, Log.interpreter logger]

/-- The result of a save among the bindings. -/
def savedOf (outcome : Outcome) : Value :=
  match outcome.environment? with
  | some env => env.valueOf "saved"
  | none => .null

/-- Saves contents at a place: the result of the post, `null` on success. None if the fuel does not
suffice. -/
def runSaveFile (x : Executor σ) (fuel : Nat) (path : FilePath) (contents : String) (world : σ) :
    Option (Except Fault Value × σ) :=
  match saveFile path contents with
  | .error f => some (.error f, world)
  | .ok save =>
    (x.execute fuel [.bind "saved" (.op save)] world).map
      fun (result, world) => (result.map savedOf, world)

/-- A world with nothing but the services for files. -/
structure World where
  logger : Stub := { name := "logger.log" }
  get : Stub := { name := "http.get" }
  put : Stub := { name := "http.put" }
  post : Stub := { name := "http.post" }
  delete : Stub := { name := "http.delete" }

namespace World

/-- Where the logger is. -/
def loggerSlot : Slot World Stub where
  get := World.logger
  set stub world := { world with logger := stub }

/-- Where the services for the verbs are. -/
def services : Http.Services World where
  get := ⟨World.get, fun stub world => { world with get := stub }⟩
  put := ⟨World.put, fun stub world => { world with put := stub }⟩
  post := ⟨World.post, fun stub world => { world with post := stub }⟩
  delete := ⟨World.delete, fun stub world => { world with delete := stub }⟩

end World

end EffectPrograms.Files
