import EffectPrograms.Files.CloudFiles
import EffectPrograms.Files.Http
import EffectPrograms.Files.Log

/-!
# What files in a cloud stand for

Operations on files become requests to the storage service, or messages of the log, or first one and
then the other.
-/

namespace EffectPrograms.Files

/-- The address of a file at the storage service. -/
def serviceUrl (path : FilePath) : String := "cloudFiles.fooService.com/" ++ path.name

/-- What the log says of an operation. -/
def CloudFiles.logMessage : CloudFiles → String
  | .saveFile path _ => "Saving a file to " ++ path.text
  | .listFiles path => "Listing files at " ++ path.text

/-- The request to the storage service. -/
def CloudFiles.httpRequest : CloudFiles → Except Fault Request
  | .saveFile path bytes =>
    Http.algebra.call "post" [.string (serviceUrl path), .string bytes]
  | .listFiles path => Http.algebra.call "get" [.string (serviceUrl path)]

variable {σ : Type}

/-- Sends each operation to the storage service. -/
def toHttp : Interpreter σ :=
  CloudFiles.typedAlgebra.interpreter fun x => do
    return .operation (.request (← x.httpRequest))

/-- Writes a message for each operation. -/
def toLog : Interpreter σ :=
  CloudFiles.typedAlgebra.interpreter fun x => do
    return .operation (.request (← Log.algebra.call "log" [.string x.logMessage]))

/-- Writes a message and then sends the operation to the storage service. -/
def toLogAndHttp : Except Fault (Interpreter σ) :=
  Interpreter.fanOut? "cloudFiles" [toLog, toHttp]

end EffectPrograms.Files
