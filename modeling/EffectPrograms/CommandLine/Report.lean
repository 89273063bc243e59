import EffectPrograms.CommandLine.Command
import EffectPrograms.Settings.Storage

/-!
# Carrying out a command

A command line comes to a report: what is printed and with which code the program exits. A wrong use
exits with 2, a failure with 1 and its message.
-/

namespace EffectPrograms.CommandLine

/-- What a command line comes to. -/
structure Report where
  exitCode : Nat
  output : String := ""
  errors : String := ""

namespace Report

/-- A failure, reported by its message. -/
def failure (message : String) : Report := { exitCode := 1, errors := "Error: " ++ message ++ "\n" }

/-- A wrong use of the command line. -/
def usage : Report where
  exitCode := 2
  errors := "Usage: [--config <CONFIG>] <change-email | save-file | config> [OPTIONS]\n"

/-- Lines of output. -/
def lines (ls : List String) : Report where
  exitCode := 0
  output := String.join (ls.map (· ++ "\n"))

end Report

/-- More steps than a command takes. -/
def fuel : Nat := 100

/-- Serves a request: prints the response, and the row of the user if there is one. -/
def reportChangeEmail (settings : Settings) (request : Accounts.ChangeEmail)
    (refusal : Option String) : Report :=
  let world : Accounts.World := { database := { failure := refusal } }
  match Accounts.registry Accounts.World.databaseSlot Accounts.World.responderSlot with
  | .error f => .failure f.message
  | .ok registry =>
    match Accounts.serve { registry, settings } fuel request world with
    | some (.ok response, world) =>
      let row := match world.database.row? "users" request.userId with
        | some row => ["users/" ++ request.userId ++ " = " ++ (Value.object row).compact]
        | none => []
      .lines (response.pretty :: row)
    | some (.error f, _) => .failure f.message
    | none => .failure ""

/-- Saves a file: prints the error that the post answered, if any. -/
def reportSaveFile (settings : Settings) (path : Files.FilePath) (contents : String)
    (fails : Bool) : Report :=
  let answer : Value := if fails then .object [("error", .string "POST failed")] else .null
  let world : Files.World := { post := { name := "http.post", result := answer } }
  match Files.registry Files.World.loggerSlot Files.World.services with
  | .error f => .failure f.message
  | .ok registry =>
    match Files.runSaveFile { registry, settings } fuel path contents world with
    | some (.ok result, _) =>
      let error := match result.member? "error" with
        | some error => ["saveFile returned an error: " ++ error.compact]
        | none => []
      .lines (error ++ ["test complete"])
    | some (.error f, _) => .failure f.message
    | none => .failure ""

variable {m : Type → Type} [Monad m]

/-- Writes settings to a file. -/
def reportWriteSettings (files : FileAccess m) (settings : Settings) (path : String) :
    m Report := do
  match ← settings.save files path with
  | .ok () => return .lines ["Wrote configuration to " ++ Text.quote path]
  | .error _ => return .failure ("Failed to write config to " ++ Text.quote path)

/-- The settings that a command runs under. -/
def loadSettings (files : FileAccess m) (path : Option String) :
    m (Except StorageFault Settings) :=
  match path with
  | some path => Settings.load files path
  | none => return .ok {}

/-- Carries out what a command line asks for. -/
def report (files : FileAccess m) (args : List String) : m Report := do
  match parse args with
  | none => return .usage
  | some invocation =>
    match ← loadSettings files invocation.settings with
    | .error fault => return .failure fault.message
    | .ok settings =>
      match invocation.command with
      | .changeEmail request refusal => return reportChangeEmail settings request refusal
      | .saveFile path contents fails => return reportSaveFile settings path contents fails
      | .writeSettings path => reportWriteSettings files settings path

end EffectPrograms.CommandLine
