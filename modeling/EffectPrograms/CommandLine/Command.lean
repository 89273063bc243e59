import EffectPrograms.Accounts.ChangeEmail
import EffectPrograms.CommandLine.Options
import EffectPrograms.Files.SaveFile

/-!
# Commands

What a command line asks for: to serve one request for an address, to save one file, or to write
settings.
-/

namespace EffectPrograms.CommandLine

open Accounts (ChangeEmail)
open Files (FilePath)

/-- What is asked for. -/
inductive Command where
  /-- Serves a request; the database may refuse every write. -/
  | changeEmail (request : ChangeEmail) (refusal : Option String)
  /-- Saves a file; the post may fail. -/
  | saveFile (path : FilePath) (contents : String) (fails : Bool)
  /-- Writes settings to a file. -/
  | writeSettings (path : String)

/-- A command under the settings of a file, or under the default settings. -/
structure Invocation where
  /-- The file of the settings. -/
  settings : Option String
  command : Command

/-- The options before a command. -/
def generalOptions : List OptionSpec :=
  [{ name := "config", short := some 'c', allowsEmpty := false }]

/-- Serving a request needs the user and the address. The token belongs to the same user unless said
otherwise. -/
def parseChangeEmail (args : List String) : Option Command := do
  let options ← onlyOptions [
    { name := "user-id" },
    { name := "token-user-id" },
    { name := "invalid", isSwitch := true },
    { name := "email" },
    { name := "db-failure" }] args
  let userId ← options.get? "user-id"
  let emailAddress ← options.get? "email"
  let token := {
    isValid := !options.contains "invalid"
    userId := (options.get? "token-user-id").getD userId }
  return .changeEmail { userId, token, emailAddress } (options.get? "db-failure")

/-- Saving a file has a default for everything. -/
def parseSaveFile (args : List String) : Option Command := do
  let options ← onlyOptions [
    { name := "dir" },
    { name := "name" },
    { name := "contents" },
    { name := "fail", isSwitch := true }] args
  let path := {
    parentDir := (options.get? "dir").getD "some/path"
    name := (options.get? "name").getD "someFile" }
  return .saveFile path ((options.get? "contents").getD "file contents") (options.contains "fail")

/-- Writing settings needs the file. -/
def parseWriteSettings (args : List String) : Option Command := do
  let options ← onlyOptions [{ name := "write", allowsEmpty := false }] args
  return .writeSettings (← options.get? "write")

/-- What a command line asks for, if it is used rightly. -/
def parse (args : List String) : Option Invocation := do
  let given ← takeOptions generalOptions [] args
  let command ← match given.rest with
    | "change-email" :: args => parseChangeEmail args
    | "save-file" :: args => parseSaveFile args
    | "config" :: args => parseWriteSettings args
    | _ => none
  return { settings := given.options.get? "config", command }

end EffectPrograms.CommandLine
