import EffectPrograms.Settings.Reader
import EffectPrograms.Storage.Access
import EffectPrograms.Value.Printer

/-!
# Settings in files

`Settings.save` writes settings beside the file and then renames, so that the file is never half
written. `Settings.load` admits only settings under which an execution can run.
-/

namespace EffectPrograms

/-- Why settings could not be loaded or saved. -/
inductive StorageFault where
  | unreadable (path : String)
  /-- The file holds no settings. -/
  | flawed (flaw : Settings.Flaw)
  /-- The file holds settings that cannot be used. -/
  | unusable (fault : Fault)
  | uncreatable (path : String)
  | unwritten
  | unsynced
  | unrenamable (source target : String)

/-- The fault in words. -/
def StorageFault.message : StorageFault → String
  | .unreadable path => "Failed to read config file: " ++ Text.quote path
  | .flawed _ => "Failed to deserialize config"
  | .unusable fault => fault.message
  | .uncreatable path => "Failed to create temp file: " ++ Text.quote path
  | .unwritten => "Failed to write config"
  | .unsynced => "Failed to sync config"
  | .unrenamable source target =>
    "Failed to rename " ++ Text.quote source ++ " to " ++ Text.quote target

namespace Settings

/-- Settings as an object with both members. -/
def toValue (s : Settings) : Value :=
  .object [
    ("max_depth", match s.maxDepth with
      | some limit => .ofNat limit
      | none => .null),
    ("yield_between_steps", .bool s.yieldBetweenSteps)]

/-- The text of settings. -/
def text (s : Settings) : String := s.toValue.pretty

/-- The usable settings that a text holds. -/
def parse (text : String) : Except StorageFault Settings :=
  match read text with
  | .error flaw => .error (.flawed flaw)
  | .ok s =>
    match s.validate with
    | .ok () => .ok s
    | .error fault => .error (.unusable fault)

variable {m : Type → Type} [Monad m]

/-- Loads settings from a file. -/
def load (files : FileAccess m) (path : String) : m (Except StorageFault Settings) := do
  match ← files.read path with
  | some text => return parse text
  | none => return .error (.unreadable path)

/-- Saves settings to a file. -/
def save (s : Settings) (files : FileAccess m) (path : String) : m (Except StorageFault Unit) := do
  let temporary := Path.temporary path
  match ← files.create temporary with
  | none => return .error (.uncreatable temporary)
  | some file =>
    if ← files.write file s.text then
      if ← files.sync file then
        if ← files.rename temporary path then return .ok ()
        else return .error (.unrenamable temporary path)
      else return .error .unsynced
    else return .error .unwritten

end Settings

end EffectPrograms
