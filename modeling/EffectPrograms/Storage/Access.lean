import EffectPrograms.Entries
import EffectPrograms.Storage.Path

/-!
# Access to files

What a program needs of a file system: to read a file, to create one and write to it, and to rename
one. A `Directory` is such a file system in memory, with files and no directories in it.
-/

namespace EffectPrograms

/-- Access to the files of a system in the monad `m`. -/
structure FileAccess (m : Type → Type) where
  /-- A file that is open for writing. -/
  Handle : Type
  /-- The text of a file, if it can be read. -/
  read : String → m (Option String)
  /-- Opens an empty file, in place of an old one, if that is possible. -/
  create : String → m (Option Handle)
  /-- Writes to the end of an open file; whether that was possible. -/
  write : Handle → String → m Bool
  /-- Has stored what was written to an open file; whether that was possible. -/
  sync : Handle → m Bool
  /-- Gives a file another name, in place of an old one; whether that was possible. -/
  rename : String → String → m Bool

/-- The files of a directory. -/
structure Directory where
  /-- Names and texts. -/
  files : Entries String := []

namespace Directory

/-- The names of the files, sorted. -/
def names (d : Directory) : List String := d.files.names.mergeSort

/-- The text of a file. -/
def read? (d : Directory) (path : String) : Option String := do
  d.files.get? (← Path.fileName? path)

/-- The name of a new file, and the directory with the file, which is empty. -/
def create? (d : Directory) (path : String) : Option (String × Directory) := do
  let name ← Path.fileName? path
  return (name, ⟨d.files.put name ""⟩)

/-- The directory after a text was written to the end of a file. -/
def write? (d : Directory) (name text : String) : Option Directory := do
  return ⟨d.files.put name ((← d.files.get? name) ++ text)⟩

/-- The directory after a file was given another name. -/
def rename? (d : Directory) (source target : String) : Option Directory := do
  let source ← Path.fileName? source
  let target ← Path.fileName? target
  let text ← d.files.get? source
  if source = target then return d
  else return ⟨Entries.put target text (d.files.filter fun file => file.1 != source)⟩

/-- Replaces the directory if there is another; whether there was. -/
def change (next : Directory → Option Directory) : StateM Directory Bool := do
  match next (← get) with
  | some d => set d; return true
  | none => return false

/-- Adds an empty file, if its name can be used. -/
def add (path : String) : StateM Directory (Option String) := do
  match (← get).create? path with
  | some (name, d) => set d; return some name
  | none => return none

/-- Access to the files of a directory in memory. An open file is its name. -/
def access : FileAccess (StateM Directory) where
  Handle := String
  read path := do return (← get).read? path
  create := add
  write name text := change (·.write? name text)
  sync _ := return true
  rename source target := change (·.rename? source target)

end Directory

end EffectPrograms
