import EffectPrograms.Interpreter

/-!
# Files in a cloud

A typed algebra: an operation saves a file or lists the files at a place.
-/

namespace EffectPrograms.Files

/-- The place of a file. -/
structure FilePath where
  /-- The directory that holds the file. -/
  parentDir : String
  /-- The name within the directory. -/
  name : String
deriving DecidableEq, Repr

namespace FilePath

/-- The place in a message. -/
def text (path : FilePath) : String := path.parentDir ++ "/" ++ path.name

/-- The place as an object. -/
def toValue (path : FilePath) : Value :=
  .object [("parentDir", .string path.parentDir), ("name", .string path.name)]

/-- A place from an object with both members, or from a list of directory and name. -/
def decode : Decoder FilePath
  | .object members =>
    (Decoder.twoMembers "parentDir" .string "name" .string members).map
      fun (parentDir, name) => ⟨parentDir, name⟩
  | v =>
    (Decoder.twoItems "struct FilePath" "struct FilePath with 2 elements" .string .string v).map
      fun (parentDir, name) => ⟨parentDir, name⟩

end FilePath

/-- An operation on files. -/
inductive CloudFiles where
  /-- Stores `bytes` at a place. -/
  | saveFile (path : FilePath) (bytes : String)
  /-- Lists the files at a place. -/
  | listFiles (path : FilePath)
deriving DecidableEq, Repr

namespace CloudFiles

/-- The place that an operation is about. -/
def path : CloudFiles → FilePath
  | .saveFile path _ => path
  | .listFiles path => path

/-- An object of the operation's name and its arguments. -/
def encode : CloudFiles → Value
  | .saveFile path bytes => .object [
      ("operation", .string "saveFile"),
      ("arguments", .object [("path", path.toValue), ("bytes", .string bytes)])]
  | .listFiles path => .object [
      ("operation", .string "listFiles"),
      ("arguments", .object [("path", path.toValue)])]

/-- An operation from its arguments. -/
def decode (operation : String) (arguments : Entries Value) : Except DecodeFault CloudFiles :=
  if operation = "saveFile" then
    (Decoder.twoMembers "path" FilePath.decode "bytes" .string arguments).map
      fun (path, bytes) => .saveFile path bytes
  else
    (Decoder.oneMember "path" FilePath.decode arguments).map .listFiles

/-- The operations on files as a typed algebra. -/
def typedAlgebra : TypedAlgebra CloudFiles where
  name := "cloudFiles"
  operations := [("saveFile", ["path", "bytes"]), ("listFiles", ["path"])]
  encode x := .ok x.encode
  decode := decode

end CloudFiles

end EffectPrograms.Files
