/-!
# Paths

A path names a file. `Path.temporary` is the name under which a file is written before it takes its
place, beside the file: the extension becomes `tmp`. Paths and names are bounded in length, as file
systems bound them.
-/

namespace EffectPrograms.Path

/-- A path read from its end, without the separators and the single dots that end it. -/
def dropTrailing : List Char → List Char
  | '/' :: rest => dropTrailing rest
  | '.' :: '/' :: rest => dropTrailing rest
  | cs => cs

/-- A name read from its end, without its extension. A dot at the front starts no extension. -/
def dropExtension (name : List Char) : List Char :=
  match name.dropWhile (· != '.') with
  | _ :: stem => if stem.isEmpty then name else stem
  | [] => name

/-- The path with the extension `tmp` in place of its own; a path that ends in no name stays. A name
like `..a` at the very end loses its extension and becomes `..`, which is no name and stays. -/
def temporary (path : String) : String :=
  let reversed := path.toList.reverse
  let cs := dropTrailing reversed
  let name := cs.takeWhile (· != '/')
  let parent := cs.dropWhile (· != '/')
  let stem := dropExtension name
  if name = [] || name = ['.'] || name = ['.', '.'] then path
  else if stem = ['.'] && cs = reversed then String.ofList ('.' :: '.' :: parent).reverse
  else String.ofList (stem ++ parent).reverse ++ ".tmp"

/-- The bytes that a path may have. -/
def greatestPathSize : Nat := 4095

/-- The bytes that a name may have. -/
def greatestNameSize : Nat := 255

/-- The name of a file in the current directory that a path leads to. -/
def fileName? (path : String) : Option String :=
  if path.startsWith "/" || greatestPathSize < path.utf8ByteSize then none
  else
    match (path.splitOn "/").dropWhile fun part => part = "" || part = "." with
    | [name] =>
      if name = ".." || name.toList.contains '\x00' || greatestNameSize < name.utf8ByteSize then
        none
      else some name
    | _ => none

end EffectPrograms.Path
