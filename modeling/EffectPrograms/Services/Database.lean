import EffectPrograms.Interpreter
import EffectPrograms.Services.Slot

/-!
# A database in memory

Rows are found by the name of their table and their own. A write merges a patch into a row, field by
field, and creates the row if there is none. Its status is an empty object, or an object with an
`error`. A database can be told to refuse every write.
-/

namespace EffectPrograms

/-- A database. -/
structure Database where
  /-- The rows that were written, under table and name, in the order of their first write. -/
  rows : List ((String × String) × Entries Value) := []
  /-- Why every write is refused, if it is. -/
  failure : Option String := none

namespace Database

/-- The fields of a row. -/
def row? (db : Database) (table id : String) : Option (Entries Value) :=
  db.rows.lookup (table, id)

/-- Puts a row in the place of the old one, or at the end. -/
def putRow (key : String × String) (row : Entries Value) :
    List ((String × String) × Entries Value) → List ((String × String) × Entries Value)
  | [] => [(key, row)]
  | (other, old) :: rest =>
    if other = key then (other, row) :: rest else (other, old) :: putRow key row rest

/-- The status of a write that was refused. -/
def refusal (reason : String) : Value := .object [("error", .string reason)]

/-- Merges a patch into a row: the status, and the database after it. -/
def upsert (db : Database) (table id : String) (patch : Value) : Value × Database :=
  match db.failure with
  | some reason => (refusal reason, db)
  | none =>
    match patch.members? with
    | none => (refusal ("patch for " ++ table ++ "/" ++ id ++ " is not an object"), db)
    | some fields =>
      let row := Entries.merge ((db.row? table id).getD []) fields
      (.object [], { db with rows := putRow (table, id) row db.rows })

/-- The operations of the database. -/
def algebra : Algebra :=
  ⟨"coconutDb/dbOperations", [("upsert", { params := ["table", "id", "patch"] })]⟩

/-- Writes to the database in its place of the world. -/
def interpreter {σ : Type} (slot : Slot σ Database) : Interpreter σ :=
  .ofHandlers "coconutDb/dbOperations" [("upsert", fun r => do
    let table ← r.parse Decoder.string "table"
    let id ← r.require "id"
    let patch ← r.require "patch"
    return .operation (.io (.ofAction (slot.run fun db => db.upsert table id.plainText patch))))]

end Database

end EffectPrograms
