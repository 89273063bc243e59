import EffectPrograms.Services.Database

/-!
# User records

Edits of users. A user is a row of the table `users`, so an edit is a write to the database.
-/

namespace EffectPrograms.Accounts.UserRecords

/-- The edits. The result is the status of the write. -/
def algebra : Algebra :=
  ⟨"userRecords", [
    ("updateField",
      { params := ["entityId", "fieldName", "fieldValue"], result := some "object" })]⟩

/-- Answers an edit with the write of one field. -/
def interpreter {σ : Type} : Interpreter σ :=
  .ofHandlers "userRecords" [("updateField", fun r => do
    let field ← r.parse Decoder.string "fieldName"
    let value ← r.require "fieldValue"
    let id ← r.require "entityId"
    let write ← Database.algebra.call "upsert" [.string "users", id, .object [(field, value)]]
    return .operation (.request write))]

end EffectPrograms.Accounts.UserRecords
