import EffectPrograms.Services.Database

/-!
# Rows of a database

What a write does is said by `Database.row?`, as what a binding does is said by `Environment.get?`:
the row that was written has the fields of the patch put into the fields that it had, and every
other row is as before (`row?_upsert`).
-/

namespace EffectPrograms

/-- Of two values that are put under one name the first leaves nothing behind. -/
theorem Entries.put_put {α : Type} (name : String) (first second : α) (entries : Entries α) :
    put name second (put name first entries) = put name second entries := by
  induction entries with
  | nil => simp [put]
  | cons pair rest ih =>
    obtain ⟨known, old⟩ := pair
    by_cases h : known = name
    · simp [put, h]
    · simp [put, h, ih]

namespace Database

/-- The row that is put is found under its key, and every other row under its own. -/
theorem lookup_putRow (key other : String × String) (row : Entries Value)
    (rows : List ((String × String) × Entries Value)) :
    (putRow key row rows).lookup other = if other = key then some row else rows.lookup other := by
  induction rows with
  | nil =>
    by_cases h : other = key
    · simp [putRow, h]
    · simp [putRow, List.lookup_cons, h, beq_false_of_ne h]
  | cons pair rest ih =>
    obtain ⟨known, old⟩ := pair
    by_cases h : known = key
    · subst h
      by_cases h' : other = known
      · simp [putRow, h']
      · simp [putRow, List.lookup_cons, h', beq_false_of_ne h']
    · by_cases h' : other = known
      · subst h'
        simp [putRow, h]
      · simp [putRow, h, List.lookup_cons, beq_false_of_ne h', ih]

variable {db : Database}

/-- A database that refuses writes stays as it is. -/
theorem upsert_of_failure {reason : String} (h : db.failure = some reason) (table id : String)
    (patch : Value) : db.upsert table id patch = (refusal reason, db) := by
  simp [upsert, h]

/-- A write of fields succeeds on a database that does not refuse it. -/
theorem upsert_object (h : db.failure = none) (table id : String) (fields : Entries Value) :
    db.upsert table id (.object fields) = (.object [], { db with
      rows :=
        putRow (table, id) (Entries.merge ((db.row? table id).getD []) fields) db.rows }) := by
  simp [upsert, h, Value.members?]

/-- A write changes the fields of the patch in its own row and nothing else. -/
theorem row?_upsert (h : db.failure = none) (table id : String) (fields : Entries Value)
    (table' id' : String) :
    (db.upsert table id (.object fields)).2.row? table' id' =
      if (table', id') = (table, id)
      then some (Entries.merge ((db.row? table id).getD []) fields)
      else db.row? table' id' := by
  rw [upsert_object h]
  exact lookup_putRow _ _ _ _

end Database

end EffectPrograms
