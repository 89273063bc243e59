import EffectPrograms.Proofs.Mentions
import EffectPrograms.Proofs.Rows

/-!
# Histories of a database

A database is written to again and again: rows are created, fields are overwritten, patches may be
empty or no objects at all. What is in a row after any such history depends on the object patches
for this row alone (`Database.row?_after`): it gathers the fields that they mention, one patch after
the other. So it does not matter in which order rows are written to, only in which order each of
them is (`Database.row?_after_congr`).
-/

namespace EffectPrograms

/-- A write that a database is asked for. -/
structure Write where
  table : String
  id : String
  patch : Value

namespace Write

/-- The write is for the row. -/
def For (w : Write) (table id : String) : Prop := w.table = table ∧ w.id = id

instance (w : Write) (table id : String) : Decidable (w.For table id) :=
  inferInstanceAs (Decidable (_ ∧ _))

/-- The object patches for a row, in order. -/
def patches (writes : List Write) (table id : String) : List (Entries Value) :=
  (writes.filter (·.For table id)).filterMap (·.patch.members?)

/-- There are none just if no write for the row has one. -/
theorem patches_eq_nil_iff (writes : List Write) (table id : String) :
    patches writes table id = [] ↔
      ∀ w ∈ writes, w.For table id → w.patch.members? = none := by
  simp [patches, List.filterMap_eq_nil_iff]

/-- A further write adds its patch if it is for the row and the patch is an object. -/
theorem patches_concat (writes : List Write) (w : Write) (table id : String) :
    patches (writes ++ [w]) table id =
      patches writes table id ++ if w.For table id then w.patch.members?.toList else [] := by
  by_cases h : w.For table id
  · cases hmembers : w.patch.members? <;> simp [patches, h, hmembers]
  · simp [patches, h]

end Write

/-- Changes that follow on others may be merged together with them. -/
theorem Entries.merge_append {α : Type} (entries changes more : Entries α) :
    merge entries (changes ++ more) = merge (merge entries changes) more :=
  List.foldl_append

namespace Database

/-- What a database answers to a write, and the database after it. -/
def perform (db : Database) (w : Write) : Value × Database := db.upsert w.table w.id w.patch

/-- The database after writes. -/
def after (db : Database) (writes : List Write) : Database :=
  writes.foldl (fun db w => (db.perform w).2) db

/-- One more write comes after the others. -/
theorem after_concat (db : Database) (writes : List Write) (w : Write) :
    db.after (writes ++ [w]) = ((db.after writes).perform w).2 := by
  simp [after]

variable {db : Database}

/-! ## One write -/

/-- A patch that is no object is refused, and nothing is written. -/
theorem perform_of_not_object (h : db.failure = none) {w : Write}
    (hpatch : w.patch.members? = none) :
    db.perform w =
      (refusal ("patch for " ++ w.table ++ "/" ++ w.id ++ " is not an object"), db) := by
  simp [perform, upsert, h, hpatch]

/-- An object patch is accepted. -/
theorem perform_of_object (h : db.failure = none) {w : Write} {fields : Entries Value}
    (hpatch : w.patch = .object fields) : (db.perform w).1 = .object [] := by
  rw [perform, hpatch, upsert_object h]

/-- Whether a database refuses writes does not change. -/
theorem failure_perform (db : Database) (w : Write) : (db.perform w).2.failure = db.failure := by
  unfold perform upsert
  split
  · rfl
  · split <;> rfl

/-- A write puts the fields of its patch into its own row, if there are any to put. -/
theorem row?_perform (h : db.failure = none) (w : Write) (table id : String) :
    (db.perform w).2.row? table id =
      match if w.For table id then w.patch.members? else none with
      | some fields => some (Entries.merge ((db.row? table id).getD []) fields)
      | none => db.row? table id := by
  cases hpatch : w.patch.members? with
  | none => simp [perform_of_not_object h hpatch]
  | some fields =>
    have hobject : w.patch = .object fields := by
      cases hw : w.patch <;> simp_all [Value.members?]
    rw [perform, hobject, row?_upsert h]
    by_cases hfor : w.For table id
    · obtain ⟨rfl, rfl⟩ := hfor
      simp [Write.For]
    · have hother : ¬ (table, id) = (w.table, w.id) :=
        fun heq => hfor ⟨(congrArg Prod.fst heq).symm, (congrArg Prod.snd heq).symm⟩
      rw [if_neg hother, if_neg hfor]

/-! ## Histories -/

/-- A database that accepts writes goes on accepting them. -/
theorem failure_after (db : Database) (writes : List Write) :
    (db.after writes).failure = db.failure := by
  induction writes using List.reverseRecOn with
  | nil => rfl
  | append_singleton writes w ih => rw [after_concat, failure_perform, ih]

/-- A database that refuses writes stays as it is. -/
theorem after_of_failure {reason : String} (h : db.failure = some reason) (writes : List Write) :
    db.after writes = db := by
  induction writes using List.reverseRecOn with
  | nil => rfl
  | append_singleton writes w ih =>
    rw [after_concat, ih, perform, upsert_of_failure h]

/-- After any history a row is as it was if there was no object patch for it, and else the fields of
all these patches have been put into it one after another. -/
theorem row?_after (h : db.failure = none) (writes : List Write) (table id : String) :
    (db.after writes).row? table id =
      if Write.patches writes table id = [] then db.row? table id
      else some
        (Entries.merge ((db.row? table id).getD []) (Write.patches writes table id).flatten) := by
  induction writes using List.reverseRecOn with
  | nil => rfl
  | append_singleton writes w ih =>
    have hhealthy : (db.after writes).failure = none := (failure_after db writes).trans h
    rw [after_concat, row?_perform hhealthy, Write.patches_concat, ih]
    by_cases hfor : w.For table id
    · rw [if_pos hfor, if_pos hfor]
      cases hpatch : w.patch.members? with
      | none => simp
      | some fields =>
        by_cases hnone : Write.patches writes table id = []
        · simp [hnone]
        · simp [hnone, Entries.merge_append]
    · simp [hfor]

/-- Histories in which the writes for each row are the same leave the same rows. -/
theorem row?_after_congr (h : db.failure = none) {writes writes' : List Write} {table id : String}
    (hsame : writes.filter (·.For table id) = writes'.filter (·.For table id)) :
    (db.after writes).row? table id = (db.after writes').row? table id := by
  have hpatches : Write.patches writes table id = Write.patches writes' table id := by
    rw [Write.patches, hsame, ← Write.patches]
  rw [row?_after h, row?_after h, hpatches]

/-- Writes for different rows may change places anywhere in a history. -/
theorem row?_after_swap (h : db.failure = none) {w w' : Write} (hrows : ¬ w.For w'.table w'.id)
    (earlier later : List Write) (table id : String) :
    (db.after (earlier ++ w :: w' :: later)).row? table id =
      (db.after (earlier ++ w' :: w :: later)).row? table id := by
  refine row?_after_congr h ?_
  have hone : ¬ (w.For table id ∧ w'.For table id) := by
    rintro ⟨⟨rfl, rfl⟩, htable, hid⟩
    exact hrows ⟨htable.symm, hid.symm⟩
  rcases not_and_or.1 hone with hother | hother
  · simp [List.filter_cons, hother]
  · simp [List.filter_cons, hother]

/-- What is answered to a write depends on the write and not on the rows. -/
theorem answer_congr {db' : Database} (h : db.failure = db'.failure) (w : Write) :
    (db.perform w).1 = (db'.perform w).1 := by
  unfold perform upsert
  rw [h]
  cases db'.failure with
  | some reason => rfl
  | none => cases w.patch.members? <;> rfl

/-- A database is a merge in which the last write counts. After any history of writes to a new
database a row is there just if some write for it has an object patch, and then it has the fields
that these patches mention, in the order in which each is first mentioned, with the value of the
last mention. On any database that accepts writes, a write with an object patch is answered with an
empty object and leaves every other row alone; a write with any other patch is answered with an
error and leaves the database as it is. A database that refuses writes answers each of them with its
reason and stays as it is. Consequently writes for different rows may change places: a write is
answered alike after any history, and all rows are the same, whatever else is written before and
after. They are so after any two histories in which the writes for each row by itself are the
same. -/
theorem last_write_counts :
    (∀ (writes : List Write) (table id : String),
      ((({} : Database).after writes).row? table id = none ↔
        ∀ w ∈ writes, w.For table id → w.patch.members? = none) ∧
      ∀ row, (({} : Database).after writes).row? table id = some row →
        row.Gathers (Write.patches writes table id).flatten) ∧
    (∀ (db : Database) (w : Write), db.failure = none →
      (∀ fields, w.patch = .object fields → (db.perform w).1 = .object [] ∧
        ∀ table id, ¬ w.For table id → (db.perform w).2.row? table id = db.row? table id) ∧
      (w.patch.members? = none → (db.perform w).2 = db ∧
        ∃ reason, (db.perform w).1 = .object [("error", .string reason)])) ∧
    (∀ (db : Database) (reason : String), db.failure = some reason → ∀ writes,
      db.after writes = db ∧
        ∀ w, (db.after writes).perform w = (.object [("error", .string reason)], db)) ∧
    (∀ (db : Database), db.failure = none →
      (∀ writes w, ((db.after writes).perform w).1 = (db.perform w).1) ∧
      (∀ earlier later w w', ¬ w.For w'.table w'.id → ∀ table id,
        (db.after (earlier ++ w :: w' :: later)).row? table id =
          (db.after (earlier ++ w' :: w :: later)).row? table id) ∧
      ∀ writes writes', (∀ table id,
          writes.filter (·.For table id) = writes'.filter (·.For table id)) →
        ∀ table id, (db.after writes).row? table id = (db.after writes').row? table id) := by
  refine ⟨fun writes table id => ?_, fun db w h => ⟨fun fields hpatch => ?_, fun hpatch => ?_⟩,
    fun db reason h writes => ⟨after_of_failure h writes, fun w => ?_⟩,
    fun db h => ⟨fun writes w => ?_, fun earlier later w w' hrows => ?_, fun writes writes' hsame =>
      fun table id => row?_after_congr h (hsame table id)⟩⟩
  · rw [← Write.patches_eq_nil_iff, row?_after rfl]
    refine ⟨?_, fun row hrow => ?_⟩
    · split <;> simp_all [row?]
    · split at hrow
      · simp [row?] at hrow
      · obtain rfl := Option.some.inj hrow
        exact Entries.Gathers.nil.merge _
  · refine ⟨perform_of_object h hpatch, fun table id hother => ?_⟩
    rw [row?_perform h, if_neg hother]
  · rw [perform_of_not_object h hpatch]
    exact ⟨rfl, _, rfl⟩
  · rw [after_of_failure h, perform, upsert_of_failure h]
    rfl
  · exact answer_congr (failure_after db writes) w
  · exact row?_after_swap h hrows earlier later

/-- A row that is created by an empty patch, written to twice around another row, and left alone by
a patch that is no object. -/
example :
    let writes : List Write := [⟨"users", "ada", .object []⟩,
      ⟨"users", "ada", .object [("name", .string "Ada"), ("age", .null)]⟩,
      ⟨"users", "eve", .object [("name", .string "Eve")]⟩, ⟨"users", "ada", .array []⟩,
      ⟨"users", "ada", .object [("email", .string "a@b"), ("name", .bool true)]⟩]
    (({} : Database).after writes).row? "users" "ada" =
      some [("name", .bool true), ("age", .null), ("email", .string "a@b")] := rfl

end Database

end EffectPrograms
