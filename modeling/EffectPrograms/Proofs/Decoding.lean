import EffectPrograms.Value.Decode
import Mathlib.Data.List.Nodup

/-!
# What decoders accept

A decoder is a function, so that what it accepts is hidden in how it goes through a value. For the
decoders of several parts this is said here without the order of the search: two members of an
object are decoded just if each of them is found under its name and decoded by itself
(`Decoder.twoMembers_eq_ok_iff`), wherever they stand and whatever else the object holds, and two
items just if they are all that a list holds (`Decoder.twoItems_eq_ok_iff`).

All of this is about objects in which no name occurs twice, as values have them
(`Value.WellFormed`).
-/

namespace EffectPrograms

/-- Every object in the value has each name once. -/
inductive Value.WellFormed : Value → Prop where
  | null : WellFormed .null
  | bool (b : Bool) : WellFormed (.bool b)
  | number (n : Number) : WellFormed (.number n)
  | string (s : String) : WellFormed (.string s)
  | array {items : List Value} : (∀ v ∈ items, WellFormed v) → WellFormed (.array items)
  | object {members : Entries Value} :
      members.names.Nodup → (∀ member ∈ members, WellFormed member.2) →
        WellFormed (.object members)

namespace Entries

variable {α : Type} {entries : Entries α} {name : String}

/-- Under a name that does not occur there is no value. -/
theorem get?_eq_none_of_notMem (h : name ∉ entries.names) : entries.get? name = none := by
  rw [← contains_iff] at h
  simpa [contains] using h

/-- The value under a name stands in an entry of that name. -/
theorem mem_of_get?_eq_some {a : α} (h : entries.get? name = some a) : (name, a) ∈ entries := by
  induction entries with
  | nil => simp at h
  | cons entry rest ih =>
    rw [get?_cons] at h
    split at h
    · next heq =>
      obtain rfl := Option.some.inj h
      exact heq ▸ List.mem_cons_self ..
    · exact List.mem_cons_of_mem _ (ih h)

end Entries

/-- The value under a name of a well-formed object is well-formed. -/
theorem Value.WellFormed.of_get? {members : Entries Value} (h : (Value.object members).WellFormed)
    {name : String} {v : Value} (hv : members.get? name = some v) : v.WellFormed := by
  cases h with
  | object _ hmembers => exact hmembers _ (Entries.mem_of_get?_eq_some hv)

/-- A result that is taken further is one of what it was taken from. -/
theorem map_eq_ok_iff {ε α β : Type} {x : Except ε α} {f : α → β} {b : β} :
    x.map f = .ok b ↔ ∃ a, x = .ok a ∧ f a = b := by
  cases x <;> simp [Except.map]

namespace Decoder

variable {α β : Type}

/-- Only a string is decoded to a string. -/
theorem string_eq_ok_iff {v : Value} {s : String} : string v = .ok s ↔ v = .string s := by
  cases v <;> simp [string, mismatch]

/-! ## Items of a list -/

/-- Two items are decoded just from a list of two that are decoded each by itself. -/
theorem twoItems_eq_ok_iff {expected whole : String} {first : Decoder α} {second : Decoder β}
    {v : Value} {a : α} {b : β} :
    twoItems expected whole first second v = .ok (a, b) ↔
      ∃ x y, v = .array [x, y] ∧ first x = .ok a ∧ second y = .ok b := by
  cases v with
  | array items =>
    match items with
    | [] => simp [twoItems]
    | [x] => cases hx : first x <;> simp [twoItems, hx, Bind.bind, Except.bind]
    | [x, y] =>
      cases hx : first x <;> cases hy : second y <;>
        simp [twoItems, hx, hy, Bind.bind, Except.bind]
    | x :: y :: z :: rest =>
      cases hx : first x <;> cases hy : second y <;>
        simp [twoItems, hx, hy, Bind.bind, Except.bind]
  | null | bool _ | number _ | string _ | object _ => simp [twoItems, mismatch]

/-! ## Members of an object -/

/-- A member of the name is there, and is decoded to the value. -/
def Reads (decode : Decoder α) (name : String) (members : Entries Value) (a : α) : Prop :=
  ∃ v, members.get? name = some v ∧ decode v = .ok a

/-- One member is decoded just if it is found under its name. -/
theorem oneMember_eq_ok_iff {decode : Decoder α} {name : String} {members : Entries Value} {a : α} :
    oneMember name decode members = .ok a ↔ decode.Reads name members a := by
  unfold oneMember Reads
  cases members.get? name <;> simp

/-- What was found of a name before some members, and what is found after them. -/
def Finds (decode : Decoder α) (name : String) (members : Entries Value)
    (before after : Option α) : Prop :=
  match members.get? name with
  | none => after = before
  | some v => ∃ a, decode v = .ok a ∧ after = some a

section

variable {decode : Decoder α} {name : String} {before after : Option α} {members : Entries Value}

/-- Nothing new is found among members of other names. -/
theorem finds_of_notMem (h : name ∉ members.names) :
    decode.Finds name members before after ↔ after = before := by
  rw [Finds, Entries.get?_eq_none_of_notMem h]

/-- The member of the name is the one that is found. -/
theorem finds_cons_self {v : Value} :
    decode.Finds name ((name, v) :: members) before after ↔
      ∃ a, decode v = .ok a ∧ after = some a := by
  simp [Finds, Entries.get?_cons]

/-- A member of another name is left out. -/
theorem finds_cons_of_ne {other : String} (h : name ≠ other) {v : Value} :
    decode.Finds name ((other, v) :: members) before after ↔
      decode.Finds name members before after := by
  simp [Finds, Entries.get?_cons, h]

/-- If nothing was found before, then what is found is read from the members. -/
theorem finds_none_some_iff {a : α} :
    decode.Finds name members none (some a) ↔ decode.Reads name members a := by
  unfold Finds Reads
  cases members.get? name <;> simp

end

/-- How the next member is decoded while two names are looked for. -/
def nextMember (firstName : String) (first : Decoder α) (secondName : String) (second : Decoder β)
    (found : Option α × Option β) (member : String × Value) :
    Except DecodeFault (Option α × Option β) := do
  if member.1 = firstName then return (some (← first member.2), found.2)
  else if member.1 = secondName then return (found.1, some (← second member.2))
  else return found

variable {firstName secondName : String} {first : Decoder α} {second : Decoder β}

/-- Each of two names is found for itself, in whatever order their members stand. -/
theorem foldlM_nextMember_eq_ok_iff (hne : firstName ≠ secondName) {members : Entries Value}
    (hnames : members.names.Nodup) {found last : Option α × Option β} :
    members.foldlM (nextMember firstName first secondName second) found = .ok last ↔
      first.Finds firstName members found.1 last.1 ∧
        second.Finds secondName members found.2 last.2 := by
  induction members generalizing found with
  | nil =>
    obtain ⟨a, b⟩ := found
    obtain ⟨a', b'⟩ := last
    simp [Finds, pure, Except.pure, eq_comm]
  | cons member rest ih =>
    obtain ⟨name, v⟩ := member
    obtain ⟨hnew, hrest⟩ := List.nodup_cons.1 hnames
    replace ih := @ih hrest
    rw [List.foldlM_cons]
    -- Once the member of a name has been decoded, the rest holds no other one of that name.
    by_cases hfirst : name = firstName
    · subst hfirst
      rw [finds_cons_self, finds_cons_of_ne hne.symm]
      simp only [nextMember, if_true]
      cases hv : first v with
      | error fault => simp [Bind.bind, Except.bind]
      | ok a =>
        have hlater := @ih (some a, found.2)
        rw [finds_of_notMem hnew] at hlater
        simpa [Bind.bind, Except.bind, pure, Except.pure] using hlater
    · rw [finds_cons_of_ne (Ne.symm hfirst)]
      by_cases hsecond : name = secondName
      · subst hsecond
        rw [finds_cons_self]
        simp only [nextMember, hfirst, if_true, if_false]
        cases hv : second v with
        | error fault => simp [Bind.bind, Except.bind]
        | ok b =>
          have hlater := @ih (found.1, some b)
          rw [finds_of_notMem hnew] at hlater
          simpa [Bind.bind, Except.bind, pure, Except.pure] using hlater
      · rw [finds_cons_of_ne (Ne.symm hsecond)]
        simp only [nextMember, hfirst, hsecond, if_false]
        exact ih

/-- Two members of an object are decoded just if each of them is found under its name. -/
theorem twoMembers_eq_ok_iff (hne : firstName ≠ secondName) {members : Entries Value}
    (hnames : members.names.Nodup) {a : α} {b : β} :
    twoMembers firstName first secondName second members = .ok (a, b) ↔
      first.Reads firstName members a ∧ second.Reads secondName members b := by
  have hfold := @foldlM_nextMember_eq_ok_iff α β firstName secondName first second hne members
    hnames (none, none) (some a, some b)
  rw [finds_none_some_iff, finds_none_some_iff] at hfold
  rw [twoMembers, ← hfold]
  change (members.foldlM (nextMember firstName first secondName second) (none, none) >>= _) = _ ↔ _
  rcases members.foldlM (nextMember firstName first secondName second) (none, none) with
    fault | ⟨_ | _, _ | _⟩
  all_goals simp [Bind.bind, Except.bind]

end Decoder

end EffectPrograms
