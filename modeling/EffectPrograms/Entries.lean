/-!
# Entries in order

A finite map from names to values that remembers in which order its names came, as a list of pairs.
Arguments, environments, objects and rows are such lists. A new name goes to the end, and a value
that is put under a known name takes the place of the old one.
-/

namespace EffectPrograms

/-- Pairs of a name and a value, in order. -/
abbrev Entries (α : Type) := List (String × α)

namespace Entries

variable {α : Type}

/-- The names in order. -/
def names (entries : Entries α) : List String := entries.map Prod.fst

/-- The value under a name. -/
def get? (entries : Entries α) (name : String) : Option α := entries.lookup name

/-- Whether a name has a value. -/
def contains (entries : Entries α) (name : String) : Bool := (entries.get? name).isSome

/-- Puts a value under a name: in the place of the old value, or at the end. -/
def put (name : String) (value : α) : Entries α → Entries α
  | [] => [(name, value)]
  | (other, old) :: rest =>
    if other = name then (other, value) :: rest else (other, old) :: put name value rest

/-- The pairs put one after another: of two values under one name the later one counts. -/
def ofPairs (pairs : List (String × α)) : Entries α :=
  pairs.foldl (fun entries (name, value) => entries.put name value) []

/-- Puts every pair of `changes` in order. -/
def merge (entries changes : Entries α) : Entries α :=
  changes.foldl (fun entries (name, value) => entries.put name value) entries

/-- Takes a name out; the last pair moves into the place that becomes free. -/
def takeOut (entries : Entries α) (name : String) : Entries α :=
  match entries.getLast? with
  | none => []
  | some last =>
    if last.1 = name then entries.dropLast
    else if entries.contains name then
      entries.dropLast.map fun pair => if pair.1 = name then last else pair
    else entries

/-! ## What the operations do to the view `get?` -/

@[simp] theorem get?_nil (name : String) : get? ([] : Entries α) name = none := rfl

/-- The first pair of a name counts. -/
theorem get?_cons (pair : String × α) (entries : Entries α) (name : String) :
    get? (pair :: entries) name = if name = pair.1 then some pair.2 else get? entries name := by
  obtain ⟨other, value⟩ := pair
  by_cases h : name = other
  · simp [get?, h]
  · simp [get?, List.lookup_cons, h, beq_false_of_ne h]

/-- A name that was put has its new value, and every other name keeps its own. -/
theorem get?_put (entries : Entries α) (name other : String) (value : α) :
    (put name value entries).get? other =
      if other = name then some value else entries.get? other := by
  induction entries with
  | nil => simp [put, get?_cons]
  | cons pair rest ih =>
    obtain ⟨known, old⟩ := pair
    by_cases h : known = name
    · subst h
      by_cases h' : other = known <;> simp [put, get?_cons, h']
    · by_cases h' : other = known
      · subst h'
        simp [put, get?_cons, h]
      · simp [put, get?_cons, h, h', ih]

/-- A name that has a value keeps its place, and a new one goes to the end. -/
theorem names_put (entries : Entries α) (name : String) (value : α) :
    names (put name value entries) =
      if name ∈ names entries then names entries else names entries ++ [name] := by
  induction entries with
  | nil => simp [put, names]
  | cons pair rest ih =>
    obtain ⟨known, old⟩ := pair
    simp only [names] at ih
    by_cases h : known = name
    · subst h
      simp [put, names]
    · by_cases h' : name ∈ rest.map Prod.fst
      · simp only [h', if_true] at ih
        simp [put, names, h, ih, Ne.symm h, h']
      · simp only [h', if_false] at ih
        simp [put, names, h, ih, Ne.symm h, h']

/-- A name has a value just if it is one of the names. -/
theorem contains_iff (entries : Entries α) (name : String) :
    entries.contains name = true ↔ name ∈ entries.names := by
  induction entries with
  | nil => simp [contains, names]
  | cons pair rest ih =>
    simp only [contains, names, List.map_cons, List.mem_cons] at ih ⊢
    by_cases h : name = pair.1 <;> simp [get?_cons, h, ih]
end Entries

end EffectPrograms
