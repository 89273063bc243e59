import EffectPrograms.Entries
import Mathlib.Data.List.Induction
import Mathlib.Data.List.Nodup

/-!
# Names that are mentioned more than once

Arguments, handlers and rows are entries into which pairs of a name and a value are put one after
another, and the same name may be mentioned by several of the pairs. What comes of this is said here
of all the pairs together: the names are those that are mentioned, in the order of their first
mention, and each of them has the value of its last (`Entries.Gathers`). This determines the entries
(`Gathers.eq`), and if no name is mentioned twice they are the pairs themselves
(`Gathers.eq_of_nodup`).
-/

namespace EffectPrograms

/-! ## First mentions -/

section

variable {α : Type} [DecidableEq α]

/-- A mention at the end counts as a first one only if there is none before it. -/
theorem eraseDups_concat (mentions : List α) (a : α) :
    (mentions ++ [a]).eraseDups =
      if a ∈ mentions then mentions.eraseDups else mentions.eraseDups ++ [a] := by
  rw [List.eraseDups_append]
  by_cases h : a ∈ mentions <;> simp [List.cons_removeAll, h, List.eraseDups_cons]

/-- No name is mentioned for the first time twice. -/
theorem nodup_eraseDups (mentions : List α) : mentions.eraseDups.Nodup := by
  induction mentions using List.reverseRecOn with
  | nil => simp
  | append_singleton earlier a ih =>
    rw [eraseDups_concat]
    split
    · exact ih
    · next h => simpa [List.nodup_append, ih] using fun b hb => ne_of_mem_of_not_mem hb h

/-- First mentions are some of all mentions, in their order. -/
theorem eraseDups_sublist (mentions : List α) : mentions.eraseDups.Sublist mentions := by
  induction mentions using List.reverseRecOn with
  | nil => simp
  | append_singleton earlier a ih =>
    rw [eraseDups_concat]
    split
    · exact ih.trans (List.sublist_append_left _ _)
    · exact ih.append (List.Sublist.refl [a])

/-- All mentions are first ones just if no name is mentioned twice. -/
theorem length_eraseDups_eq_iff (mentions : List α) :
    mentions.eraseDups.length = mentions.length ↔ mentions.Nodup := by
  constructor
  · intro h
    rw [← (eraseDups_sublist mentions).eq_of_length h]
    exact nodup_eraseDups mentions
  · intro h
    induction mentions using List.reverseRecOn with
    | nil => rfl
    | append_singleton earlier a ih =>
      obtain ⟨hearlier, -, hnew⟩ := List.nodup_append.1 h
      have hfirst : a ∉ earlier := fun ha => hnew a ha a (List.mem_singleton_self a) rfl
      rw [eraseDups_concat, if_neg hfirst]
      simp [ih hearlier]

end

namespace Entries

variable {α : Type}

/-- The value of the last pair that mentions a name. -/
def lastMention? (pairs : List (String × α)) (name : String) : Option α := get? pairs.reverse name

/-- A pair at the end is the last to mention its name. -/
theorem lastMention?_concat (pairs : List (String × α)) (pair : String × α) (name : String) :
    lastMention? (pairs ++ [pair]) name =
      if name = pair.1 then some pair.2 else lastMention? pairs name := by
  rw [lastMention?, List.reverse_append]
  exact get?_cons pair pairs.reverse name

/-- Only the pairs of a name count for its last mention. -/
theorem lastMention?_eq_filter (pairs : List (String × α)) (name : String) :
    lastMention? pairs name = (pairs.filter fun pair => pair.1 = name).getLast?.map Prod.snd := by
  induction pairs using List.reverseRecOn with
  | nil => rfl
  | append_singleton earlier pair ih =>
    rw [lastMention?_concat, List.filter_append, ih]
    by_cases h : name = pair.1
    · simp [h]
    · simp [h, Ne.symm h]

/-- The entries are what comes of the pairs: their names are those that are mentioned, in the order
of the first mention, and each name has the value of its last mention. -/
structure Gathers (entries : Entries α) (pairs : List (String × α)) : Prop where
  names : entries.names = (pairs.map Prod.fst).eraseDups
  get? : ∀ name, entries.get? name = lastMention? pairs name

/-- Entries of the same distinct names in the same order are equal if the values are. -/
theorem eq_of_get? {entries entries' : Entries α} (hnames : entries.names = entries'.names)
    (hnodup : entries.names.Nodup) (hget : ∀ name, entries.get? name = entries'.get? name) :
    entries = entries' := by
  induction entries generalizing entries' with
  | nil =>
    cases entries' with
    | nil => rfl
    | cons pair rest => simp [names] at hnames
  | cons pair rest ih =>
    cases entries' with
    | nil => simp [names] at hnames
    | cons pair' rest' =>
      obtain ⟨name, v⟩ := pair
      obtain ⟨name', v'⟩ := pair'
      obtain ⟨rfl, hrest⟩ : name = name' ∧ names rest = names rest' := by
        simpa [names] using hnames
      obtain ⟨hnew, hdistinct⟩ : name ∉ names rest ∧ (names rest).Nodup := by
        simpa [names] using hnodup
      have hv : v = v' := by simpa [get?_cons] using hget name
      refine congrArg₂ List.cons (by rw [hv]) (ih hrest hdistinct fun other => ?_)
      by_cases h : other = name
      · -- Behind its own pair the name has no value on either side.
        have hnone : ∀ {later : Entries α}, name ∉ names later → later.get? name = none := by
          intro later hlater
          rw [← contains_iff] at hlater
          simpa [contains] using hlater
        rw [h, hnone hnew, hnone (hrest ▸ hnew)]
      · simpa [get?_cons, h] using hget other

namespace Gathers

variable {entries entries' : Entries α} {pairs : List (String × α)}

/-- No name stands in the entries twice. -/
theorem nodup (h : entries.Gathers pairs) : entries.names.Nodup := by
  rw [h.names]
  exact nodup_eraseDups _

/-- The pairs determine the entries. -/
theorem eq (h : entries.Gathers pairs) (h' : entries'.Gathers pairs) : entries = entries' :=
  eq_of_get? (h.names.trans h'.names.symm) h.nodup fun name =>
    (h.get? name).trans (h'.get? name).symm

/-- There is an entry for each pair just if no name is mentioned twice. -/
theorem length_eq_iff (h : entries.Gathers pairs) :
    entries.length = pairs.length ↔ (pairs.map Prod.fst).Nodup := by
  have hlength : entries.length = (pairs.map Prod.fst).eraseDups.length := by
    rw [← h.names, Entries.names, List.length_map]
  rw [hlength, ← length_eraseDups_eq_iff, List.length_map]

/-- A name has a value just if a pair mentions it. -/
theorem mem_names_iff (h : entries.Gathers pairs) (name : String) :
    name ∈ entries.names ↔ name ∈ pairs.map Prod.fst := by
  rw [h.names, List.mem_eraseDups]

/-- Nothing comes of no pairs. -/
theorem nil : Gathers ([] : Entries α) [] := ⟨rfl, fun _ => rfl⟩

/-- One more pair is put into the entries. -/
theorem put (h : entries.Gathers pairs) (pair : String × α) :
    (Entries.put pair.1 pair.2 entries).Gathers (pairs ++ [pair]) where
  names := by
    have hmem := h.mem_names_iff pair.1
    rw [names_put, List.map_append, List.map_singleton, eraseDups_concat, ← h.names]
    by_cases hknown : pair.1 ∈ entries.names
    · rw [if_pos hknown, if_pos (hmem.1 hknown)]
    · rw [if_neg hknown, if_neg (mt hmem.2 hknown)]
  get? name := by rw [get?_put, lastMention?_concat, h.get?]

/-- More pairs are put into the entries in their order. -/
theorem merge (h : entries.Gathers pairs) (changes : List (String × α)) :
    (Entries.merge entries changes).Gathers (pairs ++ changes) := by
  induction changes generalizing entries pairs with
  | nil => simpa [Entries.merge] using h
  | cons pair later ih =>
    rw [List.append_cons]
    exact ih (h.put pair)

end Gathers

/-- Pairs that are put one after another are gathered. -/
theorem gathers_ofPairs (pairs : List (String × α)) : (ofPairs pairs).Gathers pairs :=
  Gathers.nil.merge pairs

/-- A new name goes to the end. -/
theorem put_of_notMem {entries : Entries α} {name : String} (h : name ∉ entries.names) (v : α) :
    put name v entries = entries ++ [(name, v)] := by
  induction entries with
  | nil => rfl
  | cons pair rest ih =>
    obtain ⟨hne, hrest⟩ : name ≠ pair.1 ∧ name ∉ names rest := by simpa [names] using h
    rw [put, if_neg (Ne.symm hne), ih hrest, List.cons_append]

/-- Pairs of distinct names are themselves what comes of them. -/
theorem ofPairs_eq_self {pairs : List (String × α)} (h : (names pairs).Nodup) :
    ofPairs pairs = pairs := by
  induction pairs using List.reverseRecOn with
  | nil => rfl
  | append_singleton earlier pair ih =>
    rw [names, List.map_append] at h
    obtain ⟨hearlier, -, hdisjoint⟩ := List.nodup_append.1 h
    have hnew : pair.1 ∉ names earlier := fun hmem => hdisjoint pair.1 hmem pair.1 (by simp) rfl
    have hput : ofPairs (earlier ++ [pair]) = put pair.1 pair.2 (ofPairs earlier) := by
      simp [ofPairs]
    rw [hput, ih hearlier, put_of_notMem hnew]

/-- If no name is mentioned twice, the entries are the pairs. -/
theorem Gathers.eq_of_nodup {entries : Entries α} {pairs : List (String × α)}
    (h : entries.Gathers pairs) (hnodup : (pairs.map Prod.fst).Nodup) : entries = pairs :=
  (h.eq (gathers_ofPairs pairs)).trans (ofPairs_eq_self hnodup)

end Entries

end EffectPrograms
