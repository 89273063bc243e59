import EffectPrograms.Proofs.Decoding
import EffectPrograms.Proofs.Settings.Skipping

/-!
# Reading settings

`Settings.ofMembers?` says what the members of an object make of the defaults: a member that is
there takes the place of a default, if its value can be one. `read_of_isSpelledBy` is that settings
are read from every spelling of the object like this, in whatever order its members stand and
whatever other members it has.

Readers are looked at through what they take (`taken`). The members are taken one by one, and the
reader keeps what it found (`Found.add` for one member, `taken_fromMembers` for all of them). The
two names are looked for independently of each other (`foldlM_add`), and where every name occurs
once, what was found in the end is what stands under them (`settings_of_found`).
-/

namespace EffectPrograms.Settings

open Value (Padding Spelling Padded Name Members Ends)
open Value.Reader (skipBlanks)

/-! ## What members stand for -/

/-- The limit of depth that a value stands for: there is none, or it is a natural number of a word.
-/
def limit? : Value → Option (Option Nat)
  | .null => some none
  | .number n => n.word?.map some
  | _ => none

/-- Whether a value stands for taking turns. -/
def yields? : Value → Option Bool
  | .bool b => some b
  | _ => none

/-- The defaults, except for the members that are there. Members of other names do not count. -/
def ofMembers? (members : Entries Value) : Option Settings := do
  let defaults : Settings := {}
  let maxDepth ← (members.get? "max_depth").elim (some defaults.maxDepth) limit?
  let yieldBetweenSteps ←
    (members.get? "yield_between_steps").elim (some defaults.yieldBetweenSteps) yields?
  return { maxDepth, yieldBetweenSteps }

namespace Reader

/-! ## What readers take -/

section

variable {α β : Type}

/-- What a reader takes off the front of a text, leaving aside why it takes nothing. -/
def taken (reading : Reading α) (cs : List Char) : Option (α × List Char) :=
  (reading.run cs).toOption

@[simp] theorem taken_pure (a : α) (cs : List Char) :
    taken (pure a) cs = some (a, cs) := rfl

@[simp] theorem taken_bind (reading : Reading α) (next : α → Reading β) (cs : List Char) :
    taken (reading >>= next) cs =
      (taken reading cs).bind fun found => taken (next found.1) found.2 := by
  simp only [taken, StateT.run_bind]
  cases reading.run cs <;> rfl

@[simp] theorem taken_map (f : α → β) (reading : Reading α) (cs : List Char) :
    taken (f <$> reading) cs = (taken reading cs).map fun found => (f found.1, found.2) := by
  simp only [taken, StateT.run_map]
  cases reading.run cs <;> rfl

@[simp] theorem taken_throw (flaw : Flaw) (cs : List Char) :
    taken (throw flaw : Reading α) cs = none := rfl

@[simp] theorem taken_taking (reader : List Char → Option (α × List Char)) (cs : List Char) :
    taken (taking reader) cs = reader cs := by
  simp only [taken, taking, StateT.run]
  cases reader cs <;> rfl

@[simp] theorem taken_skipping (reader : List Char → Option (List Char)) (cs : List Char) :
    taken (skipping reader) cs = (reader cs).map fun rest => ((), rest) := taken_taking _ cs

@[simp] theorem taken_get (cs : List Char) : taken get cs = some (cs, cs) := rfl

@[simp] theorem taken_front (cs : List Char) :
    taken front cs = some ((skipBlanks cs).head?, skipBlanks cs) := rfl

/-- A mark is taken after blanks. -/
theorem taken_mark {c : Char} {cs rest : List Char} (h : skipBlanks cs = c :: rest) :
    taken (mark c) cs = some ((), rest) := by
  simp only [mark, taken_bind, taken_front, h, List.head?_cons, if_true, Option.bind_some]
  rfl

@[simp] theorem taken_word (s : String) (cs : List Char) :
    taken (word s) cs =
      if s.toList.isPrefixOf cs then some ((), cs.drop s.toList.length) else none := by
  simp only [word, taken_skipping, String.length_toList]
  split <;> rfl

/-- A value of another kind is refused, however much of it is read. -/
@[simp] theorem taken_unexpected (expected : String) (cs : List Char) :
    taken (unexpected expected : Reading α) cs = none := by
  rw [unexpected, taken_bind, taken_front, Option.bind_some]
  -- Whatever kind it is, a flaw is raised in the end.
  split <;> simp

end

/-! ## Single values -/

/-- A natural number of a word is one of the integers of a limit. -/
theorem integerNumber_of_word {n : Number} {k : Nat} (h : n.word? = some k) :
    Decoder.integerNumber 0 (Decoder.greatestUnsigned 64) "usize" (.integer k) = .ok (k : Int) := by
  have hfits : k < Nat.pow 2 64 := by
    unfold Number.word? at h
    split at h
    · next n =>
      obtain ⟨hfits, rfl⟩ : n < Nat.pow 2 64 ∧ n = k := by simpa using h
      exact hfits
    · simp at h
  have hle : (k : Int) ≤ Decoder.greatestUnsigned 64 := by
    unfold Decoder.greatestUnsigned
    omega
  simp [Decoder.integerNumber, hle]

variable {v : Value} {cs rest : List Char}

/-- A limit is taken from a numeral just if this stands for one. -/
theorem taken_limit {x : Value.Numeral} {n : Number} (hx : x.WellFormed) (h : x.Denotes n)
    (hends : Ends rest) :
    taken (do
      let n ← taking Value.Reader.number
      match Decoder.integerNumber 0 (Decoder.greatestUnsigned 64) "usize" n with
      | .ok n => return some n.toNat
      | .error fault => throw (.undecodable fault)) (x.text ++ rest) =
      (n.word?.map some).map fun limit => (limit, rest) := by
  rw [taken_bind, taken_taking]
  cases hword : n.word? with
  | some k =>
    rw [h.number_of_word hword hends, Option.bind_some]
    dsimp only
    rw [integerNumber_of_word hword]
    rfl
  | none =>
    cases hread : Value.Reader.number (x.text ++ rest) with
    | none => rfl
    | some found =>
      obtain ⟨n | x, rest'⟩ := found
      · have hneg := hx.neg_of_number h hword hends hread
        simp [Decoder.integerNumber, Int.not_le.2 hneg]
      · rfl

/-- A numeral begins with a digit or a minus. -/
theorem head?_numeral {x : Value.Numeral} (hx : x.WellFormed) (rest : List Char) :
    ∃ c, (x.text ++ rest).head? = some c ∧ (c.isDigit = true ∨ c = '-') := by
  obtain ⟨c, later, htext, hc⟩ := hx.head_text rest
  exact ⟨c, by rw [htext, List.head?_cons], hc⟩

/-- A limit is taken from a value that stands for one, and from no other. -/
theorem taken_depth (h : Padded v cs rest) (hends : Ends rest) :
    ∃ after, Padding after rest ∧ taken depth cs = (limit? v).map fun limit => (limit, after) := by
  obtain ⟨hcs, hv, hafter⟩ := h
  have hfront := hv.skipBlanks_eq hcs
  refine ⟨_, hafter, ?_⟩
  rw [depth, taken_bind, taken_front, Option.bind_some, hfront]
  cases hv with
  | number _ hnumeral hdenotes =>
    obtain ⟨c, hhead, hc⟩ := head?_numeral hnumeral _
    have hnull : c ≠ 'n' := by
      rintro rfl
      simp at hc
    have hnumber : (c = '-' || c.isDigit) = true := by simpa using hc.symm
    dsimp only
    rw [hhead]
    simp only [if_pos hnumber]
    exact taken_limit hnumeral hdenotes (hends.of_padding hafter)
  | _ => simp [limit?]

/-- Whether to take turns is taken from a truth value, and from no other. -/
theorem taken_flag (h : Padded v cs rest) :
    ∃ after, Padding after rest ∧
      taken flag cs = (yields? v).map fun yields => (yields, after) := by
  obtain ⟨hcs, hv, hafter⟩ := h
  have hfront := hv.skipBlanks_eq hcs
  refine ⟨_, hafter, ?_⟩
  rw [flag, taken_bind, taken_front, Option.bind_some, hfront]
  cases hv with
  | number _ hnumeral _ =>
    obtain ⟨c, hhead, hc⟩ := head?_numeral hnumeral _
    have hword : c ≠ 't' ∧ c ≠ 'f' := by
      constructor <;> rintro rfl <;> simp at hc
    dsimp only
    rw [hhead]
    simp [hword, yields?]
  | _ => simp [yields?]

/-! ## Members -/

/-- What is found under a name after one more member. It may be found once. -/
def find? {α : Type} (decode : Value → Option α) (name : String) (before : Option α)
    (member : String × Value) : Option (Option α) :=
  if member.1 = name then
    if before.isSome then none else (decode member.2).map some
  else some before

/-- What is found after one more member. -/
def Found.add (found : Found) (member : String × Value) : Option Found := do
  let maxDepth ← find? limit? "max_depth" found.maxDepth member
  let yieldBetweenSteps ← find? yields? "yield_between_steps" found.yieldBetweenSteps member
  return { maxDepth, yieldBetweenSteps }

/-- A member is taken after its name, or skipped. -/
theorem taken_member (name : String) {before : List Char} (hcolon : skipBlanks before = ':' :: cs)
    (h : Padded v cs rest) (hends : Ends rest) (found : Found) :
    ∃ after, Padding after rest ∧
      taken (member name found) before = (found.add (name, v)).map fun found => (found, after) := by
  have hmark := taken_mark hcolon
  unfold member Found.add find?
  by_cases hdepth : name = "max_depth"
  · obtain ⟨after, hafter, htaken⟩ := taken_depth h hends
    refine ⟨after, hafter, ?_⟩
    by_cases hfound : found.maxDepth.isSome = true
    · simp [hdepth, hfound]
    · simp [hdepth, hfound, hmark, htaken, Option.map_eq_bind, Option.bind_assoc]
  by_cases hyield : name = "yield_between_steps"
  · obtain ⟨after, hafter, htaken⟩ := taken_flag h
    refine ⟨after, hafter, ?_⟩
    by_cases hfound : found.yieldBetweenSteps.isSome = true
    · simp [hyield, hfound]
    · simp [hyield, hfound, hmark, htaken, Option.map_eq_bind, Option.bind_assoc]
  · obtain ⟨after, hskip, hafter⟩ := h.skipValue_eq hends (cs.length + 1) (by omega)
    exact ⟨after, hafter, by simp [hdepth, hyield, hmark, hskip]⟩

/-- A member follows: the first one right away, and any other after a comma. -/
inductive Follows (cs : List Char) : Bool → List Char → Prop where
  | first : Follows cs true cs
  | next {before : List Char} : Padding before (',' :: cs) → Follows cs false before

/-- Before a member the reader goes on to its opening quote. -/
theorem taken_nextPart_of_follows {isFirst : Bool} {before later : List Char}
    (hfollows : Follows cs isFirst before) (hquote : skipBlanks cs = '"' :: later) :
    taken (nextPart '\x7d' isFirst) before = some (true, '"' :: later) := by
  cases hfollows with
  | first => simp [nextPart, hquote]
  | next hcomma =>
    have hmark : taken (mark ',') (',' :: cs) = some ((), cs) := taken_mark rfl
    simp [nextPart, hcomma.skipBlanks_cons rfl, hmark, hquote]

/-- The reader stops at the closing bracket. -/
theorem taken_fromMembers_of_closing (h : Padding cs ('\x7d' :: rest)) (fuel : Nat)
    (isFirst : Bool) (found : Found) :
    taken (fromMembers (fuel + 1) isFirst found) cs = some (found.settings, '\x7d' :: rest) := by
  simp [fromMembers, nextPart, h.skipBlanks_cons rfl]

/-- One round takes one member. -/
theorem taken_round {name : String} {isFirst : Bool} {before front : List Char}
    (hfollows : Follows cs isFirst before) (hname : Name name cs front) (h : Padded v front rest)
    (hends : Ends rest) (fuel : Nat) (found : Found) :
    ∃ after, Padding after rest ∧
      taken (fromMembers (fuel + 1) isFirst found) before =
        (found.add (name, v)).bind fun found => taken (fromMembers fuel false found) after := by
  obtain ⟨body, colon, hquote, hstring, -, hcolon⟩ := hname.parts
  obtain ⟨after, hafter, hmember⟩ := taken_member name hcolon h hends found
  refine ⟨after, hafter, ?_⟩
  have hnext := taken_nextPart_of_follows hfollows hquote
  have hmark : taken (mark '"') ('"' :: body) = some ((), body) := taken_mark rfl
  simp only [fromMembers, taken_bind, hnext, Option.bind_some, Bool.not_true, Bool.false_eq_true,
    if_false, hmark, taken_taking, hstring, hmember]
  cases found.add (name, v) <;> rfl

/-- The members are taken one after another, up to the closing bracket. -/
theorem taken_fromMembers {members : Entries Value} (h : Members members cs rest) (fuel : Nat)
    (hfuel : cs.length < fuel + rest.length) {isFirst : Bool} {before : List Char}
    (hfollows : Follows cs isFirst before) (found : Found) :
    taken (fromMembers fuel isFirst found) before =
      (members.foldlM Found.add found).map fun found => (found.settings, '\x7d' :: rest) := by
  -- There is more fuel than text left, of which every member takes some.
  induction members generalizing cs fuel isFirst before found with
  | nil => cases h
  | cons member members ih =>
    cases h with
    | last hname hv =>
      have hlt := hname.length_lt
      have hlt' := hv.length_lt
      rw [List.length_cons] at hlt'
      obtain ⟨fuel, rfl⟩ : ∃ n, fuel = n + 2 := ⟨fuel - 2, by omega⟩
      obtain ⟨after, hafter, hround⟩ :=
        taken_round hfollows hname hv (by simp [Ends]) (fuel + 1) found
      rw [hround, List.foldlM_cons]
      cases found.add (_, _) with
      | none => rfl
      | some found => exact taken_fromMembers_of_closing hafter fuel false found
    | cons hname hv hrest =>
      have hlt := hname.length_lt
      have hlt' := hv.length_lt
      have hlt'' := hrest.length_lt
      rw [List.length_cons] at hlt'
      obtain ⟨fuel, rfl⟩ : ∃ n, fuel = n + 1 := ⟨fuel - 1, by omega⟩
      obtain ⟨after, hafter, hround⟩ :=
        taken_round hfollows hname hv (by simp [Ends]) fuel found
      have hlater := ih hrest fuel (by omega) (.next hafter)
      rw [hround, List.foldlM_cons]
      cases found.add (_, _) with
      | none => rfl
      | some found => exact hlater found

/-! ## What was found in the end -/

/-- Among members of other names nothing new is found. -/
theorem foldlM_find?_of_notMem {α : Type} (decode : Value → Option α) {name : String}
    {members : Entries Value} (h : name ∉ members.names) (before : Option α) :
    members.foldlM (find? decode name) before = some before := by
  induction members with
  | nil => rfl
  | cons member members ih =>
    obtain ⟨hne, hrest⟩ : ¬ name = member.1 ∧ name ∉ Entries.names members := by
      simpa [Entries.names] using h
    simp [find?, Ne.symm hne, ih hrest]

/-- Where every name occurs once, the member is found that is looked up under the name. -/
theorem foldlM_find? {α : Type} (decode : Value → Option α) (name : String)
    {members : Entries Value} (h : members.names.Nodup) :
    members.foldlM (find? decode name) none =
      (members.get? name).elim (some none) fun v => (decode v).map some := by
  induction members with
  | nil => rfl
  | cons member members ih =>
    obtain ⟨hnew, hrest⟩ : member.1 ∉ Entries.names members ∧ (Entries.names members).Nodup := by
      simpa [Entries.names] using h
    rw [List.foldlM_cons, Entries.get?_cons]
    by_cases hname : name = member.1
    · subst hname
      cases hdecode : decode member.2 with
      | none => simp [find?, hdecode]
      | some a => simp [find?, hdecode, foldlM_find?_of_notMem decode hnew]
    · simp [find?, Ne.symm hname, hname, ih hrest]

/-- The two names are looked for independently of each other. -/
theorem foldlM_add (members : Entries Value) (found : Found) :
    members.foldlM Found.add found = (do
      let maxDepth ← members.foldlM (find? limit? "max_depth") found.maxDepth
      let yieldBetweenSteps ←
        members.foldlM (find? yields? "yield_between_steps") found.yieldBetweenSteps
      return { maxDepth, yieldBetweenSteps }) := by
  induction members generalizing found with
  | nil => rfl
  | cons member members ih =>
    simp only [List.foldlM_cons, Found.add]
    cases find? limit? "max_depth" found.maxDepth member with
    | none => rfl
    | some maxDepth =>
      cases find? yields? "yield_between_steps" found.yieldBetweenSteps member with
      | none => simp
      | some yieldBetweenSteps => simp [ih]

/-- What was found takes the place of the defaults. -/
theorem settings_of_found {members : Entries Value} (h : members.names.Nodup) :
    (members.foldlM Found.add {}).map Found.settings = ofMembers? members := by
  rw [foldlM_add, foldlM_find? limit? "max_depth" h, foldlM_find? yields? "yield_between_steps" h,
    ofMembers?]
  cases members.get? "max_depth" <;> cases members.get? "yield_between_steps" <;>
    simp [Found.settings, Option.map_eq_bind, Option.bind_assoc]

/-! ## Whole texts -/

/-- Settings are taken from an object. -/
theorem taken_settings {members : Entries Value} (hnames : members.names.Nodup)
    (h : Padded (.object members) cs rest) :
    ∃ after, Padding after rest ∧
      taken settings cs = (ofMembers? members).map fun s => (s, after) := by
  obtain ⟨hcs, hv, hafter⟩ := h
  have hfront := hv.skipBlanks_eq hcs
  refine ⟨_, hafter, ?_⟩
  rw [settings, taken_bind, taken_front, Option.bind_some, hfront, ← settings_of_found hnames]
  have hopening : ∀ later, taken (mark '\x7b') ('\x7b' :: later) = some ((), later) :=
    fun _ => taken_mark rfl
  have hclosing : ∀ later, taken (mark '\x7d') ('\x7d' :: later) = some ((), later) :=
    fun _ => taken_mark rfl
  cases hv with
  | emptyObject hcs =>
    have htaken := taken_fromMembers_of_closing hcs
    simp [hopening, hclosing, htaken]
  | @object _ body _ hmembers =>
    have htaken := taken_fromMembers hmembers (body.length + 1) (by omega) .first {}
    simp [hopening, hclosing, htaken, Option.map_eq_bind, Option.bind_assoc]

end Reader

/-- Settings are read from every spelling of an object as its members say. -/
theorem read_of_isSpelledBy {members : Entries Value} (hnames : members.names.Nodup)
    {text : String} (h : (Value.object members).IsSpelledBy text) :
    (read text).toOption = ofMembers? members := by
  obtain ⟨after, hafter, htaken⟩ := Reader.taken_settings hnames h
  have hblank : skipBlanks after = [] := hafter.skipBlanks_eq
  unfold Reader.taken at htaken
  unfold read
  cases hread : Reader.settings.run text.toList with
  | error flaw =>
    rw [hread] at htaken
    exact (Option.map_eq_none_iff.1 htaken.symm).symm
  | ok found =>
    rw [hread] at htaken
    obtain ⟨s, hmembers, rfl⟩ := Option.map_eq_some_iff.1 htaken.symm
    rw [hmembers]
    simp [Bind.bind, Except.bind, hblank, Except.toOption]

example : (read "\x7b\"note\" : [1.5e3], \"yield_between_steps\" : false \x7d").toOption =
    some ⟨none, false⟩ := by decide +kernel

end EffectPrograms.Settings
