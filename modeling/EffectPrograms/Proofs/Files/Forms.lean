import EffectPrograms.Files.CloudFiles
import EffectPrograms.Proofs.Decoding

/-!
# The two forms of an operation on files

An operation on files is a value of `CloudFiles` in a program and in a handler, and a request in
between. Which requests stand for which operation is said here without the code that reads them
(`CloudFiles.GivenBy`): the arguments may be in any order, among others that do not matter, and the
place may be an object or a list. The request that is made for an operation is one of these, with
nothing left open (`CloudFiles.Canonical`).

A request is read just if it stands for an operation (`recover_eq_ok_iff`), and what is made for an
operation is read as that operation (`lower_eq`, `recover_form`). So a request that is read and made
again has the one form that its operation has, and keeps it (`forms_agree`).
-/

namespace EffectPrograms.Files

/-! ## Places -/

namespace FilePath

variable {path : FilePath} {v : Value}

/-- The values that stand for a place: an object with both names among its members, or a list of
the two. -/
inductive GivenBy (path : FilePath) : Value → Prop where
  | object {members : Entries Value} :
      members.get? "parentDir" = some (.string path.parentDir) →
        members.get? "name" = some (.string path.name) → GivenBy path (.object members)
  | list : GivenBy path (.array [.string path.parentDir, .string path.name])

/-- A string is read under a name just if it stands there. -/
theorem reads_string_iff {name s : String} {members : Entries Value} :
    Decoder.Reads .string name members s ↔ members.get? name = some (.string s) := by
  simp [Decoder.Reads, Decoder.string_eq_ok_iff]

/-- A place is read from the values that stand for it. -/
theorem decode_eq_ok_iff (h : v.WellFormed) : decode v = .ok path ↔ path.GivenBy v := by
  cases h with
  | @object members hnames hmembers =>
    have hread := @Decoder.twoMembers_eq_ok_iff _ _ "parentDir" "name" .string .string (by decide)
      members hnames path.parentDir path.name
    rw [reads_string_iff, reads_string_iff] at hread
    constructor
    · intro h
      obtain ⟨⟨parentDir, name⟩, htwo, rfl⟩ := map_eq_ok_iff.1 h
      obtain ⟨hparentDir, hname⟩ := hread.1 htwo
      exact .object hparentDir hname
    · rintro ⟨hparentDir, hname⟩
      exact map_eq_ok_iff.2 ⟨_, hread.2 ⟨hparentDir, hname⟩, rfl⟩
  | @array items hitems =>
    constructor
    · intro h
      obtain ⟨⟨parentDir, name⟩, htwo, rfl⟩ := map_eq_ok_iff.1 h
      obtain ⟨x, y, hitems, hx, hy⟩ := Decoder.twoItems_eq_ok_iff.1 htwo
      rw [hitems, Decoder.string_eq_ok_iff.1 hx, Decoder.string_eq_ok_iff.1 hy]
      exact .list
    · rintro ⟨-⟩
      rfl
  | null | bool _ | number _ | string _ =>
    constructor
    · simp [decode, Decoder.twoItems, Decoder.mismatch, Except.map]
    · rintro ⟨-⟩

end FilePath

/-! ## Operations -/

namespace CloudFiles

/-- The name of the operation. -/
def operation : CloudFiles → String
  | .saveFile _ _ => "saveFile"
  | .listFiles _ => "listFiles"

/-- The values of the arguments, in the order of the parameters. -/
def fields : CloudFiles → List Value
  | .saveFile path bytes => [path.toValue, .string bytes]
  | .listFiles path => [path.toValue]

/-- The operations that a name and arguments give, among which their own are found. Other arguments
do not matter. -/
inductive GivenBy (name : String) (arguments : Entries Value) : CloudFiles → Prop where
  | saveFile {path : FilePath} {bytes : String} {v : Value} :
      name = "saveFile" → arguments.get? "path" = some v → path.GivenBy v →
        arguments.get? "bytes" = some (.string bytes) →
          GivenBy name arguments (.saveFile path bytes)
  | listFiles {path : FilePath} {v : Value} :
      name = "listFiles" → arguments.get? "path" = some v → path.GivenBy v →
        GivenBy name arguments (.listFiles path)

/-- The form of a request in which nothing is left open: it has the declared parameters in their
order and no other arguments, and the place is an object of exactly its two names. -/
structure Canonical (r : Request) : Prop where
  algebra : r.algebra = "cloudFiles"
  params : typedAlgebra.operations.lookup r.operation = some r.arguments.names
  place : ∃ path : FilePath, r.arguments.get? "path" = some path.toValue

/-- The request that is made for an operation. -/
def form : CloudFiles → Request
  | .saveFile path bytes =>
    ⟨"cloudFiles", "saveFile", [("path", path.toValue), ("bytes", .string bytes)]⟩
  | .listFiles path => ⟨"cloudFiles", "listFiles", [("path", path.toValue)]⟩

/-! ## From operations to requests -/

/-- A request is made for every operation. -/
theorem lower_eq (x : CloudFiles) : typedAlgebra.lower x = .ok x.form := by
  cases x <;> rfl

/-- It is the one that the algebra makes of the name and the values of the arguments. -/
theorem call_eq (x : CloudFiles) :
    typedAlgebra.algebra.call x.operation x.fields = .ok x.form := by
  cases x <;> rfl

/-- It has the canonical form. -/
theorem canonical_form (x : CloudFiles) : Canonical x.form := by
  cases x with
  | saveFile path bytes => exact ⟨rfl, rfl, path, rfl⟩
  | listFiles path => exact ⟨rfl, rfl, path, rfl⟩

/-- It is read as the operation that it was made for. -/
theorem recover_form (x : CloudFiles) : typedAlgebra.recover x.form = .ok x := by
  cases x <;> rfl

/-! ## From requests to operations -/

variable {x : CloudFiles} {name : String} {arguments : Entries Value}

/-- A place is read from an argument that stands for it. -/
theorem reads_path_iff (h : (Value.object arguments).WellFormed) {path : FilePath} :
    Decoder.Reads FilePath.decode "path" arguments path ↔
      ∃ v, arguments.get? "path" = some v ∧ path.GivenBy v := by
  refine exists_congr fun v => and_congr_right fun hv => ?_
  exact FilePath.decode_eq_ok_iff (h.of_get? hv)

/-- Arguments are read just if they give an operation. -/
theorem decode_eq_ok_iff (hname : name ∈ typedAlgebra.algebra.operationNames)
    (h : (Value.object arguments).WellFormed) :
    decode name arguments = .ok x ↔ x.GivenBy name arguments := by
  have hnames : arguments.names.Nodup := by
    cases h with
    | object hnames _ => exact hnames
  obtain rfl | rfl : name = "saveFile" ∨ name = "listFiles" := by
    simpa [Algebra.operationNames, TypedAlgebra.algebra, typedAlgebra] using hname
  · have hread := fun path bytes => @Decoder.twoMembers_eq_ok_iff _ _ "path" "bytes" FilePath.decode
      .string (by decide) arguments hnames path bytes
    simp only [reads_path_iff h, FilePath.reads_string_iff] at hread
    constructor
    · intro hdecode
      obtain ⟨⟨path, bytes⟩, htwo, rfl⟩ := map_eq_ok_iff.1 hdecode
      obtain ⟨⟨v, hv, hpath⟩, hbytes⟩ := (hread path bytes).1 htwo
      exact .saveFile rfl hv hpath hbytes
    · rintro (⟨-, hv, hpath, hbytes⟩ | ⟨hname, -⟩)
      · exact map_eq_ok_iff.2 ⟨_, (hread _ _).2 ⟨⟨_, hv, hpath⟩, hbytes⟩, rfl⟩
      · exact absurd hname (by decide)
  · constructor
    · intro hdecode
      obtain ⟨path, hone, rfl⟩ := map_eq_ok_iff.1 hdecode
      obtain ⟨v, hv, hpath⟩ := (reads_path_iff h).1 (Decoder.oneMember_eq_ok_iff.1 hone)
      exact .listFiles rfl hv hpath
    · rintro (⟨hname, -⟩ | ⟨-, hv, hpath⟩)
      · exact absurd hname (by decide)
      · have hone := Decoder.oneMember_eq_ok_iff.2 ((reads_path_iff h).2 ⟨_, hv, hpath⟩)
        exact map_eq_ok_iff.2 ⟨_, hone, rfl⟩

/-- What is read under a name is an operation of that name. -/
theorem operation_form_of_recover {r : Request} (h : typedAlgebra.recover r = .ok x) :
    x.form.algebra = r.algebra ∧ x.form.operation = r.operation := by
  obtain ⟨halgebra, hname, hdecode⟩ := typedAlgebra.declared_of_recover h
  refine ⟨x.canonical_form.algebra.trans halgebra.symm, ?_⟩
  obtain hname | hname : r.operation = "saveFile" ∨ r.operation = "listFiles" := by
    simpa [Algebra.operationNames, TypedAlgebra.algebra, typedAlgebra] using hname
  · rw [hname] at hdecode ⊢
    obtain ⟨-, -, rfl⟩ := map_eq_ok_iff.1 hdecode
    rfl
  · rw [hname] at hdecode ⊢
    obtain ⟨-, -, rfl⟩ := map_eq_ok_iff.1 hdecode
    rfl

section

variable {r : Request} (halgebra : r.algebra = "cloudFiles")
  (hname : r.operation ∈ typedAlgebra.algebra.operationNames) (h : r.argumentsValue.WellFormed)

include halgebra hname h

/-- A request for a declared operation is read just if its arguments give an operation. -/
theorem recover_eq_ok_iff :
    typedAlgebra.recover r = .ok x ↔ x.GivenBy r.operation r.arguments := by
  rw [typedAlgebra.recover_of_declared halgebra hname, ← decode_eq_ok_iff hname h,
    show typedAlgebra.decode = decode from rfl]
  cases decode r.operation r.arguments <;> simp

/-- It is refused for its arguments just if they give none. -/
theorem recover_eq_invalidArgument_iff :
    (∃ fault, typedAlgebra.recover r = .error
        (.invalidArgument "cloudFiles" r.operation "arguments" fault r.argumentsValue)) ↔
      ¬ ∃ x : CloudFiles, x.GivenBy r.operation r.arguments := by
  simp only [← recover_eq_ok_iff halgebra hname h]
  rw [typedAlgebra.recover_of_declared halgebra hname]
  cases typedAlgebra.decode r.operation r.arguments <;> simp [typedAlgebra]

end

/-- A request as it is made again for the operation that it is read as. -/
def remade (r : Request) : Except Fault Request := do
  typedAlgebra.lower (← typedAlgebra.recover r)

/-- What is made again has the form of the operation, and keeps it from then on. -/
theorem remade_of_recover {r : Request} (h : typedAlgebra.recover r = .ok x) :
    remade r = .ok x.form ∧ remade x.form = .ok x.form := by
  have hlower := x.lower_eq
  constructor
  · rw [remade, h]
    exact hlower
  · rw [remade, x.recover_form]
    exact hlower

/-- Operations on files and requests translate into each other. A request is made for every
operation, the same that the algebra makes of the operation's name and the values of its arguments
in the declared order, and it is read as that operation. Of other requests, those of another algebra
and those for an operation that is not declared are refused as such; any other one is read just if
its arguments give an operation, whatever their order, whatever stands beside them and in whichever
of the two ways the place is written, and is refused for its arguments just if they give none. What
is made for an operation that was read is the canonical form of the request: it is for the same
operation of the same algebra, has the declared parameters in their order and nothing else, and the
place as an object; it is read as the same operation again, and made again it stays as it is. -/
theorem forms_agree :
    (∀ x : CloudFiles, ∃ r, typedAlgebra.lower x = .ok r ∧
      typedAlgebra.algebra.call x.operation x.fields = .ok r ∧
      typedAlgebra.recover r = .ok x) ∧
    (∀ r : Request, r.algebra ≠ "cloudFiles" →
      typedAlgebra.recover r = .error (.foreignRequest "cloudFiles" r)) ∧
    (∀ r : Request, r.algebra = "cloudFiles" →
      r.operation ∉ typedAlgebra.algebra.operationNames →
        typedAlgebra.recover r = .error (.unknownOperation "cloudFiles" r.operation)) ∧
    (∀ r : Request, r.algebra = "cloudFiles" →
      r.operation ∈ typedAlgebra.algebra.operationNames → r.argumentsValue.WellFormed →
        (∀ x : CloudFiles, typedAlgebra.recover r = .ok x ↔ x.GivenBy r.operation r.arguments) ∧
        ((∃ fault, typedAlgebra.recover r = .error
            (.invalidArgument "cloudFiles" r.operation "arguments" fault r.argumentsValue)) ↔
          ¬ ∃ x : CloudFiles, x.GivenBy r.operation r.arguments)) ∧
    ∀ (r : Request) (x : CloudFiles), typedAlgebra.recover r = .ok x →
      ∃ c, typedAlgebra.lower x = .ok c ∧ Canonical c ∧ c.algebra = r.algebra ∧
        c.operation = r.operation ∧ typedAlgebra.recover c = .ok x ∧ remade r = .ok c ∧
        remade c = .ok c := by
  refine ⟨fun x => ⟨x.form, x.lower_eq, x.call_eq, x.recover_form⟩,
    fun r => typedAlgebra.recover_of_foreign, fun r => typedAlgebra.recover_of_undeclared,
    fun r halgebra hname h => ⟨fun x => recover_eq_ok_iff halgebra hname h,
      recover_eq_invalidArgument_iff halgebra hname h⟩, fun r x hx => ?_⟩
  obtain ⟨halgebra, hoperation⟩ := operation_form_of_recover hx
  obtain ⟨hremade, hkept⟩ := remade_of_recover hx
  exact ⟨x.form, x.lower_eq, x.canonical_form, halgebra, hoperation, x.recover_form, hremade, hkept⟩

/-- Asks to save a file, with the place as a list, an argument too many, and the arguments in
another order than that of the parameters. -/
def unorderedSave : Request where
  algebra := "cloudFiles"
  operation := "saveFile"
  arguments := [("bytes", .string "text"), ("mode", .null),
    ("path", .array [.string "drafts", .string "letter"])]

/-- It is read all the same, and made again it has both parameters in order and the place as an
object. -/
theorem forms_agree_unordered :
    unorderedSave.argumentsValue.WellFormed ∧
      typedAlgebra.recover unorderedSave = .ok (.saveFile ⟨"drafts", "letter"⟩ "text") ∧
      ∃ c, remade unorderedSave = .ok c ∧ Canonical c ∧ remade c = .ok c ∧
        c.arguments.names = ["path", "bytes"] := by
  have hwell : unorderedSave.argumentsValue.WellFormed := by
    refine .object (by decide) fun member hmember => ?_
    simp only [unorderedSave, List.mem_cons, List.not_mem_nil, or_false] at hmember
    rcases hmember with rfl | rfl | rfl
    · exact .string _
    · exact .null
    · refine .array fun item hitem => ?_
      simp only [List.mem_cons, List.not_mem_nil, or_false] at hitem
      rcases hitem with rfl | rfl <;> exact .string _
  have hrecover : typedAlgebra.recover unorderedSave =
      .ok (.saveFile ⟨"drafts", "letter"⟩ "text") :=
    ((forms_agree.2.2.2.1 unorderedSave rfl (by decide) hwell).1 _).2 (.saveFile rfl rfl .list rfl)
  obtain ⟨c, hlower, hcanonical, -, -, -, hremade, hkept⟩ := forms_agree.2.2.2.2 _ _ hrecover
  obtain rfl : _ = c := Except.ok.inj hlower
  exact ⟨hwell, hrecover, _, hremade, hcanonical, hkept, rfl⟩

end CloudFiles

end EffectPrograms.Files
