import EffectPrograms.Algebra

/-!
# Typed algebras

A typed algebra has a Lean type of operations with an encoding. `TypedAlgebra.lower` makes the
request for an operation and `TypedAlgebra.recover` reads it back.
-/

namespace EffectPrograms

/-- An algebra whose operations are the values of a type. -/
structure TypedAlgebra (α : Type) where
  name : String
  /-- Operations with their parameters, in order. -/
  operations : List (String × List String)
  /-- An object of the operation's name and its arguments, or the reason why there is none. -/
  encode : α → Except String Value
  /-- Reads an operation of the given name from its arguments. -/
  decode : String → Entries Value → Except DecodeFault α

namespace TypedAlgebra

variable {α : Type}

/-- The same operations as an algebra. -/
def algebra (t : TypedAlgebra α) : Algebra :=
  ⟨t.name, t.operations.map fun (name, params) => (name, { params := params })⟩

/-- The name of the operation and its arguments in an encoding. Without arguments there are none. -/
def parts (t : TypedAlgebra α) (encoding : Value) : Except Fault (String × Entries Value) :=
  let malformed (v : Value) := Except.error (.invalidStep (.malformedEncoding t.name v))
  match encoding with
  | .object members =>
    let rest := Entries.takeOut members "operation"
    match Entries.get? members "operation" with
    | some (.string operation) =>
      match rest.get? "arguments" with
      | some (.object arguments) => .ok (operation, arguments)
      | none | some .null => .ok (operation, [])
      | some other => malformed other
    | _ => malformed (.object rest)
  | other => malformed other

/-- The request for an operation. -/
def lower (t : TypedAlgebra α) (x : α) : Except Fault Request :=
  match t.encode x with
  | .error reason => .error (.invalidStep (.unencodable t.name reason))
  | .ok encoding => do
    let (operation, arguments) ← t.parts encoding
    match t.operations.lookup operation with
    | none => .error (.unknownOperation t.name operation)
    | some params =>
      if params.length = arguments.length then .ok ⟨t.name, operation, arguments⟩
      else .error (.wrongArity t.name operation params.length arguments.length)

/-- The operation that a request asks for. -/
def recover (t : TypedAlgebra α) (r : Request) : Except Fault α :=
  if r.algebra ≠ t.name then .error (.foreignRequest t.name r)
  else if (t.operations.lookup r.operation).isNone then
    .error (.unknownOperation t.name r.operation)
  else
    match t.decode r.operation r.arguments with
    | .ok x => .ok x
    | .error fault =>
      .error (.invalidArgument t.name r.operation "arguments" fault r.argumentsValue)

/-! ## Which requests are read -/

variable (t : TypedAlgebra α) {r : Request}

/-- The declared operations are those that are found by their name. -/
theorem mem_operationNames_iff (operation : String) :
    operation ∈ t.algebra.operationNames ↔ (t.operations.lookup operation).isSome = true := by
  have hcontains : (t.operations.lookup operation).isSome =
      Entries.contains t.operations operation := rfl
  rw [hcontains, Entries.contains_iff]
  simp [Algebra.operationNames, algebra, Entries.names]

/-- A request of another algebra is not read. -/
theorem recover_of_foreign (h : r.algebra ≠ t.name) :
    t.recover r = .error (.foreignRequest t.name r) := if_pos h

/-- Neither is one for an operation that the algebra does not declare. -/
theorem recover_of_undeclared (halgebra : r.algebra = t.name)
    (h : r.operation ∉ t.algebra.operationNames) :
    t.recover r = .error (.unknownOperation t.name r.operation) := by
  rw [mem_operationNames_iff] at h
  simp [recover, halgebra, Option.not_isSome_iff_eq_none.1 h]

/-- Any other one is read from its arguments. -/
theorem recover_of_declared (halgebra : r.algebra = t.name)
    (h : r.operation ∈ t.algebra.operationNames) :
    t.recover r = match t.decode r.operation r.arguments with
      | .ok x => .ok x
      | .error fault =>
        .error (.invalidArgument t.name r.operation "arguments" fault r.argumentsValue) := by
  rw [mem_operationNames_iff] at h
  simp [recover, halgebra, Option.isNone_eq_false_iff.2 h]

/-- What is read asks for a declared operation of the algebra, and is read from its arguments. -/
theorem declared_of_recover {x : α} (h : t.recover r = .ok x) :
    r.algebra = t.name ∧ r.operation ∈ t.algebra.operationNames ∧
      t.decode r.operation r.arguments = .ok x := by
  by_cases halgebra : r.algebra = t.name
  · by_cases hname : r.operation ∈ t.algebra.operationNames
    · rw [t.recover_of_declared halgebra hname] at h
      refine ⟨halgebra, hname, ?_⟩
      cases hdecode : t.decode r.operation r.arguments with
      | ok y => simpa [hdecode] using h
      | error fault => simp [hdecode] at h
    · simp [t.recover_of_undeclared halgebra hname] at h
  · simp [t.recover_of_foreign halgebra] at h

end TypedAlgebra

end EffectPrograms
