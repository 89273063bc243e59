import EffectPrograms.Fault

/-!
# Environments

The names that the steps of one composite have bound, in the order of binding. Each composite starts
with an empty environment and sees no other. A name is bound at most once, also to `null`.
-/

namespace EffectPrograms

/-- The bindings of one composite. -/
structure Environment where
  /-- Names and values in the order of binding. -/
  bindings : Entries Value := []
deriving Repr

namespace Environment

/-- Nothing is bound. -/
def empty : Environment := {}

/-- The value bound under a name. -/
def get? (env : Environment) (name : String) : Option Value := env.bindings.get? name

/-- The value bound under a name, or `null`. -/
def valueOf (env : Environment) (name : String) : Value := (env.get? name).getD .null

/-- Whether a name is bound. -/
def contains (env : Environment) (name : String) : Bool := env.bindings.contains name

/-- The number of bindings. -/
def size (env : Environment) : Nat := env.bindings.length

/-- Binds a name that is not bound yet. -/
def bind (env : Environment) (name : String) (value : Value) : Except Fault Environment :=
  if env.contains name then .error (.nameTaken name)
  else .ok ⟨env.bindings ++ [(name, value)]⟩

/-- Binds under a name if there is one. -/
def bindAs (env : Environment) (name : Option String) (value : Value) : Except Fault Environment :=
  match name with
  | none => .ok env
  | some name => env.bind name value

/-- The bindings as one object. -/
def toValue (env : Environment) : Value := .object env.bindings

/-- The members of an object as bindings. -/
def ofValue? (v : Value) : Option Environment := v.members?.map Environment.mk

/-- Equality as programs see it: the order of binding does not matter. -/
def same (env other : Environment) : Bool := env.toValue.same other.toValue

/-! ## Binding -/

/-- A name is bound just if it was free, and its binding is the last. -/
theorem bind_eq_ok_iff {env next : Environment} {name : String} {value : Value} :
    env.bind name value = .ok next ↔
      env.contains name = false ∧ next = ⟨env.bindings ++ [(name, value)]⟩ := by
  unfold bind
  split
  · next h => simp [h]
  · next h => simp [h, eq_comm]

/-- Binding a name changes what is bound under it and nothing else. -/
theorem get?_of_bind {env next : Environment} {name : String} {value : Value}
    (h : env.bind name value = .ok next) (other : String) :
    next.get? other = if other = name then some value else env.get? other := by
  obtain ⟨fresh, rfl⟩ := bind_eq_ok_iff.1 h
  have fresh : env.bindings.lookup name = none := by
    simpa [contains, Entries.contains, Entries.get?] using fresh
  by_cases h' : other = name
  · subst h'
    simp [get?, Entries.get?, List.lookup_append, fresh]
  · simp [get?, Entries.get?, List.lookup_append, List.lookup_cons, h', beq_false_of_ne h']
end Environment

end EffectPrograms
