import EffectPrograms.Execution

/-!
# Resolving a step

The front step of a composite is unwrapped from the outside to an operation, and a request is
followed from answer to answer until it is clear what the step comes to: a `Verdict`. All of this
depends on the environment and the remaining steps of the one composite, and on nothing below it.
-/

namespace EffectPrograms

variable {σ : Type}

/-- Accepts a name for a binding: it stands in no other binding, is not empty, and is not bound yet.
-/
def Environment.accept (env : Environment) (outer : Option String) (name : String) :
    Except Fault Unit :=
  match outer with
  | some outer => .error (.invalidStep (.nestedBinding outer name))
  | none =>
    if name = "" then .error (.invalidStep .unnamedBinding)
    else if env.contains name then .error (.nameTaken name)
    else .ok ()

mutual

/-- The operation of a step and the name to bind its value to. Bindings are checked, and deferred
steps computed, from the outside in. -/
def Step.unwrap (env : Environment) (binding : Option String) (world : σ) :
    Step σ → Except Fault (Option String × Operation σ) × σ
  | .op o => (.ok (binding, o), world)
  | .bind name inner =>
    match env.accept binding name with
    | .ok () => inner.unwrap env (some name) world
    | .error f => (.error f, world)
  | .deferred f => (f env world).unwrap env binding

/-- The operation of the step that a deferred step comes to. -/
def Deferral.unwrap (env : Environment) (binding : Option String) :
    Deferral σ → Except Fault (Option String × Operation σ) × σ
  | .fault f world => (.error f, world)
  | .yields s world => s.unwrap env binding world

end

/-- What an operation comes to. -/
inductive Verdict (σ : Type) where
  /-- It has a value. -/
  | value (v : Value)
  /-- It leaves the composite with a value. -/
  | escape (v : Value)
  /-- It waits for an io. -/
  | suspend (io : Io σ)
  /-- It opens a composite. -/
  | enter (steps : List (Step σ))

/-- What a step comes to. -/
structure Resolution (σ : Type) where
  /-- The name to bind the value to. -/
  binding : Option String
  verdict : Verdict σ
  /-- The steps that are left of the composite, replaced if a handler asked for it. -/
  rest : List (Step σ)

/-- Follows a request from answer to answer. An operation that an interpreter answers with stands in
place of the request, so there `returning` only has a value. None if the fuel does not suffice:
fewer answers follow each other than it counts. -/
def Registry.follow (registry : Registry σ) :
    Nat → Request → List (Step σ) → σ → Option (Except Fault (Verdict σ × List (Step σ)) × σ)
  | 0, _, _, _ => none
  | fuel + 1, r, rest, world =>
    match registry.dispatch r world with
    | (.error f, world) => some (.error f, world)
    | (.ok (answer, replacement), world) =>
      let rest := replacement.getD rest
      match answer with
      | .unit => some (.ok (.value .null, rest), world)
      | .value v => some (.ok (.value v, rest), world)
      | .sequence steps => some (.ok (.enter steps, rest), world)
      | .operation (.returning v) => some (.ok (.value v, rest), world)
      | .operation (.io io) => some (.ok (.suspend io, rest), world)
      | .operation (.composite steps) => some (.ok (.enter steps, rest), world)
      | .operation (.request next) => registry.follow fuel next rest world

/-- What an operation written in a program comes to. -/
def Registry.resolveOperation (registry : Registry σ) (fuel : Nat) (o : Operation σ)
    (rest : List (Step σ)) (world : σ) :
    Option (Except Fault (Verdict σ × List (Step σ)) × σ) :=
  match o with
  | .returning v => some (.ok (.escape v, rest), world)
  | .io io => some (.ok (.suspend io, rest), world)
  | .composite steps => some (.ok (.enter steps, rest), world)
  | .request r => registry.follow fuel r rest world

/-- What a step with the given steps after it comes to. -/
def Registry.resolve (registry : Registry σ) (fuel : Nat) (env : Environment) (s : Step σ)
    (rest : List (Step σ)) (world : σ) : Option (Except Fault (Resolution σ) × σ) :=
  match s.unwrap env none world with
  | (.error f, world) => some (.error f, world)
  | (.ok (binding, o), world) =>
    (registry.resolveOperation fuel o rest world).map fun (result, world) =>
      (result.map fun (verdict, rest) => ⟨binding, verdict, rest⟩, world)

end EffectPrograms
