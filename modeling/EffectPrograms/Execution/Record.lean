import EffectPrograms.Execution.Step

/-!
# Records of an execution

`Execution` has a case for each status and in each case just what that status needs. A `Record`
keeps the same things side by side: the open composites, the status, and the name that an awaited
value will be bound to. Each of its operations finds the innermost composite where it needs one, and
meets a fault where there is none; a call changes the three in the order in which this happens.

Nothing in the type says that composites are open while the execution runs, or that a name is
pending only while an io is. That no call ever finds otherwise, and that a record makes the same
transitions as the execution whose record it is, is proved of it.
-/

namespace EffectPrograms

variable {σ : Type}

/-- What is kept of a run of one program. -/
structure Record (σ : Type) where
  /-- The open composites, from the inside out. -/
  frames : List (Frame σ)
  status : Status
  /-- The name that an awaited value will be bound to. -/
  pending : Option String

/-- What a composite that is left hands to the one around it. -/
def Frame.result (frame : Frame σ) (escaped : Option Value) : Value :=
  match escaped with
  | some v => if frame.discards then .null else v
  | none => .null

namespace Record

/-- A program at its start, when nothing has run. -/
def start (program : Program σ) : Record σ where
  frames := [{ steps := program }]
  status := .running
  pending := none

/-- What is left when a fault has aborted an execution. -/
def failed : Record σ where
  frames := []
  status := .failed
  pending := none

/-- The innermost composite and those around it. -/
def innermost (r : Record σ) : Except Fault (Frame σ × List (Frame σ)) :=
  match r.frames with
  | [] => .error (.invalidStep .nothingOpen)
  | frame :: below => .ok (frame, below)

/-! ## Operations -/

/-- Accepts a name for a binding: it stands in no other binding, is not empty, and is not bound yet
in the innermost composite. -/
def accept (r : Record σ) (outer : Option String) (name : String) : Except Fault Unit :=
  match outer with
  | some outer => .error (.invalidStep (.nestedBinding outer name))
  | none =>
    if name = "" then .error (.invalidStep .unnamedBinding)
    else do
      let (frame, _) ← r.innermost
      if frame.env.contains name then .error (.nameTaken name) else return ()

/-- Binds a value in the innermost composite. Without a name no composite is asked for. -/
def bind (r : Record σ) (binding : Option String) (v : Value) : Except Fault (Record σ) :=
  match binding with
  | none => .ok r
  | some name => do
    let (frame, below) ← r.innermost
    let env ← frame.env.bind name v
    return { r with frames := { frame with env } :: below }

/-- Replaces the steps that are left of the innermost composite, if a handler asked for it. -/
def replaceRest (r : Record σ) (replacement : Option (List (Step σ))) : Except Fault (Record σ) :=
  match replacement with
  | none => .ok r
  | some steps => do
    let (frame, below) ← r.innermost
    return { r with frames := { frame with steps } :: below }

/-- Whether the innermost composite stands in another one and has no step left. -/
def isExhausted (r : Record σ) : Bool :=
  decide (1 < r.frames.length) && r.frames.head?.any fun frame => frame.steps.isEmpty

/-- Opens a composite, in the place of an exhausted one or within the limit. -/
def enter (limit : Option Nat) (r : Record σ) (binding : Option String) (steps : List (Step σ)) :
    Except Fault (Record σ) :=
  if r.isExhausted then do
    let (frame, below) ← r.innermost
    return { r with frames := { steps, binding := frame.binding, discards := true } :: below }
  else
    match limit with
    | some limit =>
      if limit ≤ r.frames.length then .error (.tooDeep limit)
      else .ok { r with frames := { steps, binding } :: r.frames }
    | none => .ok { r with frames := { steps, binding } :: r.frames }

/-- Leaves the innermost composite, with a value if it returned one. -/
def leave (r : Record σ) (escaped : Option Value) : Except Fault (Event σ × Record σ) := do
  let (frame, below) ← r.innermost
  let left := { r with frames := below }
  if below.isEmpty then
    let outcome := match escaped with
      | some v => Outcome.returned v
      | none => Outcome.environment frame.env
    return (.finished outcome, left)
  else return (.progress, ← left.bind frame.binding (frame.result escaped))

/-! ## Resolving a step -/

/-- Binds a value that a step came to. -/
def deliver (r : Record σ) (binding : Option String) (v : Value) :
    Except Fault (Event σ × Record σ) := do
  return (.progress, ← r.bind binding v)

/-- Opens a composite that a step came to. -/
def descend (limit : Option Nat) (r : Record σ) (binding : Option String) (steps : List (Step σ)) :
    Except Fault (Event σ × Record σ) := do
  return (.progress, ← r.enter limit binding steps)

/-- Hands an io over and keeps the name for its value. -/
def await (r : Record σ) (binding : Option String) (io : Io σ) :
    Except Fault (Event σ × Record σ) :=
  .ok (.io io, { r with pending := binding })

end Record

mutual

/-- The operation of a step and the name to bind its value to, found with the innermost composite of
a record. -/
def Step.unwrapIn (r : Record σ) (binding : Option String) (world : σ) :
    Step σ → Except Fault (Option String × Operation σ) × σ
  | .op o => (.ok (binding, o), world)
  | .bind name inner =>
    match r.accept binding name with
    | .ok () => inner.unwrapIn r (some name) world
    | .error f => (.error f, world)
  | .deferred f =>
    match r.innermost with
    | .ok (frame, _) => (f frame.env world).unwrapIn r binding
    | .error f => (.error f, world)

/-- The same for the step that a deferred step comes to. -/
def Deferral.unwrapIn (r : Record σ) (binding : Option String) :
    Deferral σ → Except Fault (Option String × Operation σ) × σ
  | .fault f world => (.error f, world)
  | .yields s world => s.unwrapIn r binding world

end

namespace Record

/-- Follows a request from answer to answer and carries out what it comes to. None if the fuel does
not suffice. -/
def follow (x : Executor σ) (binding : Option String) :
    Nat → Request → Record σ → σ → Option (Except Fault (Event σ × Record σ) × σ)
  | 0, _, _, _ => none
  | fuel + 1, request, r, world =>
    match x.registry.dispatch request world with
    | (.error f, world) => some (.error f, world)
    | (.ok (answer, replacement), world) =>
      match r.replaceRest replacement with
      | .error f => some (.error f, world)
      | .ok r =>
        match answer with
        | .unit => some (r.deliver binding .null, world)
        | .value v | .operation (.returning v) => some (r.deliver binding v, world)
        | .sequence steps | .operation (.composite steps) =>
          some (r.descend x.settings.maxDepth binding steps, world)
        | .operation (.io io) => some (r.await binding io, world)
        | .operation (.request next) => follow x binding fuel next r world

/-- Resolves a step that was taken from the innermost composite and carries out what it comes to. -/
def resolve (x : Executor σ) (fuel : Nat) (s : Step σ) (r : Record σ) (world : σ) :
    Option (Except Fault (Event σ × Record σ) × σ) :=
  match s.unwrapIn r none world with
  | (.error f, world) => some (.error f, world)
  | (.ok (binding, o), world) =>
    match o with
    | .returning v => some (r.leave (some v), world)
    | .io io => some (r.await binding io, world)
    | .composite steps => some (r.descend x.settings.maxDepth binding steps, world)
    | .request request => r.follow x binding fuel request world

/-- Takes the front step of the innermost composite, or leaves the composite if there is none. -/
def advance (x : Executor σ) (fuel : Nat) (r : Record σ) (world : σ) :
    Option (Except Fault (Event σ × Record σ) × σ) :=
  match r.innermost with
  | .error f => some (.error f, world)
  | .ok (frame, below) =>
    match frame.steps with
    | [] => some (r.leave none, world)
    | s :: rest => { r with frames := { frame with steps := rest } :: below }.resolve x fuel s world

/-! ## Calls -/

/-- The record after an event. -/
def settle (r : Record σ) : Event σ → Record σ
  | .progress => r
  | .io _ => { r with status := .awaitingIo }
  | .finished _ => { r with status := .done }

/-- What a transition comes to: the record is put where the event says, and a fault aborts. -/
def conclude : Except Fault (Event σ × Record σ) × σ → Except Fault (Event σ) × Record σ × σ
  | (.ok (event, next), world) => (.ok event, next.settle event, world)
  | (.error f, world) => (.error f, failed, world)

/-- Makes one transition of a record that runs. None if the fuel does not suffice to follow a
request to its last answer. -/
def step (x : Executor σ) (fuel : Nat) (r : Record σ) (world : σ) :
    Option (Except Fault (Event σ) × Record σ × σ) :=
  if r.status = .running then (r.advance x fuel world).map conclude
  else some (.error (.notRunning r.status), r, world)

/-- Delivers the value that is waited for. -/
def resume (r : Record σ) (v : Value) : Except Fault Unit × Record σ :=
  if r.status = .awaitingIo then
    match { r with status := .running, pending := none }.bind r.pending v with
    | .ok next => (.ok (), next)
    | .error f => (.error f, failed)
  else (.error (.notRunning r.status), r)

end Record

end EffectPrograms
