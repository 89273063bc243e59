import EffectPrograms.Execution.Resolve
import EffectPrograms.Settings

/-!
# Steps of an execution

`Executor.step` makes one transition. It resolves the front step of the innermost composite and then
binds its value, leaves the composite, opens another, or waits for an io; `Execution.resume`
delivers the value of that io. An inner composite that has started its last step is replaced by the
composite which that step opens, so that programs that go on in their last step stay flat.
-/

namespace EffectPrograms

/-- Runs programs with a fixed registry and fixed settings. -/
structure Executor (σ : Type) where
  registry : Registry σ
  settings : Settings := {}

variable {σ : Type}

namespace Stack

/-- Binds a value in the innermost composite. -/
def bind (stack : Stack σ) (name : Option String) (v : Value) : Except Fault (Stack σ) := do
  let env ← stack.top.env.bindAs name v
  return { stack with top := { stack.top with env := env } }

/-- Opens a composite. An inner composite without any step left gives its place to the new one,
under its own name and with the value `null`, which it would have had itself; only else does the
limit count. -/
def enter (limit : Option Nat) (stack : Stack σ) (binding : Option String)
    (steps : List (Step σ)) : Except Fault (Stack σ) :=
  if !stack.below.isEmpty && stack.top.steps.isEmpty then
    .ok { stack with top := { steps := steps, binding := stack.top.binding, discards := true } }
  else
    match limit with
    | some limit =>
      if limit ≤ stack.depth then .error (.tooDeep limit)
      else .ok ⟨{ steps := steps, binding := binding }, stack.top :: stack.below⟩
    | none => .ok ⟨{ steps := steps, binding := binding }, stack.top :: stack.below⟩

/-- Leaves the innermost composite, with a value if it returned one. -/
def leave (stack : Stack σ) (escaped : Option Value) : Except Fault (Event σ × Execution σ) :=
  match stack.below with
  | [] =>
    let outcome := match escaped with
      | some v => Outcome.returned v
      | none => Outcome.environment stack.top.env
    .ok (.finished outcome, .done)
  | parent :: below => do
    let v := if stack.top.discards then .null else escaped.getD .null
    let stack ← Stack.bind ⟨parent, below⟩ stack.top.binding v
    return (.progress, .running stack)

/-- Carries out what the front step of the innermost composite came to. -/
def commit (limit : Option Nat) (stack : Stack σ) (x : Resolution σ) :
    Except Fault (Event σ × Execution σ) :=
  let stack := { stack with top := { stack.top with steps := x.rest } }
  match x.verdict with
  | .value v => do return (.progress, .running (← stack.bind x.binding v))
  | .escape v => stack.leave (some v)
  | .suspend io => .ok (.io io, .awaitingIo x.binding stack)
  | .enter steps => do return (.progress, .running (← stack.enter limit x.binding steps))

end Stack

namespace Transition

/-- A transition that a fault aborts. -/
def fail {α : Type} (f : Fault) (world : σ) : Transition σ α := ⟨.error f, .failed, world⟩

/-- A transition to the execution of a result. -/
def ofResult {α : Type} (result : Except Fault (α × Execution σ)) (world : σ) : Transition σ α :=
  match result with
  | .ok (a, execution) => ⟨.ok a, execution, world⟩
  | .error f => fail f world

end Transition

/-- Makes one transition of a running execution. None if the fuel does not suffice to follow a
request to its last answer. -/
def Executor.step (x : Executor σ) (fuel : Nat) (execution : Execution σ) (world : σ) :
    Option (Transition σ (Event σ)) :=
  match execution with
  | .running stack =>
    match stack.top.steps with
    | [] => some (.ofResult (stack.leave none) world)
    | s :: rest =>
      match x.registry.resolve fuel stack.top.env s rest world with
      | none => none
      | some (.error f, world) => some (.fail f world)
      | some (.ok resolution, world) =>
        some (.ofResult (stack.commit x.settings.maxDepth resolution) world)
  | other => some ⟨.error (.notRunning other.status), other, world⟩

/-- Delivers the value that a suspended execution waits for. -/
def Execution.resume (execution : Execution σ) (v : Value) : Except Fault Unit × Execution σ :=
  match execution with
  | .awaitingIo binding stack =>
    match stack.bind binding v with
    | .ok stack => (.ok (), .running stack)
    | .error f => (.error f, .failed)
  | other => (.error (.notRunning other.status), other)

end EffectPrograms
