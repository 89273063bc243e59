import EffectPrograms.Registry

/-!
# Executions

An execution runs one program. Open composites form a stack of frames, the innermost on top, so that
deep programs need no deep recursion. The type has a case for each status: a running execution has a
frame at least, a suspended one also knows the name that the awaited value will be bound to, and a
finished or failed one has nothing left. `Record` holds the same without such cases, and makes the
same transitions.
-/

namespace EffectPrograms

/-- What a finished execution delivers. -/
inductive Outcome where
  /-- The program ran out of steps; its bindings. -/
  | environment (env : Environment)
  /-- The program returned a value. -/
  | returned (v : Value)

namespace Outcome

/-- The returned value. -/
def returned? : Outcome → Option Value
  | .returned v => some v
  | .environment _ => none

/-- The bindings. -/
def environment? : Outcome → Option Environment
  | .environment env => some env
  | .returned _ => none

/-- The returned value, or the bindings as one object. -/
def toValue : Outcome → Value
  | .environment env => env.toValue
  | .returned v => v

end Outcome

/-- An open composite. -/
structure Frame (σ : Type) where
  /-- The steps that have not started. -/
  steps : List (Step σ)
  env : Environment := .empty
  /-- The name under which the composite around it binds the result. -/
  binding : Option String := none
  /-- Whether the result is `null` whatever the composite returns. -/
  discards : Bool := false

/-- The open composites, at least one. -/
structure Stack (σ : Type) where
  /-- The innermost composite. -/
  top : Frame σ
  /-- The composites around it, from the inside out. -/
  below : List (Frame σ) := []

variable {σ : Type}

/-- The number of open composites. -/
def Stack.depth (stack : Stack σ) : Nat := stack.below.length + 1

/-- A run of one program. -/
inductive Execution (σ : Type) where
  /-- Ready for the next step. -/
  | running (stack : Stack σ)
  /-- Waiting for a value that will be bound under the name. -/
  | awaitingIo (binding : Option String) (stack : Stack σ)
  /-- Has delivered its outcome. -/
  | done
  /-- Was aborted by a fault. -/
  | failed

/-- What a step of an execution comes to. -/
inductive Event (σ : Type) where
  /-- Something happened that needs nothing from outside. -/
  | progress
  /-- The execution waits for this io to be performed. -/
  | io (io : Io σ)
  /-- The program is finished. -/
  | finished (outcome : Outcome)

/-- What a call on an execution comes to. -/
structure Transition (σ α : Type) where
  result : Except Fault α
  execution : Execution σ
  world : σ

namespace Execution

/-- An execution of a program at its start, when nothing has run. -/
def start (program : Program σ) : Execution σ := .running { top := { steps := program } }

/-- Where the execution stands. -/
def status : Execution σ → Status
  | .running _ => .running
  | .awaitingIo _ _ => .awaitingIo
  | .done => .done
  | .failed => .failed

/-- The number of open composites, with the top level. -/
def depth : Execution σ → Nat
  | .running stack | .awaitingIo _ stack => stack.depth
  | .done | .failed => 0

/-- Composites are open until the execution is finished or failed. -/
theorem depth_eq_zero_iff (e : Execution σ) :
    e.depth = 0 ↔ e.status = .done ∨ e.status = .failed := by
  cases e <;> simp [depth, status, Stack.depth]

end Execution

end EffectPrograms
