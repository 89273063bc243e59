import EffectPrograms.Execution.Record
import EffectPrograms.Proofs.Steps

/-!
# Executions and their records

`Execution.record` lays out what an execution holds. Each operation on the record of a running
execution is the operation on its stack (`Stack.record_bind`, `Stack.record_enter`,
`Stack.record_leave` and so on), since there the innermost composite is always found. Hence the
record of an execution makes the transitions of the execution (`Executor.record_step`,
`Execution.record_resume`), and what is proved of executions holds of their records.
-/

namespace EffectPrograms

variable {σ : Type}

namespace Execution

/-- The open composites, from the inside out. -/
def frames : Execution σ → List (Frame σ)
  | .running stack | .awaitingIo _ stack => stack.frames
  | .done | .failed => []

/-- The name that an awaited value will be bound under. -/
def pendingBinding : Execution σ → Option String
  | .awaitingIo binding _ => binding
  | _ => none

/-- What an execution holds, side by side. -/
def record (e : Execution σ) : Record σ where
  frames := e.frames
  status := e.status
  pending := e.pendingBinding

/-- A running execution holds its composites, and no name is pending. -/
theorem record_running (stack : Stack σ) :
    (running stack).record = ⟨stack.frames, .running, none⟩ := rfl

/-- An execution that waits holds its composites and the name that the value goes under. -/
theorem record_awaitingIo (binding : Option String) (stack : Stack σ) :
    (awaitingIo binding stack).record = ⟨stack.frames, .awaitingIo, binding⟩ := rfl

end Execution

/-- An event and the record it leads to, which is put where the event says. -/
def Record.settled (found : Event σ × Record σ) : Event σ × Record σ :=
  (found.1, found.2.settle found.1)

/-- An event and the record of the execution it leads to. -/
def Execution.recorded (found : Event σ × Execution σ) : Event σ × Record σ :=
  (found.1, found.2.record)

/-- A transition with the record of the execution it leads to. -/
def Transition.recorded {α : Type} (t : Transition σ α) : Except Fault α × Record σ × σ :=
  (t.result, t.execution.record, t.world)

/-! ## Operations -/

/-- A composite hands over what it returned, unless its result is `null` in any case. -/
theorem Frame.result_eq (frame : Frame σ) (escaped : Option Value) :
    frame.result escaped = if frame.discards then .null else escaped.getD .null := by
  cases escaped <;> simp [result]

namespace Stack

/-- The record of the running execution with these composites. -/
def record (stack : Stack σ) : Record σ := (Execution.running stack).record

/-- The innermost composite of a stack is always found. -/
@[simp] theorem record_innermost (stack : Stack σ) :
    stack.record.innermost = .ok (stack.top, stack.below) := rfl

/-- A name is checked in the environment of the innermost composite. -/
@[simp] theorem record_accept (stack : Stack σ) (outer : Option String) (name : String) :
    stack.record.accept outer name = stack.top.env.accept outer name := by
  cases outer <;> rfl

/-- A value is bound in the innermost composite. -/
theorem record_bind (stack : Stack σ) (binding : Option String) (v : Value) :
    stack.record.bind binding v = (stack.bind binding v).map record := by
  cases binding with
  | none => rfl
  | some name =>
    show (stack.top.env.bind name v >>= fun env =>
      .ok (record ⟨{ stack.top with env }, stack.below⟩)) = _
    simp only [Stack.bind, Environment.bindAs]
    cases stack.top.env.bind name v <;> rfl

/-- The steps of the innermost composite are replaced if a handler asked for it. -/
theorem record_replaceRest (stack : Stack σ) (replacement : Option (List (Step σ))) :
    stack.record.replaceRest replacement = .ok (record
      ⟨{ stack.top with steps := replacement.getD stack.top.steps }, stack.below⟩) := by
  cases replacement <;> rfl

/-- The innermost composite is exhausted if it stands in another one and has no step left. -/
theorem record_isExhausted (stack : Stack σ) :
    stack.record.isExhausted = (!stack.below.isEmpty && stack.top.steps.isEmpty) := by
  obtain ⟨top, below⟩ := stack
  cases below <;> simp [record, Execution.record_running, frames, Record.isExhausted]

/-- A composite is opened. -/
theorem record_enter (limit : Option Nat) (stack : Stack σ) (binding : Option String)
    (steps : List (Step σ)) :
    stack.record.enter limit binding steps = (stack.enter limit binding steps).map record := by
  simp only [Record.enter, Stack.enter, record_isExhausted]
  split
  · rfl
  · cases limit with
    | none => rfl
    | some limit =>
      show (if limit ≤ stack.depth then _ else _) =
        (if limit ≤ stack.depth then _ else _ : Except Fault (Stack σ)).map record
      split <;> rfl

/-- The innermost composite is left. -/
theorem record_leave (stack : Stack σ) (escaped : Option Value) :
    (stack.record.leave escaped).map Record.settled =
      (stack.leave escaped).map Execution.recorded := by
  obtain ⟨top, below⟩ := stack
  cases below with
  | nil => rfl
  | cons parent below =>
    show ((record ⟨parent, below⟩).bind top.binding (top.result escaped) >>= fun r =>
      .ok (Event.progress, r)).map Record.settled = _
    rw [record_bind, Frame.result_eq]
    simp only [Stack.leave]
    cases Stack.bind ⟨parent, below⟩ top.binding
      (if top.discards then .null else escaped.getD .null) <;> rfl

end Stack

/-- Carries out what a step of a record came to. -/
def Record.carryOut (limit : Option Nat) (r : Record σ) (binding : Option String) :
    Verdict σ → Except Fault (Event σ × Record σ)
  | .value v => r.deliver binding v
  | .escape v => r.leave (some v)
  | .suspend io => r.await binding io
  | .enter steps => r.descend limit binding steps

/-- What a step came to is carried out. -/
theorem Stack.record_carryOut (limit : Option Nat) (stack : Stack σ) (x : Resolution σ) :
    ((record ⟨{ stack.top with steps := x.rest }, stack.below⟩).carryOut limit x.binding
        x.verdict).map Record.settled =
      (stack.commit limit x).map Execution.recorded := by
  obtain ⟨binding, verdict, rest⟩ := x
  cases verdict with
  | value v =>
    simp only [Record.carryOut, Record.deliver, Stack.record_bind, Stack.commit]
    cases Stack.bind ⟨{ stack.top with steps := rest }, stack.below⟩ binding v <;> rfl
  | escape v =>
    simp only [Record.carryOut, Stack.record_leave, Stack.commit]
  | suspend io => rfl
  | enter steps =>
    simp only [Record.carryOut, Record.descend, Stack.record_enter, Stack.commit]
    cases Stack.enter limit ⟨{ stack.top with steps := rest }, stack.below⟩ binding steps <;> rfl

/-- A transition is concluded like that of the execution. -/
theorem Record.conclude_eq {result : Except Fault (Event σ × Record σ)}
    {found : Except Fault (Event σ × Execution σ)}
    (h : result.map settled = found.map Execution.recorded) (world : σ) :
    conclude (result, world) = (Transition.ofResult found world).recorded := by
  rcases result with f | ⟨event, r⟩ <;> rcases found with g | ⟨event', e⟩
  · obtain rfl := Except.error.inj h
    rfl
  · simp [Except.map] at h
  · simp [Except.map] at h
  · obtain ⟨rfl, hrecord⟩ := Prod.mk.inj (Except.ok.inj h)
    exact congrArg (fun r => (Except.ok event, r, world)) hrecord

/-! ## Steps -/

mutual

/-- A step is unwrapped in the environment of the innermost composite. -/
theorem Step.unwrapIn_record (stack : Stack σ) (binding : Option String) (world : σ) (s : Step σ) :
    s.unwrapIn stack.record binding world = s.unwrap stack.top.env binding world := by
  cases s with
  | op o => rfl
  | bind name inner =>
    simp only [Step.unwrapIn, Step.unwrap, Stack.record_accept]
    cases stack.top.env.accept binding name with
    | ok _ => exact inner.unwrapIn_record stack (some name) world
    | error f => rfl
  | deferred f =>
    simp only [Step.unwrapIn, Step.unwrap, Stack.record_innermost]
    exact (f stack.top.env world).unwrapIn_record stack binding

/-- The same for the step that a deferred step comes to. -/
theorem Deferral.unwrapIn_record (stack : Stack σ) (binding : Option String) (d : Deferral σ) :
    d.unwrapIn stack.record binding = d.unwrap stack.top.env binding := by
  cases d with
  | fault f world => rfl
  | yields s world => exact s.unwrapIn_record stack binding world

end

namespace Executor

/-- A request that is followed comes to what is carried out. -/
theorem record_follow (x : Executor σ) (binding : Option String) (fuel : Nat) (request : Request)
    (stack : Stack σ) (rest : List (Step σ)) (world : σ) :
    Record.follow x binding fuel request
        (Stack.record ⟨{ stack.top with steps := rest }, stack.below⟩) world =
      (x.registry.follow fuel request rest world).map fun (result, world) =>
        (result >>= fun (verdict, rest) =>
          (Stack.record ⟨{ stack.top with steps := rest }, stack.below⟩).carryOut
            x.settings.maxDepth binding verdict, world) := by
  induction fuel generalizing request rest world with
  | zero => rfl
  | succ fuel ih =>
    simp only [Record.follow, Registry.follow]
    rcases x.registry.dispatch request world with ⟨f | ⟨answer, replacement⟩, world'⟩
    · rfl
    simp only [Stack.record_replaceRest]
    cases answer with
    | unit | value v | sequence steps => rfl
    | operation o =>
      cases o with
      | returning v | io io | composite steps => rfl
      | request next => exact ih next _ world'

/-- A step that is resolved comes to what is carried out. -/
theorem record_resolve (x : Executor σ) (fuel : Nat) (s : Step σ) (stack : Stack σ)
    (rest : List (Step σ)) (world : σ) :
    Record.resolve x fuel s (Stack.record ⟨{ stack.top with steps := rest }, stack.below⟩) world =
      (x.registry.resolve fuel stack.top.env s rest world).map fun (result, world) =>
        (result >>= fun resolution =>
          (Stack.record ⟨{ stack.top with steps := resolution.rest }, stack.below⟩).carryOut
            x.settings.maxDepth resolution.binding resolution.verdict, world) := by
  simp only [Record.resolve, Registry.resolve, Step.unwrapIn_record]
  rcases s.unwrap stack.top.env none world with ⟨f | ⟨binding, o⟩, world'⟩
  · rfl
  cases o with
  | returning v | io io | composite steps => rfl
  | request request =>
    simp only [record_follow, Registry.resolveOperation, Option.map_map]
    refine congrFun (congrArg Option.map (funext ?_)) _
    rintro ⟨f | ⟨verdict, rest⟩, world⟩ <;> rfl

/-- The record of an execution makes the transitions of the execution. -/
theorem record_step (x : Executor σ) (fuel : Nat) (e : Execution σ) (world : σ) :
    e.record.step x fuel world = (x.step fuel e world).map Transition.recorded := by
  cases e with
  | awaitingIo _ _ | done | failed => rfl
  | running stack =>
    show (stack.record.advance x fuel world).map Record.conclude = _
    obtain ⟨⟨steps, env, binding, discards⟩, below⟩ := stack
    cases steps with
    | nil =>
      exact congrArg some (Record.conclude_eq (Stack.record_leave _ none) world)
    | cons s rest =>
      show (Record.resolve x fuel s (Stack.record ⟨⟨rest, env, binding, discards⟩, below⟩)
        world).map Record.conclude = _
      rw [x.record_resolve fuel s ⟨⟨s :: rest, env, binding, discards⟩, below⟩]
      simp only [step]
      rcases x.registry.resolve fuel env s rest world with _ | ⟨f | resolution, world'⟩
      · rfl
      · rfl
      · exact congrArg some (Record.conclude_eq (Stack.record_carryOut x.settings.maxDepth
          ⟨⟨s :: rest, env, binding, discards⟩, below⟩ resolution) world')

end Executor

/-- The record of an execution takes the values that the execution takes. -/
theorem Execution.record_resume (e : Execution σ) (v : Value) :
    e.record.resume v = ((e.resume v).1, (e.resume v).2.record) := by
  cases e with
  | running _ | done | failed => rfl
  | awaitingIo binding stack =>
    have hbind : Record.bind ⟨stack.frames, .running, none⟩ binding v =
        (stack.bind binding v).map Stack.record := stack.record_bind binding v
    simp only [record_awaitingIo, Record.resume, if_true, hbind, resume]
    cases stack.bind binding v <;> rfl

end EffectPrograms
