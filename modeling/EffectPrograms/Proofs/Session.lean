import EffectPrograms.Proofs.Course
import EffectPrograms.Proofs.Steps
import Mathlib.Logic.Function.Iterate

/-!
# Sessions

A session drives one execution: while it is running it is stepped, and when it waits for an io the
next delivery is handed to it, which is a value or the fault of an io that broke its contract.
`Machine.advance` makes one call; `(m.advance fuel)^[n]` makes `n` calls, of which those that come
after the end of the execution change nothing. The surroundings hold what every io delivers and the
world after it, so that theorems about sessions hold for all that an io may do.

The fuel bounds the answers that follow each other in one step. A step that needs more does not
return and hangs the session; what was done in it is seen all the same.

A `Machine` leaves open how an execution is stepped, up to where the step puts it.
`Executor.machine` steps it as the executor does.
-/

namespace EffectPrograms

variable {σ : Type}

/-! ## Machines -/

/-- A way to step executions over the interpreters of a registry. -/
structure Machine (σ : Type) where
  registry : Registry σ
  step : Nat → Execution σ → σ → Option (Transition σ (Event σ))
  /-- The execution stands where the result of the step says. -/
  status_of_step : ∀ {fuel stack world t}, step fuel (.running stack) world = some t →
    t.execution.status = t.status

namespace Executor

/-- The machine that steps executions as the executor does. -/
def machine (x : Executor σ) : Machine σ where
  registry := x.registry
  step := x.step
  status_of_step h := status_of_stepBy
    (fun _ _ _ _ => Stack.status_of_commit) (x.step_eq_stepBy ▸ h)

/-- The executor with another limit to how many composites may be open. -/
def limited (x : Executor σ) (limit : Option Nat) : Executor σ :=
  { x with settings := { x.settings with maxDepth := limit } }

end Executor

/-! ## Sessions -/

/-- What a call on an execution came to. -/
inductive Reply (σ : Type) where
  | stepped (result : Except Fault (Event σ))
  | resumed (result : Except Fault Unit)

/-- An execution between two calls. -/
structure Session (σ : Type) where
  execution : Execution σ
  surroundings : Surroundings σ
  /-- What the execution has done, in order. -/
  acts : List (Act σ) := []
  /-- What the calls came to, in order. -/
  replies : List (Reply σ) := []
  /-- Whether the last call was a step that does not return. -/
  hung : Bool := false

/-- What an event shows beside the result. -/
def Event.acts : Event σ → List (Act σ)
  | .io asked => [.ask asked]
  | _ => []

/-- Hands what an io delivered to the execution that waits for it. -/
def Execution.receive (execution : Execution σ) (delivery : Except Fault Value) :
    Except Fault Unit × Execution σ :=
  match delivery with
  | .ok v => execution.resume v
  | .error f => (.error f, .failed)

namespace Session

/-- A session with a program at its start. -/
def start (program : Program σ) (surroundings : Surroundings σ) : Session σ :=
  { execution := .start program, surroundings }

/-- The session after a step that did not return. -/
def hang (s : Session σ) (acts : List (Act σ)) : Session σ :=
  { s with acts := s.acts ++ acts, hung := true }

/-- The session after a step. -/
def stepped (s : Session σ) (acts : List (Act σ)) (t : Transition σ (Event σ)) : Session σ :=
  { s with
    execution := t.execution
    surroundings := { s.surroundings with world := t.world }
    acts := s.acts ++ acts ++ match t.result with
      | .ok event => event.acts
      | .error _ => []
    replies := s.replies ++ [.stepped t.result] }

/-- The session after a delivery. -/
def resumed (s : Session σ) (surroundings : Surroundings σ)
    (t : Except Fault Unit × Execution σ) : Session σ :=
  { s with execution := t.2, surroundings, replies := s.replies ++ [.resumed t.1] }

/-- What the execution ended with, if it has ended. -/
def ending (s : Session σ) : Except Halt Outcome :=
  match s.execution with
  | .running _ => .error .unfinished
  | .awaitingIo _ _ =>
    match s.surroundings.deliveries with
    | [] => .error .awaiting
    | _ :: _ => .error .unfinished
  | .done | .failed =>
    match s.replies.getLast? with
    | some (.stepped (.ok (.finished outcome))) => .ok outcome
    | some (.stepped (.error f)) | some (.resumed (.error f)) => .error (.fault f)
    | _ => .error .unfinished

/-- An execution that is running or waits has not ended with anything. -/
theorem ended_of_ending_eq_ok {s : Session σ} {outcome : Outcome} (h : s.ending = .ok outcome) :
    s.execution = .done ∨ s.execution = .failed := by
  unfold ending at h
  cases he : s.execution with
  | running stack => simp [he] at h
  | awaitingIo binding stack =>
    rw [he] at h
    dsimp only at h
    split at h <;> simp at h
  | done => exact .inl rfl
  | failed => exact .inr rfl

/-- What is left of a session after a step in which its execution failed. -/
structure FailedFrom (s : Session σ) (acts : List (Act σ)) (f : Fault) (world : σ)
    (after : Session σ) : Prop where
  /-- No composite is left open, and no step is left. -/
  execution : after.execution = .failed
  status : after.execution.status = .failed
  depth : after.execution.depth = 0
  /-- There is the fault and no outcome. -/
  ending : after.ending = .error (.fault f)
  /-- One call has come to the fault, and none to anything else. -/
  replies : after.replies = s.replies ++ [.stepped (.error f)]
  acts : after.acts = s.acts ++ acts
  surroundings : after.surroundings = { s.surroundings with world }

/-- What can be seen of the session from outside. -/
def course (s : Session σ) : Course σ Outcome := ⟨s.acts, s.ending, s.surroundings⟩

end Session

/-- One call on the execution of a session. -/
def Machine.advance (m : Machine σ) (fuel : Nat) (s : Session σ) : Session σ :=
  if s.hung then s
  else
    match s.execution with
    | .running stack =>
      let acts := m.registry.stepActs fuel stack s.surroundings.world
      match m.step fuel (.running stack) s.surroundings.world with
      | none => s.hang acts
      | some t => s.stepped acts t
    | .awaitingIo binding stack =>
      match s.surroundings.deliveries with
      | [] => s
      | (delivery, world) :: later =>
        s.resumed ⟨world, later⟩ ((Execution.awaitingIo binding stack).receive delivery)
    | .done | .failed => s

/-- A program's session after a number of calls. -/
def Machine.sessionAfter (m : Machine σ) (program : Program σ) (surroundings : Surroundings σ)
    (fuel n : Nat) : Session σ :=
  (m.advance fuel)^[n] (.start program surroundings)

/-- A program's session with the executor under a limit, after a number of calls. -/
def Executor.sessionUnder (x : Executor σ) (limit : Option Nat) (program : Program σ)
    (surroundings : Surroundings σ) (fuel n : Nat) : Session σ :=
  (x.limited limit).machine.sessionAfter program surroundings fuel n

/-! ## Calls -/

namespace Machine

variable {m : Machine σ} {fuel : Nat} {s : Session σ}

/-- A session that hangs stays as it is. -/
theorem advance_of_hung (h : s.hung = true) : m.advance fuel s = s := by
  simp [advance, h]

/-- A running execution is stepped. -/
theorem advance_of_running (hhung : s.hung = false) {stack : Stack σ}
    (h : s.execution = .running stack) :
    m.advance fuel s =
      match m.step fuel (.running stack) s.surroundings.world with
      | none => s.hang (m.registry.stepActs fuel stack s.surroundings.world)
      | some t => s.stepped (m.registry.stepActs fuel stack s.surroundings.world) t := by
  simp [advance, hhung, h]

/-- An execution that waits receives the next delivery. -/
theorem advance_of_awaiting (hhung : s.hung = false) {binding : Option String} {stack : Stack σ}
    (h : s.execution = .awaitingIo binding stack) {delivery : Except Fault Value} {world : σ}
    {later : List (Except Fault Value × σ)}
    (hnext : s.surroundings.deliveries = (delivery, world) :: later) :
    m.advance fuel s =
      s.resumed ⟨world, later⟩ ((Execution.awaitingIo binding stack).receive delivery) := by
  simp [advance, hhung, h, hnext]

/-- An execution that waits goes on waiting if there is no delivery. -/
theorem advance_of_starved {binding : Option String} {stack : Stack σ}
    (h : s.execution = .awaitingIo binding stack) (hnext : s.surroundings.deliveries = []) :
    m.advance fuel s = s := by
  simp [advance, h, hnext]

/-- An execution that has ended stays as it is. -/
theorem advance_of_ended (h : s.execution = .done ∨ s.execution = .failed) :
    m.advance fuel s = s := by
  rcases h with h | h <;> simp [advance, h]

/-- After a step that does not return the execution is what it was. -/
theorem execution_of_hung (h : (m.advance fuel s).hung = true) :
    (m.advance fuel s).execution = s.execution := by
  by_cases hhung : s.hung = true
  · rw [advance_of_hung hhung]
  replace hhung : s.hung = false := by simpa using hhung
  -- Of all calls only a step that does not return can make the session hang.
  cases he : s.execution with
  | running stack =>
    rw [advance_of_running hhung he] at h ⊢
    cases hstep : m.step fuel (.running stack) s.surroundings.world with
    | none => exact he
    | some t => simp [hstep, Session.stepped, hhung] at h
  | awaitingIo binding stack =>
    cases hnext : s.surroundings.deliveries with
    | nil => rw [advance_of_starved he hnext, he]
    | cons first later =>
      rw [advance_of_awaiting hhung he hnext] at h
      simp [Session.resumed, hhung] at h
  | done => rw [advance_of_ended (.inl he), he]
  | failed => rw [advance_of_ended (.inr he), he]

/-- What is done on the way is done in a call on a running execution, whether it returns or not. -/
theorem stepActs_prefix_advance (hhung : s.hung = false) {stack : Stack σ}
    (h : s.execution = .running stack) :
    s.acts ++ m.registry.stepActs fuel stack s.surroundings.world <+: (m.advance fuel s).acts := by
  rw [advance_of_running hhung h]
  cases m.step fuel (.running stack) s.surroundings.world with
  | none => exact List.prefix_rfl
  | some t => exact List.prefix_append _ _

/-- A call takes back nothing of what was done, nor of what the calls came to. -/
theorem prefix_advance (m : Machine σ) (fuel : Nat) (s : Session σ) :
    s.acts <+: (m.advance fuel s).acts ∧ s.replies <+: (m.advance fuel s).replies := by
  by_cases hhung : s.hung = true
  · rw [advance_of_hung hhung]
    exact ⟨List.prefix_rfl, List.prefix_rfl⟩
  replace hhung : s.hung = false := by simpa using hhung
  cases he : s.execution with
  | running stack =>
    refine ⟨(List.prefix_append _ _).trans (stepActs_prefix_advance hhung he), ?_⟩
    rw [advance_of_running hhung he]
    cases m.step fuel (.running stack) s.surroundings.world with
    | none => exact List.prefix_rfl
    | some t => exact List.prefix_append _ _
  | awaitingIo binding stack =>
    cases hnext : s.surroundings.deliveries with
    | nil =>
      rw [advance_of_starved he hnext]
      exact ⟨List.prefix_rfl, List.prefix_rfl⟩
    | cons first later =>
      rw [advance_of_awaiting hhung he hnext]
      exact ⟨List.prefix_rfl, List.prefix_append _ _⟩
  | done =>
    rw [advance_of_ended (.inl he)]
    exact ⟨List.prefix_rfl, List.prefix_rfl⟩
  | failed =>
    rw [advance_of_ended (.inr he)]
    exact ⟨List.prefix_rfl, List.prefix_rfl⟩

/-- Each further call is made on the session after the calls before. -/
theorem sessionAfter_succ (m : Machine σ) (program : Program σ) (surroundings : Surroundings σ)
    (fuel n : Nat) : m.sessionAfter program surroundings fuel (n + 1) =
      m.advance fuel (m.sessionAfter program surroundings fuel n) :=
  Function.iterate_succ_apply' _ _ _

/-- What was done by some call is done first by every later one. -/
theorem acts_prefix_sessionAfter (m : Machine σ) (program : Program σ)
    (surroundings : Surroundings σ) (fuel : Nat) {n later : Nat} (hle : n ≤ later) :
    (m.sessionAfter program surroundings fuel n).acts <+:
      (m.sessionAfter program surroundings fuel later).acts := by
  induction hle with
  | refl => exact List.prefix_rfl
  | step _ ih =>
    rw [sessionAfter_succ]
    exact ih.trans (m.prefix_advance fuel _).1

/-- Once the execution has ended, nothing changes in the session. -/
theorem sessionAfter_of_ended (m : Machine σ) (program : Program σ)
    (surroundings : Surroundings σ) (fuel : Nat) {n later : Nat} (hle : n ≤ later)
    (hended : (m.sessionAfter program surroundings fuel n).execution = .done ∨
      (m.sessionAfter program surroundings fuel n).execution = .failed) :
    m.sessionAfter program surroundings fuel later =
      m.sessionAfter program surroundings fuel n := by
  induction hle with
  | refl => rfl
  | step _ ih => rw [sessionAfter_succ, ih, advance_of_ended hended]

/-- After a step that fails the session stays as it is left, however often it is called. -/
theorem failedFrom_of_step {m : Machine σ} {fuel : Nat} {s : Session σ} {stack : Stack σ}
    (hawake : s.hung = false) (hrunning : s.execution = .running stack) {f : Fault} {world : σ}
    (hstep : m.step fuel (.running stack) s.surroundings.world = some (.fail f world))
    {calls : Nat} (hcalls : 0 < calls) :
    s.FailedFrom (m.registry.stepActs fuel stack s.surroundings.world) f world
      ((m.advance fuel)^[calls] s) := by
  have hfirst : m.advance fuel s =
      s.stepped (m.registry.stepActs fuel stack s.surroundings.world) (.fail f world) := by
    rw [advance_of_running hawake hrunning, hstep]
  have hlater : m.advance fuel (m.advance fuel s) = m.advance fuel s :=
    advance_of_ended (.inr (by rw [hfirst]; rfl))
  obtain ⟨more, rfl⟩ := Nat.exists_eq_succ_of_ne_zero (Nat.ne_of_gt hcalls)
  rw [Function.iterate_succ_apply, Function.iterate_fixed hlater more, hfirst]
  refine ⟨rfl, rfl, rfl, ?_, rfl, List.append_nil _, rfl⟩
  simp [Session.ending, Session.stepped, Transition.fail]

end Machine

/-- Each further call under a limit is made on the session after the calls before. -/
theorem Executor.sessionUnder_succ (x : Executor σ) (limit : Option Nat) (program : Program σ)
    (surroundings : Surroundings σ) (fuel n : Nat) :
    x.sessionUnder limit program surroundings fuel (n + 1) =
      (x.limited limit).machine.advance fuel
        (x.sessionUnder limit program surroundings fuel n) :=
  Machine.sessionAfter_succ _ _ _ _ _

end EffectPrograms
