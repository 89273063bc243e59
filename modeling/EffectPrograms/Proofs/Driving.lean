import EffectPrograms.Execution.Run
import EffectPrograms.Proofs.NameChecks
import Mathlib.Logic.Relation

/-!
# Driving an execution

An execution does nothing by itself. A driver steps it, hands it the values that it waits for, or
lets it run to its end, in any order, and in between anything may happen to the world. An `Exchange`
is one such call with what it came to, and `Executor.Drives` says that exchanges follow each other.

Below the calls there are only three things that can happen to an execution (`Executor.Moves`): it
makes a step, it takes a value that it waits for, or it fails because an io that was performed for
it broke its contract. A step and a delivery that come in turn are one such move. A run is a chain
of them, and ends with an outcome or a fault (`moves_of_run`).
-/

namespace EffectPrograms

variable {σ : Type}

/-! ## Calls -/

/-- What a driver may call on an execution. -/
inductive Call where
  | step
  | resume (v : Value)
  | run

/-- What a call came to. -/
inductive CallResult (σ : Type) where
  | stepped (result : Except Fault (Event σ))
  | resumed (result : Except Fault Unit)
  | ran (result : Except Fault Outcome)

/-- Where an execution stands that the call is meant for. -/
def Call.turn : Call → Status
  | .step | .run => .running
  | .resume _ => .awaitingIo

/-- What the call comes to if the execution stands elsewhere. -/
def Call.refusal (status : Status) : Call → CallResult σ
  | .step => .stepped (.error (.notRunning status))
  | .resume _ => .resumed (.error (.notRunning status))
  | .run => .ran (.error (.notRunning status))

/-- The outcome that a call hands out. -/
def CallResult.outcome? : CallResult σ → Option Outcome
  | .stepped (.ok (.finished outcome)) | .ran (.ok outcome) => some outcome
  | _ => none

/-- Nothing is handed out by a call that is refused. -/
theorem Call.outcome?_refusal (status : Status) (call : Call) :
    (call.refusal status : CallResult σ).outcome? = none := by
  cases call <;> rfl

/-- A call on an execution that has returned. -/
structure Exchange (σ : Type) where
  call : Call
  /-- The execution that the call is made on. -/
  before : Execution σ
  /-- The world that the call is made in. -/
  world : σ
  result : CallResult σ
  /-- The execution after the call. -/
  after : Execution σ
  /-- The world after the call. -/
  worldAfter : σ

/-- The execution stands where the call is meant for. -/
def Exchange.InTurn (c : Exchange σ) : Prop := c.before.status = c.call.turn

instance (c : Exchange σ) : Decidable c.InTurn :=
  inferInstanceAs (Decidable (c.before.status = c.call.turn))

/-- With enough fuel the call returns in this way. -/
inductive Executor.Returns (x : Executor σ) : Exchange σ → Prop where
  | step {fuel : Nat} {e : Execution σ} {world : σ} {t : Transition σ (Event σ)} :
      x.step fuel e world = some t →
        Returns x ⟨.step, e, world, .stepped t.result, t.execution, t.world⟩
  | resume (e : Execution σ) (v : Value) (world : σ) :
      Returns x ⟨.resume v, e, world, .resumed (e.resume v).1, (e.resume v).2, world⟩
  | run {fuel : Nat} {e : Execution σ} {world : σ} {t : Transition σ Outcome} :
      x.run fuel e world = some t →
        Returns x ⟨.run, e, world, .ran t.result, t.execution, t.world⟩

/-- Calls one after the other lead from one execution to another. -/
inductive Executor.Drives (x : Executor σ) : Execution σ → List (Exchange σ) → Execution σ → Prop
    where
  | nil (e : Execution σ) : Drives x e [] e
  | cons {c : Exchange σ} {history : List (Exchange σ)} {e : Execution σ} :
      x.Returns c → Drives x c.after history e → Drives x c.before (c :: history) e

/-! ## Calls out of turn -/

namespace Executor

variable (x : Executor σ) (fuel : Nat) {e : Execution σ} (world : σ)

/-- A step is refused where the execution is not running. -/
theorem step_refused (h : e.status ≠ .running) :
    x.step fuel e world = some ⟨.error (.notRunning e.status), e, world⟩ := by
  cases e with
  | running stack => exact absurd rfl h
  | awaitingIo _ _ | done | failed => rfl

/-- So is a run, which begins with a step. -/
theorem run_refused (h : e.status ≠ .running) :
    x.run (fuel + 1) e world = some ⟨.error (.notRunning e.status), e, world⟩ := by
  rw [run, x.step_refused fuel world h]

end Executor

/-- A value is refused by an execution that does not wait for one. -/
theorem Execution.resume_refused {e : Execution σ} (h : e.status ≠ .awaitingIo) (v : Value) :
    e.resume v = (.error (.notRunning e.status), e) := by
  cases e with
  | awaitingIo binding stack => exact absurd rfl h
  | running _ | done | failed => rfl

/-- A call out of turn is refused, and changes nothing. -/
theorem Executor.Returns.refused {x : Executor σ} {c : Exchange σ} (h : x.Returns c)
    (hturn : ¬ c.InTurn) :
    c.result = c.call.refusal c.before.status ∧ c.after = c.before ∧ c.worldAfter = c.world := by
  cases h with
  | step hstep =>
    rw [x.step_refused _ _ hturn, Option.some.injEq] at hstep
    rw [← hstep]
    exact ⟨rfl, rfl, rfl⟩
  | resume e v world =>
    rw [Execution.resume_refused hturn v]
    exact ⟨rfl, rfl, rfl⟩
  | @run fuel e world t hrun =>
    cases fuel with
    | zero => simp [Executor.run] at hrun
    | succ fuel =>
      rw [x.run_refused _ _ hturn, Option.some.injEq] at hrun
      rw [← hrun]
      exact ⟨rfl, rfl, rfl⟩

/-! ## Moves -/

/-- What can happen to an execution in one go. -/
inductive Executor.Moves (x : Executor σ) : Execution σ → Execution σ → Prop where
  /-- It makes a step. -/
  | step {stack : Stack σ} {fuel : Nat} {world : σ} {t : Transition σ (Event σ)} :
      x.step fuel (.running stack) world = some t → Moves x (.running stack) t.execution
  /-- It takes the value that it waits for. -/
  | resume {binding : Option String} {stack : Stack σ} {v : Value} {next : Execution σ} :
      (Execution.awaitingIo binding stack).resume v = (.ok (), next) →
        Moves x (.awaitingIo binding stack) next
  /-- It fails because of an io that was performed for it. -/
  | breach (binding : Option String) (stack : Stack σ) :
      Moves x (.awaitingIo binding stack) .failed

namespace Executor

variable {x : Executor σ} {e next : Execution σ} {fuel : Nat} {world : σ}

/-- A step puts the execution where its result says. -/
theorem status_of_step {stack : Stack σ} {t : Transition σ (Event σ)}
    (h : x.step fuel (.running stack) world = some t) : t.execution.status = t.status :=
  status_of_stepBy (fun _ _ _ _ => Stack.status_of_commit) (x.step_eq_stepBy ▸ h)

/-- A move leaves a sound execution. -/
theorem Moves.sound (h : x.Moves e next) (hsound : e.Sound) : next.Sound := by
  cases h with
  | step hstep => exact (step_sound hsound hstep).1
  | @resume binding stack v next hresume =>
    have hnext := (Execution.resume_sound hsound v).1
    rwa [hresume] at hnext
  | breach => exact Execution.sound_ended (.inr rfl)

/-- Whatever calls lead to, moves lead to: calls out of turn change nothing. -/
theorem Reachable.moves {program : Program σ} (h : x.Reachable program e) :
    Relation.ReflTransGen x.Moves (.start program) e := by
  induction h with
  | start => exact .refl
  | @step e fuel world t _ hstep ih =>
    by_cases hturn : e.status = .running
    · cases e with
      | running stack => exact ih.tail (.step hstep)
      | awaitingIo _ _ | done | failed => simp [Execution.status] at hturn
    · rw [x.step_refused _ _ hturn, Option.some.injEq] at hstep
      rw [← hstep]
      exact ih
  | @resume e v hreachable ih =>
    by_cases hturn : e.status = .awaitingIo
    · cases e with
      | awaitingIo binding stack =>
        have hresume := hreachable.sound.resume_awaitingIo v
        rw [hresume]
        exact ih.tail (.resume hresume)
      | running _ | done | failed => simp [Execution.status] at hturn
    · rw [Execution.resume_refused hturn v]
      exact ih

/-- A value that is taken is bound in the innermost composite, and nothing else changes. -/
theorem exists_env_of_resume {binding : Option String} {stack : Stack σ} {v : Value}
    (h : (Execution.awaitingIo binding stack).resume v = (.ok (), next)) :
    ∃ env, next = .running { stack with top := { stack.top with env } } := by
  simp only [Execution.resume] at h
  cases hbind : stack.bind binding v with
  | error f => simp [hbind] at h
  | ok bound =>
    rw [hbind] at h
    obtain ⟨env, -, rfl⟩ := Stack.bind_cases hbind
    exact ⟨env, (Prod.mk.inj h).2.symm⟩

/-- Nothing can happen to an execution that has failed. -/
theorem eq_failed_of_moves (h : Relation.ReflTransGen x.Moves .failed e) : e = .failed := by
  rcases h.cases_head with hsame | ⟨next, hmove, -⟩
  · exact hsame.symm
  · cases hmove

/-- An execution that is running has a stack. -/
theorem exists_running_of_status (h : e.status = .running) : ∃ stack, e = .running stack := by
  cases e with
  | running stack => exact ⟨stack, rfl⟩
  | awaitingIo _ _ | done | failed => simp [Execution.status] at h

/-- An execution that waits for an io has a stack and perhaps a name. -/
theorem exists_awaitingIo_of_status (h : e.status = .awaitingIo) :
    ∃ binding stack, e = .awaitingIo binding stack := by
  cases e with
  | awaitingIo binding stack => exact ⟨binding, stack, rfl⟩
  | running _ | done | failed => simp [Execution.status] at h

/-- An execution whose status says that it has failed has nothing left. -/
theorem eq_failed_of_status (h : e.status = .failed) : e = .failed := by
  cases e <;> simp [Execution.status] at h ⊢

/-- Neither has one whose status says that it is done. -/
theorem eq_done_of_status (h : e.status = .done) : e = .done := by
  cases e <;> simp [Execution.status] at h ⊢

/-- How a run goes on after its first step. The step may end it, with a fault or with the outcome,
and an io may end it that breaks its contract. Otherwise the run goes on from where one or two moves
lead. -/
theorem run_cases {stack : Stack σ} {t : Transition σ Outcome} (hsound : stack.Sound)
    (h : x.run (fuel + 1) (.running stack) world = some t) :
    (∃ made f, x.step fuel (.running stack) world = some made ∧ made.result = .error f ∧
        t = .fail f made.world ∧ x.Moves (.running stack) .failed) ∨
    (∃ outcome, t.result = .ok outcome ∧ t.execution = .done ∧ x.Moves (.running stack) .done) ∨
    (∃ (asking : Execution σ) (io : Io σ) (asked : σ) (f : Fault),
        x.Moves (.running stack) asking ∧
        io.perform asked = (.error f, t.world) ∧ t = .fail f t.world ∧ x.Moves asking .failed) ∨
    ∃ stack' world', Relation.TransGen x.Moves (.running stack) (.running stack') ∧
      stack'.Sound ∧ x.run fuel (.running stack') world' = some t := by
  rw [run] at h
  cases hstep : x.step fuel (.running stack) world with
  | none => simp [hstep] at h
  | some made =>
    have hmove := Moves.step hstep
    have hstatus := status_of_step hstep
    have hnext := hmove.sound (Execution.sound_running hsound)
    obtain ⟨result, next, world'⟩ := made
    rw [hstep] at h
    rcases result with f | (- | io | outcome)
    · obtain rfl : next = .failed := eq_failed_of_status hstatus
      exact .inl ⟨_, f, rfl, rfl, (Option.some.inj h).symm, hmove⟩
    · obtain ⟨stack', rfl⟩ := exists_running_of_status hstatus
      exact .inr (.inr (.inr ⟨stack', world', .single hmove, hnext.stack rfl, h⟩))
    · -- The io is performed at once, and delivers a value or breaks its contract.
      obtain ⟨binding, stack', rfl⟩ := exists_awaitingIo_of_status hstatus
      dsimp only [Execution.perform] at h
      rcases hperform : io.perform world' with ⟨f | v, world''⟩
      · rw [hperform] at h
        obtain rfl : _ = t := Option.some.inj h
        exact .inr (.inr (.inl ⟨_, io, world', f, hmove, hperform, rfl, .breach binding stack'⟩))
      · have hresume := hnext.resume_awaitingIo v
        have htaken := Moves.resume (x := x) hresume
        rw [hperform] at h
        dsimp only at h
        rw [hresume] at h
        exact .inr (.inr (.inr
          ⟨_, world'', .tail (.single hmove) htaken, (htaken.sound hnext).stack rfl, h⟩))
    · obtain rfl : next = .done := eq_done_of_status hstatus
      obtain rfl : _ = t := Option.some.inj h
      exact .inr (.inl ⟨outcome, rfl, rfl, hmove⟩)

/-- A run that returns is a chain of moves to an outcome or to a fault. -/
theorem moves_of_run {stack : Stack σ} {t : Transition σ Outcome} (hsound : stack.Sound)
    (h : x.run fuel (.running stack) world = some t) :
    Relation.TransGen x.Moves (.running stack) t.execution ∧
      ((∃ outcome, t.result = .ok outcome ∧ t.execution = .done) ∨
        ∃ f, t.result = .error f ∧ t.execution = .failed) := by
  induction fuel generalizing stack world with
  | zero => simp [run] at h
  | succ fuel ih =>
    rcases run_cases hsound h with ⟨made, f, -, -, rfl, hmove⟩ | ⟨outcome, hresult, hdone, hmove⟩ |
      ⟨asking, io, asked, f, hasking, -, ht, hfails⟩ | ⟨stack', world', hmoves, hsound', hrun⟩
    · exact ⟨.single hmove, .inr ⟨f, rfl, rfl⟩⟩
    · exact ⟨.single (hdone ▸ hmove), .inl ⟨outcome, hresult, hdone⟩⟩
    · rw [ht]
      exact ⟨.tail (.single hasking) hfails, .inr ⟨f, rfl, rfl⟩⟩
    · obtain ⟨hlater, hend⟩ := ih hsound' hrun
      exact ⟨hmoves.trans hlater, hend⟩

end Executor

end EffectPrograms
