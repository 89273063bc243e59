import EffectPrograms.Execution.Step

/-!
# Running a program to its end

`Executor.run` steps an execution, performs each io that it waits for and delivers the value, until
there is an outcome or a fault. The fuel bounds the number of steps.
-/

namespace EffectPrograms

variable {σ : Type}

/-- Performs an io and delivers its value to the execution that waits for it. An io that breaks its
contract aborts the execution. -/
def Execution.perform (execution : Execution σ) (io : Io σ) (world : σ) : Transition σ Unit :=
  match io.perform world with
  | (.ok v, world) =>
    let (result, execution) := execution.resume v
    ⟨result, execution, world⟩
  | (.error f, world) => .fail f world

namespace Executor

/-- Runs an execution to its end; none if the fuel does not suffice. -/
def run (x : Executor σ) : Nat → Execution σ → σ → Option (Transition σ Outcome)
  | 0, _, _ => none
  | fuel + 1, execution, world =>
    match x.step fuel execution world with
    | none => none
    | some ⟨.error f, execution, world⟩ => some ⟨.error f, execution, world⟩
    | some ⟨.ok .progress, execution, world⟩ => run x fuel execution world
    | some ⟨.ok (.finished outcome), execution, world⟩ => some ⟨.ok outcome, execution, world⟩
    | some ⟨.ok (.io io), execution, world⟩ =>
      match execution.perform io world with
      | ⟨.ok (), execution, world⟩ => run x fuel execution world
      | ⟨.error f, execution, world⟩ => some ⟨.error f, execution, world⟩

/-- Runs a program from its start to its end. -/
def execute (x : Executor σ) (fuel : Nat) (program : Program σ) (world : σ) :
    Option (Except Fault Outcome × σ) :=
  (x.run fuel (.start program) world).map fun t => (t.result, t.world)

/-- Runs a program and hands its outcome over; a fault is the answer and is not handed over. -/
def executeWith (x : Executor σ) (fuel : Nat) (program : Program σ)
    (onOutcome : Outcome → σ → σ) (world : σ) : Option (Except Fault Unit × σ) :=
  (x.execute fuel program world).map fun
    | (.ok outcome, world) => (.ok (), onOutcome outcome world)
    | (.error f, world) => (.error f, world)

end Executor

end EffectPrograms
