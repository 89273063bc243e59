import EffectPrograms.Execution.Run

/-!
# Running programs side by side

Several programs share one executor and one world. They take turns in a fixed order, one turn each a
round. A turn lasts until the program is finished or waits for an io; if the settings ask for it,
also no longer than the next step that only makes progress. A program waits for an io that is late,
and, so that no round lasts for ever, for one whose value arrives through a handle when the round
has delivered as many of these as it may.

The value of a late io is on its way while the others take one more turn each. When no other program
can go on, there is nothing to wait for, and it arrives at once.
-/

namespace EffectPrograms

/-- A program among others, between two turns. -/
inductive Job (σ : Type) where
  /-- Goes on with the next step. -/
  | ready (execution : Execution σ)
  /-- Goes on with what an io delivers. -/
  | waiting (execution : Execution σ) (delivery : Except Fault Value)
  /-- Cannot go on before what a late io delivers has arrived. -/
  | expecting (execution : Execution σ) (delivery : Except Fault Value)
  /-- Has its result. -/
  | finished (result : Except Fault Outcome)

/-- A round, between two steps. -/
structure Round (σ : Type) where
  world : σ
  /-- How many more values that arrive through a handle may be delivered. -/
  allowance : Nat

variable {σ : Type}

namespace Job

/-- The result of a job that is finished. -/
def result? : Job σ → Option (Except Fault Outcome)
  | finished result => some result
  | _ => none

/-- Whether the job makes use of its turn. -/
def canGoOn : Job σ → Bool
  | ready _ | waiting _ _ => true
  | expecting _ _ | finished _ => false

/-- The job after what it expects has arrived. -/
def arrive : Job σ → Job σ
  | expecting execution delivery => waiting execution delivery
  | other => other

/-- The jobs at the start of a round: if none of them can go on, what they expect arrives. -/
def settle (jobs : List (Job σ)) : List (Job σ) :=
  if jobs.any canGoOn then jobs else jobs.map arrive

end Job

/-- The start of a round, which may deliver 128 values through handles. -/
def Round.start (world : σ) : Round σ := { world, allowance := 128 }

/-- The round after it delivered a value that arrived through a handle, if it still may. -/
def Round.deliver? (round : Round σ) : Option (Round σ) :=
  match round.allowance with
  | 0 => none
  | allowance + 1 => some { round with allowance }

/-- The execution after what an io delivers. -/
def Execution.deliver (execution : Execution σ) (delivery : Except Fault Value) :
    Except Fault (Execution σ) := do
  let (result, execution) := execution.resume (← delivery)
  result
  return execution

namespace Executor

/-- Steps an execution until its turn ends; none if the fuel does not suffice. -/
def advance (x : Executor σ) : Nat → Execution σ → Round σ → Option (Job σ × Round σ)
  | 0, _, _ => none
  | fuel + 1, execution, round =>
    match x.step fuel execution round.world with
    | none => none
    | some ⟨.error f, _, world⟩ => some (.finished (.error f), { round with world })
    | some ⟨.ok (.finished outcome), _, world⟩ =>
      some (.finished (.ok outcome), { round with world })
    | some ⟨.ok .progress, execution, world⟩ =>
      if x.settings.yieldBetweenSteps then some (.ready execution, { round with world })
      else advance x fuel execution { round with world }
    | some ⟨.ok (.io io), execution, world⟩ =>
      let (delivery, world) := io.perform world
      let round := { round with world }
      let goOn (round : Round σ) :=
        match execution.deliver delivery with
        | .ok execution => advance x fuel execution round
        | .error f => some (.finished (.error f), round)
      match io.arrival, round.deliver? with
      | .direct, _ => goOn round
      | .offered, some round => goOn round
      | .offered, none => some (.waiting execution delivery, round)
      | .late, _ => some (.expecting execution delivery, round)

/-- One turn of a job. -/
def turn (x : Executor σ) (fuel : Nat) (job : Job σ) (round : Round σ) :
    Option (Job σ × Round σ) :=
  match job with
  | .ready execution => x.advance fuel execution round
  | .waiting execution delivery =>
    match round.deliver? with
    | none => some (job, round)
    | some round =>
      match execution.deliver delivery with
      | .ok execution => x.advance fuel execution round
      | .error f => some (.finished (.error f), round)
  | .expecting _ _ => some (job.arrive, round)
  | .finished _ => some (job, round)

/-- One turn of every job, in order. -/
def turns (x : Executor σ) (fuel : Nat) : List (Job σ) → Round σ → Option (List (Job σ) × Round σ)
  | [], round => some ([], round)
  | job :: rest, round => do
    let (job, round) ← x.turn fuel job round
    let (rest, round) ← turns x fuel rest round
    return (job :: rest, round)

/-- Rounds until every job is finished; none if the fuel does not suffice. -/
def finish (x : Executor σ) : Nat → List (Job σ) → σ → Option (List (Except Fault Outcome) × σ)
  | 0, _, _ => none
  | fuel + 1, jobs, world =>
    match jobs.mapM Job.result? with
    | some results => some (results, world)
    | none => do
      let (jobs, round) ← x.turns fuel (Job.settle jobs) (.start world)
      finish x fuel jobs round.world

/-- Runs programs side by side to their ends. -/
def executeAll (x : Executor σ) (fuel : Nat) (programs : List (Program σ)) (world : σ) :
    Option (List (Except Fault Outcome) × σ) :=
  x.finish fuel (programs.map fun program => .ready (.start program)) world

end Executor

end EffectPrograms
