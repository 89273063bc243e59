import EffectPrograms.Fault

/-!
# Side effects

An io is a side effect on a world of type `σ` that delivers one value through its completion. The
first value that is offered counts; a later offer breaks the contract and changes nothing, and so
does an effect that ends without any offer.
-/

namespace EffectPrograms

/-- What the completion of an io has received. All handles to one completion see the same state. -/
structure Completion where
  /-- The first value that was offered. -/
  received : Option Value := none

namespace Completion

/-- Whether a value has been offered. -/
def isCompleted (c : Completion) : Bool := c.received.isSome

/-- Offers a value; only the first offer is accepted. -/
def offer (c : Completion) (v : Value) : Except Fault Completion :=
  if c.isCompleted then .error (.brokenContract .completedTwice) else .ok ⟨some v⟩

/-- What the io delivers once no handle is left. -/
def deliver (c : Completion) : Except Fault Value :=
  match c.received with
  | some v => .ok v
  | none => .error (.brokenContract .neverCompleted)

/-- Only an offer to a completion without a value is accepted, and its value stays. -/
theorem offer_eq_ok_iff {c next : Completion} {v : Value} :
    c.offer v = .ok next ↔ c.received = none ∧ next.received = some v := by
  obtain ⟨received⟩ := c
  obtain ⟨other⟩ := next
  cases received <;> simp [offer, isCompleted, eq_comm]

end Completion

/-- How the value of an io arrives. -/
inductive Arrival where
  /-- With the end of the effect, and not through a handle. -/
  | direct
  /-- Through a handle, before the effect has ended. -/
  | offered
  /-- Through a handle, from elsewhere and only after the effect has given up its turn. -/
  | late
deriving DecidableEq, Repr

/-- A side effect that nothing performs before an execution is asked to. -/
structure Io (σ : Type) where
  /-- What happens to the completion and to the world. -/
  effect : Completion → σ → Completion × σ
  /-- How the value arrives, which only programs that run side by side can tell. -/
  arrival : Arrival := .offered

namespace Io

variable {σ : Type}

/-- An effect that completes with its result. -/
def ofAction (action : σ → Value × σ) : Io σ where
  effect _ world :=
    let (v, world) := action world
    (⟨some v⟩, world)

/-- Performs the effect and gives the value that it delivers. -/
def perform (io : Io σ) (world : σ) : Except Fault Value × σ :=
  let (completion, world) := io.effect {} world
  (completion.deliver, world)

end Io

end EffectPrograms
