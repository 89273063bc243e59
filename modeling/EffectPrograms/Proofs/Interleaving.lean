import EffectPrograms.Proofs.Runs
import EffectPrograms.Proofs.Session
import Mathlib.Data.List.Induction
import Mathlib.Logic.Function.Basic

/-!
# Interleavings

Executions that share a world take their turns in any order. A turn is one step, or the performance
of the io that the last step asked for, or the delivery of what that io gave, so that an io is
performed once and its value delivered once, and between any two turns of one execution there may be
any number of turns of others. `Gathering.play` takes the turns that a schedule names one after
another. There is no play for a schedule that gives a turn to an execution which has ended, or to
one whose step does not return with the fuel.

A gathering also remembers whose io was performed and what was done in the step that asked for it.
So one can tell from the play alone which of two writes was the later one, whoever has asked first
(`Gathering.callers`).
-/

namespace EffectPrograms

variable {σ ι : Type}

/-- A request for an operation of an algebra is given to an interpreter. -/
def Act.isRequestTo (algebra : String) : Act σ → Bool
  | .dispatch r => r.algebra == algebra
  | _ => false

/-- One of several executions, between two of its turns. -/
inductive Party (σ : Type) where
  /-- Is stepped next. -/
  | ready (execution : Execution σ)
  /-- Waits for an io that is performed next, and what was done in the step that asked for it. -/
  | asking (execution : Execution σ) (io : Io σ) (acts : List (Act σ))
  /-- Is handed next what its io has delivered. -/
  | answered (execution : Execution σ) (delivery : Except Fault Value)
  /-- Has its result. -/
  | ended (result : Except Fault Outcome)

namespace Party

/-- The party after a step in which something was done. -/
def ofStep (acts : List (Act σ)) (t : Transition σ (Event σ)) : Party σ :=
  match t.result with
  | .ok .progress => .ready t.execution
  | .ok (.io io) => .asking t.execution io acts
  | .ok (.finished outcome) => .ended (.ok outcome)
  | .error f => .ended (.error f)

/-- The party after a delivery. -/
def ofDelivery (t : Except Fault Unit × Execution σ) : Party σ :=
  match t.1 with
  | .ok () => .ready t.2
  | .error f => .ended (.error f)

/-- The result of a party that has ended. -/
def result? : Party σ → Option (Except Fault Outcome)
  | ended result => some result
  | _ => none

/-- What was done in the step that asked for the io which is performed next, if that is next. -/
def asked? : Party σ → Option (List (Act σ))
  | asking _ _ acts => some acts
  | _ => none

/-- The io that is performed next was asked for by a request to an algebra. -/
def calls (algebra : String) (party : Party σ) : Bool :=
  party.asked?.any (·.any (Act.isRequestTo algebra))

end Party

/-- What is done in the next step of an execution. -/
def Executor.acts (x : Executor σ) (fuel : Nat) (world : σ) : Execution σ → List (Act σ)
  | .running stack => x.registry.stepActs fuel stack world
  | _ => []

/-- One turn of a party that has not ended. None if the fuel does not suffice. -/
def Executor.act (x : Executor σ) (fuel : Nat) : Party σ → σ → Option (Party σ × σ)
  | .ready e, world =>
    (x.step fuel e world).map fun t => (.ofStep (x.acts fuel world e) t, t.world)
  | .asking e io _, world =>
    let (delivery, world) := io.perform world
    some (.answered e delivery, world)
  | .answered e delivery, world => some (.ofDelivery (e.receive delivery), world)
  | .ended _, _ => none

/-- With more fuel nothing else is done in a step that returns. -/
theorem Executor.acts_of_step {x : Executor σ} {fuel more : Nat} (hle : fuel ≤ more)
    {e : Execution σ} {world : σ} {t : Transition σ (Event σ)}
    (h : x.step fuel e world = some t) : x.acts more world e = x.acts fuel world e := by
  cases e with
  | running stack =>
    simp only [acts, Registry.stepActs]
    cases hsteps : stack.top.steps with
    | nil => rfl
    | cons s rest =>
      simp only [step, hsteps] at h
      cases hresolve : x.registry.resolve fuel stack.top.env s rest world with
      | none => simp [hresolve] at h
      | some found => exact (Registry.resolve_mono hle hresolve).2
  | awaitingIo _ _ | done | failed => rfl

/-- More fuel changes neither what a turn comes to nor what is done in it. -/
theorem Executor.act_mono {x : Executor σ} {fuel more : Nat} (hle : fuel ≤ more) {party : Party σ}
    {world : σ} {t : Party σ × σ} (h : x.act fuel party world = some t) :
    x.act more party world = some t := by
  cases party with
  | ready e =>
    simp only [act, Option.map_eq_some_iff] at h ⊢
    obtain ⟨made, hstep, rfl⟩ := h
    refine ⟨made, step_mono hle hstep, ?_⟩
    rw [acts_of_step hle hstep]
  | asking _ _ _ | answered _ _ | ended _ => exact h

/-- Only a party that has not ended has a turn. -/
theorem Executor.result?_of_act {x : Executor σ} {fuel : Nat} {party : Party σ} {world : σ}
    {t : Party σ × σ} (h : x.act fuel party world = some t) : party.result? = none := by
  cases party with
  | ended result => simp [act] at h
  | ready _ | asking _ _ _ | answered _ _ => rfl

/-! ## Gatherings -/

/-- Executions with names, in one world. -/
structure Gathering (ι σ : Type) where
  party : ι → Party σ
  world : σ
  /-- Whose io was performed so far, the oldest first, and what was done in the step before. -/
  performed : List (ι × List (Act σ)) := []

namespace Gathering

/-- Programs at their start. -/
def start (programs : ι → Program σ) (world : σ) : Gathering ι σ :=
  { party := fun i => .ready (.start (programs i)), world }

/-- Whose io was performed for a request to an algebra, in the order of the performances. -/
def callers (g : Gathering ι σ) (algebra : String) : List ι :=
  (g.performed.filter fun (_, acts) => acts.any (Act.isRequestTo algebra)).map Prod.fst

/-- Every party has its result. -/
def Finished (g : Gathering ι σ) : Prop := ∀ i, (g.party i).result?.isSome

variable [DecidableEq ι]

/-- The gathering after a turn. -/
def after (g : Gathering ι σ) (i : ι) (t : Party σ × σ) : Gathering ι σ where
  party := Function.update g.party i t.1
  world := t.2
  performed := g.performed ++ ((g.party i).asked?.map (i, ·)).toList

/-- One turn. -/
def act (x : Executor σ) (fuel : Nat) (g : Gathering ι σ) (i : ι) : Option (Gathering ι σ) :=
  (x.act fuel (g.party i) g.world).map (g.after i)

/-- The turns of a schedule, one after another. -/
def play (x : Executor σ) (fuel : Nat) (g : Gathering ι σ) (schedule : List ι) :
    Option (Gathering ι σ) :=
  schedule.foldlM (act x fuel) g

variable {x : Executor σ} {fuel : Nat} {g next : Gathering ι σ} {i j : ι} {t : Party σ × σ}

/-! ## Turns -/

/-- The party whose turn it was. -/
@[simp]
theorem party_after_self (g : Gathering ι σ) (i : ι) (t : Party σ × σ) :
    (g.after i t).party i = t.1 :=
  Function.update_self _ _ _

/-- Every other party stays as it is. -/
theorem party_after_of_ne (h : j ≠ i) : (g.after i t).party j = g.party j :=
  Function.update_of_ne h _ _

/-- The world is what the turn has made of it. -/
@[simp]
theorem world_after (g : Gathering ι σ) (i : ι) (t : Party σ × σ) : (g.after i t).world = t.2 := rfl

/-- Only the performance of an io adds a caller, of what was asked for in the step before. -/
theorem callers_after (g : Gathering ι σ) (i : ι) (t : Party σ × σ) (algebra : String) :
    (g.after i t).callers algebra = g.callers algebra ++
      if (g.party i).calls algebra then [i] else [] := by
  have hcalls : (g.party i).calls algebra =
      (g.party i).asked?.any (·.any (Act.isRequestTo algebra)) := rfl
  simp only [callers, after, hcalls]
  cases (g.party i).asked? with
  | none => simp
  | some acts => by_cases h : acts.any (Act.isRequestTo algebra) = true <;> simp [h]

/-- The io of a party is performed once more if it was asked for. -/
theorem count_callers_after_self (g : Gathering ι σ) (i : ι) (t : Party σ × σ) (algebra : String) :
    ((g.after i t).callers algebra).count i = (g.callers algebra).count i +
      if (g.party i).calls algebra then 1 else 0 := by
  rw [callers_after, List.count_append]
  split <;> simp

/-- In the turn of another party it is not performed. -/
theorem count_callers_after_of_ne (h : j ≠ i) (algebra : String) :
    ((g.after i t).callers algebra).count j = (g.callers algebra).count j := by
  rw [callers_after, List.count_append]
  split <;> simp [h.symm]

/-- A further turn is taken after all turns before. -/
theorem play_append (x : Executor σ) (fuel : Nat) (g : Gathering ι σ) (schedule : List ι) (i : ι) :
    g.play x fuel (schedule ++ [i]) = (g.play x fuel schedule).bind fun g => g.act x fuel i := by
  simp only [play, List.foldlM_append, List.foldlM_cons, List.foldlM_nil, bind_pure]
  rfl

/-- What holds at the start and is kept by every turn holds after every schedule. -/
theorem play_induction {motive : List ι → Gathering ι σ → Prop} (hstart : motive [] g)
    (hact : ∀ schedule g' i next, motive schedule g' → g'.act x fuel i = some next →
      motive (schedule ++ [i]) next)
    {schedule : List ι} (h : g.play x fuel schedule = some next) : motive schedule next := by
  induction schedule using List.reverseRecOn generalizing next with
  | nil =>
    obtain rfl : g = next := Option.some.inj h
    exact hstart
  | append_singleton schedule i ih =>
    rw [play_append, Option.bind_eq_some_iff] at h
    obtain ⟨g', hplay, hturn⟩ := h
    exact hact schedule g' i next (ih hplay) hturn

end Gathering

end EffectPrograms
