import EffectPrograms.Execution.Run
import EffectPrograms.Proofs.Remainder
import EffectPrograms.Proofs.Session

/-!
# Failures of handlers

A failure passes through several layers on its way out: the adapter around the handler, the
fan-outs around the table or typed function, the dispatch with whatever replacement was asked for,
and the step. Only the first of them puts it as a fault (`Failure.toFault`); the others hand it on
as it is (`Interpreter.interpret_of_failure`). The request that the fault names is the one the
handler was asked for, which is the last of a chain of requests that answer each other.
-/

namespace EffectPrograms

variable {σ : Type}

/-! ## What a failure is put as -/

namespace Failure

/-- A fault that the handler met comes out as it is, whatever was said about it. -/
theorem toFault_of_fault {e : Failure} {f : Fault} (h : e.cause = .fault f) (r : Request) :
    e.toFault r = f := by
  obtain ⟨cause, contexts⟩ := e
  obtain rfl : cause = .fault f := h
  rfl

/-- A reason of the handler's own comes out once, with the request that the handler was asked for.
Behind what was said about it last stands everything else that was, and the reason at the end. -/
theorem toFault_of_stated {e : Failure} {reason : String} (h : e.cause = .stated reason)
    (r : Request) :
    ∃ outer inner, e.toFault r = .handlerFailed r.algebra r.operation outer inner ∧
      outer :: inner = e.contexts ++ [reason] := by
  obtain ⟨cause, contexts⟩ := e
  obtain rfl : cause = .stated reason := h
  cases contexts with
  | nil => exact ⟨reason, [], rfl, rfl⟩
  | cons outer inner => exact ⟨outer, inner ++ [reason], rfl, rfl⟩

end Failure

/-! ## Through fan-outs -/

namespace Interpreter

variable {r : Request} {asked : Interpreter σ × Pass σ} {h : Handling σ (Answer σ)} {e : Failure}
  {last : Pass σ}

/-- A table or a typed function fails if its handler does. -/
theorem interpret_of_handler_failure (hhandling : asked.1.handling? r = some h)
    (hfails : h asked.2 = (.error e, last)) :
    asked.1.interpret r asked.2 = (.error (e.toFault r), last) := by
  rw [interpret_of_handling hhandling, Handling.dispatching_apply, hfails]
  rfl

mutual

/-- An interpreter fails with the failure of a handler that it asks in the end. -/
theorem interpret_of_failure (hhandling : asked.1.handling? r = some h)
    (hfails : h asked.2 = (.error e, last)) (i : Interpreter σ) {pass : Pass σ}
    (hasked : asked ∈ i.consulted r pass) :
    i.interpret r pass = (.error (e.toFault r), last) := by
  cases i with
  | table algebra handlers =>
    obtain rfl : asked = (.table algebra handlers, pass) := by simpa [consulted] using hasked
    exact interpret_of_handler_failure hhandling hfails
  | typed algebra handle =>
    obtain rfl : asked = (.typed algebra handle, pass) := by simpa [consulted] using hasked
    exact interpret_of_handler_failure hhandling hfails
  | fanOut algebra name branches =>
    rw [consulted] at hasked
    exact (failInTurn_of_failure hhandling hfails branches hasked).interpret_fanOut

/-- Of several interpreters the one fails that asks it, after those before it have answered. -/
theorem failInTurn_of_failure (hhandling : asked.1.handling? r = some h)
    (hfails : h asked.2 = (.error e, last)) (branches : List (Interpreter σ)) {pass : Pass σ}
    (hasked : asked ∈ consultedEach r branches pass) :
    FailInTurn r branches pass (e.toFault r) last := by
  cases branches with
  | nil => simp [consultedEach] at hasked
  | cons branch later =>
    have hfirst := fun hhere : asked ∈ branch.consulted r pass =>
      interpret_of_failure hhandling hfails branch hhere
    rcases hanswer : branch.interpret r pass with ⟨f | answer, next⟩
    · rw [consultedEach_cons_of_error hanswer] at hasked
      exact ⟨[], branch, later, [], pass, rfl, .nil pass, hfirst hasked⟩
    · rw [consultedEach_cons_of_ok hanswer] at hasked
      rcases List.mem_append.1 hasked with hhere | hlater
      · -- A branch that answers asks no handler that fails.
        cases hanswer.symm.trans (hfirst hhere)
      · obtain ⟨earlier, failing, rest, answers, before, rfl, hturn, hfail⟩ :=
          failInTurn_of_failure hhandling hfails later hlater
        exact ⟨branch :: earlier, failing, rest, answer :: answers, before, rfl,
          .cons hanswer hturn, hfail⟩

end

end Interpreter

/-! ## Through a step -/

/-- A handler fails that is asked for a step: the step comes to a request, and of those that the
interpreter of its algebra asks in the end, through any number of fan-outs, one runs a handler that
fails. -/
inductive Registry.HandlerFails (registry : Registry σ) (env : Environment) (s : Step σ)
    (rest : List (Step σ)) (world : σ) : List (Act σ) → Request → Failure → σ → Prop where
  | asked {binding : Option String} {r : Request} {rest' : List (Step σ)} {world' : σ}
      {acts : List (Act σ)} {i : Interpreter σ} {asked : Interpreter σ × Pass σ}
      {h : Handling σ (Answer σ)} {e : Failure} {last : Pass σ} :
      registry.ComesTo env s rest world binding r rest' world' acts →
        registry.find? r.algebra = some i → asked ∈ i.consulted r { world := world' } →
          asked.1.handling? r = some h → h asked.2 = (.error e, last) →
            HandlerFails registry env s rest world acts r e last.world

namespace Executor

/-- A failure of a handler surfaces once and names the request that the handler was asked for,
through however many fan-outs and after however many requests that answer each other. The step of
the execution fails with what the failure is put as, and so does a run from there. Nothing is left
of the execution then, so that a replacement that was asked for is gone with it, and no later call
brings an outcome.

A fault that the handler met is put as it is, under any number of contexts. Any other failure is put
as one of the handler for that request: the contexts, the outermost first, and then the reason. -/
theorem failure_surfaces (x : Executor σ) {s : Session σ} {stack : Stack σ} {step : Step σ}
    {rest : List (Step σ)} (hawake : s.hung = false) (hrunning : s.execution = .running stack)
    (hsteps : stack.top.steps = step :: rest) {acts : List (Act σ)} {r : Request} {e : Failure}
    {last : σ}
    (hfails : x.registry.HandlerFails stack.top.env step rest s.surroundings.world acts r e last) :
    (∃ n, ∀ fuel ≥ n,
      (∀ calls > 0, s.FailedFrom (acts ++ [.dispatch r, .raise (e.toFault r)]) (e.toFault r) last
        ((x.machine.advance fuel)^[calls] s)) ∧
      x.run (fuel + 1) (.running stack) s.surroundings.world =
        some (.fail (e.toFault r) last)) ∧
    (∀ f, e.cause = .fault f → e.toFault r = f) ∧
    ∀ reason, e.cause = .stated reason →
      ∃ outer inner, e.toFault r = .handlerFailed r.algebra r.operation outer inner ∧
        outer :: inner = e.contexts ++ [reason] := by
  refine ⟨?_, fun f hf => Failure.toFault_of_fault hf r,
    fun reason hreason => Failure.toFault_of_stated hreason r⟩
  obtain ⟨hcomes, hfind, hasked, hhandling, hhandler⟩ := hfails
  obtain ⟨n, hn⟩ := x.step_of_interpret_error hsteps hcomes hfind
    (Interpreter.interpret_of_failure hhandling hhandler _ hasked)
  refine ⟨n, fun fuel hfuel => ?_⟩
  obtain ⟨hstep, hacts⟩ := hn fuel hfuel
  refine ⟨fun calls hcalls => ?_, ?_⟩
  · rw [← hacts]
    exact x.machine.failedFrom_of_step hawake hrunning hstep hcalls
  · rw [run, hstep]
    rfl

end Executor

/-! ## An example of two failures -/

/-- A letter is lost, for a reason of the carrier's own or for a fault that it met. -/
def Failure.lost (cause : Cause) : Failure :=
  (Failure.within { cause } "on the train").within "abroad"

/-- A carrier that asks for other steps and loses the letter. -/
def Handler.losing (cause : Cause) : Handler Unit := fun _ => do
  Handling.replaceRemainder [.returning (.bool true)]
  throw (.lost cause)

/-- Letters are handed on to three carriers, the last two of them below a fan-out of their own. The
second one loses them. -/
def Registry.post (cause : Cause) : Registry Unit :=
  ⟨[.table "post" [("send", fun _ => do
      Handling.replaceRemainder []
      return .operation (.request ⟨"mail", "carry", []⟩))],
    .fanOut "mail" "last" [
      .table "mail" [("carry", fun _ => pure .unit)],
      .fanOut "mail" "last" [
        .table "mail" [("carry", .losing cause)],
        .table "mail" [("carry", fun _ => pure .unit)]]]]⟩

/-- Sends a letter, and then does nothing. -/
def Program.posting : Program Unit := [.bind "sent" (.request ⟨"post", "send", []⟩), .composite []]

/-- Runs programs over the post. -/
def Executor.posting (cause : Cause) : Executor Unit := { registry := .post cause }

/-- A carrier is asked for the first step who loses the letter. -/
theorem Registry.post_handlerFails (cause : Cause) :
    (Registry.post cause).HandlerFails .empty (.bind "sent" (.request ⟨"post", "send", []⟩))
      [.composite []] () [.dispatch ⟨"post", "send", []⟩] ⟨"mail", "carry", []⟩ (.lost cause)
      () := by
  have hloses : Handler.losing cause ⟨"mail", "carry", []⟩ { world := () } =
      (.error (.lost cause), { replacement := some [.returning (.bool true)], world := () }) := rfl
  exact .asked (.answered (.unwrapped rfl) rfl) rfl
    (List.mem_of_getElem? (rfl : (Interpreter.consulted _ _ _)[1]? = some _)) rfl hloses

/-- The failure names the request that the carrier was asked for and not the one that the program
makes, and comes out of two fan-outs with its contexts once. A fault that the carrier met comes out
without them. -/
theorem Executor.failure_surfaces_post :
    (∃ n, ∀ fuel ≥ n, ∀ calls > 0,
      (Session.start .posting ⟨(), []⟩).FailedFrom
        [.dispatch ⟨"post", "send", []⟩, .dispatch ⟨"mail", "carry", []⟩,
          .raise (.handlerFailed "mail" "carry" "abroad" ["on the train", "no wagon"])]
        (.handlerFailed "mail" "carry" "abroad" ["on the train", "no wagon"]) ()
        (((posting (.stated "no wagon")).machine.advance fuel)^[calls]
          (.start .posting ⟨(), []⟩))) ∧
    ∃ n, ∀ fuel ≥ n, ∀ calls > 0,
      (Session.start .posting ⟨(), []⟩).FailedFrom
        [.dispatch ⟨"post", "send", []⟩, .dispatch ⟨"mail", "carry", []⟩,
          .raise (.noArgument "mail" "carry" "stamp")]
        (.noArgument "mail" "carry" "stamp") ()
        (((posting (.fault (.noArgument "mail" "carry" "stamp"))).machine.advance fuel)^[calls]
          (.start .posting ⟨(), []⟩)) := by
  obtain ⟨⟨n, hn⟩, -, -⟩ := (posting (.stated "no wagon")).failure_surfaces
    (s := .start .posting ⟨(), []⟩) rfl rfl rfl (Registry.post_handlerFails _)
  obtain ⟨⟨m, hm⟩, -, -⟩ := (posting (.fault (.noArgument "mail" "carry" "stamp"))).failure_surfaces
    (s := .start .posting ⟨(), []⟩) rfl rfl rfl (Registry.post_handlerFails _)
  exact ⟨⟨n, fun fuel hfuel => (hn fuel hfuel).1⟩, ⟨m, fun fuel hfuel => (hm fuel hfuel).1⟩⟩

end EffectPrograms
