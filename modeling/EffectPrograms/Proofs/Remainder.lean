import EffectPrograms.Files.Backends
import EffectPrograms.Proofs.Dialogue
import EffectPrograms.Proofs.Steps

/-!
# What a dispatch changes

Between the moment when a step is taken from its composite and the moment when it is carried out,
interpreters are asked, one request in the place of the other. All that this can change in the
execution are the steps that are left of the composite. `Registry.Chain` lists the requests with the
calls in which their handlers asked for other steps, and `Registry.Performs` adds the step that it
begins with. Each dispatch hands on what its last call asked for, if there was one, so the last call
of the whole chain decides (`Registry.Chain.follow`), and what the step comes to is carried out on a
stack where nothing else is different (`Stack.Concludes`).
-/

namespace EffectPrograms

variable {σ : Type}

/-! ## Where a chain of requests ends -/

/-- A request of a chain, with the steps that were asked for in each call during its dispatch. -/
structure Dispatched (σ : Type) where
  request : Request
  calls : List (List (Step σ))

/-- The steps that the last call of a chain asked for, or those that were there if there was no
call. -/
def remainderAfter (chain : List (Dispatched σ)) (rest : List (Step σ)) : List (Step σ) :=
  (chain.flatMap Dispatched.calls).getLast?.getD rest

/-- The later requests have the last word. -/
theorem remainderAfter_cons (first : Dispatched σ) (later : List (Dispatched σ))
    (rest : List (Step σ)) :
    remainderAfter (first :: later) rest =
      remainderAfter later (first.calls.getLast?.getD rest) := by
  rw [remainderAfter, List.flatMap_cons, List.getLast?_append, Option.getD_or]
  rfl

namespace Registry

variable {registry : Registry σ} {env : Environment} {s : Step σ} {rest : List (Step σ)}
  {world last : σ} {r : Request} {calls : List (List (Step σ))} {chain : List (Dispatched σ)}
  {verdict : Verdict σ}

/-- The calls that are made while a request is dispatched, by whoever is consulted about it. -/
def Calls (registry : Registry σ) (r : Request) (world : σ) (calls : List (List (Step σ))) : Prop :=
  ∃ i made, registry.find? r.algebra = some i ∧
    (∀ asked ∈ i.consulted r { world }, Interpreter.MakesCalls r asked (made asked)) ∧
    calls = (i.consulted r { world }).flatMap made

/-- A dispatch that succeeds hands on what its last call asked for. -/
theorem Calls.replacement_eq (h : registry.Calls r world calls) {answer : Answer σ}
    {replacement : Option (List (Step σ))}
    (hdispatch : registry.dispatch r world = (.ok (answer, replacement), last)) :
    replacement = calls.getLast? := by
  obtain ⟨i, made, hfind, hmade, rfl⟩ := h
  have hleft := Interpreter.replacement_of_makesCalls i { world } hmade
  rw [dispatch, hfind] at hdispatch
  rcases hinterpret : i.interpret r { world } with ⟨f | given, pass⟩
  · simp [hinterpret, Except.map] at hdispatch
  · rw [hinterpret] at hleft
    obtain ⟨⟨-, rfl⟩, -⟩ :
        (given = answer ∧ pass.replacement = replacement) ∧ pass.world = last := by
      simpa [hinterpret, Except.map] using hdispatch
    simpa using hleft

/-- Requests that are dispatched one in the place of the other, up to an answer that is none. -/
inductive Chain (registry : Registry σ) :
    Request → σ → List (Dispatched σ) → Verdict σ → σ → Prop where
  | last {r : Request} {world world' : σ} {calls : List (List (Step σ))} {answer : Answer σ}
      {replacement : Option (List (Step σ))} {verdict : Verdict σ} :
      registry.Calls r world calls →
        registry.dispatch r world = (.ok (answer, replacement), world') →
          answer.verdict? = some verdict → Chain registry r world [⟨r, calls⟩] verdict world'
  | next {r later : Request} {world world' last : σ} {calls : List (List (Step σ))}
      {replacement : Option (List (Step σ))} {chain : List (Dispatched σ)} {verdict : Verdict σ} :
      registry.Calls r world calls →
        registry.dispatch r world = (.ok (.operation (.request later), replacement), world') →
          Chain registry later world' chain verdict last →
            Chain registry r world (⟨r, calls⟩ :: chain) verdict last

/-- Following a request comes to where its chain ends, with what its last call asked for. -/
theorem Chain.follow (h : registry.Chain r world chain verdict last) {fuel : Nat}
    (hfuel : chain.length ≤ fuel) (rest : List (Step σ)) :
    registry.follow fuel r rest world = some (.ok (verdict, remainderAfter chain rest), last) ∧
      registry.acts fuel r world = chain.map fun dispatched => .dispatch dispatched.request := by
  -- The rest is generalized, since each dispatch hands on another one.
  induction h generalizing fuel rest with
  | @last r world world' calls answer replacement verdict hcalls hdispatch hverdict =>
    obtain ⟨fuel, rfl⟩ : ∃ n, fuel = n + 1 := ⟨fuel - 1, by simp at hfuel; omega⟩
    obtain rfl := hcalls.replacement_eq hdispatch
    obtain ⟨hfollow, hacts⟩ := follow_of_verdict hdispatch hverdict fuel rest
    rw [hfollow, hacts]
    simp [remainderAfter]
  | @next r later world world' last calls replacement chain verdict hcalls hdispatch _ ih =>
    obtain ⟨fuel, rfl⟩ : ∃ n, fuel = n + 1 := ⟨fuel - 1, by simp at hfuel; omega⟩
    obtain rfl := hcalls.replacement_eq hdispatch
    obtain ⟨hfirst, hdispatched⟩ := follow_of_request hdispatch fuel rest
    obtain ⟨hfollow, hacts⟩ := ih (Nat.le_of_succ_le_succ hfuel) (calls.getLast?.getD rest)
    rw [remainderAfter_cons, hfirst, hfollow, hdispatched, hacts]
    exact ⟨rfl, rfl⟩

/-- A dispatch that succeeds makes some calls, if all handlers are dialogues. -/
theorem exists_calls (hscripted : ∀ i ∈ registry.interpreters, i.Scripted)
    {found : Answer σ × Option (List (Step σ))}
    (hdispatch : registry.dispatch r world = (.ok found, last)) :
    ∃ calls, registry.Calls r world calls := by
  obtain ⟨i, hfind⟩ := Option.ne_none_iff_exists'.1 (find?_ne_none_of_dispatch hdispatch)
  have hmakes := (hscripted i (List.mem_of_find?_eq_some hfind)).makesCalls r { world }
  choose! made hmade using hmakes
  exact ⟨_, i, made, hfind, hmade, rfl⟩

/-- A request that is followed to its end has a chain. -/
theorem exists_chain (hscripted : ∀ i ∈ registry.interpreters, i.Scripted) {fuel : Nat}
    {rest' : List (Step σ)}
    (h : registry.follow fuel r rest world = some (.ok (verdict, rest'), last)) :
    ∃ chain, registry.Chain r world chain verdict last := by
  induction fuel generalizing r rest world with
  | zero => simp [follow] at h
  | succ fuel ih =>
    rcases follow_succ_cases h with
      ⟨f, -, hresult⟩ | ⟨answer, _, _, hdispatch, hverdict, hresult⟩ |
      ⟨later, _, _, hdispatch, hlater⟩
    · simp at hresult
    · obtain ⟨rfl, -⟩ := Prod.mk.inj (Except.ok.inj hresult)
      obtain ⟨calls, hcalls⟩ := exists_calls hscripted hdispatch
      exact ⟨_, .last hcalls hdispatch hverdict⟩
    · obtain ⟨calls, hcalls⟩ := exists_calls hscripted hdispatch
      obtain ⟨chain, hchain⟩ := ih hlater
      exact ⟨_, .next hcalls hdispatch hchain⟩

/-- A step is performed up to where it is carried out: it is unwrapped to an operation under a name,
and if that is a request, there is a chain of requests that begins with it. -/
inductive Performs (registry : Registry σ) (env : Environment) (s : Step σ) (world : σ)
    (binding : Option String) : List (Dispatched σ) → Verdict σ → σ → Prop where
  | plain {o : Operation σ} {verdict : Verdict σ} {last : σ} :
      s.unwrap env none world = (.ok (binding, o), last) → o.verdict? = some verdict →
        Performs registry env s world binding [] verdict last
  | asked {r : Request} {chain : List (Dispatched σ)} {verdict : Verdict σ} {world' last : σ} :
      s.unwrap env none world = (.ok (binding, .request r), world') →
        registry.Chain r world' chain verdict last →
          Performs registry env s world binding chain verdict last

/-- Resolving a step comes to what it is performed up to, with what the last call asked for. -/
theorem Performs.resolve {binding : Option String}
    (h : registry.Performs env s world binding chain verdict last) {fuel : Nat}
    (hfuel : chain.length ≤ fuel) (rest : List (Step σ)) :
    registry.resolve fuel env s rest world =
        some (.ok ⟨binding, verdict, remainderAfter chain rest⟩, last) ∧
      registry.resolveActs fuel env s world =
        s.acts env none world ++ chain.map fun dispatched => .dispatch dispatched.request := by
  cases h with
  | plain hunwrap hverdict =>
    obtain ⟨hresolve, hacts⟩ :=
      registry.resolve_of_verdict hunwrap hverdict fuel rest
    rw [hresolve, hacts]
    exact ⟨rfl, (List.append_nil _).symm⟩
  | asked hunwrap hchain =>
    obtain ⟨hfollow, hacts⟩ := hchain.follow hfuel rest
    obtain ⟨hresolve, hmore⟩ := registry.resolve_of_request hunwrap fuel rest
    rw [hresolve, hmore, hfollow, hacts]
    exact ⟨rfl, rfl⟩

/-- A step that is resolved is performed in some way, if all handlers are dialogues. -/
theorem exists_performs (hscripted : ∀ i ∈ registry.interpreters, i.Scripted) {fuel : Nat}
    {x : Resolution σ} (h : registry.resolve fuel env s rest world = some (.ok x, last)) :
    ∃ chain, registry.Performs env s world x.binding chain x.verdict last := by
  obtain ⟨o, between, hunwrap, hoperation⟩ := resolve_eq_ok h
  rcases o.verdict?_cases with ⟨verdict, hverdict⟩ | ⟨r, rfl⟩
  · rw [resolveOperation_of_verdict hverdict] at hoperation
    obtain ⟨hfound, rfl⟩ := Prod.mk.inj (Option.some.inj hoperation)
    obtain ⟨rfl, -⟩ := Prod.mk.inj (Except.ok.inj hfound)
    exact ⟨[], .plain hunwrap hverdict⟩
  · obtain ⟨chain, hchain⟩ := exists_chain hscripted hoperation
    exact ⟨chain, .asked hunwrap hchain⟩

end Registry

/-! ## What is carried out -/

/-- What becomes of an execution when a step has come to a verdict, from its stack at that time: a
value is bound, the innermost composite is left, the execution waits, or a composite is opened. -/
inductive Stack.Concludes (limit : Option Nat) (stack : Stack σ) (binding : Option String) :
    Verdict σ → Event σ → Execution σ → Prop where
  | value {v : Value} {bound : Stack σ} : stack.bind binding v = .ok bound →
      Concludes limit stack binding (.value v) .progress (.running bound)
  | escape {v : Value} {event : Event σ} {next : Execution σ} :
      stack.leave (some v) = .ok (event, next) →
        Concludes limit stack binding (.escape v) event next
  | suspend (io : Io σ) :
      Concludes limit stack binding (.suspend io) (.io io) (.awaitingIo binding stack)
  | enter {steps : List (Step σ)} {entered : Stack σ} :
      stack.enter limit binding steps = .ok entered →
        Concludes limit stack binding (.enter steps) .progress (.running entered)

/-- What a step came to is carried out with the steps that were left then, and on a stack that is
otherwise the same. -/
theorem Stack.concludes_of_commit {limit : Option Nat} {stack : Stack σ} {x : Resolution σ}
    {event : Event σ} {next : Execution σ} (h : stack.commit limit x = .ok (event, next)) :
    Stack.Concludes limit ⟨{ stack.top with steps := x.rest }, stack.below⟩ x.binding x.verdict
      event next := by
  rcases commit_cases h with ⟨v, bound, hverdict, hbind, rfl, rfl⟩ | ⟨v, hverdict, hleave⟩ |
    ⟨io, hverdict, rfl, rfl⟩ | ⟨steps, entered, hverdict, henter, rfl, rfl⟩
  · rw [hverdict]
    exact .value hbind
  · rw [hverdict]
    exact .escape hleave
  · rw [hverdict]
    exact .suspend io
  · rw [hverdict]
    exact .enter henter

namespace Executor

variable (x : Executor σ) {stack : Stack σ} {s : Step σ} {rest : List (Step σ)} {world : σ}

/-- A step that does not fail carries out what it is performed up to, with the steps that the last
call asked for. -/
theorem concludes_of_step (hscripted : ∀ i ∈ x.registry.interpreters, i.Scripted)
    (hsteps : stack.top.steps = s :: rest) {fuel : Nat} {event : Event σ} {next : Execution σ}
    {last : σ} (h : x.step fuel (.running stack) world = some ⟨.ok event, next, last⟩) :
    (∃ binding chain verdict,
      x.registry.Performs stack.top.env s world binding chain verdict last) ∧
    ∀ binding chain verdict last',
      x.registry.Performs stack.top.env s world binding chain verdict last' →
        last' = last ∧
        x.registry.stepActs fuel stack world = s.acts stack.top.env none world ++
          chain.map (fun dispatched => .dispatch dispatched.request) ∧
        Stack.Concludes x.settings.maxDepth
          ⟨{ stack.top with steps := remainderAfter chain rest }, stack.below⟩ binding verdict
          event next := by
  rw [step_eq_stepBy] at h
  rcases stepBy_cases h with ⟨hnil, -⟩ |
    ⟨s', rest', hcons, ⟨f, world', -, hfail⟩ | ⟨resolution, world', hresolve, hcommitted⟩⟩
  · simp [hsteps] at hnil
  · simp [Transition.fail] at hfail
  obtain ⟨rfl, rfl⟩ : s = s' ∧ rest = rest' := by simpa [hsteps] using hcons
  rcases hcommit : stack.commit x.settings.maxDepth resolution with f | ⟨event', next'⟩
  · simp [hcommit, Transition.ofResult, Transition.fail] at hcommitted
  obtain ⟨rfl, rfl, rfl⟩ : event = event' ∧ next = next' ∧ last = world' := by
    simpa [hcommit, Transition.ofResult] using hcommitted
  refine ⟨?_, fun binding chain verdict last' hperforms => ?_⟩
  · obtain ⟨chain, hperforms⟩ := Registry.exists_performs hscripted hresolve
    exact ⟨_, chain, _, hperforms⟩
  -- With more fuel the step comes to the same, and to what the chain comes to.
  obtain ⟨hchain, hacts⟩ := hperforms.resolve (Nat.le_max_right fuel chain.length) rest
  obtain ⟨hmore, hmoreActs⟩ := Registry.resolve_mono (Nat.le_max_left fuel chain.length) hresolve
  obtain ⟨hresolution, hlast⟩ := Prod.mk.inj (Option.some.inj (hchain.symm.trans hmore))
  obtain rfl := Except.ok.inj hresolution
  refine ⟨hlast, ?_, Stack.concludes_of_commit hcommit⟩
  rw [x.registry.stepActs_of_steps hsteps, ← hacts, hmoreActs]

/-- A step in which an interpreter fails leaves nothing. -/
theorem step_of_interpret_error (hsteps : stack.top.steps = s :: rest) {binding : Option String}
    {r : Request} {rest' : List (Step σ)} {world' : σ} {acts : List (Act σ)} {i : Interpreter σ}
    {f : Fault} {pass : Pass σ}
    (hcomes : x.registry.ComesTo stack.top.env s rest world binding r rest' world' acts)
    (hfind : x.registry.find? r.algebra = some i)
    (hinterpret : i.interpret r { world := world' } = (.error f, pass)) :
    ∃ n, ∀ fuel ≥ n, x.step fuel (.running stack) world = some (.fail f pass.world) ∧
      x.registry.stepActs fuel stack world = acts ++ [.dispatch r, .raise f] := by
  have hdispatch : x.registry.dispatch r world' = (.error f, pass.world) := by
    simp [Registry.dispatch, hfind, hinterpret, Except.map]
  have hacts : x.registry.acts 1 r world' = [.dispatch r, .raise f] := by
    rw [Registry.acts, hfind, hdispatch]
  rw [← hacts]
  exact x.step_of_dispatch_error hsteps hcomes hdispatch

/-- A dispatch changes nothing but the steps that are left of the composite. In a step that does not
fail, interpreters are asked for a chain of requests, each of which is the answer to the one before.
At its end the name to bind under is that of the step, and the stack that its last answer is carried
out on differs from the one that the step was taken from only in the steps that are left in the
innermost composite. They are those that the last call of all handlers in the chain asked for,
whichever request it was made for and in whichever branch of a fan-out, and the old ones if there
was no call. If an interpreter fails, then so does the execution, and whatever was asked for before
is gone with it. Handlers which overwrite the capability that they are lent instead of calling it
are left out. -/
theorem remainder_exact (hscripted : ∀ i ∈ x.registry.interpreters, i.Scripted) {stack : Stack σ}
    {s : Step σ} {rest : List (Step σ)} (hsteps : stack.top.steps = s :: rest) (world : σ) :
    (∀ fuel event next last,
      x.step fuel (.running stack) world = some ⟨.ok event, next, last⟩ →
        (∃ binding chain verdict,
          x.registry.Performs stack.top.env s world binding chain verdict last) ∧
        ∀ binding chain verdict last',
          x.registry.Performs stack.top.env s world binding chain verdict last' →
            last' = last ∧
            x.registry.stepActs fuel stack world = s.acts stack.top.env none world ++
              chain.map (fun dispatched => .dispatch dispatched.request) ∧
            Stack.Concludes x.settings.maxDepth
              ⟨{ stack.top with steps := remainderAfter chain rest }, stack.below⟩ binding verdict
              event next) ∧
    ∀ binding r rest' world' acts i f pass,
      x.registry.ComesTo stack.top.env s rest world binding r rest' world' acts →
        x.registry.find? r.algebra = some i →
          i.interpret r { world := world' } = (.error f, pass) → ∃ n, ∀ fuel ≥ n,
            x.step fuel (.running stack) world = some (.fail f pass.world) ∧
              x.registry.stepActs fuel stack world = acts ++ [.dispatch r, .raise f] := by
  refine ⟨fun fuel event next last hstep => x.concludes_of_step hscripted hsteps hstep, ?_⟩
  intro binding r rest' world' acts i f pass hcomes hfind hinterpret
  exact x.step_of_interpret_error hsteps hcomes hfind hinterpret

end Executor

/-! ## An example of a chain with calls -/

/-- Asks for other steps twice and hands the request on. -/
def Interpreter.front : Interpreter Unit :=
  .table "front" [("ask", fun _ => do
    Handling.replaceRemainder [.returning .null]
    Handling.replaceRemainder [.returning (.bool false)]
    return .operation (.request ⟨"back", "ask", []⟩))]

/-- Two branches, of which only the first one asks for other steps. -/
def Interpreter.back : Interpreter Unit :=
  .fanOut "back" "last" [
    .table "back" [("ask", fun _ => do
      Handling.replaceRemainder [.returning (.bool true)]
      return .unit)],
    .fanOut "back" "last" [.table "back" [("ask", fun _ => pure (.value .null))]]]

/-- Asks for other steps and fails. -/
def Interpreter.broken : Interpreter Unit :=
  .table "broken" [("ask", fun _ => do
    Handling.replaceRemainder []
    throw { cause := .stated "out of order" })]

/-- Asks all of them, beside a typed function that writes to the log. -/
def Executor.asking : Executor Unit where
  registry := ⟨[.front, .back, .broken, Files.toLog]⟩

/-- Of three calls in a chain of two requests the last one counts, although the branch after it
makes none. The call of the handler that fails is gone. -/
theorem Executor.remainder_exact_asking :
    (∃ event next, asking.step 2 (.start [.request ⟨"front", "ask", []⟩, .composite []]) () =
        some ⟨.ok event, next, ()⟩ ∧
      Stack.Concludes none ⟨{ steps := [.returning (.bool true)] }, []⟩ none
        (.enter [.bind "last" (.composite [.returning .null]), FanOut.returnBound "last"])
        event next) ∧
    ∃ n, ∀ fuel ≥ n, asking.step fuel (.start [.request ⟨"broken", "ask", []⟩]) () =
      some (.fail (.handlerFailed "broken" "ask" "out of order" []) ()) := by
  have hfront : Interpreter.front.Scripted :=
    Interpreter.scripted_table (List.forall_mem_singleton.2 fun _ =>
      ⟨.replace _ (.replace _ (.finish _)), rfl⟩)
  have hback : Interpreter.back.Scripted :=
    Interpreter.scripted_fanOut (List.forall_mem_cons.2
      ⟨Interpreter.scripted_table (List.forall_mem_singleton.2 fun _ =>
          ⟨.replace _ (.finish _), rfl⟩),
        List.forall_mem_singleton.2 (Interpreter.scripted_fanOut (List.forall_mem_singleton.2
          (Interpreter.scripted_table (List.forall_mem_singleton.2 fun _ => ⟨.finish _, rfl⟩))))⟩)
  have hbroken : Interpreter.broken.Scripted :=
    Interpreter.scripted_table (List.forall_mem_singleton.2 fun _ => ⟨.replace _ (.fail _), rfl⟩)
  have hlog : (Files.toLog : Interpreter Unit).Scripted :=
    Interpreter.scripted_typed fun _ => ⟨.finish (.operation (.request _)), rfl⟩
  have hscripted : ∀ i ∈ asking.registry.interpreters, i.Scripted :=
    List.forall_mem_cons.2 ⟨hfront, List.forall_mem_cons.2 ⟨hback, List.forall_mem_cons.2
      ⟨hbroken, List.forall_mem_singleton.2 hlog⟩⟩⟩
  have hfirst : asking.registry.Calls ⟨"front", "ask", []⟩ ()
      [[.returning .null], [.returning (.bool false)]] :=
    ⟨_, fun _ => _, rfl, List.forall_mem_singleton.2
      (.spoken (.replace _ (.replace _ (.finish _))) rfl), rfl⟩
  -- The second branch finds a replacement, which tells the two apart.
  have hsecond : asking.registry.Calls ⟨"back", "ask", []⟩ () [[.returning (.bool true)]] :=
    ⟨_, fun asked => if asked.2.replacement.isSome then [] else _, rfl, List.forall_mem_cons.2
      ⟨.spoken (.replace _ (.finish _)) rfl, List.forall_mem_singleton.2
        (.spoken (.finish _) rfl)⟩, rfl⟩
  have hperforms : asking.registry.Performs .empty (.request ⟨"front", "ask", []⟩) () none
      [⟨⟨"front", "ask", []⟩, _⟩, ⟨⟨"back", "ask", []⟩, _⟩] _ () :=
    .asked rfl (.next hfirst rfl (.last hsecond rfl rfl))
  have hstack := asking.remainder_exact hscripted
    (rfl : (⟨{ steps := [.request ⟨"front", "ask", []⟩, .composite []] }, []⟩ :
      Stack Unit).top.steps = _) ()
  have hfails := asking.remainder_exact hscripted
    (rfl : (⟨{ steps := [.request ⟨"broken", "ask", []⟩] }, []⟩ : Stack Unit).top.steps = _) ()
  refine ⟨⟨_, _, rfl, ((hstack.1 2 _ _ _ rfl).2 _ _ _ _ hperforms).2.2⟩, ?_⟩
  obtain ⟨n, hn⟩ := hfails.2 none _ _ _ _ _ _ _ (.unwrapped rfl) rfl rfl
  exact ⟨n, fun fuel hfuel => (hn fuel hfuel).1⟩

end EffectPrograms
