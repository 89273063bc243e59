import EffectPrograms.Proofs.Branches
import EffectPrograms.Proofs.Driving

/-!
# Requests reach an interpreter of their algebra

Every table and every typed function checks that a request belongs to its algebra, and within an
execution none of these checks ever fails. A registry finds an interpreter by the algebra that it
was registered under, which is the algebra of the first attempt to register one
(`Registry.find?_ofAttempts`). A fan-out is only built over branches of its own algebra, so that
what it asks in the end serves that algebra too (`Interpreter.Assembled.algebra_of_consulted`), and
a typed function reads requests by the name of its own algebra. So a fault which says that something
belongs to another algebra was raised by a handler or by a deferred step
(`Interpreter.Assembled.raises_of_mismatch`, `Registry.raises_of_resolve`).
-/

namespace EffectPrograms

variable {σ : Type}

/-! ## Mismatches -/

/-- The fault says that something belongs to another algebra. -/
def Fault.IsMismatch : Fault → Prop
  | .foreignRequest _ _ | .foreignBranch _ _ => True
  | _ => False

/-- An execution finds no mismatch by itself. -/
theorem Fault.Own.not_isMismatch {limit : Option Nat} {f : Fault} (h : f.Own limit) :
    ¬ f.IsMismatch := by
  cases f with
  | foreignRequest _ _ | foreignBranch _ _ => exact h.elim
  | _ => exact id

/-- An io delivers none. -/
theorem Io.not_isMismatch_of_perform {io : Io σ} {world world' : σ} {f : Fault}
    (h : io.perform world = (.error f, world')) : ¬ f.IsMismatch := by
  obtain ⟨hdeliver, -⟩ := Prod.mk.inj h
  unfold Completion.deliver at hdeliver
  split at hdeliver
  · simp at hdeliver
  · obtain rfl := Except.error.inj hdeliver
    exact id

/-- A mismatch that a handler fails with is a fault that the handler met. -/
theorem Failure.cause_of_toFault {x : Failure} {r : Request} (h : (x.toFault r).IsMismatch) :
    x.cause = .fault (x.toFault r) := by
  rcases x with ⟨f | reason, - | ⟨outer, inner⟩⟩
  · rfl
  · rfl
  · exact h.elim
  · exact h.elim

/-! ## Interpreters -/

namespace Interpreter

/-- An interpreter put together from tables and typed functions by fan-outs. -/
inductive Assembled : Interpreter σ → Prop where
  | table (algebra : String) (handlers : List (String × Handler σ)) :
      Assembled (.table algebra handlers)
  | typed {α : Type} (t : TypedAlgebra α) (handle : α → Handling σ (Answer σ)) :
      Assembled (t.interpreter handle)
  | fanOut {algebra : String} {branches : List (Interpreter σ)} {i : Interpreter σ} :
      (∀ branch ∈ branches, Assembled branch) → fanOut? algebra branches = .ok i → Assembled i

/-- The handler that a table or a typed function has for a request raises the fault itself. -/
def Raises (i : Interpreter σ) (r : Request) (pass : Pass σ) (f : Fault) : Prop :=
  ∃ h x next, i.handling? r = some h ∧ h pass = (.error x, next) ∧ x.cause = .fault f

variable {i : Interpreter σ} {r : Request} {pass last : Pass σ} {f : Fault}

/-- Whoever an interpreter asks in the end serves its algebra. -/
theorem Assembled.algebra_of_consulted (h : i.Assembled) (r : Request) (pass : Pass σ) :
    ∀ asked ∈ i.consulted r pass, asked.1.algebra = i.algebra := by
  induction h generalizing pass with
  | table algebra handlers => simp [consulted]
  | typed t handle => simp [TypedAlgebra.interpreter, consulted]
  | fanOut _ hbuilt ih =>
    obtain ⟨hserve, rfl⟩ := fanOut?_eq_ok_iff.1 hbuilt
    rw [consulted]
    refine forall_mem_consultedEach fun branch hbranch pass asked hasked => ?_
    exact (ih branch hbranch pass asked hasked).trans (hserve branch hbranch)

/-- A handler that makes a dispatch fail with a mismatch has raised it. -/
theorem raises_of_dispatching {h : Handling σ (Answer σ)} (hhandling : i.handling? r = some h)
    (hfail : h.dispatching r pass = (.error f, last)) (hf : f.IsMismatch) : i.Raises r pass f := by
  rw [Handling.dispatching_apply] at hfail
  rcases hrun : h pass with ⟨x | answer, next⟩
  · rw [hrun] at hfail
    obtain ⟨hfault, -⟩ := Prod.mk.inj hfail
    obtain rfl : x.toFault r = f := Except.error.inj hfault
    exact ⟨h, x, next, hhandling, hrun, Failure.cause_of_toFault hf⟩
  · rw [hrun] at hfail
    cases hfail

/-- If an interpreter fails on a request of its algebra with a mismatch, one of those it asks has
raised it. -/
theorem Assembled.raises_of_mismatch (h : i.Assembled) (hserves : r.algebra = i.algebra)
    (hfail : i.interpret r pass = (.error f, last)) (hf : f.IsMismatch) :
    ∃ asked ∈ i.consulted r pass, asked.1.Raises r asked.2 f := by
  induction h generalizing pass last with
  | table algebra handlers =>
    have hserves : r.algebra = algebra := hserves
    refine ⟨(.table algebra handlers, pass), by simp [consulted], ?_⟩
    rw [interpret, if_neg (not_not_intro hserves)] at hfail
    cases hlookup : handlers.lookup r.operation with
    | none =>
      rw [hlookup] at hfail
      cases hfail
      exact hf.elim
    | some handler =>
      rw [hlookup] at hfail
      exact raises_of_dispatching (by simp [handling?, hserves, hlookup]) hfail hf
  | typed t handle =>
    have hserves : r.algebra = t.name := hserves
    refine ⟨(t.interpreter handle, pass), by simp [TypedAlgebra.interpreter, consulted], ?_⟩
    rw [TypedAlgebra.interpreter, interpret] at hfail
    cases hrecover : t.recover r with
    | ok x =>
      rw [hrecover] at hfail
      refine raises_of_dispatching ?_ hfail hf
      rw [TypedAlgebra.interpreter, handling?, hrecover]
      rfl
    | error g =>
      rw [hrecover] at hfail
      cases hfail
      -- Of its own algebra a typed function only misses the operation or its arguments.
      by_cases hname : r.operation ∈ t.algebra.operationNames
      · rw [t.recover_of_declared hserves hname] at hrecover
        cases hdecode : t.decode r.operation r.arguments with
        | ok x => simp [hdecode] at hrecover
        | error fault =>
          simp only [hdecode, Except.error.injEq] at hrecover
          subst hrecover
          exact hf.elim
      · rw [t.recover_of_undeclared hserves hname] at hrecover
        cases hrecover
        exact hf.elim
  | @fanOut algebra branches i _ hbuilt ih =>
    obtain ⟨hserve, rfl⟩ := fanOut?_eq_ok_iff.1 hbuilt
    -- The branch that fails serves the same algebra, and nobody is asked after it.
    obtain ⟨earlier, failing, later, answers, next, rfl, hearlier, hfailing⟩ :=
      failInTurn_of_interpret_fanOut hfail
    have hmem : failing ∈ earlier ++ failing :: later := by simp
    have hfailingServes : r.algebra = failing.algebra := hserves.trans (hserve failing hmem).symm
    obtain ⟨asked, hasked, hraises⟩ := ih failing hmem hfailingServes hfailing
    rw [consulted]
    exact ⟨asked, consulted_subset_of_answerInTurn hearlier failing hasked, hraises⟩

/-- What an interpreter makes of a request that it is given, and the world that it leaves. -/
def serve (i : Interpreter σ) (r : Request) (world : σ) :
    Except Fault (Answer σ × Option (List (Step σ))) × σ :=
  let (result, pass) := i.interpret r { world }
  (result.map fun answer => (answer, pass.replacement), pass.world)

end Interpreter

/-! ## Registries -/

namespace Registry

variable {registry : Registry σ} {r : Request} {world : σ} {i : Interpreter σ} {f : Fault}

/-- A request without an interpreter fails at once. -/
theorem dispatch_of_find?_eq_none (h : registry.find? r.algebra = none) :
    registry.dispatch r world = (.error (.noInterpreter r), world) := by
  rw [dispatch, h]

/-- Any other request is given to the interpreter that is found. -/
theorem dispatch_of_find?_eq_some (h : registry.find? r.algebra = some i) :
    registry.dispatch r world = i.serve r world := by
  rw [dispatch, h]
  rfl

/-- Tries to register an interpreter. A registry that refuses it stays as it is. -/
def attempt (registry : Registry σ) (i : Interpreter σ) : Registry σ :=
  match registry.register i with
  | .ok next => next
  | .error _ => registry

/-- The registry that attempts to register interpreters lead to, one after the other. -/
def ofAttempts (attempts : List (Interpreter σ)) : Registry σ := attempts.foldl attempt empty

/-- An attempt adds an interpreter for an algebra that has none. -/
theorem find?_attempt (registry : Registry σ) (i : Interpreter σ) (algebra : String) :
    (registry.attempt i).find? algebra =
      (registry.find? algebra).or (if i.algebra = algebra then some i else none) := by
  unfold attempt register
  by_cases htaken : registry.contains i.algebra = true
  · rw [if_pos htaken]
    by_cases halgebra : i.algebra = algebra
    · subst halgebra
      obtain ⟨found, hfound⟩ := Option.isSome_iff_exists.1 htaken
      simp [hfound]
    · simp [halgebra]
  · rw [if_neg htaken]
    by_cases halgebra : i.algebra = algebra <;> simp [find?, List.find?_append, halgebra]

/-- The interpreter of an algebra is the first that was to be registered for it. -/
theorem find?_ofAttempts (attempts : List (Interpreter σ)) (algebra : String) :
    (ofAttempts attempts).find? algebra = attempts.find? fun i => i.algebra = algebra := by
  -- From any registry on, those who are there already come before all attempts.
  have hfold : ∀ registry : Registry σ, (attempts.foldl attempt registry).find? algebra =
      (registry.find? algebra).or (attempts.find? fun i => i.algebra = algebra) := by
    induction attempts with
    | nil => simp
    | cons i later ih =>
      intro registry
      rw [List.foldl_cons, ih, find?_attempt, Option.or_assoc, List.find?_cons]
      by_cases halgebra : i.algebra = algebra <;> simp [halgebra]
  exact hfold empty

/-- Everyone who is found is put together from tables and typed functions by fan-outs. -/
def Assembled (registry : Registry σ) : Prop :=
  ∀ algebra i, registry.find? algebra = some i → i.Assembled

/-- Attempts to register such interpreters lead to such a registry. -/
theorem assembled_ofAttempts {attempts : List (Interpreter σ)} (h : ∀ i ∈ attempts, i.Assembled) :
    (ofAttempts attempts).Assembled := by
  intro algebra i hfound
  rw [find?_ofAttempts] at hfound
  exact h i (List.mem_of_find?_eq_some hfound)

/-- A step raises a fault if a deferred step does on the way to its operation, or the handler of
someone who is asked for one of the requests on the way. -/
inductive Raises (registry : Registry σ) (env : Environment) (s : Step σ) (rest : List (Step σ))
    (world : σ) (f : Fault) : Prop where
  | deferred : .raise f ∈ s.acts env none world → Raises registry env s rest world f
  | handler {binding : Option String} {r : Request} {rest' : List (Step σ)} {world' : σ}
      {acts : List (Act σ)} {i : Interpreter σ} {asked : Interpreter σ × Pass σ} :
      registry.ComesTo env s rest world binding r rest' world' acts →
        registry.find? r.algebra = some i → asked ∈ i.consulted r { world := world' } →
          asked.1.Raises r asked.2 f → Raises registry env s rest world f

/-- A step that cannot be resolved for a mismatch raises it. -/
theorem raises_of_resolve (hassembled : registry.Assembled) {env : Environment}
    {s : Step σ} {rest : List (Step σ)} {world last : σ} {fuel : Nat}
    (h : registry.resolve fuel env s rest world = some (.error f, last)) (hf : f.IsMismatch) :
    registry.Raises env s rest world f := by
  rcases exists_comesTo_of_resolve_error h with
    hunwrap | ⟨binding, r, rest', world', acts, hcomes, hdispatch⟩
  · rcases s.raise_or_own_of_unwrap none hunwrap with hraise | hown
    · exact .deferred hraise
    · exact absurd hf hown.not_isMismatch
  cases hfind : registry.find? r.algebra with
  | none =>
    rw [dispatch_of_find?_eq_none hfind] at hdispatch
    cases hdispatch
    exact hf.elim
  | some i =>
    have hserves : i.algebra = r.algebra := by simpa using List.find?_some hfind
    rw [dispatch_of_find?_eq_some hfind, Interpreter.serve] at hdispatch
    rcases hanswer : i.interpret r { world := world' } with ⟨g | answer, pass⟩
    · rw [hanswer] at hdispatch
      obtain ⟨hfault, -⟩ := Prod.mk.inj hdispatch
      obtain rfl : g = f := Except.error.inj hfault
      obtain ⟨asked, hasked, hraises⟩ :=
        (hassembled r.algebra i hfind).raises_of_mismatch hserves.symm hanswer hf
      exact .handler hcomes hfind hasked hraises
    · simp [hanswer, Except.map] at hdispatch

end Registry

/-! ## Calls -/

/-- The fault that a call came to. -/
def CallResult.fault? : CallResult σ → Option Fault
  | .stepped (.error f) | .resumed (.error f) | .ran (.error f) => some f
  | _ => none

namespace Executor

variable {x : Executor σ} {f : Fault}

/-- The next step of a running execution raises the fault. -/
def RaisesNext (x : Executor σ) (stack : Stack σ) (world : σ) (f : Fault) : Prop :=
  ∃ s rest, stack.top.steps = s :: rest ∧ x.registry.Raises stack.top.env s rest world f

/-- A step that fails with a mismatch raises it. -/
theorem raisesNext_of_step (hassembled : x.registry.Assembled) {fuel : Nat} {stack : Stack σ}
    {world : σ} {t : Transition σ (Event σ)} (hsound : stack.Sound)
    (h : x.step fuel (.running stack) world = some t) (hresult : t.result = .error f)
    (hf : f.IsMismatch) : x.RaisesNext stack world f ∧ t = .fail f t.world := by
  rcases step_cases hsound h with ⟨event, hok, -⟩ |
    ⟨g, ht, ⟨s, rest, hsteps, hresolve⟩ | ⟨depth, -, rfl⟩⟩
  · simp [hok] at hresult
  · rw [ht] at hresult
    obtain rfl : g = f := Except.error.inj hresult
    exact ⟨⟨s, rest, hsteps, Registry.raises_of_resolve hassembled hresolve hf⟩, ht⟩
  · rw [ht] at hresult
    obtain rfl : .tooDeep depth = f := Except.error.inj hresult
    exact hf.elim

/-- A run that fails with a mismatch comes to a step that raises it. -/
theorem raisesNext_of_run (hassembled : x.registry.Assembled) {fuel : Nat} {stack : Stack σ}
    {world : σ} {t : Transition σ Outcome} (hsound : stack.Sound)
    (h : x.run fuel (.running stack) world = some t) (hresult : t.result = .error f)
    (hf : f.IsMismatch) :
    ∃ stack' world' less, Relation.ReflTransGen x.Moves (.running stack) (.running stack') ∧
      x.RaisesNext stack' world' f ∧
      x.step less (.running stack') world' = some (.fail f t.world) := by
  induction fuel generalizing stack world with
  | zero => simp [run] at h
  | succ fuel ih =>
    rcases run_cases hsound h with ⟨made, g, hstep, hfails, rfl, -⟩ | ⟨outcome, hok, -, -⟩ |
      ⟨asking, io, asked, g, -, hperform, ht, -⟩ | ⟨stack', world', hmoves, hsound', hrun⟩
    · obtain rfl : g = f := Except.error.inj hresult
      obtain ⟨hraises, hmade⟩ := raisesNext_of_step hassembled hsound hstep hfails hf
      exact ⟨stack, world, fuel, .refl, hraises, hstep.trans (congrArg some hmade)⟩
    · simp [hok] at hresult
    · rw [ht] at hresult
      obtain rfl : g = f := Except.error.inj hresult
      exact absurd hf (Io.not_isMismatch_of_perform hperform)
    · obtain ⟨stack'', world'', less, hlater, hraises⟩ := ih hsound' hrun
      exact ⟨stack'', world'', less, hmoves.to_reflTransGen.trans hlater, hraises⟩

/-- A call that comes to a mismatch comes to a step that raises it. -/
theorem Returns.raisesNext_of_mismatch {c : Exchange σ} (h : x.Returns c)
    (hassembled : x.registry.Assembled) (hsound : c.before.Sound)
    (hfault : c.result.fault? = some f) (hf : f.IsMismatch) :
    ∃ stack world fuel, Relation.ReflTransGen x.Moves c.before (.running stack) ∧
      x.RaisesNext stack world f ∧
      x.step fuel (.running stack) world = some (.fail f c.worldAfter) ∧
      (c.call = .step → c.before = .running stack ∧ c.world = world) := by
  by_cases hturn : c.InTurn
  swap
  · -- A call out of turn only comes to where the execution stands.
    rw [(h.refused hturn).1] at hfault
    cases hcall : c.call <;> rw [hcall] at hfault <;> cases hfault <;> exact hf.elim
  cases h with
  | @step fuel e world t hstep =>
    obtain ⟨stack, rfl⟩ := exists_running_of_status hturn
    rcases t with ⟨g | event, next, world'⟩
    · obtain rfl : g = f := Option.some.inj hfault
      obtain ⟨hraises, ht⟩ := raisesNext_of_step hassembled (hsound.stack rfl) hstep rfl hf
      exact ⟨stack, world, fuel, .refl, hraises, hstep.trans (congrArg some ht),
        fun _ => ⟨rfl, rfl⟩⟩
    · cases hfault
  | resume e v world =>
    cases hresume : (e.resume v).1 with
    | ok u => simp [CallResult.fault?, hresume] at hfault
    | error g =>
      obtain rfl : g = f := by simpa [CallResult.fault?, hresume] using hfault
      have hown := (Execution.resume_sound hsound v).2 g none hresume
      exact absurd hf hown.not_isMismatch
  | @run fuel e world t hrun =>
    obtain ⟨stack, rfl⟩ := exists_running_of_status hturn
    rcases t with ⟨g | outcome, next, world'⟩
    · obtain rfl : g = f := Option.some.inj hfault
      obtain ⟨stack', world', less, hmoves, hraises, hfails⟩ :=
        raisesNext_of_run hassembled (hsound.stack rfl) hrun rfl hf
      exact ⟨stack', world', less, hmoves, hraises, hfails, by simp⟩
    · cases hfault

/-- Requests reach an interpreter of their own algebra, whatever is registered, refused ones
included. If a step comes to a request of an algebra that nobody was to be registered for, the
execution fails with that in the same world, and nobody is asked. Any other request is given to the
first interpreter that was to be registered for its algebra, and all tables and typed functions that
are asked for it, through however many fan-outs, serve that algebra. So a call never comes to a
mismatch but if a deferred step or a handler raises it, in this step or, if the call is a run, in
the step that it ends with. -/
theorem routed_by_algebra (x : Executor σ) {attempts : List (Interpreter σ)}
    (hassembled : ∀ i ∈ attempts, i.Assembled) (hregistry : x.registry = .ofAttempts attempts) :
    (∀ stack s rest, stack.top.steps = s :: rest → ∀ world binding r rest' world' acts,
      x.registry.ComesTo stack.top.env s rest world binding r rest' world' acts →
        ((∀ i ∈ attempts, i.algebra ≠ r.algebra) → ∃ n, ∀ fuel ≥ n,
          x.step fuel (.running stack) world = some (.fail (.noInterpreter r) world') ∧
            x.registry.stepActs fuel stack world = acts) ∧
        ∀ earlier i later, attempts = earlier ++ i :: later → i.algebra = r.algebra →
          (∀ before ∈ earlier, before.algebra ≠ r.algebra) →
            (∃ n, ∀ fuel ≥ n, acts ++ [.dispatch r] <+: x.registry.stepActs fuel stack world) ∧
              x.registry.dispatch r world' = i.serve r world' ∧
              ∀ asked ∈ i.consulted r { world := world' }, asked.1.algebra = r.algebra) ∧
    ∀ program c f, x.Returns c → x.Reachable program c.before → c.result.fault? = some f →
      f.IsMismatch → ∃ stack world fuel,
        Relation.ReflTransGen x.Moves c.before (.running stack) ∧ x.RaisesNext stack world f ∧
        x.step fuel (.running stack) world = some (.fail f c.worldAfter) ∧
        (c.call = .step → c.before = .running stack ∧ c.world = world) := by
  have hfind : ∀ algebra, x.registry.find? algebra =
      attempts.find? fun i => i.algebra = algebra := by
    intro algebra
    rw [hregistry, Registry.find?_ofAttempts]
  refine ⟨?_, fun program c f hreturns hreachable => ?_⟩
  · intro stack s rest hsteps world binding r rest' world' acts hcomes
    refine ⟨fun hmissing => ?_, ?_⟩
    · have hnone : x.registry.find? r.algebra = none := by
        rw [hfind]
        simpa using hmissing
      have hfails := x.step_of_dispatch_error hsteps hcomes
        (Registry.dispatch_of_find?_eq_none hnone)
      rwa [Registry.acts, hnone, List.append_nil] at hfails
    · rintro earlier i later rfl hserves hfirst
      have hsome : x.registry.find? r.algebra = some i := by
        have hnone : earlier.find? (fun i => i.algebra = r.algebra) = none := by simpa using hfirst
        rw [hfind, List.find?_append, hnone, Option.none_or]
        exact List.find?_cons_of_pos (by simpa using hserves)
      refine ⟨?_, Registry.dispatch_of_find?_eq_some hsome, ?_⟩
      · simp only [x.registry.stepActs_of_steps hsteps]
        exact hcomes.dispatch_prefix (by simp [hsome])
      · rw [← hserves]
        exact (hassembled i (by simp)).algebra_of_consulted r _
  · refine hreturns.raisesNext_of_mismatch ?_ hreachable.sound
    rw [hregistry]
    exact Registry.assembled_ofAttempts hassembled

end Executor

/-! ## An example of routing -/

/-- A table that has mail sent. -/
def Interpreter.sendsMail : Interpreter Unit := .table "mail" [("send", fun _ => pure .unit)]

/-- A table that builds a fan-out over a branch of another algebra, which is refused. -/
def Interpreter.buildsAmiss : Interpreter Unit :=
  .table "mail" [("send", fun _ => do
    let _ ← fanOut? (σ := Unit) "mail" [.table "text" []]
    return .unit)]

/-- Both of them, one below another fan-out. -/
def Interpreter.mailroom : Interpreter Unit :=
  .fanOut "mail" "last" [.sendsMail, .fanOut "mail" "last" [.buildsAmiss]]

/-- Serves mail by the fan-out, after which a table for mail is refused. -/
def Executor.mailroom : Executor Unit where
  registry := .ofAttempts [.mailroom, .sendsMail]

/-- A text finds nobody. Mail is given to both tables below the fan-outs, not to the one that was
refused; the second of them raises the mismatch that the execution fails with. -/
theorem Executor.routed_by_algebra_mailroom :
    (∃ n, ∀ fuel ≥ n, mailroom.step fuel (.start [.request ⟨"text", "send", []⟩]) () =
      some (.fail (.noInterpreter ⟨"text", "send", []⟩) ())) ∧
    mailroom.registry.dispatch ⟨"mail", "send", []⟩ () =
      Interpreter.mailroom.serve ⟨"mail", "send", []⟩ () ∧
    (Interpreter.mailroom.consulted ⟨"mail", "send", []⟩ { world := () }).length = 2 ∧
    (∀ asked ∈ Interpreter.mailroom.consulted ⟨"mail", "send", []⟩ { world := () },
      asked.1.algebra = "mail") ∧
    mailroom.step 1 (.start [.request ⟨"mail", "send", []⟩]) () =
      some (.fail (.foreignBranch "mail" "text") ()) ∧
    mailroom.RaisesNext ⟨{ steps := [.request ⟨"mail", "send", []⟩] }, []⟩ ()
      (.foreignBranch "mail" "text") := by
  have hinner : (.fanOut "mail" "last" [.buildsAmiss] : Interpreter Unit).Assembled :=
    .fanOut (List.forall_mem_singleton.2 (.table "mail" _))
      (rfl : Interpreter.fanOut? "mail" [.buildsAmiss] = _)
  have houter : Interpreter.mailroom.Assembled :=
    .fanOut (List.forall_mem_cons.2 ⟨.table "mail" _, List.forall_mem_singleton.2 hinner⟩)
      (rfl : Interpreter.fanOut? "mail" [.sendsMail, .fanOut "mail" "last" [.buildsAmiss]] = _)
  have hassembled : ∀ i ∈ [Interpreter.mailroom, .sendsMail], i.Assembled :=
    List.forall_mem_cons.2 ⟨houter, List.forall_mem_singleton.2 (.table "mail" _)⟩
  obtain ⟨hrouted, hmismatch⟩ := mailroom.routed_by_algebra hassembled rfl
  have htext := hrouted ⟨{ steps := [.request ⟨"text", "send", []⟩] }, []⟩ _ _ rfl () none _ _ _ _
    (.unwrapped rfl)
  have hmail := hrouted ⟨{ steps := [.request ⟨"mail", "send", []⟩] }, []⟩ _ _ rfl () none _ _ _ _
    (.unwrapped rfl)
  obtain ⟨n, hn⟩ := htext.1 (by decide)
  obtain ⟨-, hdispatch, hasked⟩ := hmail.2 [] .mailroom [.sendsMail] rfl rfl (by simp)
  have hstep : mailroom.step 1 (.start [.request ⟨"mail", "send", []⟩]) () = _ := rfl
  obtain ⟨stack, world, -, -, hraises, -, hsame⟩ :=
    hmismatch _ _ (.foreignBranch "mail" "text") (.step hstep) .start rfl trivial
  obtain rfl := (Execution.running.inj (hsame rfl).1)
  exact ⟨⟨n, fun fuel hfuel => (hn fuel hfuel).1⟩, hdispatch, rfl, hasked, hstep, hraises⟩

end EffectPrograms
