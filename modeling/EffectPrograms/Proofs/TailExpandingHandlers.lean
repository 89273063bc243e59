import EffectPrograms.Proofs.Remainder
import EffectPrograms.Proofs.TailExpansion

/-!
# Handlers that go on in their last step

`Registry.TailExpanding` is about what reaches the execution. `Registry.HandlersTailExpanding` says
the same of handlers, one by one: of what each of them answers with and asks for. For tables and
typed functions this comes to the same, and for a fan-out it does if the sequences that it puts
together go on in their last step as well (`Registry.HandlersTailExpanding.tailExpanding`).

That much has to be asked of a fan-out. If its last branch answers with a composite, it puts a step
behind it which hands the value on, and so the composite is not the last one and opens a third frame
(`Executor.handlers_not_enough`).
-/

namespace EffectPrograms

variable {σ : Type}

/-- A table or a typed function that answers has run the handler that it has for the request. -/
theorem Interpreter.exists_handling_of_interpret {i : Interpreter σ} {r : Request}
    {pass next : Pass σ} {answer : Answer σ} (h : i.interpret r pass = (.ok answer, next)) :
    (∃ algebra name branches, i = .fanOut algebra name branches) ∨
      i.consulted r pass = [(i, pass)] ∧
        ∃ handling, i.handling? r = some handling ∧ handling pass = (.ok answer, next) := by
  -- A handler that is run has the same answer as part of the dispatch.
  have hrun : ∀ handling, i.handling? r = some handling → handling pass = (.ok answer, next) := by
    intro handling hhandling
    rw [interpret_of_handling hhandling, Handling.dispatching_apply] at h
    obtain ⟨hanswer, hnext⟩ := Prod.mk.inj h
    rcases hgiven : handling pass with ⟨x | given, left⟩
    · simp [hgiven, Except.mapError] at hanswer
    · simp only [hgiven, Except.mapError, Except.ok.injEq] at hanswer hnext
      rw [hanswer, hnext]
  cases i with
  | fanOut algebra name branches => exact .inl ⟨algebra, name, branches, rfl⟩
  | table algebra handlers =>
    refine .inr ⟨by rw [consulted], ?_⟩
    rw [interpret] at h
    by_cases hserves : r.algebra = algebra
    · rw [if_neg (not_not_intro hserves)] at h
      cases hlookup : handlers.lookup r.operation with
      | none =>
        rw [hlookup] at h
        cases h
      | some handler =>
        exact ⟨handler r, by simp [handling?, hserves, hlookup],
          hrun _ (by simp [handling?, hserves, hlookup])⟩
    · rw [if_pos hserves] at h
      cases h
  | typed algebra handle =>
    refine .inr ⟨by rw [consulted], ?_⟩
    rw [interpret] at h
    cases hread : handle r with
    | error f =>
      rw [hread] at h
      cases h
    | ok handling =>
      exact ⟨handling, by simp [handling?, hread, Except.toOption],
        hrun _ (by simp [handling?, hread, Except.toOption])⟩

namespace Registry

/-- Handlers go on in their last step, whether they are asked alone or as branches of a fan-out. -/
structure HandlersTailExpanding (registry : Registry σ) : Prop where
  /-- Of the steps that a handler answers with only the last may open a composite. -/
  answers : ∀ {i r world asked handling answer next steps}, i ∈ registry.interpreters →
    asked ∈ i.consulted r { world } → asked.1.handling? r = some handling →
      handling asked.2 = (.ok answer, next) → answer.verdict? = some (.enter steps) →
        registry.OpensLast steps
  /-- So it is with the steps of every call that asks for the rest of a composite to be replaced. -/
  replacements : ∀ {i r world asked} {d : Dialogue σ (Answer σ)}, i ∈ registry.interpreters →
    asked ∈ i.consulted r { world } → asked.1.handling? r = some d.run →
      ∀ steps ∈ d.calls asked.2, registry.OpensLast steps
  /-- No handler makes such a call for a request that comes to a composite. -/
  keeps : ∀ {r world chain steps last}, registry.Chain r world chain (.enter steps) last →
    chain.flatMap Dispatched.calls = []

variable {registry : Registry σ}

/-- Interpreters of dialogues go on in the last step if their handlers do, and if the sequences that
fan-outs put together do. -/
theorem HandlersTailExpanding.tailExpanding (h : registry.HandlersTailExpanding)
    (hscripted : ∀ i ∈ registry.interpreters, i.Scripted)
    (hfanOuts : ∀ {algebra name branches r world steps next},
      .fanOut algebra name branches ∈ registry.interpreters →
        (Interpreter.fanOut algebra name branches).interpret r { world } =
          (.ok (.sequence steps), next) → registry.OpensLast steps) :
    registry.TailExpanding := by
  refine ⟨?_, ?_, ?_⟩
  · intro r world answer replacement world' steps hdispatch hverdict
    obtain ⟨i, hfind⟩ := Option.ne_none_iff_exists'.1 (find?_ne_none_of_dispatch hdispatch)
    have hmem : i ∈ registry.interpreters := List.mem_of_find?_eq_some hfind
    rw [dispatch, hfind] at hdispatch
    rcases hinterpret : i.interpret r { world } with ⟨f | given, pass⟩
    · simp [hinterpret, Except.map] at hdispatch
    obtain ⟨⟨rfl, -⟩, -⟩ :
        (given = answer ∧ pass.replacement = replacement) ∧ pass.world = world' := by
      simpa [hinterpret, Except.map] using hdispatch
    rcases Interpreter.exists_handling_of_interpret hinterpret with
      ⟨algebra, name, branches, rfl⟩ | ⟨hconsulted, handling, hhandling, hrun⟩
    · rcases Interpreter.answerInTurn_or_failInTurn r branches { world } with
        ⟨answers, last, hanswers⟩ | ⟨f, last, hfail⟩
      · have hsequence : (Interpreter.fanOut algebra name branches).interpret r { world } = _ :=
          hanswers.interpret_fanOut
        obtain ⟨hgiven, rfl⟩ := Prod.mk.inj (hinterpret.symm.trans hsequence)
        obtain rfl := Except.ok.inj hgiven
        obtain rfl := Verdict.enter.inj (Option.some.inj hverdict)
        exact hfanOuts hmem hinterpret
      · cases hinterpret.symm.trans hfail.interpret_fanOut
    · have hasked : (i, { world }) ∈ i.consulted r { world } := by
        rw [hconsulted]
        exact List.mem_singleton_self _
      exact h.answers hmem hasked hhandling hrun hverdict
  · intro r world answer steps world' hdispatch
    obtain ⟨calls, hcalls⟩ := exists_calls hscripted hdispatch
    have hlast : calls.getLast? = some steps := (hcalls.replacement_eq hdispatch).symm
    obtain ⟨i, made, hfind, hmade, rfl⟩ := hcalls
    obtain ⟨⟨leaf, given⟩, hasked, hsteps⟩ := List.mem_flatMap.1 (List.mem_of_getLast? hlast)
    have hmakes := hmade (leaf, given) hasked
    generalize made (leaf, given) = calls at hmakes hsteps
    cases hmakes with
    | spoken d hhandling =>
      exact h.replacements (List.mem_of_find?_eq_some hfind) hasked hhandling steps hsteps
    | silent _ => exact absurd hsteps List.not_mem_nil
  · intro fuel r rest world steps rest' world' hfollow
    obtain ⟨chain, hchain⟩ := exists_chain hscripted hfollow
    have hmore := (follow_mono (Nat.le_add_right fuel chain.length) hfollow).1
    rw [(hchain.follow (Nat.le_add_left chain.length fuel) rest).1] at hmore
    obtain ⟨hresult, -⟩ := Prod.mk.inj (Option.some.inj hmore)
    rw [← (Prod.mk.inj (Except.ok.inj hresult)).2, remainderAfter, h.keeps hchain]
    rfl

end Registry

/-! ## Handlers alone -/

/-- Waits for the sound of a bell. -/
def Program.sound : Program Unit := [.op (.io (.ofAction fun world => (.null, world)))]

/-- Has a bell rung by waiting for its sound. -/
def Interpreter.ringer : Interpreter Unit :=
  .table "bell" [("ring", fun _ => pure (.sequence Program.sound))]

/-- Asks the ringer by a fan-out. -/
def Registry.bell : Registry Unit := ⟨[.fanOut "bell" "last" [.ringer]]⟩

/-- Runs programs that ring the bell. -/
def Executor.ringing : Executor Unit := { registry := .bell }

/-- Rings the bell. -/
def Program.ring : Program Unit := [.bind "rung" (.request ⟨"bell", "ring", []⟩)]

/-- The only one who is asked in the end is the ringer. -/
theorem Registry.eq_ringer_of_consulted {i : Interpreter Unit} (hi : i ∈ bell.interpreters)
    {r : Request} {world : Unit} {asked : Interpreter Unit × Pass Unit}
    (hasked : asked ∈ i.consulted r { world }) : asked = (.ringer, { world }) := by
  obtain rfl : i = .fanOut "bell" "last" [.ringer] := List.mem_singleton.1 hi
  rw [Interpreter.consulted] at hasked
  rcases hanswer : Interpreter.ringer.interpret r { world } with ⟨f | answer, next⟩
  · rw [Interpreter.consultedEach_cons_of_error hanswer] at hasked
    exact List.mem_singleton.1 hasked
  · rw [Interpreter.consultedEach_cons_of_ok hanswer, Interpreter.consultedEach,
      List.append_nil] at hasked
    exact List.mem_singleton.1 hasked

/-- The ringer has one handler, which answers with the sound. -/
theorem Interpreter.eq_of_handling_ringer {r : Request} {handling : Handling Unit (Answer Unit)}
    (h : ringer.handling? r = some handling) : handling = pure (.sequence Program.sound) := by
  rw [ringer, handling?] at h
  by_cases hserves : r.algebra = "bell"
  · by_cases hring : r.operation = "ring"
    · simp only [hserves, hring, List.lookup_cons_self, if_true, Option.map_some,
        Option.some.injEq] at h
      exact h.symm
    · simp [hserves, List.lookup_cons, beq_false_of_ne hring] at h
  · simp [hserves] at h

/-- The handler makes no calls. -/
theorem Registry.eq_nil_of_makesCalls {r : Request} {world : Unit} {calls : List (List (Step Unit))}
    (h : Interpreter.MakesCalls r (.ringer, { world }) calls) : calls = [] := by
  cases h with
  | spoken d hhandling =>
    have hlast := d.replacement_of_run { world }
    rw [Interpreter.eq_of_handling_ringer hhandling] at hlast
    have hnone : (d.calls { world }).getLast?.or none = none := hlast.symm
    simpa using hnone
  | silent _ => rfl

/-- The handler goes on in its last step. -/
theorem Registry.bell_handlersTailExpanding : bell.HandlersTailExpanding := by
  have hsound : bell.OpensLast Program.sound := fun _ => by simp
  refine ⟨?_, ?_, ?_⟩
  · intro i r world asked handling answer next steps hi hasked hhandling hrun hverdict
    obtain rfl := eq_ringer_of_consulted hi hasked
    obtain rfl := Interpreter.eq_of_handling_ringer hhandling
    obtain ⟨hanswer, -⟩ := Prod.mk.inj hrun
    obtain rfl := Except.ok.inj hanswer
    obtain rfl := Verdict.enter.inj (Option.some.inj hverdict)
    exact hsound
  · intro i r world asked d hi hasked hhandling steps hsteps
    obtain rfl := eq_ringer_of_consulted hi hasked
    rw [eq_nil_of_makesCalls (.spoken d hhandling)] at hsteps
    exact absurd hsteps List.not_mem_nil
  · intro r world chain steps last hchain
    have hcalls : ∀ {r world calls}, bell.Calls r world calls → calls = [] := by
      rintro r world calls ⟨i, made, hfind, hmade, rfl⟩
      refine List.flatMap_eq_nil_iff.2 fun asked hasked => ?_
      have hmakes := hmade asked hasked
      rw [eq_ringer_of_consulted (List.mem_of_find?_eq_some hfind) hasked] at hmakes ⊢
      exact eq_nil_of_makesCalls hmakes
    generalize Verdict.enter steps = verdict at hchain
    induction hchain with
    | last hmade _ _ => simp [hcalls hmade]
    | next hmade _ _ ih => simp [hcalls hmade, ih]

/-- Handlers that go on in their last step are not enough for two frames if they are asked by a
fan-out. What it puts behind the composite of its last branch keeps that from taking the place of
another, so that there are three, and a limit of two is found. -/
theorem Executor.handlers_not_enough :
    ringing.registry.HandlersTailExpanding ∧ Program.Simple Program.ring ∧
      (∃ e, ringing.Reachable .ring e ∧ e.depth = 3) ∧
      (ringing.sessionUnder (some 2) .ring ⟨(), []⟩ 1 2).Found (.tooDeep 2) := by
  have hsimple : Program.Simple Program.ring :=
    List.forall_mem_singleton.2 fun _ => by simp
  have hopened :=
    Reachable.step .start (show ringing.step 1 (.start .ring) () = some _ from rfl)
  have hnested := hopened.step (show ringing.step 1 _ () = some _ from rfl)
  have hacts : (ringing.sessionUnder (some 2) .ring ⟨(), []⟩ 1 2).acts =
      [.dispatch ⟨"bell", "ring", []⟩] := rfl
  exact ⟨Registry.bell_handlersTailExpanding, hsimple, ⟨_, hnested, rfl⟩, rfl,
    fun raised => by simp [hacts]⟩

end EffectPrograms
