import EffectPrograms.Proofs.Soundness

/-!
# Names are checked first

A name is checked when its step starts, and what the step comes to is bound under it at the end.
Between the two there may be a chain of answers, an io, or whole composites that take each other's
place. That the name is still free then is part of `Record.Sound`; so a fault about a name is
found while a step is unwrapped or not at all, and up to there the step has only computed deferred
steps (`Registry.compute_of_resolve`). What comes later says what it binds instead of whether it
does: `Stack.Sound.leave_inner` for a composite that is left, `Stack.Sound.commit_value` for a
value, `Execution.Sound.resume_awaitingIo` for an io.
-/

namespace EffectPrograms

variable {σ : Type}

/-- The fault is a name that is taken, or a step that is not well formed. -/
def Fault.IsNaming : Fault → Prop
  | .nameTaken _ | .invalidStep _ => True
  | _ => False

/-! ## Unwrapping a step -/

mutual

/-- A step that is unwrapped only computes deferred steps in its environment, the last of which may
raise the fault that ends it. -/
theorem Step.compute_or_raise {env : Environment} {binding : Option String} {world : σ}
    {act : Act σ} (s : Step σ) (h : act ∈ s.acts env binding world) :
    act = .compute env ∨ ∃ f, act = .raise f ∧ (s.unwrap env binding world).1 = .error f := by
  cases s with
  | op o => simp [Step.acts] at h
  | bind name inner =>
    simp only [Step.acts] at h
    cases haccept : env.accept binding name with
    | error f => simp [haccept] at h
    | ok u =>
      rw [haccept] at h
      simp only [Step.unwrap, haccept]
      exact inner.compute_or_raise h
  | deferred f =>
    rcases List.mem_cons.1 h with rfl | hlater
    · exact .inl rfl
    · exact (f env world).compute_or_raise hlater

/-- The same for the step that a deferred step comes to. -/
theorem Deferral.compute_or_raise {env : Environment} {binding : Option String} {act : Act σ}
    (d : Deferral σ) (h : act ∈ d.acts env binding) :
    act = .compute env ∨ ∃ f, act = .raise f ∧ (d.unwrap env binding).1 = .error f := by
  cases d with
  | fault f world => exact .inr ⟨f, List.mem_singleton.1 h, rfl⟩
  | yields s world => exact s.compute_or_raise h

end

/-- When a fault about a name was found and not raised, it was found while the step was unwrapped:
nothing but deferred steps had been computed, and the world is the one that they left. -/
theorem Registry.compute_of_resolve {registry : Registry σ} {fuel : Nat} {env : Environment}
    {s : Step σ} {rest : List (Step σ)} {world world' : σ} {f : Fault}
    (h : registry.resolve fuel env s rest world = some (.error f, world')) (hnaming : f.IsNaming)
    (hfound : .raise f ∉ registry.resolveActs fuel env s world) :
    s.unwrap env none world = (.error f, world') ∧
      ∀ act ∈ registry.resolveActs fuel env s world, act = .compute env := by
  rcases resolve_eq_error h with hunwrap | ⟨binding, r, between, hunwrap, hfollow⟩
  · rw [(registry.resolve_of_unwrap_error hunwrap fuel rest).2] at hfound ⊢
    refine ⟨hunwrap, fun act hact => ?_⟩
    rcases s.compute_or_raise hact with hcompute | ⟨raised, rfl, hraised⟩
    · exact hcompute
    · rw [hunwrap] at hraised
      exact absurd (Except.error.inj hraised ▸ hact) hfound
  · -- Past the check of its name a step finds no fault but a missing interpreter.
    rcases raise_or_missing_of_follow hfollow with hraise | ⟨missing, rfl⟩
    · rw [(registry.resolve_of_request hunwrap fuel rest).2] at hfound
      exact absurd (List.mem_append_right _ hraise) hfound
    · exact hnaming.elim

/-! ## Binding what a step came to -/

namespace Stack

variable {top parent : Frame σ} {below : List (Frame σ)}

/-- A free name is bound in the innermost composite. -/
theorem bind_of_free (top : Frame σ) (below : List (Frame σ)) {binding : Option String}
    (hfree : top.env.Free binding) (v : Value) :
    Stack.bind ⟨top, below⟩ binding v =
      .ok ⟨{ top with env := top.env.bound binding v }, below⟩ := by
  simp only [Stack.bind, hfree.bindAs v]
  rfl

/-- A nested composite can be left, and what it delivers is bound in the one around it. -/
theorem Sound.leave_inner (h : (⟨top, parent :: below⟩ : Stack σ).Sound) (escaped : Option Value) :
    Stack.leave ⟨top, parent :: below⟩ escaped = .ok (.progress, .running
      ⟨{ parent with env := parent.env.bound top.binding (top.delivers escaped) }, below⟩) := by
  have hfree : parent.env.Free top.binding :=
    (List.isChain_cons.1 h.linked).1 parent (by simp)
  have hbind := bind_of_free parent below hfree (top.delivers escaped)
  unfold Frame.delivers at hbind ⊢
  simp only [Stack.leave, hbind]
  rfl

/-- The value that a step came to is bound in the composite of the step. -/
theorem commit_value {x : Resolution σ} (hfree : top.env.Free x.binding) {v : Value}
    (hverdict : x.verdict = .value v) (limit : Option Nat) :
    Stack.commit limit ⟨top, below⟩ x = .ok (.progress, .running
      ⟨{ top with steps := x.rest, env := top.env.bound x.binding v }, below⟩) := by
  have hbind := bind_of_free { top with steps := x.rest } below hfree v
  simp only [Stack.commit, hverdict, hbind]
  rfl

end Stack

/-- The value that an execution waits for is bound. -/
theorem Execution.Sound.resume_awaitingIo {binding : Option String} {stack : Stack σ}
    (h : (awaitingIo binding stack).Sound) (v : Value) :
    (awaitingIo binding stack).resume v = (.ok (), .running
      { stack with top := { stack.top with env := stack.top.env.bound binding v } }) := by
  have hfree : stack.top.env.Free binding := by
    intro name hname
    exact (h.pending name hname).2 stack.top rfl name rfl
  obtain ⟨top, below⟩ := stack
  simp only [resume, Stack.bind_of_free top below hfree v]

/-! ## Whole steps -/

namespace Executor

variable {x : Executor σ} {fuel : Nat} {stack : Stack σ} {world world' : σ}

/-- When a step finds a fault about a name, it has only computed deferred steps. -/
theorem compute_of_step {t : Transition σ (Event σ)} {f : Fault} (hsound : stack.Sound)
    (h : x.step fuel (.running stack) world = some t) (hfault : t.result = .error f)
    (hnaming : f.IsNaming) (hfound : .raise f ∉ x.registry.stepActs fuel stack world) :
    t.execution = .failed ∧
      (∃ s rest, stack.top.steps = s :: rest ∧
        s.unwrap stack.top.env none world = (.error f, t.world)) ∧
      ∀ act ∈ x.registry.stepActs fuel stack world, act = .compute stack.top.env := by
  rcases step_cases hsound h with ⟨event, hresult, -⟩ |
    ⟨g, ht, ⟨s, rest, hsteps, hresolve⟩ | ⟨depth, -, rfl⟩⟩
  · simp [hresult] at hfault
  · rw [ht] at hfault
    obtain rfl : g = f := Except.error.inj hfault
    rw [x.registry.stepActs_of_steps hsteps] at hfound ⊢
    obtain ⟨hunwrap, hacts⟩ := Registry.compute_of_resolve hresolve hnaming hfound
    exact ⟨by rw [ht]; rfl, ⟨s, rest, hsteps, hunwrap⟩, hacts⟩
  -- The depth limit is no fault about a name.
  · rw [ht] at hfault
    obtain rfl : .tooDeep depth = f := Except.error.inj hfault
    exact hnaming.elim

/-- A step that leaves a nested composite succeeds. -/
theorem step_of_leaves_inner {top parent : Frame σ} {below : List (Frame σ)}
    {escaped : Option Value} (hsound : (⟨top, parent :: below⟩ : Stack σ).Sound)
    (h : x.registry.Leaves fuel top world escaped world') :
    x.step fuel (.running ⟨top, parent :: below⟩) world = some ⟨.ok .progress, .running
      ⟨{ parent with env := parent.env.bound top.binding (top.delivers escaped) }, below⟩,
      world'⟩ := by
  have hstep : x.step fuel (.running ⟨top, parent :: below⟩) world = _ := x.step_of_leaves h
  rw [hsound.leave_inner escaped] at hstep
  exact hstep

/-- A step that comes to a value succeeds. -/
theorem step_of_value {top : Frame σ} {below : List (Frame σ)} {s : Step σ} {rest : List (Step σ)}
    {resolution : Resolution σ} {v : Value} (hsteps : top.steps = s :: rest)
    (h : x.registry.resolve fuel top.env s rest world = some (.ok resolution, world'))
    (hverdict : resolution.verdict = .value v) :
    x.step fuel (.running ⟨top, below⟩) world = some ⟨.ok .progress, .running
      ⟨{ top with steps := resolution.rest, env := top.env.bound resolution.binding v }, below⟩,
      world'⟩ := by
  have hfree : top.env.Free resolution.binding := Registry.resolve_free h
  have hstep : x.step fuel (.running ⟨top, below⟩) world = _ := x.step_of_resolve hsteps h
  rw [Stack.commit_value hfree hverdict] at hstep
  exact hstep

/-- Names are checked before a step has any effect, and no later binding fails. When a step finds
that a name is taken or that a step is not well formed, neither an interpreter nor an io has been
asked in it: it has computed deferred steps and nothing else, the world is the one that unwrapping
the front step leaves, and the execution has failed. Past the check there is nothing to find about
a name: a nested composite is left and what it delivers is bound in the one around it, a value that
a step came to is bound, and so is every value that the execution waits for. -/
theorem Reachable.names_checked_first {program : Program σ} {e : Execution σ}
    (h : x.Reachable program e) :
    (∀ stack, e = .running stack → ∀ fuel world,
      (∀ t f, x.step fuel e world = some t → t.result = .error f → f.IsNaming →
        .raise f ∉ x.registry.stepActs fuel stack world →
          t.execution = .failed ∧
            (∃ s rest, stack.top.steps = s :: rest ∧
              s.unwrap stack.top.env none world = (.error f, t.world)) ∧
            ∀ act ∈ x.registry.stepActs fuel stack world, act = .compute stack.top.env) ∧
      (∀ parent below escaped world', stack.below = parent :: below →
        x.registry.Leaves fuel stack.top world escaped world' →
          x.step fuel e world = some ⟨.ok .progress, .running
            ⟨{ parent with
              env := parent.env.bound stack.top.binding (stack.top.delivers escaped) }, below⟩,
            world'⟩) ∧
      ∀ s rest resolution v world', stack.top.steps = s :: rest →
        x.registry.resolve fuel stack.top.env s rest world = some (.ok resolution, world') →
        resolution.verdict = .value v →
          x.step fuel e world = some ⟨.ok .progress, .running
            ⟨{ stack.top with
              steps := resolution.rest
              env := stack.top.env.bound resolution.binding v }, stack.below⟩, world'⟩) ∧
    ∀ binding stack v, e = .awaitingIo binding stack →
      e.resume v = (.ok (), .running
        { stack with top := { stack.top with env := stack.top.env.bound binding v } }) := by
  have hsound := h.sound
  refine ⟨?_, ?_⟩
  · rintro ⟨top, below⟩ rfl fuel world
    have hstack : (⟨top, below⟩ : Stack σ).Sound := hsound.stack rfl
    refine ⟨fun t f hstep => compute_of_step hstack hstep, ?_, ?_⟩
    · rintro parent below escaped world' rfl hleaves
      exact step_of_leaves_inner hstack hleaves
    · intro s rest resolution v world' hsteps hresolve hverdict
      exact step_of_value hsteps hresolve hverdict
  · rintro binding stack v rfl
    exact hsound.resume_awaitingIo v

/-- Serves one request, which has no value. -/
def single : Executor Unit :=
  { registry := ⟨[.table "oracle" [("ask", fun _ => pure .unit)]]⟩ }

end Executor

/-- Asks for an io and then, by a deferred step, makes a request under the same name. -/
def Program.nameUsedTwice : Program Unit :=
  [.bind "answer" (.op (.io ⟨fun c w => (c, w), .late⟩)),
    .deferred fun _ world => .yields (.bind "answer" (.request ⟨"oracle", "ask", []⟩)) world]

/-- Where the second use of the name comes next. -/
def Stack.beforeSecondUse : Stack Unit :=
  ⟨{ steps := Program.nameUsedTwice.tail, env := ⟨[("answer", .null)]⟩ }, []⟩

/-- The second use of a name is found before the request is made. -/
theorem Executor.Reachable.names_checked_first_used_twice :
    single.Reachable Program.nameUsedTwice (.running .beforeSecondUse) ∧
      ∃ t, single.step 1 (.running .beforeSecondUse) () = some t ∧
        t.result = .error (.nameTaken "answer") ∧
        ∀ act ∈ single.registry.stepActs 1 .beforeSecondUse (),
          act = .compute Stack.beforeSecondUse.top.env := by
  have hstart : single.Reachable Program.nameUsedTwice _ := .start
  have hasked := hstart.step (show _ = some _ from rfl : Executor.step _ 0 _ () = some _)
  have hanswered : single.Reachable Program.nameUsedTwice (.running .beforeSecondUse) :=
    hasked.resume .null
  have hacts : single.registry.stepActs 1 .beforeSecondUse () =
      [.compute Stack.beforeSecondUse.top.env] := rfl
  refine ⟨hanswered, _, rfl, rfl, ?_⟩
  exact ((hanswered.names_checked_first.1 _ rfl 1 ()).1 _ _ rfl rfl trivial (by simp [hacts])).2.2

end EffectPrograms
