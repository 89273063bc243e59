import EffectPrograms.Proofs.Resolving

/-!
# What can come of a step

To bind a value, to leave a composite and to carry out what a step came to each go by cases, some of
which fail. The lemmas `bind_cases`, `leave_cases` and `commit_cases` say once what has happened if
they do not fail, and `stepBy_cases` says it of a whole step. What this means for the number of open
composites, and for where the execution stands, follows from them.

`Executor.stepBy` leaves open how a step is carried out once it is resolved, so that machines which
differ only in that can be compared. `Registry.Leaves` says when a step leaves the innermost
composite, and with which value.
-/

namespace EffectPrograms

variable {σ : Type}

/-- Where a step with this event puts an execution. -/
def Event.status : Event σ → Status
  | .progress => .running
  | .io _ => .awaitingIo
  | .finished _ => .done

/-- Where a step with this result puts an execution. -/
def Transition.status (t : Transition σ (Event σ)) : Status :=
  match t.result with
  | .ok event => event.status
  | .error _ => .failed

/-- A computation in two parts only has a result if both have one. -/
theorem ok_of_bind_eq_ok {α β : Type} {m : Except Fault α} {f : α → Except Fault β} {b : β}
    (h : m >>= f = .ok b) : ∃ a, m = .ok a ∧ f a = .ok b := by
  cases m with
  | error fault => exact absurd h (by simp [Bind.bind, Except.bind])
  | ok a => exact ⟨a, rfl, h⟩

/-! ## Operations on the stack -/

namespace Stack

variable {stack : Stack σ} {event : Event σ} {next : Execution σ}

/-- The open composites, from the inside out. -/
def frames (stack : Stack σ) : List (Frame σ) := stack.top :: stack.below

/-- A value is bound in the environment of the innermost composite, and nothing else changes. -/
theorem bind_cases {bound : Stack σ} {binding : Option String} {v : Value}
    (h : stack.bind binding v = .ok bound) :
    ∃ env, stack.top.env.bindAs binding v = .ok env ∧
      bound = { stack with top := { stack.top with env } } := by
  obtain ⟨env, henv, hbound⟩ := ok_of_bind_eq_ok h
  exact ⟨env, henv, (Except.ok.inj hbound).symm⟩

/-- The outermost composite finishes the program; any other one delivers its value to the composite
below. -/
theorem leave_cases {escaped : Option Value} (h : stack.leave escaped = .ok (event, next)) :
    (stack.below = [] ∧ next = .done ∧
      event = .finished (escaped.elim (.environment stack.top.env) .returned)) ∨
    ∃ parent below bound, stack.below = parent :: below ∧
      Stack.bind ⟨parent, below⟩ stack.top.binding
        (if stack.top.discards then .null else escaped.getD .null) = .ok bound ∧
      event = .progress ∧ next = .running bound := by
  obtain ⟨top, below⟩ := stack
  cases below with
  | nil =>
    obtain ⟨hevent, hnext⟩ := Prod.mk.inj (Except.ok.inj h)
    refine .inl ⟨rfl, hnext.symm, ?_⟩
    rw [← hevent]
    cases escaped <;> rfl
  | cons parent below =>
    obtain ⟨bound, hbind, hresult⟩ := ok_of_bind_eq_ok h
    obtain ⟨hevent, hnext⟩ := Prod.mk.inj (Except.ok.inj hresult)
    exact .inr ⟨parent, below, bound, rfl, hbind, hevent.symm, hnext.symm⟩

/-- A composite that is left delivers its value to the one below. -/
theorem leave_frames (frame : Frame σ) (stack : Stack σ) (escaped : Option Value) :
    (⟨frame, stack.frames⟩ : Stack σ).leave escaped =
      (stack.bind frame.binding (if frame.discards then .null else escaped.getD .null)).map
        fun next => (.progress, .running next) := by
  simp only [leave, frames]
  cases stack.bind frame.binding (if frame.discards then .null else escaped.getD .null) <;> rfl

/-- Opens a composite on top of the others, whatever they have left to do. -/
def push (limit : Option Nat) (stack : Stack σ) (binding : Option String)
    (steps : List (Step σ)) : Except Fault (Stack σ) :=
  match limit with
  | some limit =>
    if limit ≤ stack.depth then .error (.tooDeep limit)
    else .ok ⟨{ steps := steps, binding := binding }, stack.frames⟩
  | none => .ok ⟨{ steps := steps, binding := binding }, stack.frames⟩

/-- A composite is opened in the place of an exhausted inner one, and on top of any other. -/
theorem enter_eq (limit : Option Nat) (stack : Stack σ) (binding : Option String)
    (steps : List (Step σ)) :
    stack.enter limit binding steps =
      if stack.below ≠ [] ∧ stack.top.steps = [] then
        .ok ⟨{ steps := steps, binding := stack.top.binding, discards := true }, stack.below⟩
      else stack.push limit binding steps := by
  have hexhausted : (!stack.below.isEmpty && stack.top.steps.isEmpty) = true ↔
      stack.below ≠ [] ∧ stack.top.steps = [] := by simp
  simp only [enter, hexhausted]
  rfl

/-- A composite can be opened on top within the limit. -/
theorem push_of_lt {limit : Option Nat} {stack : Stack σ}
    (h : ∀ depth ∈ limit, stack.depth < depth) (binding : Option String) (steps : List (Step σ)) :
    stack.push limit binding steps =
      .ok ⟨{ steps := steps, binding := binding }, stack.frames⟩ := by
  cases limit with
  | none => rfl
  | some depth => exact if_neg (Nat.not_le_of_lt (h depth rfl))

/-- A composite cannot be opened on top at the limit. -/
theorem push_of_le {depth : Nat} {stack : Stack σ} (h : depth ≤ stack.depth)
    (binding : Option String) (steps : List (Step σ)) :
    stack.push (some depth) binding steps = .error (.tooDeep depth) := if_pos h

/-- A composite is opened in the place of an exhausted one or on top, unless the limit is reached.
-/
theorem enter_cases (limit : Option Nat) (stack : Stack σ) (binding : Option String)
    (steps : List (Step σ)) :
    (stack.below ≠ [] ∧ stack.top.steps = [] ∧ stack.enter limit binding steps =
        .ok ⟨{ steps := steps, binding := stack.top.binding, discards := true }, stack.below⟩) ∨
      stack.enter limit binding steps =
        .ok ⟨{ steps := steps, binding := binding }, stack.frames⟩ ∨
      ∃ depth, limit = some depth ∧ stack.enter limit binding steps = .error (.tooDeep depth) := by
  rw [enter_eq]
  by_cases hexhausted : stack.below ≠ [] ∧ stack.top.steps = []
  · rw [if_pos hexhausted]
    exact .inl ⟨hexhausted.1, hexhausted.2, rfl⟩
  rw [if_neg hexhausted]
  -- The limit only matters to a composite that is opened on top.
  by_cases hwithin : ∀ depth ∈ limit, stack.depth < depth
  · exact .inr (.inl (push_of_lt hwithin binding steps))
  · obtain ⟨depth, hlimit, hle⟩ : ∃ depth ∈ limit, depth ≤ stack.depth := by
      simpa using hwithin
    obtain rfl : limit = some depth := hlimit
    exact .inr (.inr ⟨depth, rfl, push_of_le hle binding steps⟩)

/-- What a step came to is a value that is bound, or the innermost composite is left, or the
execution waits, or a composite is opened. -/
theorem commit_cases {limit : Option Nat} {x : Resolution σ}
    (h : stack.commit limit x = .ok (event, next)) :
    (∃ v bound, x.verdict = .value v ∧
      Stack.bind ⟨{ stack.top with steps := x.rest }, stack.below⟩ x.binding v = .ok bound ∧
      event = .progress ∧ next = .running bound) ∨
    (∃ v, x.verdict = .escape v ∧
      Stack.leave ⟨{ stack.top with steps := x.rest }, stack.below⟩ (some v) =
        .ok (event, next)) ∨
    (∃ io, x.verdict = .suspend io ∧ event = .io io ∧
      next = .awaitingIo x.binding ⟨{ stack.top with steps := x.rest }, stack.below⟩) ∨
    ∃ steps entered, x.verdict = .enter steps ∧
      Stack.enter limit ⟨{ stack.top with steps := x.rest }, stack.below⟩ x.binding steps =
        .ok entered ∧
      event = .progress ∧ next = .running entered := by
  unfold commit at h
  cases hverdict : x.verdict with
  | value v =>
    rw [hverdict] at h
    obtain ⟨bound, hbind, hresult⟩ := ok_of_bind_eq_ok h
    obtain ⟨hevent, hnext⟩ := Prod.mk.inj (Except.ok.inj hresult)
    exact .inl ⟨v, bound, rfl, hbind, hevent.symm, hnext.symm⟩
  | escape v =>
    rw [hverdict] at h
    exact .inr (.inl ⟨v, rfl, h⟩)
  | suspend io =>
    rw [hverdict] at h
    obtain ⟨hevent, hnext⟩ := Prod.mk.inj (Except.ok.inj h)
    exact .inr (.inr (.inl ⟨io, rfl, hevent.symm, hnext.symm⟩))
  | enter steps =>
    rw [hverdict] at h
    obtain ⟨entered, henter, hresult⟩ := ok_of_bind_eq_ok h
    obtain ⟨hevent, hnext⟩ := Prod.mk.inj (Except.ok.inj hresult)
    exact .inr (.inr (.inr ⟨steps, entered, rfl, henter, hevent.symm, hnext.symm⟩))

/-- Binding does not open or close a composite. -/
theorem depth_of_bind {bound : Stack σ} {binding : Option String} {v : Value}
    (h : stack.bind binding v = .ok bound) : bound.depth = stack.depth := by
  obtain ⟨env, -, rfl⟩ := bind_cases h
  rfl

/-- Leaving a composite closes it. -/
theorem depth_of_leave {escaped : Option Value} (h : stack.leave escaped = .ok (event, next)) :
    next.depth < stack.depth := by
  rcases leave_cases h with ⟨-, rfl, -⟩ | ⟨parent, below, bound, hbelow, hbind, -, rfl⟩
  · exact Nat.succ_pos _
  · have hdepth : bound.depth = below.length + 1 := depth_of_bind hbind
    have hmore : stack.depth = below.length + 2 := by rw [depth, hbelow, List.length_cons]
    show bound.depth < stack.depth
    omega

/-- Leaving a composite puts the execution where the event says. -/
theorem status_of_leave {escaped : Option Value} (h : stack.leave escaped = .ok (event, next)) :
    next.status = event.status := by
  rcases leave_cases h with ⟨-, rfl, rfl⟩ | ⟨parent, below, bound, -, -, rfl, rfl⟩
  · rfl
  · rfl

/-- Carrying out what a step came to puts the execution where the event says. -/
theorem status_of_commit {limit : Option Nat} {x : Resolution σ}
    (h : stack.commit limit x = .ok (event, next)) : next.status = event.status := by
  rcases commit_cases h with ⟨v, bound, -, -, rfl, rfl⟩ | ⟨v, -, hleave⟩ | ⟨io, -, rfl, rfl⟩ |
    ⟨steps, entered, -, -, rfl, rfl⟩
  · rfl
  · exact status_of_leave hleave
  · rfl
  · rfl

/-- Within the limit a composite is opened on top of one that the step is not the last of, and on
top of the outermost one in any case. -/
theorem commit_enter {limit : Option Nat} {x : Resolution σ} {steps : List (Step σ)}
    (hverdict : x.verdict = .enter steps) (hgoes : ¬ (stack.below ≠ [] ∧ x.rest = []))
    (hlimit : ∀ depth ∈ limit, stack.depth < depth) :
    stack.commit limit x = .ok (.progress, .running
      ⟨{ steps := steps, binding := x.binding },
        { stack.top with steps := x.rest } :: stack.below⟩) := by
  have hlimit' : ∀ depth ∈ limit,
      Stack.depth ⟨{ stack.top with steps := x.rest }, stack.below⟩ < depth := hlimit
  simp only [commit, hverdict]
  rw [enter_eq, if_neg hgoes, push_of_lt hlimit']
  rfl

/-- If the step is the last of an inner composite, that gives its place to the one that is opened,
whatever the limit. -/
theorem commit_enter_last {limit : Option Nat} {x : Resolution σ} {steps : List (Step σ)}
    (hverdict : x.verdict = .enter steps) (hgives : stack.below ≠ [] ∧ x.rest = []) :
    stack.commit limit x = .ok (.progress, .running
      ⟨{ steps := steps, binding := stack.top.binding, discards := true }, stack.below⟩) := by
  simp only [commit, hverdict]
  rw [enter_eq, if_pos hgives]
  rfl

/-- At the limit no composite is opened on top. -/
theorem commit_enter_tooDeep {depth : Nat} {x : Resolution σ} {steps : List (Step σ)}
    (hverdict : x.verdict = .enter steps) (hgoes : ¬ (stack.below ≠ [] ∧ x.rest = []))
    (hdepth : depth ≤ stack.depth) : stack.commit (some depth) x = .error (.tooDeep depth) := by
  have hdepth' : depth ≤ Stack.depth ⟨{ stack.top with steps := x.rest }, stack.below⟩ := hdepth
  simp only [commit, hverdict]
  rw [enter_eq, if_neg hgoes, push_of_le hdepth']
  rfl

end Stack

/-! ## Steps -/

/-- Steps an execution and carries out what its front step came to in a way of one's own. -/
def Executor.stepBy (x : Executor σ)
    (commit : Stack σ → Resolution σ → Except Fault (Event σ × Execution σ)) (fuel : Nat)
    (execution : Execution σ) (world : σ) : Option (Transition σ (Event σ)) :=
  match execution with
  | .running stack =>
    match stack.top.steps with
    | [] => some (.ofResult (stack.leave none) world)
    | s :: rest =>
      match x.registry.resolve fuel stack.top.env s rest world with
      | none => none
      | some (.error f, world) => some (.fail f world)
      | some (.ok resolution, world) => some (.ofResult (commit stack resolution) world)
  | other => some ⟨.error (.notRunning other.status), other, world⟩

/-- The executor commits what a step came to within its depth limit. -/
theorem Executor.step_eq_stepBy (x : Executor σ) :
    x.step = x.stepBy (Stack.commit x.settings.maxDepth) := by
  funext fuel execution world
  cases execution <;> rfl

/-- How a step ends if it returns: it closes a composite without steps, or its front step cannot be
resolved, or what that came to is committed. -/
theorem Executor.stepBy_cases {x : Executor σ}
    {commit : Stack σ → Resolution σ → Except Fault (Event σ × Execution σ)} {fuel : Nat}
    {stack : Stack σ} {world : σ} {t : Transition σ (Event σ)}
    (h : x.stepBy commit fuel (.running stack) world = some t) :
    (stack.top.steps = [] ∧ t = .ofResult (stack.leave none) world) ∨
    ∃ s rest, stack.top.steps = s :: rest ∧
      ((∃ f world', x.registry.resolve fuel stack.top.env s rest world = some (.error f, world') ∧
          t = .fail f world') ∨
        ∃ resolution world',
          x.registry.resolve fuel stack.top.env s rest world = some (.ok resolution, world') ∧
            t = .ofResult (commit stack resolution) world') := by
  simp only [stepBy] at h
  cases hsteps : stack.top.steps with
  | nil =>
    simp only [hsteps, Option.some.injEq] at h
    exact .inl ⟨rfl, h.symm⟩
  | cons s rest =>
    refine .inr ⟨s, rest, rfl, ?_⟩
    simp only [hsteps] at h
    cases hresolve : x.registry.resolve fuel stack.top.env s rest world with
    | none => simp [hresolve] at h
    | some found =>
      obtain ⟨result, world'⟩ := found
      cases result with
      | error f =>
        simp only [hresolve, Option.some.injEq] at h
        exact .inl ⟨f, world', rfl, h.symm⟩
      | ok resolution =>
        simp only [hresolve, Option.some.injEq] at h
        exact .inr ⟨resolution, world', rfl, h.symm⟩

/-- Where a step puts the execution, if carrying out what the step came to puts it where the event
says. -/
theorem Executor.status_of_stepBy {x : Executor σ}
    {commit : Stack σ → Resolution σ → Except Fault (Event σ × Execution σ)}
    (hcommit : ∀ stack resolution event next, commit stack resolution = .ok (event, next) →
      next.status = event.status)
    {fuel : Nat} {stack : Stack σ} {world : σ} {t : Transition σ (Event σ)}
    (h : x.stepBy commit fuel (.running stack) world = some t) : t.execution.status = t.status := by
  -- A fault puts the execution where it belongs, so that only the events matter.
  have hresult : ∀ (result : Except Fault (Event σ × Execution σ)) world,
      (∀ event next, result = .ok (event, next) → next.status = event.status) →
        (Transition.ofResult result world).execution.status =
          (Transition.ofResult result world).status := by
    intro result world hok
    cases result with
    | error f => rfl
    | ok found => exact hok found.1 found.2 rfl
  rcases stepBy_cases h with ⟨hsteps, rfl⟩ |
    ⟨s, rest, hsteps, ⟨f, world', hresolve, rfl⟩ | ⟨resolution, world', hresolve, rfl⟩⟩
  · exact hresult _ _ fun event next => Stack.status_of_leave
  · rfl
  · exact hresult _ _ fun event next => hcommit stack resolution event next

/-- A front step that is resolved is committed. -/
theorem Executor.step_of_resolve (x : Executor σ) {fuel : Nat} {stack : Stack σ} {s : Step σ}
    {rest : List (Step σ)} {resolution : Resolution σ} {world world' : σ}
    (hsteps : stack.top.steps = s :: rest)
    (h : x.registry.resolve fuel stack.top.env s rest world = some (.ok resolution, world')) :
    x.step fuel (.running stack) world =
      some (.ofResult (stack.commit x.settings.maxDepth resolution) world') := by
  simp only [step, hsteps, h]

/-- A front step that cannot be resolved fails. -/
theorem Executor.step_of_resolve_error (x : Executor σ) {fuel : Nat} {stack : Stack σ} {s : Step σ}
    {rest : List (Step σ)} {f : Fault} {world world' : σ} (hsteps : stack.top.steps = s :: rest)
    (h : x.registry.resolve fuel stack.top.env s rest world = some (.error f, world')) :
    x.step fuel (.running stack) world = some (.fail f world') := by
  simp only [step, hsteps, h]

/-- A step that comes to a request which fails, fails with it. -/
theorem Executor.step_of_dispatch_error (x : Executor σ) {stack : Stack σ} {s : Step σ}
    {rest rest' : List (Step σ)} (hsteps : stack.top.steps = s :: rest) {world world' last : σ}
    {binding : Option String} {r : Request} {acts : List (Act σ)} {f : Fault}
    (hcomes : x.registry.ComesTo stack.top.env s rest world binding r rest' world' acts)
    (hdispatch : x.registry.dispatch r world' = (.error f, last)) :
    ∃ n, ∀ fuel ≥ n, x.step fuel (.running stack) world = some (.fail f last) ∧
      x.registry.stepActs fuel stack world = acts ++ x.registry.acts 1 r world' := by
  obtain ⟨n, hn⟩ := hcomes.resolve_of_dispatch_error hdispatch
  refine ⟨n, fun fuel hfuel => ⟨x.step_of_resolve_error hsteps (hn fuel hfuel).1, ?_⟩⟩
  rw [x.registry.stepActs_of_steps hsteps, (hn fuel hfuel).2]

/-! ## Leaving a composite -/

/-- What a composite that is left delivers to the one around it. -/
def Frame.delivers (frame : Frame σ) (escaped : Option Value) : Value :=
  if frame.discards then .null else escaped.getD .null

/-- The next step leaves a composite, with a value if it returns one: the composite has no step
left, or its front step returns. -/
inductive Registry.Leaves (registry : Registry σ) (fuel : Nat) (frame : Frame σ) (world : σ) :
    Option Value → σ → Prop where
  | exhausted : frame.steps = [] → Leaves registry fuel frame world none world
  | returned {s : Step σ} {rest : List (Step σ)} {x : Resolution σ} {v : Value} {world' : σ} :
      frame.steps = s :: rest →
      registry.resolve fuel frame.env s rest world = some (.ok x, world') →
      x.verdict = .escape v → Leaves registry fuel frame world (some v) world'

/-- It does not matter which steps a composite that is left still has. -/
theorem Stack.leave_withSteps (top : Frame σ) (below : List (Frame σ)) (steps : List (Step σ))
    (escaped : Option Value) :
    Stack.leave ⟨{ top with steps }, below⟩ escaped = Stack.leave ⟨top, below⟩ escaped := by
  cases below <;> rfl

/-- A step that leaves a composite comes to what leaving it comes to. -/
theorem Executor.step_of_leaves (x : Executor σ) {fuel : Nat} {stack : Stack σ} {world world' : σ}
    {escaped : Option Value} (h : x.registry.Leaves fuel stack.top world escaped world') :
    x.step fuel (.running stack) world = some (.ofResult (stack.leave escaped) world') := by
  cases h with
  | exhausted hsteps => simp only [step, hsteps]
  | returned hsteps hresolve hverdict =>
    rw [x.step_of_resolve hsteps hresolve]
    simp only [Stack.commit, hverdict, Stack.leave_withSteps]

end EffectPrograms
