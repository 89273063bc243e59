import EffectPrograms.Proofs.Session
import EffectPrograms.Proofs.Soundness

/-!
# Composites and what encloses them

A composite sees its own steps and bindings, and nothing of the composites around it. Two executions
with the same composite in different enclosures therefore go on alike until that composite is left
(`Session.Alike.advance`): the frames above it come and go in both, the composite may give its place
to another one in both, and the frames below stay as they are. What the enclosure decides is where
the result goes, so that only the call that leaves the composite can tell the two apart.

`Stack.Alike` relates the stacks: the same frames on top of two frames with the same steps and
bindings, and each of these in its enclosure. Each operation on a stack keeps it, except for leaving
the lowest of these frames.
-/

namespace EffectPrograms

variable {σ : Type}

/-- What stands around a nested composite. -/
structure Enclosure (σ : Type) where
  /-- The name for the result of the composite. -/
  binding : Option String
  /-- Whether the result is `null` whatever the composite returns. -/
  discards : Bool
  /-- The composite directly around it. -/
  parent : Frame σ
  /-- The composites around that, from the inside out. -/
  below : List (Frame σ)

namespace Enclosure

/-- The composites around, from the inside out. -/
def frames (c : Enclosure σ) : List (Frame σ) := c.parent :: c.below

/-- A composite with steps and bindings in the enclosure. -/
def around (c : Enclosure σ) (steps : List (Step σ)) (env : Environment) : Stack σ :=
  ⟨{ steps, env, binding := c.binding, discards := c.discards }, c.frames⟩

end Enclosure

variable {c c' : Enclosure σ}

namespace Stack

/-! ## Stacks -/

/-- The same composites are open in two enclosures. -/
inductive Alike (c c' : Enclosure σ) : Stack σ → Stack σ → Prop where
  /-- The composite in the enclosure, or the one that took its place. -/
  | lowest {frame frame' : Frame σ} : frame.steps = frame'.steps → frame.env = frame'.env →
      frame.binding = c.binding → frame'.binding = c'.binding →
      Alike c c' ⟨frame, c.frames⟩ ⟨frame', c'.frames⟩
  /-- A composite that was opened since. -/
  | opened (frame : Frame σ) {stack stack' : Stack σ} : Alike c c' stack stack' →
      Alike c c' ⟨frame, stack.frames⟩ ⟨frame, stack'.frames⟩

namespace Alike

variable {stack stack' : Stack σ}

/-- The innermost composites have the same steps left. -/
theorem steps_eq (h : Alike c c' stack stack') : stack.top.steps = stack'.top.steps := by
  cases h with
  | lowest hsteps _ _ _ => exact hsteps
  | opened frame _ => rfl

/-- The innermost composites have the same bindings. -/
theorem env_eq (h : Alike c c' stack stack') : stack.top.env = stack'.top.env := by
  cases h with
  | lowest _ henv _ _ => exact henv
  | opened frame _ => rfl

/-- Both stacks have frames below the innermost one. -/
theorem inner (h : Alike c c' stack stack') : stack.below ≠ [] ∧ stack'.below ≠ [] := by
  cases h with
  | lowest _ _ _ _ | opened _ _ => exact ⟨List.cons_ne_nil _ _, List.cons_ne_nil _ _⟩

/-- Under the open composites the enclosures are as they were. -/
theorem suffix (h : Alike c c' stack stack') :
    c.frames <:+ stack.below ∧ c'.frames <:+ stack'.below := by
  induction h with
  | lowest _ _ _ _ => exact ⟨List.suffix_rfl, List.suffix_rfl⟩
  | opened frame _ ih => exact ⟨ih.1.trans (List.suffix_cons ..), ih.2.trans (List.suffix_cons ..)⟩

/-- The innermost composites may go on to the same steps and bindings. -/
theorem withTop (h : Alike c c' stack stack') (steps : List (Step σ)) (env : Environment) :
    Alike c c' ⟨{ stack.top with steps, env }, stack.below⟩
      ⟨{ stack'.top with steps, env }, stack'.below⟩ := by
  cases h with
  | lowest _ _ hbinding hbinding' => exact .lowest rfl rfl hbinding hbinding'
  | opened frame h => exact .opened { frame with steps, env } h

/-- The innermost composites may go on to the same steps. -/
theorem withSteps (h : Alike c c' stack stack') (steps : List (Step σ)) :
    Alike c c' ⟨{ stack.top with steps }, stack.below⟩
      ⟨{ stack'.top with steps }, stack'.below⟩ := by
  have hnext := h.withTop steps stack.top.env
  have henv : ({ stack'.top with steps, env := stack.top.env } : Frame σ) =
      { stack'.top with steps } := by rw [h.env_eq]
  rwa [henv] at hnext

/-- A value is bound in both or in neither. -/
theorem bind (h : Alike c c' stack stack') (binding : Option String) (v : Value) :
    (∃ f, stack.bind binding v = .error f ∧ stack'.bind binding v = .error f) ∨
      ∃ next next', stack.bind binding v = .ok next ∧ stack'.bind binding v = .ok next' ∧
        Alike c c' next next' := by
  simp only [Stack.bind, h.env_eq]
  cases stack'.top.env.bindAs binding v with
  | error f => exact .inl ⟨f, rfl, rfl⟩
  | ok env => exact .inr ⟨_, _, rfl, rfl, h.steps_eq ▸ h.withTop stack.top.steps env⟩

/-- Without a limit both open a composite, on top or in the place of an exhausted one. -/
theorem enter (h : Alike c c' stack stack') (binding : Option String) (steps : List (Step σ)) :
    ∃ next next', stack.enter none binding steps = .ok next ∧
      stack'.enter none binding steps = .ok next' ∧ Alike c c' next next' := by
  rw [enter_eq, enter_eq, ← h.steps_eq]
  by_cases hexhausted : stack.top.steps = []
  · rw [if_pos ⟨h.inner.1, hexhausted⟩, if_pos ⟨h.inner.2, hexhausted⟩]
    refine ⟨_, _, rfl, rfl, ?_⟩
    cases h with
    | lowest _ _ hbinding hbinding' => exact .lowest rfl rfl hbinding hbinding'
    | opened frame h => exact .opened _ h
  · rw [if_neg fun hboth => hexhausted hboth.2, if_neg fun hboth => hexhausted hboth.2]
    exact ⟨_, _, rfl, rfl, .opened _ h⟩

/-- A composite that was opened since the start is left in both or in neither. -/
theorem leave (h : Alike c c' stack stack') (escaped : Option Value) :
    (∃ frame frame', stack = ⟨frame, c.frames⟩ ∧ stack' = ⟨frame', c'.frames⟩ ∧
        frame.binding = c.binding ∧ frame'.binding = c'.binding) ∨
      (∃ f, stack.leave escaped = .error f ∧ stack'.leave escaped = .error f) ∨
      ∃ next next', stack.leave escaped = .ok (.progress, .running next) ∧
        stack'.leave escaped = .ok (.progress, .running next') ∧ Alike c c' next next' := by
  cases h with
  | lowest _ _ hbinding hbinding' => exact .inl ⟨_, _, rfl, rfl, hbinding, hbinding'⟩
  | opened frame h =>
    right
    rw [leave_frames, leave_frames]
    rcases h.bind frame.binding (if frame.discards then .null else escaped.getD .null) with
      ⟨f, hbind, hbind'⟩ | ⟨next, next', hbind, hbind', hnext⟩
    · exact .inl ⟨f, by rw [hbind]; rfl, by rw [hbind']; rfl⟩
    · exact .inr ⟨next, next', by rw [hbind]; rfl, by rw [hbind']; rfl, hnext⟩

end Alike

end Stack

/-! ## Executions -/

/-- Both executions go on in their enclosures, or wait for the same io, or have failed. -/
inductive Execution.Alike (c c' : Enclosure σ) : Execution σ → Execution σ → Prop where
  | running {stack stack' : Stack σ} : stack.Alike c c' stack' →
      Alike c c' (.running stack) (.running stack')
  | awaitingIo (binding : Option String) {stack stack' : Stack σ} : stack.Alike c c' stack' →
      Alike c c' (.awaitingIo binding stack) (.awaitingIo binding stack')
  | failed : Alike c c' .failed .failed

/-- As long as composites are open the enclosures are as they were, below at least one of them. -/
theorem Execution.Alike.suffix {e e' : Execution σ} (h : e.Alike c c' e') (hopen : e.depth ≠ 0) :
    c.frames <:+ e.frames.tail ∧ c'.frames <:+ e'.frames.tail := by
  cases h with
  | running h | awaitingIo _ h => exact h.suffix
  | failed => exact absurd rfl hopen

/-- What a step came to is carried out alike, unless it leaves the composite in the enclosure. -/
theorem Stack.Alike.commit {stack stack' : Stack σ} (h : stack.Alike c c' stack')
    (x : Resolution σ) :
    (∃ frame frame' v, stack = ⟨frame, c.frames⟩ ∧ stack' = ⟨frame', c'.frames⟩ ∧
        frame.binding = c.binding ∧ frame'.binding = c'.binding ∧ x.verdict = .escape v) ∨
      (∃ f, stack.commit none x = .error f ∧ stack'.commit none x = .error f) ∨
      ∃ event e e', stack.commit none x = .ok (event, e) ∧ stack'.commit none x = .ok (event, e') ∧
        e.Alike c c' e' := by
  have hrest := h.withSteps x.rest
  unfold Stack.commit
  cases hverdict : x.verdict with
  | value v =>
    right
    rcases hrest.bind x.binding v with ⟨f, hbind, hbind'⟩ | ⟨next, next', hbind, hbind', hnext⟩
    · exact .inl ⟨f, by simp only [hbind]; rfl, by simp only [hbind']; rfl⟩
    · exact .inr ⟨.progress, .running next, .running next', by simp only [hbind]; rfl,
        by simp only [hbind']; rfl, .running hnext⟩
  | escape v =>
    obtain ⟨top, below⟩ := stack
    obtain ⟨top', below'⟩ := stack'
    dsimp only
    rw [leave_withSteps, leave_withSteps]
    rcases h.leave (some v) with
      ⟨frame, frame', hframe, hframe', hbinding, hbinding'⟩ | ⟨f, hleave, hleave'⟩ |
        ⟨next, next', hleave, hleave', hnext⟩
    · exact .inl ⟨frame, frame', v, hframe, hframe', hbinding, hbinding', rfl⟩
    · exact .inr (.inl ⟨f, hleave, hleave'⟩)
    · exact .inr (.inr ⟨_, _, _, hleave, hleave', .running hnext⟩)
  | suspend io => exact .inr (.inr ⟨.io io, _, _, rfl, rfl, .awaitingIo x.binding hrest⟩)
  | enter steps =>
    obtain ⟨next, next', henter, henter', hnext⟩ := hrest.enter x.binding steps
    exact .inr (.inr ⟨.progress, .running next, .running next', by simp only [henter]; rfl,
      by simp only [henter']; rfl, .running hnext⟩)

/-- Without a limit both executions step alike, unless the step leaves the composite in the
enclosure. -/
theorem Stack.Alike.step {stack stack' : Stack σ} (h : stack.Alike c c' stack') (x : Executor σ)
    (fuel : Nat) (world : σ) :
    (∃ frame frame' escaped world', stack = ⟨frame, c.frames⟩ ∧ stack' = ⟨frame', c'.frames⟩ ∧
        frame.binding = c.binding ∧ frame'.binding = c'.binding ∧
        x.registry.Leaves fuel frame world escaped world' ∧
        x.registry.Leaves fuel frame' world escaped world') ∨
      ((x.limited none).step fuel (.running stack) world = none ∧
        (x.limited none).step fuel (.running stack') world = none) ∨
      ∃ result e e' world',
        (x.limited none).step fuel (.running stack) world = some ⟨result, e, world'⟩ ∧
        (x.limited none).step fuel (.running stack') world = some ⟨result, e', world'⟩ ∧
        e.Alike c c' e' := by
  -- Both resolve the same step in the same environment.
  simp only [Executor.step, Executor.limited, ← h.steps_eq, ← h.env_eq]
  cases hsteps : stack.top.steps with
  | nil =>
    rcases h.leave none with
      ⟨frame, frame', rfl, rfl, hbinding, hbinding'⟩ | ⟨f, hleave, hleave'⟩ |
        ⟨next, next', hleave, hleave', hnext⟩
    · have hsteps' : frame'.steps = [] := h.steps_eq ▸ hsteps
      exact .inl ⟨frame, frame', none, world, rfl, rfl, hbinding, hbinding', .exhausted hsteps,
        .exhausted hsteps'⟩
    · rw [hleave, hleave']
      exact .inr (.inr ⟨.error f, _, _, world, rfl, rfl, .failed⟩)
    · rw [hleave, hleave']
      exact .inr (.inr ⟨.ok .progress, _, _, world, rfl, rfl, .running hnext⟩)
  | cons s rest =>
    dsimp only
    cases hresolve : x.registry.resolve fuel stack.top.env s rest world with
    | none => exact .inr (.inl ⟨rfl, rfl⟩)
    | some found =>
      obtain ⟨result, world'⟩ := found
      cases result with
      | error f => exact .inr (.inr ⟨.error f, _, _, world', rfl, rfl, .failed⟩)
      | ok resolution =>
        dsimp only
        rcases h.commit resolution with
          ⟨frame, frame', v, rfl, rfl, hbinding, hbinding', hverdict⟩ | ⟨f, hcommit, hcommit'⟩ |
            ⟨event, e, e', hcommit, hcommit', hnext⟩
        · have hsteps' : frame'.steps = s :: rest := h.steps_eq ▸ hsteps
          have henv : frame.env = frame'.env := h.env_eq
          exact .inl ⟨frame, frame', some v, world', rfl, rfl, hbinding, hbinding',
            .returned hsteps hresolve hverdict, .returned hsteps' (henv ▸ hresolve) hverdict⟩
        · rw [hcommit, hcommit']
          exact .inr (.inr ⟨.error f, _, _, world', rfl, rfl, .failed⟩)
        · rw [hcommit, hcommit']
          exact .inr (.inr ⟨.ok event, e, e', world', rfl, rfl, hnext⟩)

/-- Whatever an io delivers, both executions bind it or both fail. -/
theorem Stack.Alike.receive {stack stack' : Stack σ} (h : stack.Alike c c' stack')
    (binding : Option String) (delivery : Except Fault Value) :
    ∃ result e e', (Execution.awaitingIo binding stack).receive delivery = (result, e) ∧
      (Execution.awaitingIo binding stack').receive delivery = (result, e') ∧ e.Alike c c' e' := by
  cases delivery with
  | error f => exact ⟨.error f, _, _, rfl, rfl, .failed⟩
  | ok v =>
    simp only [Execution.receive, Execution.resume]
    rcases h.bind binding v with ⟨f, hbind, hbind'⟩ | ⟨next, next', hbind, hbind', hnext⟩
    · rw [hbind, hbind']
      exact ⟨.error f, _, _, rfl, rfl, .failed⟩
    · rw [hbind, hbind']
      exact ⟨.ok (), _, _, rfl, rfl, .running hnext⟩

/-! ## Sessions -/

namespace Session

/-- The same composites are open in two enclosures, and all else about the sessions is the same. -/
structure Alike (c c' : Enclosure σ) (s s' : Session σ) : Prop where
  execution : s.execution.Alike c c' s'.execution
  acts : s.acts = s'.acts
  replies : s.replies = s'.replies
  surroundings : s.surroundings = s'.surroundings
  hung : s.hung = s'.hung

/-- A step left the composite in the enclosure. What it delivers is the last entry of the composite
around it, and nothing else has changed there or below; or the name for it was taken. -/
def Departs (registry : Registry σ) (fuel : Nat) (c : Enclosure σ) (escaped : Option Value)
    (s next : Session σ) : Prop :=
  ∃ frame, s.execution = .running ⟨frame, c.frames⟩ ∧ frame.binding = c.binding ∧
    registry.Leaves fuel frame s.surroundings.world escaped next.surroundings.world ∧
    ((next.execution = .running ⟨{ c.parent with
          env := c.parent.env.bound c.binding (frame.delivers escaped) }, c.below⟩ ∧
        next.replies = s.replies ++ [.stepped (.ok .progress)]) ∨
      ∃ name ∈ c.binding, c.parent.env.contains name = true ∧ next.execution = .failed ∧
        next.replies = s.replies ++ [.stepped (.error (.nameTaken name))])

/-- A step left the composite in both enclosures, with the same value, and showed the same. -/
structure Parts (registry : Registry σ) (fuel : Nat) (c c' : Enclosure σ)
    (s s' next next' : Session σ) : Prop where
  departs : ∃ escaped, s.Departs registry fuel c escaped next ∧
    s'.Departs registry fuel c' escaped next'
  acts : next.acts = next'.acts
  surroundings : next.surroundings = next'.surroundings
  hung : next.hung = next'.hung

end Session

/-- A composite that is left delivers its result to its enclosure, or the name for it is taken. -/
theorem Enclosure.leave_cases (c : Enclosure σ) {frame : Frame σ}
    (hbinding : frame.binding = c.binding) (escaped : Option Value) :
    Stack.leave ⟨frame, c.frames⟩ escaped = .ok (.progress, .running ⟨{ c.parent with
        env := c.parent.env.bound c.binding (frame.delivers escaped) }, c.below⟩) ∨
      ∃ name ∈ c.binding, c.parent.env.contains name = true ∧
        Stack.leave ⟨frame, c.frames⟩ escaped = .error (.nameTaken name) := by
  have hleave : Stack.leave ⟨frame, c.frames⟩ escaped =
      (Stack.bind ⟨c.parent, c.below⟩ c.binding (frame.delivers escaped)).map
        fun next => (.progress, .running next) := by
    rw [← hbinding]
    exact Stack.leave_frames frame ⟨c.parent, c.below⟩ escaped
  rw [hleave]
  rcases c.parent.env.bindAs_cases c.binding (frame.delivers escaped) with
    hbound | ⟨name, hname, htaken, hbound⟩
  · exact .inl (by simp only [Stack.bind, hbound]; rfl)
  · exact .inr ⟨name, hname, htaken, by simp only [Stack.bind, hbound]; rfl⟩

namespace Session

variable {x : Executor σ} {fuel : Nat} {s s' : Session σ}

/-- A call that leaves the composite in the enclosure shows what is done in the step and nothing
else. -/
theorem departs_of_leaves (x : Executor σ) {frame : Frame σ} {escaped : Option Value} {world : σ}
    (hhung : s.hung = false) (hs : s.execution = .running ⟨frame, c.frames⟩)
    (hbinding : frame.binding = c.binding)
    (hleaves : x.registry.Leaves fuel frame s.surroundings.world escaped world) :
    s.Departs x.registry fuel c escaped (x.machine.advance fuel s) ∧
      (x.machine.advance fuel s).acts =
        s.acts ++ x.registry.stepActs fuel ⟨frame, c.frames⟩ s.surroundings.world ∧
      (x.machine.advance fuel s).surroundings = { s.surroundings with world } ∧
      (x.machine.advance fuel s).hung = false := by
  have hstep : x.machine.step fuel (.running ⟨frame, c.frames⟩) s.surroundings.world = _ :=
    x.step_of_leaves hleaves
  rw [Machine.advance_of_running hhung hs, hstep]
  have hacts := (s.acts ++
    x.registry.stepActs fuel ⟨frame, c.frames⟩ s.surroundings.world).append_nil
  rcases c.leave_cases hbinding escaped with hleave | ⟨name, hname, htaken, hleave⟩
  · rw [hleave]
    exact ⟨⟨frame, hs, hbinding, hleaves, .inl ⟨rfl, rfl⟩⟩, hacts, rfl, hhung⟩
  · rw [hleave]
    exact ⟨⟨frame, hs, hbinding, hleaves, .inr ⟨name, hname, htaken, rfl, rfl⟩⟩, hacts, rfl,
      hhung⟩

/-- After a call that leaves the composite in the enclosure none of the frames above it is left. -/
theorem Departs.depth_le {escaped : Option Value} {next : Session σ}
    (h : s.Departs x.registry fuel c escaped next) : next.execution.depth ≤ c.frames.length := by
  obtain ⟨frame, -, -, -, ⟨hnext, -⟩ | ⟨name, -, -, hnext, -⟩⟩ := h
  · rw [hnext]
    exact le_rfl
  · rw [hnext]
    exact Nat.zero_le _

namespace Alike

/-- Where both executions are running, a step leads to the same, or it leaves the composite in the
enclosure. -/
theorem advance_running (h : s.Alike c c' s') (hhung : s.hung = false) {stack stack' : Stack σ}
    (hs : s.execution = .running stack) (hs' : s'.execution = .running stack')
    (hstack : stack.Alike c c' stack') :
    ((x.limited none).machine.advance fuel s).Alike c c'
        ((x.limited none).machine.advance fuel s') ∨
      Parts x.registry fuel c c' s s' ((x.limited none).machine.advance fuel s)
        ((x.limited none).machine.advance fuel s') := by
  have hacts : x.registry.stepActs fuel stack s.surroundings.world =
      x.registry.stepActs fuel stack' s'.surroundings.world := by
    simp only [Registry.stepActs, hstack.steps_eq, hstack.env_eq, h.surroundings]
  have hhung' : s'.hung = false := h.hung ▸ hhung
  rcases hstack.step x fuel s.surroundings.world with
    ⟨frame, frame', escaped, world, rfl, rfl, hbinding, hbinding', hleaves, hleaves'⟩ |
      ⟨hstep, hstep'⟩ | ⟨result, e, e', world, hstep, hstep', hnext⟩
  · rw [h.surroundings] at hleaves'
    obtain ⟨hdeparts, hacts₁, hsurroundings₁, hhung₁⟩ :=
      departs_of_leaves (x.limited none) hhung hs hbinding hleaves
    obtain ⟨hdeparts', hacts₂, hsurroundings₂, hhung₂⟩ :=
      departs_of_leaves (x.limited none) hhung' hs' hbinding' hleaves'
    refine .inr ⟨⟨escaped, hdeparts, hdeparts'⟩, ?_, ?_, hhung₁.trans hhung₂.symm⟩
    · rw [hacts₁, hacts₂, h.acts]
      exact congrArg _ hacts
    · rw [hsurroundings₁, hsurroundings₂, h.surroundings]
  · rw [h.surroundings] at hstep'
    have hmachine : (x.limited none).machine.step = (x.limited none).step := rfl
    rw [Machine.advance_of_running hhung hs, Machine.advance_of_running hhung' hs', hmachine, hstep,
      hstep']
    refine .inl ⟨h.execution, ?_, h.replies, h.surroundings, rfl⟩
    show s.acts ++ _ = s'.acts ++ _
    rw [h.acts]
    exact congrArg _ hacts
  · rw [h.surroundings] at hstep'
    have hmachine : (x.limited none).machine.step = (x.limited none).step := rfl
    rw [Machine.advance_of_running hhung hs, Machine.advance_of_running hhung' hs', hmachine, hstep,
      hstep']
    refine .inl ⟨hnext, ?_, ?_, ?_, h.hung⟩
    · show s.acts ++ _ ++ _ = s'.acts ++ _ ++ _
      rw [h.acts]
      exact congrArg (· ++ _) (congrArg _ hacts)
    · simp only [stepped, h.replies]
    · simp only [stepped, h.surroundings]

/-- Where both executions wait, a delivery leads to the same. -/
theorem advance_awaiting (m : Machine σ) (h : s.Alike c c' s') (hhung : s.hung = false)
    {binding : Option String} {stack stack' : Stack σ}
    (hs : s.execution = .awaitingIo binding stack)
    (hs' : s'.execution = .awaitingIo binding stack') (hstack : stack.Alike c c' stack') :
    (m.advance fuel s).Alike c c' (m.advance fuel s') := by
  cases hnext : s.surroundings.deliveries with
  | nil =>
    rw [Machine.advance_of_starved hs hnext,
      Machine.advance_of_starved hs' (h.surroundings ▸ hnext)]
    exact h
  | cons first later =>
    obtain ⟨delivery, world⟩ := first
    rw [Machine.advance_of_awaiting hhung hs hnext,
      Machine.advance_of_awaiting (h.hung ▸ hhung) hs' (h.surroundings ▸ hnext)]
    obtain ⟨result, e, e', hreceive, hreceive', halike⟩ := hstack.receive binding delivery
    rw [hreceive, hreceive']
    exact ⟨halike, h.acts, by simp only [resumed, h.replies], rfl, h.hung⟩

/-- A call leads to the same in both enclosures, or it leaves the composite. -/
theorem advance (x : Executor σ) (fuel : Nat) (h : s.Alike c c' s') :
    ((x.limited none).machine.advance fuel s).Alike c c'
        ((x.limited none).machine.advance fuel s') ∨
      Parts x.registry fuel c c' s s' ((x.limited none).machine.advance fuel s)
        ((x.limited none).machine.advance fuel s') := by
  by_cases hhung : s.hung = true
  · rw [Machine.advance_of_hung hhung, Machine.advance_of_hung (h.hung ▸ hhung)]
    exact .inl h
  replace hhung : s.hung = false := by simpa using hhung
  have hexecution := h.execution
  generalize hs : s.execution = e at hexecution
  generalize hs' : s'.execution = e' at hexecution
  cases hexecution with
  | running hstack => exact h.advance_running hhung hs hs' hstack
  | awaitingIo binding hstack => exact .inl (h.advance_awaiting _ hhung hs hs' hstack)
  | failed =>
    rw [Machine.advance_of_ended (.inr hs), Machine.advance_of_ended (.inr hs')]
    exact .inl h

/-- As long as the composite in the first enclosure is not left, calls lead to the same in both. -/
theorem iterate (x : Executor σ) (fuel : Nat) (h : s.Alike c c' s') (n : Nat)
    (hopen : ∀ i ≤ n,
      c.frames.length < (((x.limited none).machine.advance fuel)^[i] s).execution.depth) :
    (((x.limited none).machine.advance fuel)^[n] s).Alike c c'
      (((x.limited none).machine.advance fuel)^[n] s') := by
  induction n with
  | zero => exact h
  | succ n ih =>
    have hnext := hopen (n + 1) le_rfl
    rw [Function.iterate_succ_apply'] at hnext ⊢
    rw [Function.iterate_succ_apply']
    rcases (ih fun i hi => hopen i (Nat.le_succ_of_le hi)).advance x fuel with halike | hparts
    · exact halike
    · obtain ⟨escaped, hdeparts, -⟩ := hparts.departs
      exact absurd hdeparts.depth_le (Nat.not_le_of_lt hnext)

end Alike

/-- The session with a composite in an enclosure. -/
def within (s : Session σ) (c : Enclosure σ) (steps : List (Step σ)) (env : Environment) :
    Session σ :=
  { s with execution := .running (c.around steps env) }

end Session

/-- What encloses a composite cannot be seen from within. Whatever the other composites that are
open, the name for the result, and whether it is dropped: as long as the composite, or one that took
its place, is not left, every call leads to the same in both enclosures, and the frames of the
enclosure stay as they are. The next call leads to the same as well, or it leaves the composite in
both: after the same acts and with the same value, which becomes the last entry of the composite
directly around it unless its name is taken there, and nothing else changes below. -/
theorem Executor.enclosure_invisible (x : Executor σ) (fuel : Nat) (s : Session σ)
    (c c' : Enclosure σ) (steps : List (Step σ)) (env : Environment) (n : Nat)
    (hopen : ∀ i ≤ n, c.frames.length <
      (((x.limited none).machine.advance fuel)^[i] (s.within c steps env)).execution.depth) :
    let after := fun n c => ((x.limited none).machine.advance fuel)^[n] (s.within c steps env)
    (after n c).Alike c c' (after n c') ∧
      c.frames <:+ (after n c).execution.frames.tail ∧
      c'.frames <:+ (after n c').execution.frames.tail ∧
      ((after (n + 1) c).Alike c c' (after (n + 1) c') ∨
        Session.Parts x.registry fuel c c' (after n c) (after n c') (after (n + 1) c)
          (after (n + 1) c')) := by
  have hstart : (s.within c steps env).Alike c c' (s.within c' steps env) :=
    ⟨.running (.lowest rfl rfl rfl rfl), rfl, rfl, rfl, rfl⟩
  have halike := hstart.iterate x fuel n hopen
  have hdepth := hopen n le_rfl
  obtain ⟨hsuffix, hsuffix'⟩ := halike.execution.suffix (by omega)
  refine ⟨halike, hsuffix, hsuffix', ?_⟩
  dsimp only
  rw [Function.iterate_succ_apply', Function.iterate_succ_apply']
  exact halike.advance x fuel

/-- Asks for an io and returns a value. -/
def Program.askAndReturn : Program Unit :=
  [.bind "answer" (.op (.io ⟨fun c w => (c, w), .late⟩)), .returning (.bool true)]

/-- Around a composite whose result the program binds. -/
def Enclosure.named : Enclosure Unit := ⟨some "result", false, { steps := [] }, []⟩

/-- Around a composite whose result is dropped, two composites deep. -/
def Enclosure.silent : Enclosure Unit :=
  ⟨none, true, { steps := [.returning .null] }, [{ steps := [] }]⟩

/-- A session after a number of calls, with one io that delivers `null`. -/
def Session.askingIn (c : Enclosure Unit) (n : Nat) : Session Unit :=
  ((({ registry := .empty } : Executor Unit).limited none).machine.advance 0)^[n]
    (Session.within { execution := .failed, surroundings := ⟨(), [(.ok .null, ())]⟩ } c
      Program.askAndReturn .empty)

/-- A composite asks and is answered alike in two enclosures, and then returns to both. -/
theorem Executor.enclosure_invisible_ask_and_return :
    (Session.askingIn .named 2).Alike .named .silent (Session.askingIn .silent 2) ∧
      (Session.askingIn .named 3).execution =
        .running ⟨{ steps := [], env := ⟨[("result", .bool true)]⟩ }, []⟩ ∧
      (Session.askingIn .silent 3).execution =
        .running ⟨{ steps := [.returning .null] }, [{ steps := [] }]⟩ := by
  have hopen : ∀ i ≤ 2,
      Enclosure.named.frames.length < (Session.askingIn .named i).execution.depth := by
    decide
  exact ⟨(Executor.enclosure_invisible _ 0 _ .named .silent _ .empty 2 hopen).1, rfl, rfl⟩

end EffectPrograms
