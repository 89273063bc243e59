import EffectPrograms.Proofs.Answers
import EffectPrograms.Proofs.DepthLimit
import EffectPrograms.Proofs.Driving

/-!
# Interpreters that go on in their last step

An interpreter can have a loop run by answering with steps of which the last asks it again. Nothing
piles up then, for an inner composite that has started its last step gives its place to the one
which that step opens. `Registry.TailExpanding` says that no other step opens a composite inside
another, of all that reaches the execution. Two composites are enough for such interpreters, however
long a program runs.

What makes this so is a fact about every execution on the way (`Registry.InTwoFrames`): the program
is alone, or one composite is open on top of it, and of that only the last step may open another. A
step of an inner composite then leaves the program below as it is (`step_inner`), until a value is
bound there. That value is `null` once a composite has been replaced.
-/

namespace EffectPrograms

variable {σ : Type}

/-! ## Steps that come to certain operations -/

mutual

/-- Whatever the environment and the world, the operation of the step has a property. -/
def Step.ComesOnlyTo (p : Operation σ → Prop) : Step σ → Prop
  | .op o => p o
  | .bind _ inner => inner.ComesOnlyTo p
  | .deferred f => ∀ env world, (f env world).ComesOnlyTo p

/-- The same for the step that a deferred step comes to. -/
def Deferral.ComesOnlyTo (p : Operation σ → Prop) : Deferral σ → Prop
  | .fault _ _ => True
  | .yields s _ => s.ComesOnlyTo p

end

mutual

/-- The operation that a step is unwrapped to has the property. -/
theorem Step.ComesOnlyTo.unwrap {p : Operation σ → Prop} {s : Step σ} (h : s.ComesOnlyTo p)
    {env : Environment} {binding found : Option String} {world world' : σ} {o : Operation σ}
    (hunwrap : s.unwrap env binding world = (.ok (found, o), world')) : p o := by
  cases s with
  | op o' =>
    simp only [Step.unwrap, Prod.mk.injEq, Except.ok.injEq] at hunwrap
    obtain ⟨⟨-, rfl⟩, -⟩ := hunwrap
    exact h
  | bind name inner =>
    have hinner : inner.ComesOnlyTo p := h
    simp only [Step.unwrap] at hunwrap
    cases haccept : env.accept binding name with
    | error f => simp [haccept] at hunwrap
    | ok u =>
      rw [haccept] at hunwrap
      exact hinner.unwrap hunwrap
  | deferred f =>
    have hyields : (f env world).ComesOnlyTo p := h env world
    simp only [Step.unwrap] at hunwrap
    exact hyields.unwrap hunwrap

/-- So has the operation that is found in the step which a deferred step comes to. -/
theorem Deferral.ComesOnlyTo.unwrap {p : Operation σ → Prop} {d : Deferral σ}
    (h : d.ComesOnlyTo p) {env : Environment} {binding found : Option String} {world' : σ}
    {o : Operation σ} (hunwrap : d.unwrap env binding = (.ok (found, o), world')) : p o := by
  cases d with
  | fault f world => simp [Deferral.unwrap] at hunwrap
  | yields s world =>
    have hs : s.ComesOnlyTo p := h
    simp only [Deferral.unwrap] at hunwrap
    exact hs.unwrap hunwrap

end

mutual

/-- A step that only comes to certain operations only comes to others that these are among. -/
theorem Step.ComesOnlyTo.mono {p q : Operation σ → Prop} (hpq : ∀ o, p o → q o) {s : Step σ}
    (h : s.ComesOnlyTo p) : s.ComesOnlyTo q := by
  cases s with
  | op o => exact hpq o h
  | bind name inner =>
    have hinner : inner.ComesOnlyTo p := h
    exact hinner.mono hpq
  | deferred f => exact fun env world => Deferral.ComesOnlyTo.mono hpq (h env world)

/-- The same for what a deferred step comes to. -/
theorem Deferral.ComesOnlyTo.mono {p q : Operation σ → Prop} (hpq : ∀ o, p o → q o)
    {d : Deferral σ} (h : d.ComesOnlyTo p) : d.ComesOnlyTo q := by
  cases d with
  | fault f world => trivial
  | yields s world =>
    have hs : s.ComesOnlyTo p := h
    exact hs.mono hpq

end

/-- The operation is not a composite itself. -/
def Operation.Simple (o : Operation σ) : Prop := ∀ steps, o ≠ .composite steps

/-- No step of the program is written as a composite, or computes one. -/
def Program.Simple (steps : List (Step σ)) : Prop := ∀ s ∈ steps, s.ComesOnlyTo Operation.Simple

/-! ## Interpreters -/

namespace Registry

variable (registry : Registry σ)

/-- The operation never opens a composite: it has a value, leaves the composite that it stands in,
waits for an io, or fails. -/
def Flat : Operation σ → Prop
  | .request r => ∀ {fuel rest world verdict rest' world'},
      registry.follow fuel r rest world = some (.ok (verdict, rest'), world') →
        ∀ steps, verdict ≠ .enter steps
  | .composite _ => False
  | .io _ | .returning _ => True

/-- Only the last step may open a composite, and it is not one itself. -/
def OpensLast : List (Step σ) → Prop
  | [] => True
  | [last] => last.ComesOnlyTo Operation.Simple
  | s :: next :: later => s.ComesOnlyTo registry.Flat ∧ OpensLast (next :: later)

/-- Interpreters go on in the last step, as far as the execution sees. What a request is answered
with, and what is to replace the rest of a composite, are taken as they reach the execution: if a
fan-out answers, that is the sequence which it has put together, and not what its branches have
answered. -/
structure TailExpanding : Prop where
  /-- Of the steps that a request is answered with only the last may open a composite. -/
  answers : ∀ {r world answer replacement world' steps},
    registry.dispatch r world = (.ok (answer, replacement), world') →
      answer.verdict? = some (.enter steps) → registry.OpensLast steps
  /-- So it is with the steps that are to replace the rest of a composite. -/
  replacements : ∀ {r world answer steps world'},
    registry.dispatch r world = (.ok (answer, some steps), world') → registry.OpensLast steps
  /-- A request that comes to a composite leaves the rest of the one that it stands in as it is. -/
  keeps : ∀ {fuel r rest world steps rest' world'},
    registry.follow fuel r rest world = some (.ok (.enter steps, rest'), world') → rest' = rest

variable {registry}

/-- A flat operation is not a composite. -/
theorem Flat.simple {o : Operation σ} (h : registry.Flat o) : o.Simple := by
  rintro steps rfl
  exact h

/-- A flat operation does not open a composite. -/
theorem Flat.ne_enter {o : Operation σ} (h : registry.Flat o) {fuel : Nat}
    {rest rest' : List (Step σ)} {world world' : σ} {verdict : Verdict σ}
    (hresolve : registry.resolveOperation fuel o rest world = some (.ok (verdict, rest'), world'))
    (steps : List (Step σ)) : verdict ≠ .enter steps := by
  cases o with
  | request r => exact h hresolve steps
  | composite steps' => exact h.elim
  | io asked =>
    obtain ⟨⟨rfl, -⟩, -⟩ := by simpa [resolveOperation] using hresolve
    simp
  | returning v =>
    obtain ⟨⟨rfl, -⟩, -⟩ := by simpa [resolveOperation] using hresolve
    simp

/-- No step is a composite if only the last may open one. -/
theorem OpensLast.simple {steps : List (Step σ)} (h : registry.OpensLast steps) :
    Program.Simple steps := by
  induction steps with
  | nil => exact fun s hs => absurd hs List.not_mem_nil
  | cons s rest ih =>
    cases rest with
    | nil => exact List.forall_mem_singleton.2 h
    | cons next later =>
      obtain ⟨hflat, hlater⟩ := h
      exact List.forall_mem_cons.2 ⟨hflat.mono fun _ => Flat.simple, ih hlater⟩

/-- If only the last step may open a composite, the same holds of the steps after the first. -/
theorem OpensLast.tail {s : Step σ} {rest : List (Step σ)} (h : registry.OpensLast (s :: rest)) :
    registry.OpensLast rest := by
  cases rest with
  | nil => trivial
  | cons next later => exact h.2

/-- If only the last step may open a composite, one before it is flat. -/
theorem OpensLast.flat {s : Step σ} {rest : List (Step σ)} (h : registry.OpensLast (s :: rest))
    (hrest : rest ≠ []) : s.ComesOnlyTo registry.Flat := by
  cases rest with
  | nil => exact absurd rfl hrest
  | cons next later => exact h.1

namespace TailExpanding

variable (h : registry.TailExpanding)
include h

/-- What a request comes to, and what it leaves of the composite, opens composites in the last step
only. -/
theorem follow {fuel : Nat} {r : Request} {rest rest' : List (Step σ)} {world world' : σ}
    {verdict : Verdict σ}
    (hfollow : registry.follow fuel r rest world = some (.ok (verdict, rest'), world')) :
    (rest' = rest ∨ registry.OpensLast rest') ∧
      ∀ steps, verdict = .enter steps → registry.OpensLast steps := by
  induction fuel generalizing r rest world with
  | zero => simp [Registry.follow] at hfollow
  | succ fuel ih =>
    -- A dispatch leaves the rest as it is, or has it replaced.
    have hleft : ∀ {r world answer replacement world'},
        registry.dispatch r world = (.ok (answer, replacement), world') →
          replacement.getD rest = rest ∨ registry.OpensLast (replacement.getD rest) := by
      intro r world answer replacement world' hdispatch
      cases replacement with
      | none => exact .inl rfl
      | some steps => exact .inr (h.replacements hdispatch)
    rcases follow_succ_cases hfollow with ⟨f, -, hresult⟩ |
      ⟨answer, replacement, verdict', hdispatch, hverdict, hresult⟩ |
      ⟨next, replacement, between, hdispatch, hnext⟩
    · simp at hresult
    · obtain ⟨rfl, rfl⟩ := Prod.mk.inj (Except.ok.inj hresult)
      refine ⟨hleft hdispatch, ?_⟩
      rintro steps rfl
      exact h.answers hdispatch hverdict
    · obtain ⟨hrest, hopened⟩ := ih hnext
      refine ⟨?_, hopened⟩
      rcases hrest with rfl | hrest
      · exact hleft hdispatch
      · exact .inr hrest

/-- The same for an operation that is no composite. If it opens a composite, the rest of the one
that it stands in stays. -/
theorem resolveOperation {fuel : Nat} {o : Operation σ} (ho : o.Simple)
    {rest rest' : List (Step σ)} {world world' : σ} {verdict : Verdict σ}
    (hresolve : registry.resolveOperation fuel o rest world = some (.ok (verdict, rest'), world')) :
    (rest' = rest ∨ registry.OpensLast rest') ∧
      ∀ steps, verdict = .enter steps → registry.OpensLast steps ∧ rest' = rest := by
  cases o with
  | request r =>
    obtain ⟨hrest, hopened⟩ := h.follow hresolve
    refine ⟨hrest, ?_⟩
    rintro steps rfl
    exact ⟨hopened steps rfl, h.keeps hresolve⟩
  | composite steps => exact absurd rfl (ho steps)
  | io _ | returning _ =>
    obtain ⟨⟨rfl, rfl⟩, -⟩ := by simpa [Registry.resolveOperation] using hresolve
    exact ⟨.inl rfl, by simp⟩

variable {fuel : Nat} {env : Environment} {s : Step σ} {rest : List (Step σ)} {world world' : σ}
  {x : Resolution σ}

/-- A step of a program leaves a program without composites. If it opens a composite, only the last
step of that may open another. -/
theorem resolve_outer (hsteps : Program.Simple (s :: rest))
    (hresolve : registry.resolve fuel env s rest world = some (.ok x, world')) :
    Program.Simple x.rest ∧
      ∀ steps, x.verdict = .enter steps → registry.OpensLast steps := by
  obtain ⟨hs, hrest⟩ := List.forall_mem_cons.1 hsteps
  obtain ⟨o, between, hunwrap, hoperation⟩ := resolve_eq_ok hresolve
  obtain ⟨hleft, hopened⟩ := h.resolveOperation (hs.unwrap hunwrap) hoperation
  refine ⟨?_, fun steps hverdict => (hopened steps hverdict).1⟩
  rcases hleft with hsame | hleft
  · rw [hsame]
    exact hrest
  · exact hleft.simple

/-- If only the last step of a composite may open another, this stays so. The step that does open
one is the last. -/
theorem resolve_inner (hsteps : registry.OpensLast (s :: rest))
    (hresolve : registry.resolve fuel env s rest world = some (.ok x, world')) :
    registry.OpensLast x.rest ∧
      ∀ steps, x.verdict = .enter steps → registry.OpensLast steps ∧ x.rest = [] := by
  obtain ⟨o, between, hunwrap, hoperation⟩ := resolve_eq_ok hresolve
  have hs : s.ComesOnlyTo Operation.Simple := hsteps.simple s (List.mem_cons_self ..)
  obtain ⟨hleft, hopened⟩ := h.resolveOperation (hs.unwrap hunwrap) hoperation
  refine ⟨?_, fun steps hverdict => ?_⟩
  · rcases hleft with hsame | hleft
    · rw [hsame]
      exact hsteps.tail
    · exact hleft
  · obtain ⟨hsteps', hsame⟩ := hopened steps hverdict
    refine ⟨hsteps', hsame.trans ?_⟩
    -- A flat step would not have opened a composite.
    by_contra hrest
    have hflat : registry.Flat o := (hsteps.flat hrest).unwrap hunwrap
    exact hflat.ne_enter hoperation steps hverdict

end TailExpanding

end Registry

/-! ## One step -/

/-- The program is alone or has one composite on top of it. No step of the program is a composite,
and in the composite on top only the last step may open another. -/
inductive Registry.InTwoFrames (registry : Registry σ) : List (Frame σ) → Prop where
  | ended : InTwoFrames registry []
  | outer {frame : Frame σ} : Program.Simple frame.steps → InTwoFrames registry [frame]
  | inner {frame bottom : Frame σ} : registry.OpensLast frame.steps →
      Program.Simple bottom.steps → InTwoFrames registry [frame, bottom]

/-- At most two composites are open then. -/
theorem Registry.InTwoFrames.length_le {registry : Registry σ} {frames : List (Frame σ)}
    (h : registry.InTwoFrames frames) : frames.length ≤ 2 := by
  cases h with
  | ended | outer _ | inner _ _ => simp

/-- As many frames as composites are open. -/
theorem Execution.length_frames (e : Execution σ) : e.frames.length = e.depth := by
  cases e <;> rfl

/-- A composite that belongs to an operation of the program is open, alone on top of it. The value
will be bound under the name, and be `null` whatever it returns if it has replaced another. -/
def Execution.Inside (e : Execution σ) (binding : Option String) (replaced : Bool)
    (bottom : Frame σ) : Prop :=
  ∃ frame, e.frames = [frame, bottom] ∧ frame.binding = binding ∧ frame.discards = replaced

namespace Registry.TailExpanding

variable {x : Executor σ} (h : x.registry.TailExpanding) {fuel : Nat} {world : σ}
  {t : Transition σ (Event σ)}
include h

/-- A step of the program keeps it alone, ends it, or opens a composite on top of it. -/
theorem step_outer {frame : Frame σ} (hframe : Program.Simple frame.steps)
    (hstep : x.step fuel (.running ⟨frame, []⟩) world = some t) :
    x.registry.InTwoFrames t.execution.frames := by
  rw [x.step_eq_stepBy] at hstep
  rcases Executor.stepBy_cases hstep with ⟨-, rfl⟩ |
    ⟨s, rest, hsteps, ⟨f, world', -, rfl⟩ | ⟨resolution, world', hresolve, rfl⟩⟩
  · exact .ended
  · exact .ended
  · have hsteps : frame.steps = s :: rest := hsteps
    rw [hsteps] at hframe
    obtain ⟨hrest, hopened⟩ := h.resolve_outer hframe hresolve
    cases hcommit : Stack.commit x.settings.maxDepth ⟨frame, []⟩ resolution with
    | error f => exact .ended
    | ok made =>
      obtain ⟨event, next⟩ := made
      rcases Stack.commit_cases hcommit with ⟨v, bound, -, hbind, -, rfl⟩ | ⟨v, -, hleave⟩ |
        ⟨io, -, -, rfl⟩ | ⟨steps, entered, hverdict, henter, -, rfl⟩
      · obtain ⟨env, -, rfl⟩ := Stack.bind_cases hbind
        exact .outer hrest
      · rcases Stack.leave_cases hleave with ⟨-, rfl, -⟩ | ⟨parent, below, bound, hbelow, -⟩
        · exact .ended
        · simp at hbelow
      · exact .outer hrest
      · rcases Stack.enter_cases x.settings.maxDepth ⟨{ frame with steps := resolution.rest }, []⟩
          resolution.binding steps with ⟨hbelow, -⟩ | hpush | ⟨depth, -, hdeep⟩
        · exact (hbelow rfl).elim
        · obtain rfl := Except.ok.inj (henter.symm.trans hpush)
          exact .inner (hopened steps hverdict) hrest
        · rw [hdeep] at henter
          simp at henter

/-- A step of a composite on top of the program leaves the program as it is until a value is bound
there. The composite keeps its name, and once it has replaced another the value is `null`. -/
theorem step_inner {frame bottom : Frame σ} (hframe : x.registry.OpensLast frame.steps)
    (hstep : x.step fuel (.running ⟨frame, [bottom]⟩) world = some t) :
    (∃ frame', t.execution.frames = [frame', bottom] ∧ x.registry.OpensLast frame'.steps ∧
        frame'.binding = frame.binding ∧ (frame.discards = true → frame'.discards = true)) ∨
    t.execution = .failed ∨
    ∃ env v, bottom.env.bindAs frame.binding v = .ok env ∧ (frame.discards = true → v = .null) ∧
      t.execution = .running ⟨{ bottom with env }, []⟩ := by
  -- However the composite is left, its value is bound in the program below.
  have hleft : ∀ {steps escaped event next},
      Stack.leave ⟨{ frame with steps }, [bottom]⟩ escaped = .ok (event, next) →
        ∃ env v, bottom.env.bindAs frame.binding v = .ok env ∧
          (frame.discards = true → v = .null) ∧ next = .running ⟨{ bottom with env }, []⟩ := by
    intro steps escaped event next hleave
    rcases Stack.leave_cases hleave with ⟨hbelow, -⟩ | ⟨parent, below, bound, hbelow, hbind, -, rfl⟩
    · simp at hbelow
    · obtain ⟨rfl, rfl⟩ := List.cons.inj hbelow
      obtain ⟨env, henv, rfl⟩ := Stack.bind_cases hbind
      exact ⟨env, _, henv, fun hdiscards => if_pos hdiscards, rfl⟩
  rw [x.step_eq_stepBy] at hstep
  rcases Executor.stepBy_cases hstep with ⟨-, rfl⟩ |
    ⟨s, rest, hsteps, ⟨f, world', -, rfl⟩ | ⟨resolution, world', hresolve, rfl⟩⟩
  · cases hleave : Stack.leave ⟨frame, [bottom]⟩ none with
    | error f => exact .inr (.inl rfl)
    | ok made => exact .inr (.inr (hleft hleave))
  · exact .inr (.inl rfl)
  · have hsteps : frame.steps = s :: rest := hsteps
    rw [hsteps] at hframe
    obtain ⟨hrest, hopened⟩ := h.resolve_inner hframe hresolve
    cases hcommit : Stack.commit x.settings.maxDepth ⟨frame, [bottom]⟩ resolution with
    | error f => exact .inr (.inl rfl)
    | ok made =>
      obtain ⟨event, next⟩ := made
      rcases Stack.commit_cases hcommit with ⟨v, bound, -, hbind, -, rfl⟩ | ⟨v, -, hleave⟩ |
        ⟨io, -, -, rfl⟩ | ⟨steps, entered, hverdict, henter, -, rfl⟩
      · obtain ⟨env, -, rfl⟩ := Stack.bind_cases hbind
        exact .inl ⟨_, rfl, hrest, rfl, id⟩
      · exact .inr (.inr (hleft hleave))
      · exact .inl ⟨_, rfl, hrest, rfl, id⟩
      · -- No step is left after one that opens a composite, so that it takes the place.
        obtain ⟨hsteps', hnil⟩ := hopened steps hverdict
        rw [Stack.enter_eq, if_pos ⟨by simp, hnil⟩] at henter
        obtain rfl := Except.ok.inj henter
        exact .inl ⟨_, rfl, hsteps', rfl, fun _ => rfl⟩

/-- A move keeps within two frames. -/
theorem inTwoFrames_of_moves {e next : Execution σ} (he : x.registry.InTwoFrames e.frames)
    (hmove : x.Moves e next) : x.registry.InTwoFrames next.frames := by
  cases hmove with
  | @step stack fuel world t hstep =>
    obtain ⟨top, below⟩ := stack
    rcases he with - | houter | ⟨hinner, hbottom⟩
    · exact h.step_outer houter hstep
    · rcases h.step_inner hinner hstep with
        ⟨frame, hframes, hframe, -⟩ | hfailed | ⟨env, v, -, -, hrunning⟩
      · rw [hframes]
        exact .inner hframe hbottom
      · rw [hfailed]
        exact .ended
      · rw [hrunning]
        exact .outer hbottom
  | @resume binding stack v next hresume =>
    obtain ⟨top, below⟩ := stack
    obtain ⟨env, rfl⟩ := Executor.exists_env_of_resume hresume
    rcases he with - | houter | ⟨hinner, hbottom⟩
    · exact .outer houter
    · exact .inner hinner hbottom
  | breach _ _ => exact .ended

/-- Moves keep within two frames. -/
theorem inTwoFrames {program : Program σ} (hprogram : Program.Simple program) {e : Execution σ}
    (hmoves : Relation.ReflTransGen x.Moves (.start program) e) :
    x.registry.InTwoFrames e.frames := by
  induction hmoves with
  | refl => exact .outer hprogram
  | tail _ hmove ih => exact h.inTwoFrames_of_moves ih hmove

/-- An operation of the program opens its composite on top of that, under its name. Inside, any
other composite takes the place. -/
theorem opens {stack : Stack σ} (hstack : x.registry.InTwoFrames stack.frames)
    (hlimit : ∀ limit ∈ x.settings.maxDepth, 2 ≤ limit) {s : Step σ} {rest steps : List (Step σ)}
    {resolution : Resolution σ} {world' : σ} (hsteps : stack.top.steps = s :: rest)
    (hresolve : x.registry.resolve fuel stack.top.env s rest world =
      some (.ok resolution, world'))
    (hverdict : resolution.verdict = .enter steps) :
    ∃ next, x.step fuel (.running stack) world = some ⟨.ok .progress, next, world'⟩ ∧
      (stack.below = [] →
        next.Inside resolution.binding false { stack.top with steps := resolution.rest }) ∧
      ∀ binding replaced bottom, (Execution.running stack).Inside binding replaced bottom →
        next.Inside binding true bottom := by
  rw [x.step_of_resolve hsteps hresolve]
  obtain ⟨top, below⟩ := stack
  rcases hstack with - | houter | ⟨hinner, -⟩
  · -- Nothing is around the program, so that it does not give its place away.
    have hgoes : ¬ (Stack.below ⟨top, []⟩ ≠ [] ∧ resolution.rest = []) := by simp
    rw [Stack.commit_enter hverdict hgoes hlimit]
    refine ⟨_, rfl, fun _ => ⟨_, rfl, rfl, rfl⟩, ?_⟩
    rintro binding replaced bottom ⟨frame, hframes, -⟩
    simp [Execution.frames, Stack.frames] at hframes
  · -- Inside, the step was the last one, and so its composite takes the place.
    have hsteps : top.steps = s :: rest := hsteps
    rw [hsteps] at hinner
    obtain ⟨-, hopened⟩ := h.resolve_inner hinner hresolve
    obtain ⟨-, hnil⟩ := hopened steps hverdict
    rw [Stack.commit_enter_last hverdict ⟨by simp, hnil⟩]
    refine ⟨_, rfl, by simp, ?_⟩
    rintro binding replaced bottom ⟨frame, hframes, rfl, -⟩
    obtain ⟨rfl, hbelow⟩ := List.cons.inj hframes
    exact ⟨_, congrArg _ hbelow, rfl, rfl⟩

/-- Once a composite on top of the program has been replaced, this stays so until the name of its
operation is bound to `null`, unless the execution fails. -/
theorem inside_of_moves {e later : Execution σ} {binding : Option String} {bottom : Frame σ}
    (he : x.registry.InTwoFrames e.frames) (hinside : e.Inside binding true bottom)
    (hmoves : Relation.ReflTransGen x.Moves e later) :
    later.Inside binding true bottom ∨ later = .failed ∨
      Relation.ReflTransGen x.Moves
        (.running ⟨{ bottom with env := bottom.env.bound binding .null }, []⟩) later := by
  -- By induction from the front: each move stays inside, or is the last of these.
  induction hmoves using Relation.ReflTransGen.head_induction_on with
  | refl => exact .inl hinside
  | @head e next hmove hlater ih =>
    have hnext := h.inTwoFrames_of_moves he hmove
    obtain ⟨frame, hframes, rfl, hdiscards⟩ := hinside
    cases hmove with
    | @step stack fuel world t hstep =>
      obtain ⟨top, below⟩ := stack
      obtain ⟨rfl, rfl⟩ := List.cons.inj hframes
      obtain ⟨hinner, hbottom⟩ : x.registry.OpensLast top.steps ∧ Program.Simple bottom.steps := by
        cases he with
        | inner hinner hbottom => exact ⟨hinner, hbottom⟩
      rcases h.step_inner hinner hstep with
        ⟨frame', hframes', -, hbinding, hstays⟩ | hfailed | ⟨env, v, henv, hnull, hrunning⟩
      · exact ih hnext ⟨frame', hframes', hbinding, hstays hdiscards⟩
      · rw [hfailed] at hlater
        exact .inr (.inl (Executor.eq_failed_of_moves hlater))
      · obtain rfl := hnull hdiscards
        rw [hrunning, Environment.eq_bound_of_bindAs henv] at hlater
        exact .inr (.inr hlater)
    | @resume name stack v next hresume =>
      obtain ⟨env, rfl⟩ := Executor.exists_env_of_resume hresume
      obtain ⟨top, below⟩ := stack
      obtain ⟨rfl, rfl⟩ := List.cons.inj hframes
      exact ih hnext ⟨_, rfl, rfl, hdiscards⟩
    | breach _ _ => exact .inr (.inl (Executor.eq_failed_of_moves hlater))

end Registry.TailExpanding

/-! ## Whole programs -/

namespace Executor

/-- A call on a session moves its execution at most once. -/
theorem moves_advance (x : Executor σ) (fuel : Nat) (s : Session σ) :
    Relation.ReflTransGen x.Moves s.execution (x.machine.advance fuel s).execution := by
  by_cases hhung : s.hung = true
  · rw [Machine.advance_of_hung hhung]
  replace hhung : s.hung = false := by simpa using hhung
  cases he : s.execution with
  | running stack =>
    rw [Machine.advance_of_running hhung he]
    cases hstep : x.machine.step fuel (.running stack) s.surroundings.world with
    | none =>
      simp only [Session.hang, he]
      exact .refl
    | some t => exact .single (.step hstep)
  | awaitingIo binding stack =>
    cases hnext : s.surroundings.deliveries with
    | nil => rw [Machine.advance_of_starved he hnext, he]
    | cons first later =>
      obtain ⟨delivery, world⟩ := first
      rw [Machine.advance_of_awaiting hhung he hnext]
      refine .single ?_
      rcases delivery with f | v
      · exact .breach binding stack
      · show x.Moves _ ((Execution.awaitingIo binding stack).resume v).2
        cases hbind : stack.bind binding v with
        | error f =>
          simp only [Execution.resume, hbind]
          exact .breach binding stack
        | ok bound =>
          have hresume : (Execution.awaitingIo binding stack).resume v =
              (.ok (), .running bound) := by simp only [Execution.resume, hbind]
          rw [hresume]
          exact .resume hresume
  | done => rw [Machine.advance_of_ended (.inl he), he]
  | failed => rw [Machine.advance_of_ended (.inr he), he]

/-- A session takes the execution of its program from move to move. -/
theorem moves_sessionUnder (x : Executor σ) (limit : Option Nat) (program : Program σ)
    (surroundings : Surroundings σ) (fuel n : Nat) :
    Relation.ReflTransGen (x.limited limit).Moves (.start program)
      (x.sessionUnder limit program surroundings fuel n).execution := by
  induction n with
  | zero => exact .refl
  | succ n ih =>
    rw [sessionUnder_succ]
    exact ih.trans ((x.limited limit).moves_advance fuel _)

/-- Interpreters whose answers go on in the last step, as these reach the execution, run every
program without composites of its own in two frames, for any number of calls and whatever the io
deliver, so that no limit from two on is ever found or makes a difference. A composite that an
operation of the program comes to is opened on top of the program under the name of the operation,
and any other one takes the place of that. From then on the operation has the value `null`, if it
ever comes to an end without a fault. -/
theorem tail_expanding (x : Executor σ) (h : x.registry.TailExpanding) {program : Program σ}
    (hprogram : Program.Simple program) :
    (∀ e, x.Reachable program e → e.depth ≤ 2) ∧
    (∀ limit ≥ 2, ∀ surroundings fuel n,
      x.sessionUnder (some limit) program surroundings fuel n =
          x.sessionUnder none program surroundings fuel n ∧
        ∀ depth, ¬ (x.sessionUnder (some limit) program surroundings fuel n).Found
          (.tooDeep depth)) ∧
    (∀ {stack s rest fuel world resolution world' steps}, x.Reachable program (.running stack) →
      (∀ limit ∈ x.settings.maxDepth, 2 ≤ limit) → stack.top.steps = s :: rest →
      x.registry.resolve fuel stack.top.env s rest world = some (.ok resolution, world') →
      resolution.verdict = .enter steps →
        ∃ next, x.step fuel (.running stack) world = some ⟨.ok .progress, next, world'⟩ ∧
          (stack.below = [] → next.Inside resolution.binding false
            { stack.top with steps := resolution.rest }) ∧
          ∀ binding replaced bottom, (Execution.running stack).Inside binding replaced bottom →
            next.Inside binding true bottom) ∧
    ∀ {e binding bottom later}, x.Reachable program e → e.Inside binding true bottom →
      Relation.ReflTransGen x.Moves e later →
        later.Inside binding true bottom ∨ later = .failed ∨
          Relation.ReflTransGen x.Moves
            (.running ⟨{ bottom with env := bottom.env.bound binding .null }, []⟩) later := by
  have hframes : ∀ e, x.Reachable program e → x.registry.InTwoFrames e.frames :=
    fun e he => h.inTwoFrames hprogram he.moves
  refine ⟨fun e he => ?_, ?_, ?_, ?_⟩
  · rw [← e.length_frames]
    exact (hframes e he).length_le
  · intro limit hlimit surroundings fuel n
    -- The limit is not part of the registry, so that the unlimited session keeps within it.
    have hdepth : ∀ n, (x.sessionUnder none program surroundings fuel n).execution.depth ≤ 2 := by
      intro n
      have hmoves := x.moves_sessionUnder none program surroundings fuel n
      have htwo := Registry.TailExpanding.inTwoFrames (x := x.limited none) h hprogram hmoves
      rw [← Execution.length_frames]
      exact htwo.length_le
    have hwithin : x.StaysWithin program surroundings fuel limit n :=
      fun i _ => (hdepth i).trans hlimit
    refine ⟨x.sessionUnder_of_staysWithin program surroundings fuel (by omega) hwithin, ?_⟩
    intro depth hfound
    obtain ⟨-, m, hdeep⟩ := x.lt_depth_of_found program surroundings fuel (by omega) hfound
    have hle := hdepth m
    omega
  · intro stack s rest fuel world resolution world' steps hstack hlimit hsteps hresolve hverdict
    exact h.opens (hframes _ hstack) hlimit hsteps hresolve hverdict
  · intro e binding bottom later he hinside hmoves
    exact h.inside_of_moves (hframes e he) hinside hmoves

end Executor

/-! ## An example without end -/

/-- A round of watching a clock: waits, reads the time, and goes on watching. -/
def Program.watchOn : Program Unit :=
  [.op (.io (.ofAction fun world => (.null, world))),
    .bind "time" (.request ⟨"clock", "read", []⟩), .request ⟨"clock", "watch", []⟩]

/-- Answers the request to watch with a round of watching. -/
def Registry.clock : Registry Unit :=
  ⟨[.table "clock"
    [("watch", fun _ => pure (.sequence Program.watchOn)), ("read", fun _ => pure (.value .null))]]⟩

/-- Watches the clock under a name. -/
def Program.watch : Program Unit := [.bind "watched" (.request ⟨"clock", "watch", []⟩)]

/-- What the clock answers: a round of watching or the time. It never asks for other steps. -/
theorem Registry.dispatch_clock {r : Request} {world world' : Unit} {answer : Answer Unit}
    {replacement : Option (List (Step Unit))}
    (h : clock.dispatch r world = (.ok (answer, replacement), world')) :
    replacement = none ∧ (r.operation = "watch" ∧ answer = .sequence Program.watchOn ∨
      r.operation = "read" ∧ answer = .value .null) := by
  obtain ⟨algebra, operation, arguments⟩ := r
  by_cases halgebra : algebra = "clock"
  · subst halgebra
    by_cases hwatch : operation = "watch"
    · subst hwatch
      obtain ⟨hgiven, -⟩ := Prod.mk.inj h
      obtain ⟨rfl, rfl⟩ := Prod.mk.inj (Except.ok.inj hgiven)
      exact ⟨rfl, .inl ⟨rfl, rfl⟩⟩
    by_cases hread : operation = "read"
    · subst hread
      obtain ⟨hgiven, -⟩ := Prod.mk.inj h
      obtain ⟨rfl, rfl⟩ := Prod.mk.inj (Except.ok.inj hgiven)
      exact ⟨rfl, .inr ⟨rfl, rfl⟩⟩
    · have hwatch : (operation == "watch") = false := beq_false_of_ne hwatch
      have hread : (operation == "read") = false := beq_false_of_ne hread
      simp only [dispatch, clock, find?, Interpreter.algebra, List.find?_cons, beq_self_eq_true,
        Interpreter.interpret, List.lookup_cons, hwatch, hread, List.lookup_nil, ne_eq,
        not_true_eq_false, if_false] at h
      cases h
  · have hnone : ("clock" == algebra) = false := by simpa using Ne.symm halgebra
    simp [dispatch, clock, find?, Interpreter.algebra, hnone] at h

/-- The clock goes on in the last step of a round. -/
theorem Registry.clock_tailExpanding : clock.TailExpanding := by
  have hread : clock.Flat (.request ⟨"clock", "read", []⟩) := by
    intro fuel rest world verdict rest' world' hfollow steps
    cases fuel with
    | zero => simp [follow] at hfollow
    | succ fuel =>
      have hanswer : clock.dispatch ⟨"clock", "read", []⟩ world =
          (.ok (.value .null, none), world) :=
        rfl
      rw [(follow_of_verdict hanswer rfl fuel rest).1] at hfollow
      obtain ⟨hresult, -⟩ := Prod.mk.inj (Option.some.inj hfollow)
      obtain ⟨rfl, -⟩ := Prod.mk.inj (Except.ok.inj hresult)
      simp
  refine ⟨?_, ?_, ?_⟩
  · intro r world answer replacement world' steps hdispatch hverdict
    obtain ⟨-, ⟨-, rfl⟩ | ⟨-, rfl⟩⟩ := dispatch_clock hdispatch
    · obtain rfl := Verdict.enter.inj (Option.some.inj hverdict)
      exact ⟨trivial, hread, fun _ => by simp⟩
    · simp [Answer.verdict?] at hverdict
  · intro r world answer steps world' hdispatch
    obtain ⟨hnone, -⟩ := dispatch_clock hdispatch
    simp at hnone
  · intro fuel r rest world steps rest' world' hfollow
    cases fuel with
    | zero => simp [follow] at hfollow
    | succ fuel =>
      rcases follow_succ_cases hfollow with ⟨f, -, hresult⟩ |
        ⟨answer, replacement, verdict, hdispatch, -, hresult⟩ |
        ⟨next, replacement, between, hdispatch, -⟩
      · simp at hresult
      · obtain ⟨rfl, -⟩ := dispatch_clock hdispatch
        exact (Prod.mk.inj (Except.ok.inj hresult)).2
      · obtain ⟨-, ⟨-, hanswer⟩ | ⟨-, hanswer⟩⟩ := dispatch_clock hdispatch
        · simp at hanswer
        · simp at hanswer

/-- Runs programs that watch the clock. -/
def Executor.watching : Executor Unit := { registry := .clock }

/-- Once the first round is over, its composite has given its place to the second. From then on the
name can only be bound to `null`. -/
theorem Executor.tail_expanding_clock :
    watching.registry.TailExpanding ∧ Program.Simple Program.watch ∧
      (∀ e, watching.Reachable .watch e → e.depth ≤ 2) ∧
      ∃ e, watching.Reachable .watch e ∧ e.Inside (some "watched") true { steps := [] } ∧
        ∀ later, Relation.ReflTransGen watching.Moves e later →
          later.Inside (some "watched") true { steps := [] } ∨ later = .failed ∨
            Relation.ReflTransGen watching.Moves
              (.running ⟨{ steps := [], env := ⟨[("watched", .null)]⟩ }, []⟩) later := by
  have hsimple : Program.Simple Program.watch := by
    intro s hs
    obtain rfl := List.mem_singleton.1 hs
    exact fun _ => by simp
  have hall := watching.tail_expanding Registry.clock_tailExpanding hsimple
  obtain ⟨e, he, hinside⟩ : ∃ e, watching.Reachable .watch e ∧
      e.Inside (some "watched") true { steps := [] } := by
    have hopened :=
      Reachable.step .start (show watching.step 1 (.start .watch) () = some _ from rfl)
    have hasked := hopened.step (show watching.step 1 _ () = some _ from rfl)
    have hread := (hasked.resume .null).step (show watching.step 1 _ () = some _ from rfl)
    have hreplaced := hread.step (show watching.step 1 _ () = some _ from rfl)
    exact ⟨_, hreplaced, _, rfl, rfl, rfl⟩
  refine ⟨Registry.clock_tailExpanding, hsimple, hall.1, e, he, hinside, ?_⟩
  exact fun later hmoves => hall.2.2.2 he hinside hmoves

end EffectPrograms
