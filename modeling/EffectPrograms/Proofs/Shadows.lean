import EffectPrograms.Proofs.Names
import EffectPrograms.Proofs.Session
import Mathlib.Order.Nat

/-!
# One frame for many

An inner composite without any step left gives its place to the composite that its last step opens,
together with the name for its result. What would have come of it is gone: its environment, the
name under which its last value was to be bound, and its own result, which is `null`. Here the
executor is compared with the machine that gives no place away (`Executor.pushingMachine`).

One frame of the executor stands for a run of frames of that machine, all of which but the innermost
have no step left. `Stack.Shadows` says how: when a composite is opened in an exhausted one, both
machines get a frame for the same steps, but that of the executor takes the place, the name and the
silence of the frame which the exhausted composite has there. To leave such a frame takes the
executor one step and the other machine one for each frame of the run; in between the executor is
ahead (`Execution.Shadows.unwinding`). Apart from that both step to the same
(`Executor.stepBy_shadows`).
-/

namespace EffectPrograms

variable {σ : Type}

/-! ## The machine that gives no place away -/

namespace Stack

/-- Carries out what the front step came to and gives no place away. -/
def commitPushing (limit : Option Nat) (stack : Stack σ) (x : Resolution σ) :
    Except Fault (Event σ × Execution σ) :=
  match x.verdict with
  | .enter steps => do
    let stack := { stack with top := { stack.top with steps := x.rest } }
    return (.progress, .running (← stack.push limit x.binding steps))
  | _ => stack.commit limit x

end Stack

/-- Where carrying out what the front step came to puts the execution. -/
theorem Stack.status_of_commitPushing {limit : Option Nat} {stack : Stack σ} {x : Resolution σ}
    {event : Event σ} {next : Execution σ} (h : stack.commitPushing limit x = .ok (event, next)) :
    next.status = event.status := by
  unfold commitPushing at h
  split at h
  · obtain ⟨pushed, -, hresult⟩ := ok_of_bind_eq_ok h
    obtain ⟨rfl, rfl⟩ := Prod.mk.inj (Except.ok.inj hresult)
    rfl
  · exact status_of_commit h

/-- The machine that steps executions as the executor does, but opens every composite in a new
frame. -/
def Executor.pushingMachine (x : Executor σ) : Machine σ where
  registry := x.registry
  step := x.stepBy (Stack.commitPushing x.settings.maxDepth)
  status_of_step := status_of_stepBy fun _ _ _ _ => Stack.status_of_commitPushing

/-! ## Stacks -/

namespace Stack

/-- The first stack belongs to the machine that gives no place away, the second one to the executor
at the same point of a program. -/
inductive Shadows : Stack σ → Stack σ → Prop where
  /-- The outermost composite never gives its place away. -/
  | bottom (frame : Frame σ) : Shadows ⟨frame, []⟩ ⟨frame, []⟩
  /-- Both have opened a composite in a new frame. -/
  | opened {naive real : Stack σ} (frame : Frame σ) :
      Shadows naive real → naive.top.env.Free frame.binding → frame.discards = false →
      Shadows ⟨frame, naive.frames⟩ ⟨frame, real.frames⟩
  /-- The executor has opened it in the place of an exhausted composite. -/
  | replaced {naive real : Stack σ} (frame : Frame σ) :
      Shadows naive real → naive.top.steps = [] → real.below ≠ [] →
      naive.top.env.Free frame.binding → frame.discards = false →
      Shadows ⟨frame, naive.frames⟩
        ⟨{ frame with binding := real.top.binding, discards := true }, real.below⟩

namespace Shadows

variable {naive real : Stack σ}

/-- The innermost composites have the same steps left. -/
theorem steps_eq (h : Shadows naive real) : naive.top.steps = real.top.steps := by
  cases h <;> rfl

/-- The innermost composites have the same bindings. -/
theorem env_eq (h : Shadows naive real) : naive.top.env = real.top.env := by
  cases h <;> rfl

/-- The executor never has more composites open. -/
theorem depth_le (h : Shadows naive real) : real.depth ≤ naive.depth := by
  induction h with
  | bottom frame => exact le_rfl
  | opened frame _ _ _ ih => exact Nat.succ_le_succ ih
  | replaced frame _ _ _ _ _ ih =>
    show _ ≤ Stack.depth _ + 1
    exact Nat.le_succ_of_le ih

/-- The innermost composites may go on to the same steps and bindings. -/
theorem withTop (h : Shadows naive real) (steps : List (Step σ)) (env : Environment) :
    Shadows ⟨{ naive.top with steps, env }, naive.below⟩
      ⟨{ real.top with steps, env }, real.below⟩ := by
  cases h with
  | bottom frame => exact .bottom _
  | opened frame h hfree hdiscards => exact .opened { frame with steps, env } h hfree hdiscards
  | replaced frame h hsteps hinner hfree hdiscards =>
    exact (Shadows.replaced { frame with steps, env } h hsteps hinner hfree hdiscards :)

/-- The innermost composites may go on to the same steps. -/
theorem withSteps (h : Shadows naive real) (steps : List (Step σ)) :
    Shadows ⟨{ naive.top with steps }, naive.below⟩ ⟨{ real.top with steps }, real.below⟩ := by
  have hnext := h.withTop steps naive.top.env
  have henv : ({ real.top with steps, env := naive.top.env } : Frame σ) =
      { real.top with steps } := by rw [h.env_eq]
  rwa [henv] at hnext

/-- A value is bound in both or in neither. -/
theorem bind (h : Shadows naive real) (binding : Option String) (v : Value) :
    (∃ f, naive.bind binding v = .error f ∧ real.bind binding v = .error f) ∨
      ∃ naive' real' : Stack σ, naive.bind binding v = .ok naive' ∧
        real.bind binding v = .ok real' ∧ Shadows naive' real' := by
  simp only [Stack.bind, h.env_eq]
  cases real.top.env.bindAs binding v with
  | error f => exact .inl ⟨f, rfl, rfl⟩
  | ok env => exact .inr ⟨_, _, rfl, rfl, h.steps_eq ▸ h.withTop naive.top.steps env⟩

/-- A free name is bound in both. -/
theorem bind_free (h : Shadows naive real) {binding : Option String}
    (hfree : naive.top.env.Free binding) (v : Value) :
    ∃ naive' real' : Stack σ, naive.bind binding v = .ok naive' ∧
      real.bind binding v = .ok real' ∧ Shadows naive' real' := by
  rcases h.bind binding v with ⟨f, hnaive, -⟩ | hboth
  · rw [Stack.bind, hfree.bindAs v] at hnaive
    exact absurd hnaive (by simp [Bind.bind, Except.bind, Pure.pure, Except.pure])
  · exact hboth

end Shadows

/-- What a replaced composite left to the executor is what leaving it would have come to: it
delivers `null` under the name that it took over, whatever was bound in it since. -/
theorem leave_replaced {real real' : Stack σ} {binding : Option String} {v : Value}
    (hbind : real.bind binding v = .ok real') (hinner : real.below ≠ []) (frame : Frame σ)
    (escaped : Option Value) :
    (⟨{ frame with binding := real.top.binding, discards := true }, real.below⟩ : Stack σ).leave
        escaped = real'.leave none := by
  obtain ⟨top, below⟩ := real
  cases below with
  | nil => exact absurd rfl hinner
  | cons parent below =>
    obtain ⟨env, -, rfl⟩ := bind_cases hbind
    simp [leave]

end Stack

/-! ## Executions -/

namespace Execution

/-- The first execution belongs to the machine that gives no place away, the second one to the
executor at the same point of a program. -/
inductive Shadows : Execution σ → Execution σ → Prop where
  | running {naive real : Stack σ} : naive.Shadows real → Shadows (.running naive) (.running real)
  /-- The executor has left all of a run of exhausted composites, the other machine only some. -/
  | unwinding {naive real : Stack σ} {e : Execution σ} : naive.Shadows real →
      naive.top.steps = [] → real.below ≠ [] → real.leave none = .ok (.progress, e) →
      Shadows (.running naive) e
  | awaitingIo (binding : Option String) {naive real : Stack σ} : naive.Shadows real →
      Shadows (.awaitingIo binding naive) (.awaitingIo binding real)
  | done : Shadows .done .done
  | failed : Shadows .failed .failed

/-- The executor never has more composites open. -/
theorem Shadows.depth_le {naive real : Execution σ} (h : Shadows naive real) :
    real.depth ≤ naive.depth := by
  cases h with
  | running h | awaitingIo _ h => exact h.depth_le
  | unwinding h _ _ hleave => exact (Stack.depth_of_leave hleave).le.trans h.depth_le
  | done | failed => exact le_rfl

end Execution

namespace Stack.Shadows

variable {naive real : Stack σ}

/-- An inner composite of the executor can always be left. -/
theorem leave_inner (h : Shadows naive real) (hinner : real.below ≠ []) (escaped : Option Value) :
    ∃ next, real.leave escaped = .ok (.progress, .running next) := by
  induction h generalizing escaped with
  | bottom frame => exact absurd rfl hinner
  | @opened naive real frame h hfree _ _ =>
    obtain ⟨-, next, -, hreal, -⟩ :=
      h.bind_free hfree (if frame.discards then .null else escaped.getD .null)
    exact ⟨next, by simp [leave_frames, hreal, Except.map]⟩
  | @replaced naive real frame _ _ hinner' _ _ ih =>
    have hsame : real.bind none .null = .ok real := rfl
    rw [leave_replaced hsame hinner' frame escaped]
    exact ih hinner' none

/-- If the innermost composite is left, then both machines see the same, and the executor may be
ahead then. -/
theorem leave (h : Shadows naive real) (escaped : Option Value) :
    ∃ event e e', naive.leave escaped = .ok (event, e) ∧ real.leave escaped = .ok (event, e') ∧
      e.Shadows e' := by
  cases h with
  | bottom frame => exact ⟨_, _, _, rfl, rfl, .done⟩
  | @opened naive real frame h hfree hdiscards =>
    obtain ⟨naive', real', hnaive, hreal, hnext⟩ := h.bind_free hfree (escaped.getD .null)
    refine ⟨.progress, .running naive', .running real', ?_, ?_, .running hnext⟩
    · simp [leave_frames, hdiscards, hnaive, Except.map]
    · simp [leave_frames, hdiscards, hreal, Except.map]
  | @replaced naive real frame h hsteps hinner hfree hdiscards =>
    -- What the other machine delivers to the frame below, the executor drops with that frame.
    obtain ⟨naive', real', hnaive, hreal, hnext⟩ := h.bind_free hfree (escaped.getD .null)
    rw [leave_replaced hreal hinner frame escaped]
    -- The frame below is exhausted as well, and stays so when it gets the value.
    have hsteps' : naive'.top.steps = [] := by
      obtain ⟨env, -, rfl⟩ := bind_cases hnaive
      exact hsteps
    have hinner' : real'.below ≠ [] := by
      obtain ⟨env, -, rfl⟩ := bind_cases hreal
      exact hinner
    obtain ⟨next, hleave⟩ := hnext.leave_inner hinner' none
    refine ⟨.progress, .running naive', .running next, ?_, hleave,
      .unwinding hnext hsteps' hinner' hleave⟩
    simp [leave_frames, hdiscards, hnaive, Except.map]

/-- Where a composite can be opened on top, the executor can open it as well, there or in the place
of an exhausted one. -/
theorem enter (h : Shadows naive real) {binding : Option String}
    (hfree : naive.top.env.Free binding) (limit : Option Nat) (steps : List (Step σ)) :
    (∃ naive' real', naive.push limit binding steps = .ok naive' ∧
        real.enter limit binding steps = .ok real' ∧ Shadows naive' real') ∨
      ∃ depth, limit = some depth ∧ naive.push limit binding steps = .error (.tooDeep depth) := by
  by_cases hwithin : ∀ depth ∈ limit, naive.depth < depth
  -- The executor has no more composites open, so that it is within the limit as well.
  · rw [push_of_lt hwithin, enter_eq]
    by_cases hexhausted : real.below ≠ [] ∧ real.top.steps = []
    · rw [if_pos hexhausted]
      exact .inl ⟨_, _, rfl, rfl,
        .replaced _ h (h.steps_eq.trans hexhausted.2) hexhausted.1 hfree rfl⟩
    · have hwithin' : ∀ depth ∈ limit, real.depth < depth :=
        fun depth hdepth => h.depth_le.trans_lt (hwithin depth hdepth)
      rw [if_neg hexhausted, push_of_lt hwithin']
      exact .inl ⟨_, _, rfl, rfl, .opened _ h hfree rfl⟩
  · obtain ⟨depth, hlimit, hle⟩ : ∃ depth ∈ limit, depth ≤ naive.depth := by
      simpa using hwithin
    obtain rfl : limit = some depth := hlimit
    exact .inr ⟨depth, rfl, push_of_le hle binding steps⟩

/-- Both machines carry out the same, unless the one that gives no place away opens a composite too
many. -/
theorem commit (h : Shadows naive real) {x : Resolution σ} (hfree : naive.top.env.Free x.binding)
    (limit : Option Nat) :
    (∃ event e e', naive.commitPushing limit x = .ok (event, e) ∧
        real.commit limit x = .ok (event, e') ∧ e.Shadows e') ∨
      ∃ depth, limit = some depth ∧ naive.commitPushing limit x = .error (.tooDeep depth) := by
  have hrest : Shadows ⟨{ naive.top with steps := x.rest }, naive.below⟩
      ⟨{ real.top with steps := x.rest }, real.below⟩ := h.withSteps x.rest
  unfold commitPushing Stack.commit
  cases hverdict : x.verdict with
  | value v =>
    obtain ⟨naive', real', hnaive, hreal, hnext⟩ := hrest.bind_free hfree v
    exact .inl ⟨.progress, .running naive', .running real', by simp only [hnaive]; rfl,
      by simp only [hreal]; rfl, .running hnext⟩
  | escape v => exact .inl (hrest.leave (some v))
  | suspend io => exact .inl ⟨.io io, _, _, rfl, rfl, .awaitingIo x.binding hrest⟩
  | enter steps =>
    rcases hrest.enter hfree limit steps with
      ⟨naive', real', hnaive, hreal, hnext⟩ | ⟨depth, hlimit, hnaive⟩
    · exact .inl ⟨.progress, .running naive', .running real', by simp only [hnaive]; rfl,
        by simp only [hreal]; rfl, .running hnext⟩
    · exact .inr ⟨depth, hlimit, by simp only [hnaive]; rfl⟩

end Stack.Shadows

/-- The status of both machines is the same. -/
theorem Execution.Shadows.status_eq {naive real : Execution σ} (h : naive.Shadows real) :
    naive.status = real.status := by
  cases h with
  | unwinding h hsteps hinner hleave =>
    obtain ⟨next, hnext⟩ := h.leave_inner hinner none
    rw [hnext] at hleave
    simp only [Except.ok.injEq, Prod.mk.injEq, true_and] at hleave
    rw [← hleave]
    rfl
  | running _ | awaitingIo _ _ | done | failed => rfl

/-! ## Steps -/

/-- Both machines step to the same result, unless the one that gives no place away opens a composite
too many. -/
theorem Executor.stepBy_shadows (x : Executor σ) {naive real : Stack σ} (h : naive.Shadows real)
    (limit : Option Nat) (fuel : Nat) (world : σ) :
    (x.stepBy (Stack.commitPushing limit) fuel (.running naive) world = none ∧
        x.stepBy (Stack.commit limit) fuel (.running real) world = none) ∨
      (∃ result e e' world',
        x.stepBy (Stack.commitPushing limit) fuel (.running naive) world =
            some ⟨result, e, world'⟩ ∧
          x.stepBy (Stack.commit limit) fuel (.running real) world = some ⟨result, e', world'⟩ ∧
          e.Shadows e') ∨
      ∃ depth world', limit = some depth ∧
        x.stepBy (Stack.commitPushing limit) fuel (.running naive) world =
          some (.fail (.tooDeep depth) world') := by
  -- Both resolve the same step in the same environment.
  simp only [stepBy, ← h.steps_eq, ← h.env_eq]
  cases hsteps : naive.top.steps with
  | nil =>
    obtain ⟨event, e, e', hnaive, hreal, hnext⟩ := h.leave none
    refine .inr (.inl ⟨.ok event, e, e', world, ?_, ?_, hnext⟩)
    · simp [hnaive, Transition.ofResult]
    · simp [hreal, Transition.ofResult]
  | cons s rest =>
    dsimp only
    cases hresolve : x.registry.resolve fuel naive.top.env s rest world with
    | none => exact .inl ⟨rfl, rfl⟩
    | some found =>
      obtain ⟨result, world'⟩ := found
      cases result with
      | error f => exact .inr (.inl ⟨.error f, .failed, .failed, world', rfl, rfl, .failed⟩)
      | ok resolution =>
        dsimp only
        rcases h.commit (Registry.resolve_free hresolve) limit with
          ⟨event, e, e', hnaive, hreal, hnext⟩ | ⟨depth, hlimit, hnaive⟩
        · refine .inr (.inl ⟨.ok event, e, e', world', ?_, ?_, hnext⟩)
          · simp [hnaive, Transition.ofResult]
          · simp [hreal, Transition.ofResult]
        · refine .inr (.inr ⟨depth, world', hlimit, ?_⟩)
          rw [hnaive]
          rfl

end EffectPrograms
