import EffectPrograms.Proofs.Adequacy
import EffectPrograms.Proofs.Soundness

/-!
# What is left of a run

An execution takes the same course as the evaluation of what it has still to do, not only from the
start of a program on but from wherever it has come to. Every sound stack has a stack of the machine
that gives no place away at the same point (`Stack.Sound.exists_shadows`), and what that machine has
still to do can be evaluated from its innermost composite outwards (`Registry.meaning`). The calls
lie below the evaluation (`exists_meaning_ge`) and the evaluation below the calls
(`exists_run_ge`).

So a composite that is opened by a step takes its course on its own, and after that the one around
it goes on with its value (`opened_sameRun`), whether it got a frame of its own or not.
-/

namespace EffectPrograms

variable {σ : Type}

open Evaluation

/-! ## The machine that gives no place away -/

/-- At the point of a sound stack there is also a stack of the machine that gives no place away. A
composite whose result is `null` anyway stands there in a frame of its own, on top of an exhausted
one that has its name. -/
theorem Stack.Sound.exists_shadows {real : Stack σ} (h : real.Sound) :
    ∃ naive : Stack σ, naive.Shadows real := by
  obtain ⟨top, below⟩ := real
  induction below generalizing top with
  | nil => exact ⟨_, .bottom top⟩
  | cons parent below ih =>
    obtain ⟨naive, hnaive⟩ := ih parent h.tail
    have hfree : naive.top.env.Free top.binding := by
      rw [hnaive.env_eq]
      exact (List.isChain_cons.1 h.linked).1 parent rfl
    cases hdiscards : top.discards with
    | false => exact ⟨_, .opened top hnaive hfree hdiscards⟩
    | true =>
      have hexhausted := Shadows.opened { steps := [], binding := top.binding } hnaive hfree rfl
      have hreplaced := Shadows.replaced { top with binding := none, discards := false }
        hexhausted rfl (List.cons_ne_nil _ _) (Environment.free_none _) rfl
      obtain ⟨steps, env, binding, discards⟩ := top
      obtain rfl : discards = true := hdiscards
      exact ⟨_, hreplaced⟩

namespace Registry

variable (registry : Registry σ)

/-- With more fuel the evaluation of what is left to do is not cut short so soon. -/
theorem meaning_mono {fuel more : Nat} (hle : fuel ≤ more) (stack : Stack σ) :
    registry.meaning fuel (.running stack) ≤ registry.meaning more (.running stack) :=
  bind_le_bind (registry.evaluate_mono hle _ _) fun outcome =>
    registry.unwind_mono fuel hle _ _ outcome

end Registry

namespace Executor

variable (x : Executor σ)

/-- What is evaluated after a composite lies below the calls after it is left. -/
theorem exists_runAfter_ge (fuel : Nat) (top : Frame σ) (below : List (Frame σ)) :
    ∃ calls, ∀ outcome, x.registry.unwind fuel top below outcome ≤
      (x.limited none).pushingMachine.runAfter fuel calls top below outcome := by
  induction below generalizing top with
  | nil => exact ⟨0, fun outcome => le_rfl⟩
  | cons parent below ih =>
    obtain ⟨calls, hcalls⟩ := ih parent
    refine ⟨callsFor fuel + calls, fun outcome => bind_le_bind_right _ fun env => ?_⟩
    refine x.evaluate_le_run le_rfl { parent with env } below _ calls ?_
    have hparent := Machine.runAfter_with (x.limited none).pushingMachine fuel calls parent below
      parent.steps env
    rw [hparent]
    exact hcalls

/-- What an execution has still to do lies below calls of the machine that gives no place away. -/
theorem exists_naive_run_ge (fuel : Nat) (stack : Stack σ) :
    ∃ calls, x.registry.meaning fuel (.running stack) ≤
      (x.limited none).pushingMachine.run fuel calls (.running stack) := by
  obtain ⟨calls, hcalls⟩ := x.exists_runAfter_ge fuel stack.top stack.below
  exact ⟨_, x.evaluate_le_run le_rfl stack.top stack.below _ calls hcalls⟩

end Executor

/-! ## The executor -/

/-- A session that has come to a stack, when nothing that was done before is remembered. -/
def Session.ofStack (stack : Stack σ) (surroundings : Surroundings σ) : Session σ :=
  { execution := .running stack, surroundings }

namespace Executor

variable (x : Executor σ) {naive real : Stack σ}

/-- Calls of a machine lie below a session from the same point, and that below one call more. -/
theorem course_between_ofStack (m : Machine σ) (fuel k : Nat) (stack : Stack σ)
    (surroundings : Surroundings σ) :
    (m.run fuel k (.running stack)).course surroundings ≤
        ((m.advance fuel)^[k] (.ofStack stack surroundings)).course ∧
      ((m.advance fuel)^[k] (.ofStack stack surroundings)).course ≤
        (m.run fuel (k + 1) (.running stack)).course surroundings := by
  have hhung : (Session.ofStack stack surroundings).hung = false := rfl
  have hopen : (Session.ofStack stack surroundings).execution.depth ≠ 0 := Nat.succ_ne_zero _
  exact Session.course_between m fuel k hhung hopen

/-- Stacks at the same point of a program begin sessions at the same point. -/
theorem shadows_ofStack (h : naive.Shadows real) (surroundings : Surroundings σ) :
    (Session.ofStack naive surroundings).Shadows (Session.ofStack real surroundings) :=
  ⟨.running h, rfl, rfl⟩

/-- Each run from a stack lies below what is left to do at that point. -/
theorem exists_meaning_ge (h : naive.Shadows real) (fuel calls : Nat)
    (surroundings : Surroundings σ) :
    ∃ more, ((x.limited none).machine.run fuel calls (.running real)).course surroundings ≤
      (x.registry.meaning more (.running naive)).course surroundings := by
  obtain ⟨pace, -, -, hsurjective, hmatch⟩ :=
    x.exists_pace_of_shadows fuel (shadows_ofStack h surroundings)
  obtain ⟨n, rfl⟩ := hsurjective calls
  refine ⟨fuel + (n + 1), ?_⟩
  calc ((x.limited none).machine.run fuel (pace n) (.running real)).course surroundings
      ≤ (((x.limited none).machine.advance fuel)^[pace n] (.ofStack real surroundings)).course :=
        (course_between_ofStack _ fuel _ real surroundings).1
    _ = (((x.limited none).pushingMachine.advance fuel)^[n] (.ofStack naive surroundings)).course :=
        (hmatch n).course.symm
    _ ≤ ((x.limited none).pushingMachine.run fuel (n + 1) (.running naive)).course surroundings :=
        (course_between_ofStack _ fuel n naive surroundings).2
    _ ≤ (x.registry.meaning (fuel + (n + 1)) (.running naive)).course surroundings :=
        x.run_le_meaning (n + 1) le_rfl (.running naive) surroundings

/-- What is left to do at the point of a stack lies below a run from there. -/
theorem exists_run_ge (h : naive.Shadows real) (fuel : Nat) (surroundings : Surroundings σ) :
    ∃ calls, (x.registry.meaning fuel (.running naive)).course surroundings ≤
      ((x.limited none).machine.run fuel calls (.running real)).course surroundings := by
  obtain ⟨k, hk⟩ := x.exists_naive_run_ge fuel naive
  obtain ⟨pace, -, -, -, hmatch⟩ := x.exists_pace_of_shadows fuel (shadows_ofStack h surroundings)
  refine ⟨pace k + 1, ?_⟩
  calc (x.registry.meaning fuel (.running naive)).course surroundings
      ≤ ((x.limited none).pushingMachine.run fuel k (.running naive)).course surroundings :=
        hk surroundings
    _ ≤ (((x.limited none).pushingMachine.advance fuel)^[k] (.ofStack naive surroundings)).course :=
        (course_between_ofStack _ fuel k naive surroundings).1
    _ = (((x.limited none).machine.advance fuel)^[pace k] (.ofStack real surroundings)).course :=
        (hmatch k).course
    _ ≤ ((x.limited none).machine.run fuel (pace k + 1) (.running real)).course surroundings :=
        (course_between_ofStack _ fuel _ real surroundings).2

end Executor

/-! ## Composites that are opened -/

/-- The stack after a step of the innermost composite has its value. -/
def Stack.proceed (stack : Stack σ) (rest : List (Step σ)) (binding : Option String) (v : Value) :
    Stack σ :=
  ⟨{ stack.top with steps := rest, env := stack.top.env.bound binding v }, stack.below⟩

/-- Stacks that are at the same point proceed to the same point. -/
theorem Stack.Shadows.proceed {naive real : Stack σ} (h : naive.Shadows real)
    (rest : List (Step σ)) (binding : Option String) (v : Value) :
    (naive.proceed rest binding v).Shadows (real.proceed rest binding v) := by
  have henv := h.env_eq
  unfold Stack.proceed
  rw [← henv]
  exact h.withTop rest _

section Opened

variable {s : Step σ} {rest rest' steps : List (Step σ)} {binding : Option String} {n fuel : Nat}
  {surroundings : Surroundings σ} {world : σ}

namespace Registry

variable {registry : Registry σ} {stack : Stack σ}

/-- What is left to do after a step has its value. -/
theorem meaning_proceed (registry : Registry σ) (fuel : Nat) (stack : Stack σ)
    (rest : List (Step σ)) (binding : Option String) (v : Value) :
    registry.meaning fuel (.running (stack.proceed rest binding v)) =
      registry.evaluate fuel (stack.top.env.bound binding v) rest >>=
        registry.unwind fuel stack.top stack.below := by
  have htop := registry.unwind_with fuel stack.top stack.below rest (stack.top.env.bound binding v)
  rw [← htop]
  rfl

/-- When the front step opens a composite, what is left to do is that composite and then, with its
value, what is left around it. -/
theorem meaning_of_opened (hsteps : stack.top.steps = s :: rest)
    (h : registry.resolve n stack.top.env s rest surroundings.world =
      some (.ok ⟨binding, .enter steps, rest'⟩, world)) (hle : n ≤ fuel) :
    (registry.meaning (fuel + 1) (.running stack)).course surroundings =
      (((registry.evaluate fuel .empty steps).valued >>= fun v =>
        registry.evaluate fuel (stack.top.env.bound binding v) rest' >>=
          registry.unwind (fuel + 1) stack.top stack.below).course
            { surroundings with world }).after
        (registry.resolveActs n stack.top.env s surroundings.world) := by
  have hfree : stack.top.env.Free binding := resolve_free h
  obtain ⟨hmore, hacts⟩ := resolve_mono hle h
  have hstarts := (registry.evaluate_starts fuel stack.top.env s rest).bind
    (registry.unwind (fuel + 1) stack.top stack.below) surroundings
  rw [hmore, hacts] at hstarts
  rw [meaning, hsteps]
  refine hstarts.trans ?_
  simp only [carryOut, goOn, hfree.bindAs, orFault, pure_bind, bind_assoc]

/-- Hence it lies below that composite with what is left around it. -/
theorem meaning_le_opened (hsteps : stack.top.steps = s :: rest)
    (h : registry.resolve n stack.top.env s rest surroundings.world =
      some (.ok ⟨binding, .enter steps, rest'⟩, world)) (hle : n ≤ fuel) :
    (registry.meaning (fuel + 1) (.running stack)).course surroundings ≤
      (((registry.evaluate fuel .empty steps).valued >>= fun v =>
        registry.meaning (fuel + 1) (.running (stack.proceed rest' binding v))).course
          { surroundings with world }).after
        (registry.resolveActs n stack.top.env s surroundings.world) := by
  rw [meaning_of_opened hsteps h hle]
  refine Course.after_le_after _ (bind_le_bind_right _ (fun v => ?_) _)
  rw [meaning_proceed]
  exact bind_le_bind (registry.evaluate_mono (Nat.le_succ fuel) _ _) fun _ => le_rfl

/-- And above it, with a little less fuel. -/
theorem opened_le_meaning (hsteps : stack.top.steps = s :: rest)
    (h : registry.resolve n stack.top.env s rest surroundings.world =
      some (.ok ⟨binding, .enter steps, rest'⟩, world)) (hle : n ≤ fuel) :
    (((registry.evaluate fuel .empty steps).valued >>= fun v =>
        registry.meaning fuel (.running (stack.proceed rest' binding v))).course
          { surroundings with world }).after
        (registry.resolveActs n stack.top.env s surroundings.world) ≤
      (registry.meaning (fuel + 1) (.running stack)).course surroundings := by
  rw [meaning_of_opened hsteps h hle]
  refine Course.after_le_after _ (bind_le_bind_right _ (fun v => ?_) _)
  rw [meaning_proceed]
  exact bind_le_bind le_rfl fun _ => registry.unwind_mono fuel (Nat.le_succ fuel) _ _ _

end Registry

namespace Executor

variable (x : Executor σ) {stack : Stack σ}

/-- A run that opens a composite does what the composite does on its own, and then goes on around
it with the value. -/
theorem opened_sameRun (hsound : stack.Sound) (hsteps : stack.top.steps = s :: rest)
    (h : x.registry.resolve n stack.top.env s rest surroundings.world =
      some (.ok ⟨binding, .enter steps, rest'⟩, world)) :
    Course.SameRun
      (fun (fuel, calls) =>
        ((x.limited none).machine.run fuel calls (.running stack)).course surroundings)
      fun (depth, fuel, calls) =>
        (((x.registry.evaluate depth .empty steps).valued >>= fun v =>
          (x.limited none).machine.run fuel calls (.running (stack.proceed rest' binding v))).course
            { surroundings with world }).after
          (x.registry.resolveActs n stack.top.env s surroundings.world) := by
  obtain ⟨naive, hnaive⟩ := hsound.exists_shadows
  have hnaiveSteps : naive.top.steps = s :: rest := hnaive.steps_eq.trans hsteps
  have hresolve := h
  rw [← hnaive.env_eq] at hresolve ⊢
  refine ⟨fun (fuel, calls) => ?_, fun (depth, fuel, calls) => ?_⟩
  · obtain ⟨left, hleft⟩ := x.exists_meaning_ge hnaive fuel calls surroundings
    have hle : left ≤ max left n + 1 := by omega
    have hopened := Registry.meaning_le_opened hnaiveSteps hresolve (Nat.le_max_right left n)
    obtain ⟨⟨fuel', calls'⟩, hrun⟩ := exists_bind_le
      (m := (x.registry.evaluate (max left n) .empty steps).valued)
      (g := fun (i : Nat × Nat) v =>
        (x.limited none).machine.run i.1 i.2 (.running (stack.proceed rest' binding v)))
      le_rfl fun _ v later _ => by
        obtain ⟨k, hk⟩ := x.exists_run_ge (hnaive.proceed rest' binding v) (max left n + 1) later
        exact ⟨(_, k), hk⟩
    refine ⟨(max left n, fuel', calls'), ?_⟩
    exact (hleft.trans (x.registry.meaning_mono hle naive surroundings)).trans
      (hopened.trans (Course.after_le_after _ hrun))
  · obtain ⟨left, hleft⟩ := exists_bind_le
      (m := (x.registry.evaluate depth .empty steps).valued)
      (g := fun (i : Nat) v => x.registry.meaning i (.running (naive.proceed rest' binding v)))
      le_rfl fun _ v later _ =>
        x.exists_meaning_ge (hnaive.proceed rest' binding v) fuel calls later
    obtain ⟨enough, hdepth, hmeaning, hn⟩ : ∃ enough, depth ≤ enough ∧ left ≤ enough ∧ n ≤ enough :=
      ⟨max depth (max left n), by omega⟩
    have hopened := Registry.opened_le_meaning hnaiveSteps hresolve hn
    obtain ⟨k, hk⟩ := x.exists_run_ge hnaive (enough + 1) surroundings
    refine ⟨(enough + 1, k), le_trans (Course.after_le_after _ (hleft.trans ?_)) (hopened.trans hk)⟩
    refine bind_le_bind ?_ (fun v => x.registry.meaning_mono hmeaning _) _
    exact bind_le_bind (x.registry.evaluate_mono hdepth .empty steps) fun _ => le_rfl

end Executor

end Opened

end EffectPrograms
