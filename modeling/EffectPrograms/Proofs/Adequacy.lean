import EffectPrograms.Proofs.Calls
import EffectPrograms.Proofs.Replacement
import EffectPrograms.Proofs.Unfolding
import Mathlib.Order.Monotone.Defs

/-!
# Executions mean what programs mean

The executor runs programs with frames and one step at a time; `Registry.evaluate` runs them by
recursion. Both take the same course in all surroundings. The comparison is with the machine that
gives no place away, of which the executor cannot be told apart.

One direction goes by induction on the fuel of the evaluation: whatever is to happen after a
composite, calls that begin with the composite get there (`evaluate_le_run`). The other goes by
induction on the calls: what an execution has still to do is evaluated from its innermost composite
outwards (`Registry.meaning`), and no call does anything else (`run_le_meaning`).
-/

namespace EffectPrograms

variable {σ : Type}

open Evaluation

/-! ## Calls of the machine that gives no place away -/

/-- The value that a composite delivers to the one below it. -/
def Frame.delivery (frame : Frame σ) (outcome : Outcome) : Value :=
  if frame.discards then .null else outcome.returned?.getD .null

namespace Machine

variable (m : Machine σ) (fuel calls : Nat)

/-- The calls after a composite is left. -/
def runAfter (top : Frame σ) (below : List (Frame σ)) (outcome : Outcome) :
    Evaluation σ Outcome :=
  match below with
  | [] => pure outcome
  | parent :: below => do
    let env ← orFault (parent.env.bindAs top.binding (top.delivery outcome))
    m.run fuel calls (.running ⟨{ parent with env }, below⟩)

/-- The calls after the front step of the innermost composite came to something, if they open every
composite in a new frame. -/
def runCommitted (top : Frame σ) (below : List (Frame σ)) (x : Resolution σ) :
    Evaluation σ Outcome :=
  match x.verdict with
  | .value v => do
    let env ← orFault (top.env.bindAs x.binding v)
    m.run fuel calls (.running ⟨{ top with steps := x.rest, env }, below⟩)
  | .escape v => m.runAfter fuel calls top below (.returned v)
  | .suspend io => do
    note (.ask io)
    m.run fuel calls (.awaitingIo x.binding ⟨{ top with steps := x.rest }, below⟩)
  | .enter steps => m.run fuel calls (.running
      ⟨{ steps := steps, binding := x.binding }, { top with steps := x.rest } :: below⟩)

/-- More calls go on for longer after a composite is left. -/
theorem runAfter_mono {more : Nat} (hle : calls ≤ more) (top : Frame σ) (below : List (Frame σ))
    (outcome : Outcome) :
    m.runAfter fuel calls top below outcome ≤ m.runAfter fuel more top below outcome := by
  cases below with
  | nil => exact le_rfl
  | cons parent below => exact bind_le_bind_right _ fun env => m.run_mono fuel hle _

/-- What happens after a composite is left does not depend on what it has done. -/
theorem runAfter_with (top : Frame σ) (below : List (Frame σ)) (steps : List (Step σ))
    (env : Environment) :
    m.runAfter fuel calls { top with steps, env } below = m.runAfter fuel calls top below := by
  cases below <;> rfl

/-- A value that is waited for is bound in the innermost composite. -/
theorem run_awaitingIo (binding : Option String) (stack : Stack σ) :
    m.run fuel (calls + 1) (.awaitingIo binding stack) = (do
      let v ← await
      let env ← orFault (stack.top.env.bindAs binding v)
      m.run fuel calls (.running { stack with top := { stack.top with env } })) := by
  refine course_ext fun surroundings => ?_
  rw [run]
  dsimp only
  cases hnext : surroundings.deliveries with
  | nil =>
    have hawait : await.course surroundings = ⟨[], .error .awaiting, surroundings⟩ := by
      rw [await]
      simp only [hnext]
    rw [bind_of_error hawait]
  | cons first later =>
    obtain ⟨delivery, world⟩ := first
    have hawait : await.course surroundings = (orFault delivery).course ⟨world, later⟩ := by
      rw [await]
      simp only [hnext]
    cases delivery with
    | error f =>
      rw [bind_of_error hawait]
      rfl
    | ok v =>
      rw [bind_of_ok hawait, Course.after_nil]
      simp only [Execution.receive, Execution.resume, Stack.bind]
      cases hbind : stack.top.env.bindAs binding v with
      | error f => rfl
      | ok env => rfl

variable {m fuel calls}

/-- What the calls come to if a composite is left in the first one. -/
theorem run_of_leave {stack : Stack σ} {top : Frame σ} {below : List (Frame σ)}
    {surroundings : Surroundings σ} {world : σ} (escaped : Option Value)
    (hstep : m.step fuel (.running stack) surroundings.world =
      some (.ofResult (Stack.leave ⟨top, below⟩ escaped) world)) :
    (m.run fuel (calls + 1) (.running stack)).course surroundings =
      ((m.runAfter fuel calls top below (escaped.elim (.environment top.env) .returned)).course
        { surroundings with world }).after (m.registry.stepActs fuel stack surroundings.world) := by
  rw [run]
  dsimp only
  rw [hstep]
  cases below with
  | nil =>
    cases escaped with
    | none => exact (Course.after_nothing _ _ _).symm
    | some v => exact (Course.after_nothing _ _ _).symm
  | cons parent below =>
    have hvalue : top.delivery (escaped.elim (.environment top.env) .returned) =
        if top.discards then .null else escaped.getD .null := by
      cases escaped <;> rfl
    rw [runAfter, hvalue]
    simp only [Stack.leave, Stack.bind]
    cases parent.env.bindAs top.binding (if top.discards then .null else escaped.getD .null) with
    | error f => exact (Course.after_nothing _ _ _).symm
    | ok env => rfl

end Machine

namespace Executor

variable (x : Executor σ) (fuel calls : Nat) {top : Frame σ} {below : List (Frame σ)}

/-- A composite without steps is left. -/
theorem run_leave (hsteps : top.steps = []) :
    (x.limited none).pushingMachine.run fuel (calls + 1) (.running ⟨top, below⟩) =
      (x.limited none).pushingMachine.runAfter fuel calls top below (.environment top.env) := by
  refine course_ext fun surroundings => ?_
  have hstep : (x.limited none).pushingMachine.step fuel (.running ⟨top, below⟩)
      surroundings.world =
        some (.ofResult (Stack.leave ⟨top, below⟩ none) surroundings.world) := by
    simp [pushingMachine, stepBy, hsteps]
  rw [Machine.run_of_leave none hstep]
  have hacts : (x.limited none).pushingMachine.registry.stepActs fuel ⟨top, below⟩
      surroundings.world = [] := by
    simp [Registry.stepActs, hsteps]
  rw [hacts, Course.after_nil]
  rfl

/-- A step is resolved, and what it came to is carried out. -/
theorem run_starts {s : Step σ} {rest : List (Step σ)} (hsteps : top.steps = s :: rest) :
    ((x.limited none).pushingMachine.run fuel (calls + 1) (.running ⟨top, below⟩)).Starts
      (x.registry.resolveActs fuel top.env s) (x.registry.resolve fuel top.env s rest)
      ((x.limited none).pushingMachine.runCommitted fuel calls top below) := by
  intro surroundings
  have hacts : (x.limited none).pushingMachine.registry.stepActs fuel ⟨top, below⟩
      surroundings.world = x.registry.resolveActs fuel top.env s surroundings.world := by
    simp only [Registry.stepActs, hsteps]
    rfl
  rw [← hacts]
  rcases hresolve : x.registry.resolve fuel top.env s rest surroundings.world with
    - | ⟨f | resolution, world⟩
  -- The step does not return for lack of fuel.
  · have hstep : (x.limited none).pushingMachine.step fuel (.running ⟨top, below⟩)
        surroundings.world = none := by
      simp [pushingMachine, stepBy, limited, hsteps, hresolve]
    rw [Machine.run]
    dsimp only
    rw [hstep]
    exact ⟨rfl, rfl⟩
  -- The step cannot be resolved.
  · have hstep : (x.limited none).pushingMachine.step fuel (.running ⟨top, below⟩)
        surroundings.world = some (.fail f world) := by
      simp [pushingMachine, stepBy, limited, hsteps, hresolve]
    rw [Machine.run]
    dsimp only
    rw [hstep]
    rfl
  -- The step is resolved, and each verdict is carried out in its own way.
  · have hstep : (x.limited none).pushingMachine.step fuel (.running ⟨top, below⟩)
        surroundings.world =
          some (.ofResult (Stack.commitPushing none ⟨top, below⟩ resolution) world) := by
      simp [pushingMachine, stepBy, limited, hsteps, hresolve]
    dsimp only
    rw [Machine.runCommitted]
    rcases hverdict : resolution.verdict with v | v | io | steps
    · simp only [Stack.commitPushing, Stack.commit, hverdict, Stack.bind] at hstep
      rw [Machine.run]
      dsimp only
      rw [hstep]
      cases top.env.bindAs resolution.binding v with
      | error f => exact (Course.after_nothing _ _ _).symm
      | ok env => rfl
    · simp only [Stack.commitPushing, Stack.commit, hverdict] at hstep
      exact Machine.run_of_leave (some v) hstep
    · simp only [Stack.commitPushing, Stack.commit, hverdict] at hstep
      rw [Machine.run]
      dsimp only
      rw [hstep]
      exact (Course.after_after _ _ _).symm
    · simp only [Stack.commitPushing, hverdict] at hstep
      rw [Machine.run]
      dsimp only
      rw [hstep]
      rfl

end Executor

/-! ## Evaluations lie below calls -/

/-- How many calls the evaluation of a composite takes at most. -/
def callsFor : Nat → Nat
  | 0 => 0
  | fuel + 1 => 2 * callsFor fuel + 2

/-- What follows the evaluation of a composite lies below the calls on an execution that has the
composite open, if it lies below those after the composite is left. -/
theorem Executor.evaluate_le_run (x : Executor σ) {fuel more : Nat} (hle : fuel ≤ more)
    (top : Frame σ) (below : List (Frame σ)) (next : Outcome → Evaluation σ Outcome) (calls : Nat)
    (hnext : ∀ outcome, next outcome ≤
      (x.limited none).pushingMachine.runAfter more calls top below outcome) :
    x.registry.evaluate fuel top.env top.steps >>= next ≤
      (x.limited none).pushingMachine.run more (callsFor fuel + calls) (.running ⟨top, below⟩) := by
  induction fuel generalizing top below next calls with
  | zero => exact unfinished_le _
  | succ fuel ih =>
    have hcalls : callsFor (fuel + 1) + calls = (2 * callsFor fuel + 1 + calls) + 1 := by
      rw [callsFor]
      omega
    rw [hcalls]
    cases hsteps : top.steps with
    | nil =>
      rw [x.run_leave more _ hsteps]
      exact (hnext _).trans (Machine.runAfter_mono _ _ _ (by omega) _ _ _)
    | cons s rest =>
      refine ((x.registry.evaluate_starts fuel top.env s rest).bind next).le
        (x.run_starts more _ hsteps) (x.registry.resolveActs_prefix (by omega) top.env s)
        (fun world result hresult => Registry.resolve_mono (by omega) hresult) fun resolution => ?_
      -- Once a value is there, both bind it and go on with the steps that are left.
      have hgoOn : ∀ v,
          x.registry.goOn fuel top.env resolution.binding v resolution.rest >>= next ≤
            orFault (top.env.bindAs resolution.binding v) >>= fun env =>
              (x.limited none).pushingMachine.run more (callsFor fuel + calls)
                (.running ⟨{ top with steps := resolution.rest, env }, below⟩) := by
        intro v
        rw [Registry.goOn, bind_assoc]
        refine bind_le_bind_right _ fun env => ?_
        refine ih (by omega) { top with steps := resolution.rest, env } below next calls ?_
        rwa [Machine.runAfter_with]
      unfold Registry.carryOut Machine.runCommitted
      rcases resolution.verdict with v | v | io | steps
      · refine (hgoOn v).trans (bind_le_bind_right _ fun env => ?_)
        exact Machine.run_mono _ _ (by omega) _
      · exact (hnext _).trans (Machine.runAfter_mono _ _ _ (by omega) _ _ _)
      · have hone : 2 * callsFor fuel + 1 + calls = (2 * callsFor fuel + calls) + 1 := by omega
        rw [hone]
        dsimp only
        rw [Machine.run_awaitingIo, perform, bind_assoc, bind_assoc]
        refine bind_le_bind_right _ fun _ => ?_
        refine bind_le_bind_right _ fun v => ?_
        refine (hgoOn v).trans (bind_le_bind_right _ fun env => ?_)
        exact Machine.run_mono _ _ (by omega) _
      · have hnested : 2 * callsFor fuel + 1 + calls =
            (callsFor fuel + (callsFor fuel + calls)) + 1 := by omega
        rw [hnested]
        dsimp only
        -- The inner composite comes first, and binding its value and going on with the outer one
        -- is what is to happen after it.
        rw [valued, bind_assoc, bind_assoc]
        refine (ih (by omega) { steps := steps, binding := resolution.binding }
          ({ top with steps := resolution.rest } :: below) _ (callsFor fuel + calls) ?_).trans
          (Machine.run_mono _ _ (Nat.le_succ _) _)
        exact fun outcome => hgoOn _

/-! ## Calls lie below evaluations -/

namespace Registry

variable (registry : Registry σ) (fuel : Nat)

/-- Evaluates the composites below one that is left, from the inside out. -/
def unwind : Frame σ → List (Frame σ) → Outcome → Evaluation σ Outcome
  | _, [], outcome => pure outcome
  | top, parent :: below, outcome => do
    let env ← orFault (parent.env.bindAs top.binding (top.delivery outcome))
    unwind parent below (← registry.evaluate fuel env parent.steps)

/-- Evaluates what an execution has still to do. -/
def meaning : Execution σ → Evaluation σ Outcome
  | .running stack => do
    registry.unwind fuel stack.top stack.below
      (← registry.evaluate fuel stack.top.env stack.top.steps)
  | .awaitingIo binding stack => do
    let env ← orFault (stack.top.env.bindAs binding (← await))
    registry.unwind fuel stack.top stack.below (← registry.evaluate fuel env stack.top.steps)
  | .done | .failed => halt .unfinished

/-- What is evaluated after a composite is left does not depend on what it has done. -/
theorem unwind_with (top : Frame σ) (below : List (Frame σ)) (steps : List (Step σ))
    (env : Environment) :
    registry.unwind fuel { top with steps, env } below = registry.unwind fuel top below := by
  cases below <;> rfl

/-- With more fuel what is evaluated after a composite is not cut short so soon. -/
theorem unwind_mono {more : Nat} (hle : fuel ≤ more) (top : Frame σ) (below : List (Frame σ))
    (outcome : Outcome) :
    registry.unwind fuel top below outcome ≤ registry.unwind more top below outcome := by
  induction below generalizing top outcome with
  | nil => exact le_rfl
  | cons parent below ih =>
    unfold unwind
    refine bind_le_bind_right _ fun env => ?_
    exact bind_le_bind (registry.evaluate_mono hle env parent.steps)
      fun outcome => ih parent outcome

end Registry

/-- Calls on an execution do nothing but what the evaluation of what it has still to do does. -/
theorem Executor.run_le_meaning (x : Executor σ) {fuel more : Nat} (calls : Nat)
    (hle : fuel + calls ≤ more) (e : Execution σ) :
    (x.limited none).pushingMachine.run fuel calls e ≤ x.registry.meaning more e := by
  induction calls generalizing more e with
  | zero => exact unfinished_le _
  | succ calls ih =>
    obtain ⟨more, rfl⟩ : ∃ n, more = n + 1 := ⟨more - 1, by omega⟩
    have hless : fuel + calls ≤ more := by omega
    have hmore : fuel + calls ≤ more + 1 := by omega
    -- After a composite is left the ones below are evaluated.
    have hafter : ∀ (top : Frame σ) below outcome,
        (x.limited none).pushingMachine.runAfter fuel calls top below outcome ≤
          x.registry.unwind (more + 1) top below outcome := by
      intro top below outcome
      cases below with
      | nil => exact le_rfl
      | cons parent below =>
        refine bind_le_bind_right _ fun env => ?_
        have h := ih hmore (.running ⟨{ parent with env }, below⟩)
        rwa [Registry.meaning, Registry.unwind_with] at h
    cases e with
    | running stack =>
      obtain ⟨top, below⟩ := stack
      rw [Registry.meaning]
      dsimp only
      cases hsteps : top.steps with
      | nil =>
        rw [x.run_leave fuel calls hsteps]
        exact hafter _ _ _
      | cons s rest =>
        refine (x.run_starts fuel calls hsteps).le
          ((x.registry.evaluate_starts more top.env s rest).bind _)
          (x.registry.resolveActs_prefix (by omega) top.env s)
          (fun world result hresult => Registry.resolve_mono (by omega) hresult)
          fun resolution => ?_
        -- Once a value is there, both bind it and go on with the steps that are left.
        have hgoOn : ∀ v, (orFault (top.env.bindAs resolution.binding v) >>= fun env =>
              x.registry.evaluate more env resolution.rest >>=
                x.registry.unwind more { top with steps := resolution.rest } below) ≤
            x.registry.goOn more top.env resolution.binding v resolution.rest >>=
              x.registry.unwind (more + 1) top below := by
          intro v
          rw [Registry.goOn, bind_assoc]
          refine bind_le_bind_right _ fun env => bind_le_bind_right _ fun outcome => ?_
          have htop := x.registry.unwind_with more top below resolution.rest top.env
          rw [htop]
          exact x.registry.unwind_mono more (Nat.le_succ more) top below outcome
        unfold Registry.carryOut Machine.runCommitted
        rcases resolution.verdict with v | v | io | steps
        · refine le_trans (bind_le_bind_right _ fun env => ?_) (hgoOn v)
          have h := ih hless (.running ⟨{ top with steps := resolution.rest, env }, below⟩)
          rw [Registry.meaning, Registry.unwind_with] at h
          rwa [← Registry.unwind_with _ _ top below resolution.rest top.env] at h
        · exact hafter _ _ _
        · dsimp only
          rw [perform, bind_assoc, bind_assoc]
          refine bind_le_bind_right _ fun _ => ?_
          refine (ih hless _).trans ?_
          exact bind_le_bind_right _ fun v => hgoOn v
        · dsimp only
          rw [valued, bind_assoc, bind_assoc]
          refine (ih hless _).trans ?_
          exact bind_le_bind_right _ fun outcome => hgoOn _
    | awaitingIo binding stack =>
      rw [Machine.run_awaitingIo, Registry.meaning]
      refine bind_le_bind_right _ fun v => bind_le_bind_right _ fun env => ?_
      have h := ih hmore (.running { stack with top := { stack.top with env } })
      rwa [Registry.meaning, Registry.unwind_with] at h
    | done => exact le_rfl
    | failed => exact le_rfl

/-! ## Whole sessions -/

/-- A program starts with its evaluation, after which nothing is left to do. -/
theorem Registry.meaning_start (registry : Registry σ) (fuel : Nat) (program : Program σ) :
    registry.meaning fuel (.start program) = registry.evaluate fuel .empty program :=
  bind_pure _

namespace Executor

variable (x : Executor σ) (program : Program σ) (surroundings : Surroundings σ)

/-- A session with a program from its start on lies between two runs. -/
theorem naive_course_between (fuel k : Nat) :
    ((x.limited none).pushingMachine.run fuel k (.start program)).course surroundings ≤
        (x.pushingUnder none program surroundings fuel k).course ∧
      (x.pushingUnder none program surroundings fuel k).course ≤
        ((x.limited none).pushingMachine.run fuel (k + 1) (.start program)).course
          surroundings := by
  have hhung : (Session.start program surroundings).hung = false := rfl
  have hopen : (Session.start program surroundings).execution.depth ≠ 0 := Nat.succ_ne_zero _
  exact Session.course_between _ fuel k hhung hopen

/-- Each evaluation of a program lies below a session. -/
theorem exists_session_ge (fuel : Nat) :
    ∃ calls, (x.registry.evaluate fuel .empty program).course surroundings ≤
      (x.sessionUnder none program surroundings fuel calls).course := by
  obtain ⟨pace, -, -, -, hmatch⟩ := x.exists_pace_shadows program surroundings fuel
  refine ⟨pace (callsFor fuel), ?_⟩
  have hrun : x.registry.evaluate fuel .empty program ≤
      (x.limited none).pushingMachine.run fuel (callsFor fuel) (.start program) := by
    have h := x.evaluate_le_run (le_refl fuel) { steps := program } [] pure 0 fun _ => le_rfl
    rwa [bind_pure] at h
  have hsession := x.naive_course_between program surroundings fuel (callsFor fuel)
  calc (x.registry.evaluate fuel .empty program).course surroundings
      ≤ ((x.limited none).pushingMachine.run fuel (callsFor fuel)
          (.start program)).course surroundings := hrun surroundings
    _ ≤ (x.pushingUnder none program surroundings fuel (callsFor fuel)).course := hsession.1
    _ = (x.sessionUnder none program surroundings fuel (pace (callsFor fuel))).course :=
        (hmatch (callsFor fuel)).course

/-- Each session of a program lies below an evaluation. -/
theorem exists_evaluation_ge (fuel calls : Nat) :
    ∃ more, (x.sessionUnder none program surroundings fuel calls).course ≤
      (x.registry.evaluate more .empty program).course surroundings := by
  obtain ⟨pace, -, -, hsurjective, hmatch⟩ := x.exists_pace_shadows program surroundings fuel
  obtain ⟨n, rfl⟩ := hsurjective calls
  refine ⟨fuel + (n + 1), ?_⟩
  have hsession := x.naive_course_between program surroundings fuel n
  have hrun := x.run_le_meaning (n + 1) (le_refl (fuel + (n + 1))) (.start program)
  calc (x.sessionUnder none program surroundings fuel (pace n)).course
      = (x.pushingUnder none program surroundings fuel n).course := (hmatch n).course.symm
    _ ≤ ((x.limited none).pushingMachine.run fuel (n + 1) (.start program)).course
          surroundings := hsession.2
    _ ≤ (x.registry.meaning (fuel + (n + 1)) (.start program)).course surroundings :=
        hrun surroundings
    _ = (x.registry.evaluate (fuel + (n + 1)) .empty program).course surroundings := by
        rw [Registry.meaning_start]

/-- Sessions of a program compare as its evaluations do, also in what is shown of their courses if
that keeps the order. -/
theorem exists_session_ge_of_evaluate {y : Executor σ}
    {view : Course σ Outcome → Course σ Outcome} (hview : Monotone view)
    (h : ∀ fuel, ∃ more, view ((x.registry.evaluate fuel .empty program).course surroundings) ≤
      view ((y.registry.evaluate more .empty program).course surroundings)) (fuel calls : Nat) :
    ∃ more calls', view (x.sessionUnder none program surroundings fuel calls).course ≤
      view (y.sessionUnder none program surroundings more calls').course := by
  obtain ⟨before, hevaluation⟩ := x.exists_evaluation_ge program surroundings fuel calls
  obtain ⟨more, hle⟩ := h before
  obtain ⟨calls', hsession⟩ := y.exists_session_ge program surroundings more
  exact ⟨more, calls', (hview hevaluation).trans (hle.trans (hview hsession))⟩

/-- The executor does to a program what the program means: without a limit to the depth its session
and the evaluation by recursion take the same course. Whatever has been done in the one after some
time is done in the other as well, in the same order and on the same surroundings, and the one comes
to an outcome, meets a fault, or waits for an io that has no delivery just if the other does. If
neither ends, both do the same for ever. -/
theorem session_adequate :
    Monotone (fun fuel => (x.registry.evaluate fuel .empty program).course surroundings) ∧
    (∀ fuel, ∃ more calls, (x.registry.evaluate fuel .empty program).course surroundings ≤
      (x.sessionUnder none program surroundings more calls).course) ∧
    (∀ fuel calls, ∃ more, (x.sessionUnder none program surroundings fuel calls).course ≤
      (x.registry.evaluate more .empty program).course surroundings) ∧
    ∀ course : Course σ Outcome, course.ending ≠ .error .unfinished →
      ((∃ fuel, (x.registry.evaluate fuel .empty program).course surroundings = course) ↔
        ∃ fuel calls, (x.sessionUnder none program surroundings fuel calls).course = course) := by
  refine ⟨fun fuel more hle => ?_, fun fuel => ?_, fun fuel calls => ?_, fun course hended => ?_⟩
  · exact x.registry.evaluate_mono hle .empty program surroundings
  · exact ⟨fuel, x.exists_session_ge program surroundings fuel⟩
  · exact x.exists_evaluation_ge program surroundings fuel calls
  constructor
  · rintro ⟨fuel, rfl⟩
    obtain ⟨calls, hle⟩ := x.exists_session_ge program surroundings fuel
    exact ⟨fuel, calls, (Course.eq_of_le hle hended).symm⟩
  · rintro ⟨fuel, calls, rfl⟩
    obtain ⟨more, hle⟩ := x.exists_evaluation_ge program surroundings fuel calls
    exact ⟨more, (Course.eq_of_le hle hended).symm⟩

end Executor

end EffectPrograms
