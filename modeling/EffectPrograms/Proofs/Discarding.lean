import EffectPrograms.Proofs.Runs
import EffectPrograms.Proofs.Session

/-!
# Steps that are discarded

The steps that follow in a composite are discarded if its front step leaves the composite, or if a
handler that is asked on the way wants other steps in their place (`Registry.Discards`). They then
have no influence at all. That is so although how a composite is opened depends on whether any steps
are left: a replacement counts before that is decided, and what the request comes to from there on
is the same for all tails (`Registry.follow_eq_of_replaces`). So is what the front step comes to
(`Registry.ComesTo.resolve_congr`), and the stack that it is carried out on.
-/

namespace EffectPrograms

variable {σ : Type}

namespace Registry

variable {registry : Registry σ} {env : Environment} {s : Step σ} {rest rest' : List (Step σ)}
  {world world' : σ} {binding : Option String} {r : Request} {acts : List (Act σ)}

/-- Someone who is asked for the request wants the rest of the composite to be replaced, whether the
request is answered in the end or not. This is read off what all of them leave of the capability
that they were lent, and says that someone has called it. Handlers which overwrite it instead are
left out. -/
def Replaces (registry : Registry σ) (r : Request) (world : σ) : Prop :=
  ∃ i, registry.find? r.algebra = some i ∧ (i.interpret r { world }).2.replacement.isSome

/-- The next step discards those after it: it returns, or comes to a request for which someone wants
them to be replaced. -/
inductive Discards (registry : Registry σ) (env : Environment) (s : Step σ) (world : σ) : Prop where
  | returns {binding : Option String} {v : Value} {world' : σ} :
      s.unwrap env none world = (.ok (binding, .returning v), world') →
        Discards registry env s world
  | replaces {rest rest' : List (Step σ)} {world' : σ} {binding : Option String} {r : Request}
      {acts : List (Act σ)} :
      registry.ComesTo env s rest world binding r rest' world' acts →
        registry.Replaces r world' → Discards registry env s world

/-- Once someone wants the rest to be replaced it does not matter what the rest was. -/
theorem follow_eq_of_replaces (h : registry.Replaces r world) (fuel : Nat)
    (rest other : List (Step σ)) :
    registry.follow fuel r rest world = registry.follow fuel r other world := by
  obtain ⟨i, hfind, hreplacement⟩ := h
  rcases hinterpret : i.interpret r { world } with ⟨f | answer, pass⟩
  all_goals
    rw [hinterpret] at hreplacement
    obtain ⟨steps, hsteps⟩ : ∃ steps, pass.replacement = some steps :=
      Option.isSome_iff_exists.1 hreplacement
    cases fuel with
    | zero => rfl
    | succ fuel => simp [follow, dispatch, hfind, hinterpret, hsteps, Except.map]

/-- If the rest does not matter to a request that a step comes to, it does not matter to the
step. -/
theorem ComesTo.resolve_congr (h : registry.ComesTo env s rest world binding r rest' world' acts)
    (hfollow : ∀ fuel rest other,
      registry.follow fuel r rest world' = registry.follow fuel r other world') :
    ∀ fuel rest other,
      registry.resolve fuel env s rest world = registry.resolve fuel env s other world := by
  induction h with
  | unwrapped hunwrap =>
    intro fuel rest other
    rw [(registry.resolve_of_request hunwrap fuel rest).1,
      (registry.resolve_of_request hunwrap fuel other).1, hfollow fuel rest other]
  | answered _ hdispatch ih =>
    -- The answer before the request does not depend on the rest either.
    refine ih fun fuel rest other => ?_
    cases fuel with
    | zero => rfl
    | succ fuel =>
      rw [(follow_of_request hdispatch fuel rest).1, (follow_of_request hdispatch fuel other).1]
      exact hfollow fuel _ _

end Registry

/-- The stack with a step and others after it in the innermost composite. -/
def Stack.facing (stack : Stack σ) (s : Step σ) (rest : List (Step σ)) : Stack σ :=
  { stack with top := { stack.top with steps := s :: rest } }

/-- The session with a running execution. -/
def Session.running (session : Session σ) (stack : Stack σ) : Session σ :=
  { session with execution := .running stack }

namespace Executor

variable (x : Executor σ) {stack : Stack σ} {s : Step σ} {world : σ}

/-- A step that discards those after it leads to the same in front of others. -/
theorem step_eq_of_discards (h : x.registry.Discards stack.top.env s world) (fuel : Nat)
    (rest other : List (Step σ)) :
    x.step fuel (.running (stack.facing s rest)) world =
      x.step fuel (.running (stack.facing s other)) world := by
  cases h with
  | @returns binding v world' hunwrap =>
    -- The composite is left with all that it has, so that it does not matter what that is.
    have hleave : ∀ tail, x.step fuel (.running (stack.facing s tail)) world =
        some (.ofResult (stack.leave (some v)) world') := by
      intro tail
      have hresolve : x.registry.resolve fuel stack.top.env s tail world =
          some (.ok ⟨binding, .escape v, tail⟩, world') :=
        (x.registry.resolve_of_verdict hunwrap rfl fuel tail).1
      have hstep : x.step fuel (.running (stack.facing s tail)) world = _ :=
        x.step_of_leaves (.returned rfl hresolve rfl)
      rw [hstep, Stack.facing, Stack.leave_withSteps]
    rw [hleave rest, hleave other]
  | replaces hcomes hreplaces =>
    have hresolve := hcomes.resolve_congr (Registry.follow_eq_of_replaces hreplaces) fuel rest other
    simp only [step, Stack.facing, hresolve]
    rfl

/-- A step that discards those after it is the same call of a session in front of others, if it
returns. If it does not, the session hangs in both cases. -/
theorem advance_of_discards (session : Session σ) (hhung : session.hung = false)
    (h : x.registry.Discards stack.top.env s session.surroundings.world) (fuel : Nat)
    (rest other : List (Step σ)) :
    x.machine.advance fuel (session.running (stack.facing s rest)) =
        x.machine.advance fuel (session.running (stack.facing s other)) ∨
      x.step fuel (.running (stack.facing s rest)) session.surroundings.world = none ∧
        ∃ acts, ∀ tail, x.machine.advance fuel (session.running (stack.facing s tail)) =
          (session.running (stack.facing s tail)).hang acts := by
  have hcall : ∀ tail, x.machine.step fuel (.running (stack.facing s tail))
      session.surroundings.world =
        x.step fuel (.running (stack.facing s rest)) session.surroundings.world :=
    fun tail => x.step_eq_of_discards h fuel tail rest
  have hawake : ∀ tail, (session.running (stack.facing s tail)).hung = false := fun _ => hhung
  cases hmade : x.step fuel (.running (stack.facing s rest)) session.surroundings.world with
  | none =>
    refine .inr ⟨rfl, x.registry.resolveActs fuel stack.top.env s session.surroundings.world, ?_⟩
    intro tail
    rw [Machine.advance_of_running (hawake tail) rfl]
    exact (hcall tail).trans hmade ▸ rfl
  | some t =>
    refine .inl ?_
    have hstepped : ∀ tail, x.machine.advance fuel (session.running (stack.facing s tail)) =
        (session.running (stack.facing s tail)).stepped
          (x.registry.resolveActs fuel stack.top.env s session.surroundings.world) t := by
      intro tail
      rw [Machine.advance_of_running (hawake tail) rfl]
      exact (hcall tail).trans hmade ▸ rfl
    rw [hstepped rest, hstepped other]
    rfl

/-- Steps that are discarded have no influence. In front of any two tails, however long, a step that
discards those after it does the same and leads to the same execution in the same world, with the
same event or fault. From there on everything is the same: a run ends in the same way, and a session
is the same after every number of calls, unless the step does not return at all, and looks the same
from outside in any case. -/
theorem discarded_invisible (stack : Stack σ) (s : Step σ) (surroundings : Surroundings σ)
    (h : x.registry.Discards stack.top.env s surroundings.world) (rest other : List (Step σ))
    (fuel : Nat) :
    x.registry.stepActs fuel (stack.facing s rest) surroundings.world =
        x.registry.stepActs fuel (stack.facing s other) surroundings.world ∧
    x.step fuel (.running (stack.facing s rest)) surroundings.world =
        x.step fuel (.running (stack.facing s other)) surroundings.world ∧
    x.run fuel (.running (stack.facing s rest)) surroundings.world =
        x.run fuel (.running (stack.facing s other)) surroundings.world ∧
    ∀ session : Session σ, session.hung = false → session.surroundings = surroundings → ∀ calls,
      (x.step fuel (.running (stack.facing s rest)) surroundings.world ≠ none →
        (x.machine.advance fuel)^[calls + 1] (session.running (stack.facing s rest)) =
          (x.machine.advance fuel)^[calls + 1] (session.running (stack.facing s other))) ∧
      ((x.machine.advance fuel)^[calls] (session.running (stack.facing s rest))).course =
        ((x.machine.advance fuel)^[calls] (session.running (stack.facing s other))).course := by
  refine ⟨rfl, x.step_eq_of_discards h fuel rest other, ?_, ?_⟩
  · cases fuel with
    | zero => rfl
    | succ fuel => rw [run, run, x.step_eq_of_discards h fuel rest other]
  rintro session hhung rfl calls
  rcases x.advance_of_discards session hhung h fuel rest other with hsame | ⟨hnone, acts, hhang⟩
  · have hcalls : ∀ n, (x.machine.advance fuel)^[n + 1] (session.running (stack.facing s rest)) =
        (x.machine.advance fuel)^[n + 1] (session.running (stack.facing s other)) := by
      intro n
      rw [Function.iterate_succ_apply, Function.iterate_succ_apply, hsame]
    refine ⟨fun _ => hcalls calls, ?_⟩
    cases calls with
    | zero => rfl
    | succ calls => rw [hcalls calls]
  · refine ⟨fun hreturns => absurd hnone hreturns, ?_⟩
    have hcalls : ∀ tail n, (x.machine.advance fuel)^[n + 1]
        (session.running (stack.facing s tail)) =
          (session.running (stack.facing s tail)).hang acts := by
      intro tail n
      rw [Function.iterate_succ_apply, hhang tail]
      exact Function.iterate_fixed (Machine.advance_of_hung rfl) n
    cases calls with
    | zero => rfl
    | succ calls =>
      rw [hcalls rest calls, hcalls other calls]
      rfl

end Executor

/-! ## An example of a discarded tail -/

/-- Hands every visitor on to a guard, who lets nothing happen after the request and answers with a
composite. -/
def Executor.guarded : Executor Unit where
  registry := ⟨[
    .table "door" [("knock", fun _ => pure (.operation (.request ⟨"guard", "check", []⟩)))],
    .table "guard" [("check", fun _ => do
      Handling.replaceRemainder []
      return .sequence [.returning (.bool false)])]]⟩

/-- A composite inside another. -/
def Stack.atTheDoor : Stack Unit := ⟨{ steps := [] }, [{ steps := [] }]⟩

/-- The guard's composite takes the place of the one inside, also if that one had steps left. -/
theorem Executor.discarded_invisible_atTheDoor :
    ∃ t, guarded.step 2 (.running (Stack.atTheDoor.facing (.request ⟨"door", "knock", []⟩) []))
        () = some t ∧
      guarded.step 2 (.running (Stack.atTheDoor.facing (.request ⟨"door", "knock", []⟩)
        [.bind "let in" (.op (.io ⟨fun c w => (c, w), .late⟩)), .returning (.bool true)])) () =
          some t ∧
      t.result.isOk ∧ t.execution.depth = 2 := by
  have hknock : guarded.registry.ComesTo .empty (.request ⟨"door", "knock", []⟩) [] () none
      ⟨"guard", "check", []⟩ _ _ _ := .answered (.unwrapped rfl) rfl
  have hreplaces : guarded.registry.Replaces ⟨"guard", "check", []⟩ () := ⟨_, rfl, rfl⟩
  have hsame := guarded.discarded_invisible .atTheDoor _ ⟨(), []⟩ (.replaces hknock hreplaces) []
    [.bind "let in" (.op (.io ⟨fun c w => (c, w), .late⟩)), .returning (.bool true)] 2
  exact ⟨_, rfl, hsame.2.1.symm, rfl, rfl⟩

end EffectPrograms
