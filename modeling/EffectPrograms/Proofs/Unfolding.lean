import EffectPrograms.Proofs.Evaluation
import EffectPrograms.Proofs.Resolving
import Mathlib.Order.Monotone.Basic

/-!
# The first step of an evaluation

`Registry.evaluate` and an execution work on the front step of a composite in different ways: the
one goes through it by recursion up to its value, the other finds out at first what it comes to
(`Registry.resolve`) and then carries that out. Here the evaluation is cut at the same place:
`Evaluation.Starts` says that it does what is done while the step is resolved and goes on from what
that found, which is `Registry.carryOut` for the front step of a composite (`evaluate_starts`).
-/

namespace EffectPrograms

variable {σ α β : Type}

open Evaluation

/-- The evaluation finds something at first, as far as the fuel for that goes, and goes on from what
it has found. -/
def Evaluation.Starts (m : Evaluation σ α) (acts : σ → List (Act σ))
    (found : σ → Option (Except Fault β × σ)) (next : β → Evaluation σ α) : Prop :=
  ∀ surroundings, match found surroundings.world with
    | none => (m.course surroundings).acts = acts surroundings.world ∧
        (m.course surroundings).ending = .error .unfinished
    | some (.error f, world) => m.course surroundings =
        ⟨acts surroundings.world, .error (.fault f), { surroundings with world }⟩
    | some (.ok b, world) => m.course surroundings =
        ((next b).course { surroundings with world }).after (acts surroundings.world)

namespace Evaluation.Starts

variable {m m' : Evaluation σ α} {acts acts' : σ → List (Act σ)}
  {found found' : σ → Option (Except Fault β × σ)} {next next' : β → Evaluation σ α}

/-- What follows an evaluation follows what that goes on with. -/
theorem bind {γ : Type} (h : m.Starts acts found next) (f : α → Evaluation σ γ) :
    (m >>= f).Starts acts found fun b => next b >>= f := by
  intro surroundings
  have hm := h surroundings
  rcases hfound : found surroundings.world with - | ⟨g | b, world⟩
  · rw [hfound] at hm
    obtain ⟨hacts, hcut⟩ := hm
    rcases hcourse : m.course surroundings with ⟨acts', ending, rest⟩
    rw [hcourse] at hacts hcut
    obtain rfl : ending = .error .unfinished := hcut
    rw [bind_of_error hcourse]
    exact ⟨hacts, rfl⟩
  · rw [hfound] at hm
    exact bind_of_error hm
  · rw [hfound] at hm
    dsimp only at hm ⊢
    rcases hnext : (next b).course { surroundings with world } with ⟨acts', halt | a, rest⟩
    · rw [hnext] at hm
      rw [bind_of_error hm, bind_of_error hnext, Course.after]
    · rw [hnext] at hm
      rw [bind_of_ok hm, bind_of_ok hnext, Course.after_after]

/-- What is done first is seen first. -/
theorem acts_prefix (h : m.Starts acts found next) (surroundings : Surroundings σ) :
    acts surroundings.world <+: (m.course surroundings).acts := by
  have hm := h surroundings
  rcases hfound : found surroundings.world with - | ⟨g | b, world⟩
  · rw [hfound] at hm
    exact hm.1 ▸ List.prefix_rfl
  · rw [hfound] at hm
    exact hm ▸ List.prefix_rfl
  · rw [hfound] at hm
    rw [hm]
    exact List.prefix_append _ _

/-- An evaluation lies below another one if it finds the same with at most as much fuel and what it
goes on with lies below. -/
theorem le (h : m.Starts acts found next) (h' : m'.Starts acts' found' next')
    (hfuel : ∀ world, acts world <+: acts' world)
    (hfound : ∀ world result, found world = some result →
      found' world = some result ∧ acts' world = acts world)
    (hnext : ∀ b, next b ≤ next' b) : m ≤ m' := by
  intro surroundings
  have hm := h surroundings
  have hm' := h' surroundings
  rcases hresult : found surroundings.world with - | ⟨g | b, world⟩
  · -- The fuel was not enough, so that the first evaluation is cut short there.
    rw [hresult] at hm
    refine Course.le_of_cut hm.2 ?_
    rw [hm.1]
    exact (hfuel _).trans (h'.acts_prefix surroundings)
  · obtain ⟨hresult', hacts⟩ := hfound _ _ hresult
    rw [hresult] at hm
    rw [hresult'] at hm'
    rw [hm, hm', hacts]
  · obtain ⟨hresult', hacts⟩ := hfound _ _ hresult
    rw [hresult] at hm
    rw [hresult'] at hm'
    rw [hm, hm', hacts]
    exact Course.after_le_after _ (hnext b _)

end Evaluation.Starts

/-! ## Operations -/

mutual

/-- A step is unwrapped by recursion as it is by an execution. -/
theorem Step.operation_eq (env : Environment) (binding : Option String) (s : Step σ)
    (surroundings : Surroundings σ) :
    (s.operation env binding).course surroundings =
      ⟨s.acts env binding surroundings.world,
        (s.unwrap env binding surroundings.world).1.mapError .fault,
        { surroundings with world := (s.unwrap env binding surroundings.world).2 }⟩ := by
  cases s with
  | op o => rfl
  | bind name inner =>
    cases binding with
    | some outer =>
      rw [Step.operation, Step.acts, Step.unwrap]
      rfl
    | none =>
      rw [Step.operation, Step.acts, Step.unwrap, Environment.accept]
      by_cases hempty : name = ""
      · rw [if_pos hempty, if_pos hempty]
        rfl
      · rw [if_neg hempty, if_neg hempty]
        by_cases htaken : env.contains name = true
        · rw [if_pos htaken, if_pos htaken]
          rfl
        · rw [if_neg htaken, if_neg htaken]
          exact inner.operation_eq env (some name) surroundings
  | deferred f =>
    rw [Step.operation, Step.acts, Step.unwrap]
    dsimp only
    rw [(f env surroundings.world).operation_eq env binding surroundings]
    rfl

/-- The same for the step that a deferred step comes to. -/
theorem Deferral.operation_eq (env : Environment) (binding : Option String) (d : Deferral σ)
    (surroundings : Surroundings σ) :
    (d.operation env binding).course surroundings =
      ⟨d.acts env binding, (d.unwrap env binding).1.mapError .fault,
        { surroundings with world := (d.unwrap env binding).2 }⟩ := by
  cases d with
  | fault f world => rfl
  | yields s world =>
    rw [Deferral.operation, Deferral.acts, Deferral.unwrap]
    dsimp only
    rw [s.operation_eq env binding { surroundings with world }]

end

/-! ## Requests -/

/-- The value of what a step came to. -/
def Verdict.valued (nested : List (Step σ) → Evaluation σ Value) : Verdict σ → Evaluation σ Value
  | .value v | .escape v => pure v
  | .suspend io => perform io
  | .enter steps => nested steps

namespace Registry

/-- What an interpreter is consulted for is what a dispatch gives. -/
theorem consult_eq {registry : Registry σ} {r : Request} {i : Interpreter σ}
    (hfind : registry.find? r.algebra = some i) (surroundings : Surroundings σ) :
    (registry.consult r).course surroundings =
      match registry.dispatch r surroundings.world with
      | (.error f, world) =>
        ⟨[.dispatch r, .raise f], .error (.fault f), { surroundings with world }⟩
      | (.ok found, world) => ⟨[.dispatch r], .ok found, { surroundings with world }⟩ := by
  rw [consult, dispatch, hfind]
  dsimp only
  rcases i.interpret r { world := surroundings.world } with ⟨f | answer, pass⟩
  · rfl
  · rfl

/-- A request has its value by recursion after it has been followed to its end. -/
theorem value_starts (registry : Registry σ) (nested : List (Step σ) → Evaluation σ Value)
    (fuel : Nat) (r : Request) (rest : List (Step σ)) :
    (registry.value nested fuel r rest).Starts (registry.acts fuel r)
      (registry.follow fuel r rest)
      fun found => do return (← found.1.valued nested, found.2) := by
  induction fuel generalizing r rest with
  | zero => exact fun surroundings => ⟨rfl, rfl⟩
  | succ fuel ih =>
    intro surroundings
    rw [follow, acts, value]
    cases hfind : registry.find? r.algebra with
    | none =>
      have hdispatch : registry.dispatch r surroundings.world =
          (.error (.noInterpreter r), surroundings.world) := by simp [dispatch, hfind]
      rw [hdispatch]
      dsimp only
      rw [consult, hfind]
      rfl
    | some i =>
      have hconsult := consult_eq hfind surroundings
      rcases hdispatch : registry.dispatch r surroundings.world with
        ⟨f | ⟨answer, replacement⟩, world⟩
      · rw [hdispatch] at hconsult
        exact bind_of_error hconsult
      · rw [hdispatch] at hconsult
        dsimp only
        -- Every answer but another request ends the chain.
        rcases answer with - | v | (next | io | steps | v) | steps
        · exact bind_of_ok hconsult
        · exact bind_of_ok hconsult
        · have hnext := ih next (replacement.getD rest) { surroundings with world }
          rw [bind_of_ok hconsult]
          dsimp only at hnext ⊢
          rcases hfollow : registry.follow fuel next (replacement.getD rest) world with
            - | ⟨f | found, world'⟩
          · rw [hfollow] at hnext
            exact ⟨congrArg _ hnext.1, hnext.2⟩
          · rw [hfollow] at hnext
            exact congrArg (Course.after [.dispatch r]) hnext
          · rw [hfollow] at hnext
            exact congrArg (Course.after [.dispatch r]) hnext
        · exact bind_of_ok hconsult
        · exact bind_of_ok hconsult
        · exact bind_of_ok hconsult
        · exact bind_of_ok hconsult

/-! ## Steps of a composite -/

/-- Binds the value of a step and goes on with the steps that are left. -/
def goOn (registry : Registry σ) (fuel : Nat) (env : Environment) (binding : Option String)
    (v : Value) (rest : List (Step σ)) : Evaluation σ Outcome := do
  registry.evaluate fuel (← orFault (env.bindAs binding v)) rest

/-- Carries out what the front step of a composite came to, and goes on with the rest. -/
def carryOut (registry : Registry σ) (fuel : Nat) (env : Environment) (x : Resolution σ) :
    Evaluation σ Outcome :=
  match x.verdict with
  | .value v => registry.goOn fuel env x.binding v x.rest
  | .escape v => return .returned v
  | .suspend io => do registry.goOn fuel env x.binding (← perform io) x.rest
  | .enter steps => do
    registry.goOn fuel env x.binding (← (registry.evaluate fuel .empty steps).valued) x.rest

/-- What a request comes to is carried out by taking its value and going on. -/
theorem carryOut_of_followed (registry : Registry σ) (fuel : Nat) (env : Environment)
    (binding : Option String) {verdict : Verdict σ} (hverdict : ∀ v, verdict ≠ .escape v)
    (rest : List (Step σ)) :
    (do
      let v ← verdict.valued fun steps => (registry.evaluate fuel .empty steps).valued
      return (v, rest)) >>= (fun found => registry.goOn fuel env binding found.1 found.2) =
      registry.carryOut fuel env ⟨binding, verdict, rest⟩ := by
  rcases verdict with v | v | io | steps
  · rfl
  · exact absurd rfl (hverdict v)
  · rw [bind_assoc]
    rfl
  · rw [bind_assoc]
    rfl

/-- The evaluation of a composite resolves the front step and carries out what that came to. -/
theorem evaluate_starts (registry : Registry σ) (fuel : Nat) (env : Environment) (s : Step σ)
    (rest : List (Step σ)) :
    (registry.evaluate (fuel + 1) env (s :: rest)).Starts (registry.resolveActs fuel env s)
      (registry.resolve fuel env s rest) (registry.carryOut fuel env) := by
  intro surroundings
  rw [evaluate, resolve, resolveActs]
  have hoperation := s.operation_eq env none surroundings
  rcases hunwrap : s.unwrap env none surroundings.world with ⟨f | ⟨binding, o⟩, world⟩
  · rw [hunwrap] at hoperation
    dsimp only
    rw [List.append_nil]
    exact bind_of_error hoperation
  rw [hunwrap] at hoperation
  rw [bind_of_ok hoperation]
  rcases o with r | io | steps | v
  -- What a request has by recursion is what following it comes to, carried out.
  · have hvalue := (registry.value_starts
      (fun steps => (registry.evaluate fuel .empty steps).valued) fuel r rest).bind
      (fun found => registry.goOn fuel env binding found.1 found.2) { surroundings with world }
    dsimp only [resolveOperation, operationActs] at hvalue ⊢
    rcases hfollow : registry.follow fuel r rest world with - | ⟨f | ⟨verdict, rest'⟩, world'⟩
    · rw [hfollow] at hvalue
      exact ⟨congrArg _ hvalue.1, hvalue.2⟩
    · rw [hfollow] at hvalue
      exact congrArg (Course.after _) hvalue
    · have hverdict : ∀ v, verdict ≠ .escape v := by
        rintro v rfl
        exact follow_ne_escape v hfollow
      rw [hfollow] at hvalue
      dsimp only [Option.map, Except.map] at hvalue ⊢
      rw [registry.carryOut_of_followed fuel env binding hverdict rest'] at hvalue
      rw [← Course.after_after]
      exact congrArg (Course.after _) hvalue
  -- The other operations need no resolving.
  all_goals
    dsimp only [resolveOperation, operationActs, Option.map, Except.map]
    rw [List.append_nil]
    rfl

/-! ## The operation of the front step -/

section

variable (registry : Registry σ)

/-- The value of a composite in an environment of its own. -/
abbrev compositeValue (fuel : Nat) (steps : List (Step σ)) : Evaluation σ Value :=
  (registry.evaluate fuel .empty steps).valued

/-- The value of an operation, and the steps that are left of the composite that it stands in. An
operation that leaves the composite leaves no steps. -/
def operationValue (fuel : Nat) (rest : List (Step σ)) :
    Operation σ → Evaluation σ (Value × List (Step σ))
  | .request r => registry.value (registry.compositeValue fuel) fuel r rest
  | .io io => do return (← perform io, rest)
  | .composite steps => do return (← registry.compositeValue fuel steps, rest)
  | .returning v => return (v, [])

/-- With more fuel a composite inside is not cut short so soon. -/
theorem compositeValue_mono (steps : List (Step σ)) :
    Monotone fun fuel => registry.compositeValue fuel steps :=
  fun _ _ hle => bind_le_bind (registry.evaluate_mono hle .empty steps) fun _ => le_rfl

/-- Neither is a request. -/
theorem requestValue_mono {fuel more n n' : Nat} (hle : fuel ≤ more) (hle' : n ≤ n') (r : Request)
    (rest : List (Step σ)) :
    registry.value (registry.compositeValue fuel) n r rest ≤
      registry.value (registry.compositeValue more) n' r rest :=
  registry.value_mono (fun steps => registry.compositeValue_mono steps hle) hle' r rest

/-- Neither is any operation. -/
theorem operationValue_mono (rest : List (Step σ)) (o : Operation σ) :
    Monotone fun fuel => registry.operationValue fuel rest o := by
  intro fuel more hle
  cases o with
  | request r => exact registry.requestValue_mono hle hle r rest
  | io io => exact le_rfl
  | composite steps => exact bind_le_bind (registry.compositeValue_mono steps hle) fun _ => le_rfl
  | returning v => exact le_rfl

/-- With more fuel a composite is not cut short so soon after a step. -/
theorem goOn_mono (env : Environment) (binding : Option String) (v : Value)
    (rest : List (Step σ)) : Monotone fun fuel => registry.goOn fuel env binding v rest :=
  fun _ _ hle => bind_le_bind_right _ fun env => registry.evaluate_mono hle env rest

/-- Goes on from the operation that the front step of a composite came to: with its value, unless it
leaves the composite. -/
def proceed (fuel : Nat) (env : Environment) (rest : List (Step σ)) (binding : Option String) :
    Operation σ → Evaluation σ Outcome
  | .returning v => return .returned v
  | o => do
    let (v, rest) ← registry.operationValue fuel rest o
    registry.goOn fuel env binding v rest

/-- The evaluation of a composite unwraps the front step and goes on from there. -/
theorem evaluate_cons (fuel : Nat) (env : Environment) (s : Step σ) (rest : List (Step σ)) :
    registry.evaluate (fuel + 1) env (s :: rest) =
      s.operation env none >>= fun front => registry.proceed fuel env rest front.1 front.2 := by
  rw [evaluate]
  refine bind_congr fun front => ?_
  obtain ⟨binding, r | io | steps | v⟩ := front
  · rfl
  · simp only [proceed, operationValue, bind_assoc]
    rfl
  · simp only [proceed, operationValue, bind_assoc]
    rfl
  · rfl

/-- An operation leaves the composite, or the composite goes on with its value. -/
theorem proceed_cases (o : Operation σ) :
    (∃ v, o = .returning v) ∨ ∀ (registry : Registry σ) fuel env rest binding,
      registry.proceed fuel env rest binding o =
        registry.operationValue fuel rest o >>= fun found =>
          registry.goOn fuel env binding found.1 found.2 := by
  cases o with
  | returning v => exact .inl ⟨v, rfl⟩
  | request r | io io | composite steps => exact .inr fun _ _ _ _ _ => rfl

/-- With more fuel it is not cut short so soon after the front step. -/
theorem proceed_mono (env : Environment) (rest : List (Step σ)) (binding : Option String)
    (o : Operation σ) : Monotone fun fuel => registry.proceed fuel env rest binding o := by
  intro fuel more hle
  rcases proceed_cases o with ⟨v, rfl⟩ | hgoesOn
  · exact le_rfl
  · simp only [hgoesOn]
    exact bind_le_bind (registry.operationValue_mono rest o hle) fun found =>
      registry.goOn_mono env binding found.1 found.2 hle

end

end Registry

end EffectPrograms
