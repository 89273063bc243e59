import EffectPrograms.Execution.Step
import Mathlib.Data.List.Nodup

/-!
# What a step does on the way

A step of an execution gives environments to deferred steps and requests to interpreters before it
comes to a result. `Step.acts` and `Registry.acts` list this in order, beside `Step.unwrap` and
`Registry.follow`, which say what the step comes to; `Registry.stepActs` is the list for the front
step of a stack. A fault that a deferred step or an interpreter raised stands in the list, which
tells it from the faults that the execution finds by itself (`Fault.Own`).
-/

namespace EffectPrograms

variable {σ : Type}

/-- Something that an execution does in a step. -/
inductive Act (σ : Type) where
  /-- It gives an environment to a deferred step. -/
  | compute (env : Environment)
  /-- It gives a request to an interpreter. -/
  | dispatch (r : Request)
  /-- The deferred step or the interpreter that it has just asked raises a fault. -/
  | raise (f : Fault)
  /-- It asks for an io. -/
  | ask (io : Io σ)

/-- Whether the act gives an environment to a deferred step, which cannot be seen from outside. -/
def Act.isCompute : Act σ → Bool
  | .compute _ => true
  | _ => false

/-- The acts that can be seen from outside. -/
def Act.logged (acts : List (Act σ)) : List (Act σ) := acts.filter fun act => !act.isCompute

/-- What is seen of several parts is what is seen of each. -/
theorem Act.logged_append (first second : List (Act σ)) :
    logged (first ++ second) = logged first ++ logged second := List.filter_append ..

mutual

/-- What is done while a step is unwrapped. -/
def Step.acts (env : Environment) (binding : Option String) (world : σ) : Step σ → List (Act σ)
  | .op _ => []
  | .bind name inner =>
    match env.accept binding name with
    | .ok () => inner.acts env (some name) world
    | .error _ => []
  | .deferred f => .compute env :: (f env world).acts env binding

/-- What is done while the step that a deferred step comes to is unwrapped. -/
def Deferral.acts (env : Environment) (binding : Option String) : Deferral σ → List (Act σ)
  | .fault f _ => [.raise f]
  | .yields s world => s.acts env binding world

end

/-- What is done while a request is followed from answer to answer, as far as the fuel goes. -/
def Registry.acts (registry : Registry σ) : Nat → Request → σ → List (Act σ)
  | 0, _, _ => []
  | fuel + 1, r, world =>
    match registry.find? r.algebra with
    | none => []
    | some _ =>
      .dispatch r :: match registry.dispatch r world with
        | (.error f, _) => [.raise f]
        | (.ok (.operation (.request next), _), world) => registry.acts fuel next world
        | (.ok _, _) => []

/-- What is done while an operation of a program is resolved. -/
def Registry.operationActs (registry : Registry σ) (fuel : Nat) (world : σ) :
    Operation σ → List (Act σ)
  | .request r => registry.acts fuel r world
  | _ => []

/-- What is done while a step is resolved in an environment. -/
def Registry.resolveActs (registry : Registry σ) (fuel : Nat) (env : Environment) (s : Step σ)
    (world : σ) : List (Act σ) :=
  s.acts env none world ++
    match s.unwrap env none world with
    | (.error _, _) => []
    | (.ok (_, o), world) => registry.operationActs fuel world o

/-- What is done in the next step of a stack before it comes to a result. -/
def Registry.stepActs (registry : Registry σ) (fuel : Nat) (stack : Stack σ) (world : σ) :
    List (Act σ) :=
  match stack.top.steps with
  | [] => []
  | s :: _ => registry.resolveActs fuel stack.top.env s world

/-- In a step of a stack that has a front step, that step is resolved. -/
theorem Registry.stepActs_of_steps (registry : Registry σ) {stack : Stack σ} {s : Step σ}
    {rest : List (Step σ)} (hsteps : stack.top.steps = s :: rest) (fuel : Nat) (world : σ) :
    registry.stepActs fuel stack world = registry.resolveActs fuel stack.top.env s world := by
  rw [stepActs, hsteps]

/-! ## Faults that are raised and faults that are found -/

/-- The faults that an execution with a depth limit finds by itself. Any other fault that it ends
with was raised by a deferred step or an interpreter, or delivered by an io. -/
def Fault.Own (limit : Option Nat) : Fault → Prop
  | .invalidStep (.nestedBinding _ _) | .invalidStep .unnamedBinding => True
  | .nameTaken _ | .noInterpreter _ | .notRunning _ => True
  | .tooDeep depth => limit = some depth
  | _ => False

/-- The check of a name only finds faults of the execution's own. -/
theorem Environment.own_of_accept {env : Environment} {outer : Option String} {name : String}
    {f : Fault} (h : env.accept outer name = .error f) (limit : Option Nat) : f.Own limit := by
  cases outer with
  | some outer =>
    simp only [accept, Except.error.injEq] at h
    rw [← h]
    trivial
  | none =>
    simp only [accept] at h
    split_ifs at h with hempty htaken
    · simp only [Except.error.injEq] at h
      rw [← h]
      trivial
    · simp only [Except.error.injEq] at h
      rw [← h]
      trivial

mutual

/-- A step cannot be unwrapped for a fault that is either raised on the way or found. -/
theorem Step.raise_or_own_of_unwrap {env : Environment} {binding : Option String} {world world' : σ}
    {f : Fault} (limit : Option Nat) (s : Step σ)
    (h : s.unwrap env binding world = (.error f, world')) :
    .raise f ∈ s.acts env binding world ∨ f.Own limit := by
  cases s with
  | op o => simp [Step.unwrap] at h
  | bind name inner =>
    simp only [Step.unwrap] at h
    cases haccept : env.accept binding name with
    | error g =>
      simp only [haccept, Prod.mk.injEq, Except.error.injEq] at h
      exact .inr (h.1 ▸ Environment.own_of_accept haccept limit)
    | ok u =>
      rw [haccept] at h
      simp only [Step.acts, haccept]
      exact inner.raise_or_own_of_unwrap limit h
  | deferred g =>
    simp only [Step.unwrap] at h
    rcases (g env world).raise_or_own_of_unwrap limit h with hraise | hown
    · exact .inl (List.mem_cons_of_mem _ hraise)
    · exact .inr hown

/-- The same for the step that a deferred step comes to. -/
theorem Deferral.raise_or_own_of_unwrap {env : Environment} {binding : Option String} {world' : σ}
    {f : Fault} (limit : Option Nat) (d : Deferral σ)
    (h : d.unwrap env binding = (.error f, world')) :
    .raise f ∈ d.acts env binding ∨ f.Own limit := by
  cases d with
  | fault g world =>
    simp only [Deferral.unwrap, Prod.mk.injEq, Except.error.injEq] at h
    simp [Deferral.acts, h.1]
  | yields s world =>
    simp only [Deferral.unwrap] at h
    exact s.raise_or_own_of_unwrap limit h

end

mutual

/-- Nothing is raised on the way to an operation. -/
theorem Step.raise_notMem_of_unwrap {env : Environment} {binding : Option String} {world world' : σ}
    {found : Option String × Operation σ} (f : Fault) (s : Step σ)
    (h : s.unwrap env binding world = (.ok found, world')) :
    .raise f ∉ s.acts env binding world := by
  cases s with
  | op o => simp [Step.acts]
  | bind name inner =>
    simp only [Step.unwrap] at h
    cases haccept : env.accept binding name with
    | error g => simp [haccept] at h
    | ok u =>
      rw [haccept] at h
      simp only [Step.acts, haccept]
      exact inner.raise_notMem_of_unwrap f h
  | deferred g =>
    simp only [Step.unwrap] at h
    simp only [Step.acts, List.mem_cons, not_or]
    exact ⟨by simp, (g env world).raise_notMem_of_unwrap f h⟩

/-- The same for the step that a deferred step comes to. -/
theorem Deferral.raise_notMem_of_unwrap {env : Environment} {binding : Option String} {world' : σ}
    {found : Option String × Operation σ} (f : Fault) (d : Deferral σ)
    (h : d.unwrap env binding = (.ok found, world')) :
    .raise f ∉ d.acts env binding := by
  cases d with
  | fault g world => simp [Deferral.unwrap] at h
  | yields s world =>
    simp only [Deferral.unwrap] at h
    exact s.raise_notMem_of_unwrap f h

end

end EffectPrograms
