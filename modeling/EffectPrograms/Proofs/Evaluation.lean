import EffectPrograms.Proofs.Course

/-!
# Evaluation by recursion

What a program means, without frames: `Registry.evaluate` runs the steps of a composite from the
front in an environment of its own, and calls itself for the composites inside. An `Evaluation` says
for any surroundings which course it takes in them. The fuel bounds the depth of the recursion, so
that a program means the courses that it takes with more and more fuel: each of them lies below the
next (`evaluate_mono`).
-/

namespace EffectPrograms

variable {σ α β : Type}

/-- A computation that takes a course in any surroundings. -/
structure Evaluation (σ α : Type) where
  /-- The course that it takes in the surroundings. -/
  course : Surroundings σ → Course σ α

namespace Evaluation

/-- Nothing is done after a halt. -/
instance : Monad (Evaluation σ) where
  pure a := ⟨fun surroundings => ⟨[], .ok a, surroundings⟩⟩
  bind m f := ⟨fun surroundings =>
    match m.course surroundings with
    | ⟨acts, .ok a, surroundings⟩ => ((f a).course surroundings).after acts
    | ⟨acts, .error h, surroundings⟩ => ⟨acts, .error h, surroundings⟩⟩

/-- Halts. -/
def halt (h : Halt) : Evaluation σ α := ⟨fun surroundings => ⟨[], .error h, surroundings⟩⟩

/-- Shows what is done. -/
def note (act : Act σ) : Evaluation σ Unit := ⟨fun surroundings => ⟨[act], .ok (), surroundings⟩⟩

/-- Goes on with a result or halts with its fault. -/
def orFault : Except Fault α → Evaluation σ α
  | .ok a => pure a
  | .error f => halt (.fault f)

/-- Takes the next delivery. -/
def await : Evaluation σ Value := ⟨fun surroundings =>
  match surroundings.deliveries with
  | [] => ⟨[], .error .awaiting, surroundings⟩
  | (delivery, world) :: later => (orFault delivery).course ⟨world, later⟩⟩

/-- Asks for an io and takes its value. -/
def perform (io : Io σ) : Evaluation σ Value := do
  note (.ask io)
  await

/-- The value of a composite: what it returns, or `null` if it runs out of steps. -/
def valued (m : Evaluation σ Outcome) : Evaluation σ Value := do
  return (← m).returned?.getD .null

end Evaluation

open Evaluation

mutual

/-- The operation of a step and the name to bind its value under. A name stands in no other binding,
is not empty, and is not bound yet; deferred steps see the environment. -/
def Step.operation (env : Environment) (binding : Option String) :
    Step σ → Evaluation σ (Option String × Operation σ)
  | .op o => pure (binding, o)
  | .bind name inner =>
    match binding with
    | some outer => halt (.fault (.invalidStep (.nestedBinding outer name)))
    | none =>
      if name = "" then halt (.fault (.invalidStep .unnamedBinding))
      else if env.contains name then halt (.fault (.nameTaken name))
      else inner.operation env (some name)
  | .deferred f => ⟨fun surroundings =>
    (((f env surroundings.world).operation env binding).course surroundings).after [.compute env]⟩

/-- The same for the step that a deferred step comes to. -/
def Deferral.operation (env : Environment) (binding : Option String) :
    Deferral σ → Evaluation σ (Option String × Operation σ)
  | .fault f world => ⟨fun surroundings =>
    ⟨[.raise f], .error (.fault f), { surroundings with world }⟩⟩
  | .yields s world => ⟨fun surroundings =>
    (s.operation env binding).course { surroundings with world }⟩

end

namespace Registry

/-- The answer of the interpreter of an algebra to a request, and what is to replace the rest of the
composite. -/
def consult (registry : Registry σ) (r : Request) :
    Evaluation σ (Answer σ × Option (List (Step σ))) :=
  match registry.find? r.algebra with
  | none => halt (.fault (.noInterpreter r))
  | some i => ⟨fun surroundings =>
    match i.interpret r { world := surroundings.world } with
    | (.ok answer, pass) =>
      ⟨[.dispatch r], .ok (answer, pass.replacement), { surroundings with world := pass.world }⟩
    | (.error f, pass) =>
      ⟨[.dispatch r, .raise f], .error (.fault f), { surroundings with world := pass.world }⟩⟩

/-- The value of a request, and the steps that are left of the composite that it stands in. An
operation that an interpreter answers with takes the place of the request. -/
def value (registry : Registry σ) (nested : List (Step σ) → Evaluation σ Value) :
    Nat → Request → List (Step σ) → Evaluation σ (Value × List (Step σ))
  | 0, _, _ => halt .unfinished
  | fuel + 1, r, rest => do
    let (answer, replacement) ← registry.consult r
    let rest := replacement.getD rest
    match answer with
    | .unit => return (.null, rest)
    | .value v => return (v, rest)
    | .sequence steps => return (← nested steps, rest)
    | .operation (.returning v) => return (v, rest)
    | .operation (.io io) => return (← perform io, rest)
    | .operation (.composite steps) => return (← nested steps, rest)
    | .operation (.request next) => registry.value nested fuel next rest

/-- Runs the steps of a composite in its environment. -/
def evaluate (registry : Registry σ) :
    Nat → Environment → List (Step σ) → Evaluation σ Outcome
  | 0, _, _ => halt .unfinished
  | _ + 1, env, [] => return .environment env
  | fuel + 1, env, s :: rest => do
    let (binding, o) ← s.operation env none
    let nested steps := (registry.evaluate fuel .empty steps).valued
    let goOn v rest := do registry.evaluate fuel (← orFault (env.bindAs binding v)) rest
    match o with
    | .returning v => return .returned v
    | .io io => goOn (← perform io) rest
    | .composite steps => goOn (← nested steps) rest
    | .request r => do
      let (v, rest) ← registry.value nested fuel r rest
      goOn v rest

end Registry

/-! ## Laws -/

namespace Evaluation

variable {m : Evaluation σ α} {f : α → Evaluation σ β} {surroundings rest : Surroundings σ}
  {acts : List (Act σ)}

/-- An evaluation is known from its courses. -/
theorem course_ext {m m' : Evaluation σ α}
    (h : ∀ surroundings, m.course surroundings = m'.course surroundings) : m = m' := by
  obtain ⟨course⟩ := m
  obtain ⟨course'⟩ := m'
  exact congrArg Evaluation.mk (funext h)

/-- An evaluation lies below another one if its course does in any surroundings. -/
instance : Preorder (Evaluation σ α) := .lift course

/-- What follows an evaluation that has a result. -/
theorem bind_of_ok {a : α} (h : m.course surroundings = ⟨acts, .ok a, rest⟩) :
    (m >>= f).course surroundings = ((f a).course rest).after acts := by
  simp only [Bind.bind, h]

/-- Nothing follows an evaluation that halts. -/
theorem bind_of_error {halt : Halt} (h : m.course surroundings = ⟨acts, .error halt, rest⟩) :
    (m >>= f).course surroundings = ⟨acts, .error halt, rest⟩ := by
  simp only [Bind.bind, h]

/-- Of three evaluations in a row the last two may be taken together. -/
protected theorem bind_assoc {γ : Type} (m : Evaluation σ α) (f : α → Evaluation σ β)
    (g : β → Evaluation σ γ) : m >>= f >>= g = m >>= fun a => f a >>= g := by
  refine course_ext fun surroundings => ?_
  rcases hm : m.course surroundings with ⟨acts, halt | a, rest⟩
  · rw [bind_of_error hm, bind_of_error (bind_of_error hm)]
  rw [bind_of_ok hm]
  rcases hf : (f a).course rest with ⟨acts', halt | b, rest'⟩
  · have hmf : (m >>= f).course surroundings = ⟨acts ++ acts', .error halt, rest'⟩ := by
      rw [bind_of_ok hm, hf, Course.after]
    rw [bind_of_error hmf, bind_of_error hf, Course.after]
  · have hmf : (m >>= f).course surroundings = ⟨acts ++ acts', .ok b, rest'⟩ := by
      rw [bind_of_ok hm, hf, Course.after]
    rw [bind_of_ok hmf, bind_of_ok hf, Course.after_after]

/-- Nothing changes if the result is only handed on. -/
protected theorem bind_pure (m : Evaluation σ α) : (m >>= fun a => pure a) = m := by
  refine course_ext fun surroundings => ?_
  rcases hm : m.course surroundings with ⟨acts, halt | a, rest⟩
  · rw [bind_of_error hm]
  · rw [bind_of_ok hm]
    show (⟨acts ++ [], .ok a, rest⟩ : Course σ α) = _
    rw [List.append_nil]

/-- Evaluations follow each other as the computations of a monad do. -/
instance : LawfulMonad (Evaluation σ) :=
  .mk' _ Evaluation.bind_pure (fun _ _ => rfl) Evaluation.bind_assoc

/-- What is done first is seen first. -/
theorem acts_prefix_bind (m : Evaluation σ α) (f : α → Evaluation σ β)
    (surroundings : Surroundings σ) :
    (m.course surroundings).acts <+: ((m >>= f).course surroundings).acts := by
  rcases hm : m.course surroundings with ⟨acts, halt | a, rest⟩
  · have hsame : (m >>= f).course surroundings = ⟨acts, .error halt, rest⟩ := bind_of_error hm
    exact hsame ▸ List.prefix_rfl
  · rw [bind_of_ok hm]
    exact List.prefix_append acts _

/-- A halt because the evaluation is cut short lies below every evaluation. -/
theorem unfinished_le (m : Evaluation σ α) : halt .unfinished ≤ m :=
  fun _ => Course.le_of_cut rfl List.nil_prefix

/-- What follows an evaluation depends on nothing but its course. -/
theorem course_bind_congr {m m' : Evaluation σ α} {surroundings : Surroundings σ}
    (h : m.course surroundings = m'.course surroundings) (f : α → Evaluation σ β) :
    (m >>= f).course surroundings = (m' >>= f).course surroundings := by
  simp only [Bind.bind, h]

/-- An evaluation lies below another one in some surroundings if its first part does and, for what
that comes to, so does what follows; there the other one may follow in any of several ways. -/
theorem exists_bind_le {ι : Type} [Nonempty ι] {m m' : Evaluation σ α} {f : α → Evaluation σ β}
    {g : ι → α → Evaluation σ β} {surroundings : Surroundings σ}
    (hm : m.course surroundings ≤ m'.course surroundings)
    (hf : ∀ acts a rest, m.course surroundings = ⟨acts, .ok a, rest⟩ →
      ∃ i, (f a).course rest ≤ (g i a).course rest) :
    ∃ i, (m >>= f).course surroundings ≤ (m' >>= g i).course surroundings := by
  rcases h : m.course surroundings with ⟨acts, halt | a, rest⟩
  · -- Nothing follows the first part.
    obtain ⟨i⟩ := ‹Nonempty ι›
    refine ⟨i, ?_⟩
    rw [bind_of_error h]
    rcases hm with heq | ⟨hcut, hacts⟩
    · rw [bind_of_error (heq ▸ h)]
    · rw [h] at hcut hacts
      obtain rfl : halt = .unfinished := Except.error.inj hcut
      exact Course.le_of_cut rfl (hacts.trans (acts_prefix_bind m' (g i) surroundings))
  · have heq : m.course surroundings = m'.course surroundings :=
      Course.eq_of_le hm (by simp [h])
    obtain ⟨i, hi⟩ := hf acts a rest h
    refine ⟨i, ?_⟩
    rw [bind_of_ok h, bind_of_ok (heq ▸ h)]
    exact Course.after_le_after acts hi

/-- The same where the other evaluation only follows in one way. -/
theorem course_bind_le {m m' : Evaluation σ α} {f f' : α → Evaluation σ β}
    {surroundings : Surroundings σ} (hm : m.course surroundings ≤ m'.course surroundings)
    (hf : ∀ acts a rest, m.course surroundings = ⟨acts, .ok a, rest⟩ →
      (f a).course rest ≤ (f' a).course rest) :
    (m >>= f).course surroundings ≤ (m' >>= f').course surroundings :=
  (exists_bind_le (g := fun _ : Unit => f') hm fun acts a rest h => ⟨(), hf acts a rest h⟩).elim
    fun _ hle => hle

/-- The order is kept by what follows. -/
theorem bind_le_bind {m m' : Evaluation σ α} {f f' : α → Evaluation σ β} (hm : m ≤ m')
    (hf : ∀ a, f a ≤ f' a) : m >>= f ≤ m' >>= f' :=
  fun surroundings => course_bind_le (hm surroundings) fun _ a rest _ => hf a rest

/-- The order is kept by what follows the same evaluation. -/
theorem bind_le_bind_right (m : Evaluation σ α) {f f' : α → Evaluation σ β}
    (hf : ∀ a, f a ≤ f' a) : m >>= f ≤ m >>= f' :=
  bind_le_bind le_rfl hf

end Evaluation

namespace Registry

/-- With more fuel the value of a request is that of a longer recursion. -/
theorem value_mono (registry : Registry σ) {nested nested' : List (Step σ) → Evaluation σ Value}
    (hnested : ∀ steps, nested steps ≤ nested' steps) {fuel more : Nat} (hle : fuel ≤ more)
    (r : Request) (rest : List (Step σ)) :
    registry.value nested fuel r rest ≤ registry.value nested' more r rest := by
  induction fuel generalizing more r rest with
  | zero => exact unfinished_le _
  | succ fuel ih =>
    obtain ⟨more, rfl⟩ : ∃ n, more = n + 1 := ⟨more - 1, by omega⟩
    unfold value
    apply bind_le_bind_right
    rintro ⟨answer, replacement⟩
    rcases answer with - | v | o | steps
    · exact le_rfl
    · exact le_rfl
    · rcases o with next | io | steps | v
      · exact ih (by omega) next _
      · exact le_rfl
      · exact bind_le_bind (hnested steps) fun v => le_rfl
      · exact le_rfl
    · exact bind_le_bind (hnested steps) fun v => le_rfl

/-- A program means the same with more fuel, only that it is not cut short so soon. -/
theorem evaluate_mono (registry : Registry σ) {fuel more : Nat} (hle : fuel ≤ more)
    (env : Environment) (steps : List (Step σ)) :
    registry.evaluate fuel env steps ≤ registry.evaluate more env steps := by
  induction fuel generalizing more env steps with
  | zero => exact unfinished_le _
  | succ fuel ih =>
    obtain ⟨more, rfl⟩ : ∃ n, more = n + 1 := ⟨more - 1, by omega⟩
    cases steps with
    | nil => exact le_rfl
    | cons s rest =>
      have hnested : ∀ steps, (registry.evaluate fuel .empty steps).valued ≤
          (registry.evaluate more .empty steps).valued :=
        fun steps => bind_le_bind (ih (by omega) .empty steps) fun _ => le_rfl
      have hgoOn : ∀ binding v rest, (do
          registry.evaluate fuel (← orFault (env.bindAs binding v)) rest) ≤ (do
          registry.evaluate more (← orFault (env.bindAs binding v)) rest) :=
        fun binding v rest => bind_le_bind_right _ fun env => ih (by omega) env rest
      unfold evaluate
      -- The step is unwrapped without fuel.
      apply bind_le_bind_right
      rintro ⟨binding, o⟩
      rcases o with r | io | steps | v
      · exact bind_le_bind (registry.value_mono hnested (by omega) r rest)
          fun ⟨v, rest⟩ => hgoOn binding v rest
      · exact bind_le_bind_right _ fun v => hgoOn binding v rest
      · exact bind_le_bind (hnested steps) fun v => hgoOn binding v rest
      · exact le_rfl

end Registry

end EffectPrograms
