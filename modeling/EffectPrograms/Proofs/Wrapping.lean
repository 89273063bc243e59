import EffectPrograms.Proofs.Lockstep

/-!
# Deferring a constant

A deferred step that comes to the same step whatever it finds may stand in the place of that step.
It is unwrapped in the same loop as the names around a step, so it may stand around a name or within
one, around a step that leaves the composite, and around other deferred steps. Such wrappings may be
made any number of times at any set of places: in programs, and in whatever deferred steps and
interpreters come to (`Operation.Wrapped`, `Likeness.wrapping`).

Both programs run in lockstep, with the same fuel in both directions. All that is done more is to
compute the steps that were put in.
-/

namespace EffectPrograms

variable {σ : Type}

/-- A deferred step that comes to the same step in every environment. -/
def Step.constant (s : Step σ) : Step σ := .fromEnvironment fun _ => .ok s

mutual

/-- The second operation is the first one with some of the steps in its composites deferred. -/
inductive Operation.Wrapped : Operation σ → Operation σ → Prop where
  | request (r : Request) : Operation.Wrapped (.request r) (.request r)
  | io (io : Io σ) : Operation.Wrapped (.io io) (.io io)
  | composite {steps steps' : List (Step σ)} : List.Forall₂ Step.Wrapped steps steps' →
      Operation.Wrapped (.composite steps) (.composite steps')
  | returning (v : Value) : Operation.Wrapped (.returning v) (.returning v)

/-- The second step is the first one with any number of deferred steps put around it and around
steps in it that come to the step in every environment. -/
inductive Step.Wrapped : Step σ → Step σ → Prop where
  | op {o o' : Operation σ} : Operation.Wrapped o o' → Step.Wrapped (.op o) (.op o')
  | bind (name : String) {inner inner' : Step σ} : Step.Wrapped inner inner' →
      Step.Wrapped (.bind name inner) (.bind name inner')
  | deferred {f f' : Environment → σ → Deferral σ} :
      (∀ env world, Deferral.Wrapped (f env world) (f' env world)) →
        Step.Wrapped (.deferred f) (.deferred f')
  | around {s : Step σ} {f' : Environment → σ → Deferral σ} :
      (∀ env world, Deferral.Wrapped (.yields s world) (f' env world)) →
        Step.Wrapped s (.deferred f')

/-- The same for what a deferred step comes to. -/
inductive Deferral.Wrapped : Deferral σ → Deferral σ → Prop where
  | fault (f : Fault) (world : σ) : Deferral.Wrapped (.fault f world) (.fault f world)
  | yields {s s' : Step σ} (world : σ) : Step.Wrapped s s' →
      Deferral.Wrapped (.yields s world) (.yields s' world)

end

/-- A step may be deferred as a constant. -/
theorem Step.Wrapped.constant {s s' : Step σ} (h : s.Wrapped s') : s.Wrapped s'.constant :=
  .around fun _ world => .yields world h

/-- The same for each step of a composite. -/
abbrev Program.Wrapped (steps steps' : List (Step σ)) : Prop :=
  List.Forall₂ Step.Wrapped steps steps'

/-- The same for what an interpreter answers. -/
inductive Answer.Wrapped : Answer σ → Answer σ → Prop where
  | unit : Answer.Wrapped .unit .unit
  | value (v : Value) : Answer.Wrapped (.value v) (.value v)
  | operation {o o' : Operation σ} : o.Wrapped o' → Answer.Wrapped (.operation o) (.operation o')
  | sequence {steps steps' : List (Step σ)} : Program.Wrapped steps steps' →
      Answer.Wrapped (.sequence steps) (.sequence steps')

mutual

/-- No step of an operation has to be deferred. -/
theorem Operation.wrapped_self (o : Operation σ) : o.Wrapped o := by
  cases o with
  | request r => exact .request r
  | io io => exact .io io
  | composite steps => exact .composite (Program.wrapped_self steps)
  | returning v => exact .returning v

/-- Nor does a step. -/
theorem Step.wrapped_self (s : Step σ) : s.Wrapped s := by
  cases s with
  | op o => exact .op o.wrapped_self
  | bind name inner => exact .bind name inner.wrapped_self
  | deferred f => exact .deferred fun env world => (f env world).wrapped_self

/-- Nor what a deferred step comes to. -/
theorem Deferral.wrapped_self (d : Deferral σ) : d.Wrapped d := by
  cases d with
  | fault f world => exact .fault f world
  | yields s world => exact .yields world s.wrapped_self

/-- Nor any step of a composite. -/
theorem Program.wrapped_self (steps : List (Step σ)) : Program.Wrapped steps steps := by
  cases steps with
  | nil => exact .nil
  | cons s rest => exact .cons s.wrapped_self (Program.wrapped_self rest)

end

/-! ## Answers of a fan-out -/

namespace FanOut

/-- What a branch that is not the last is asked for is a step in both answers, or in neither. -/
theorem earlierStep?_wrapped {answer answer' : Answer σ} (h : answer.Wrapped answer') :
    List.Forall₂ Step.Wrapped (earlierStep? answer).toList (earlierStep? answer').toList := by
  cases h with
  | unit | value _ => exact .nil
  | sequence hsteps => exact .cons (.op (.composite hsteps)) .nil
  | operation ho =>
    cases ho with
    | request r => exact .cons (.op (.request r)) .nil
    | io io => exact .cons (.op (.io io)) .nil
    | composite hsteps => exact .cons (.op (.composite hsteps)) .nil
    | returning v => exact .nil

/-- The same for the steps of the last branch. -/
theorem lastSteps_wrapped (name : String) {answer answer' : Answer σ}
    (h : answer.Wrapped answer') :
    Program.Wrapped (lastSteps name answer) (lastSteps name answer') := by
  have hbound : ∀ {s s' : Step σ}, s.Wrapped s' →
      Program.Wrapped [.bind name s, returnBound name] [.bind name s', returnBound name] :=
    fun hs => .cons (.bind name hs) (.cons (Step.wrapped_self _) .nil)
  cases h with
  | unit => exact .nil
  | value v => exact .cons (.op (.returning v)) .nil
  | sequence hsteps => exact hbound (.op (.composite hsteps))
  | operation ho =>
    cases ho with
    | request r => exact hbound (.op (.request r))
    | io io => exact hbound (.op (.io io))
    | composite hsteps => exact hbound (.op (.composite hsteps))
    | returning v => exact .cons (.op (.returning v)) .nil

/-- Wrapped answers are put together to a wrapped sequence. -/
theorem combine_wrapped (name : String) {answers answers' : List (Answer σ)}
    (h : List.Forall₂ Answer.Wrapped answers answers') :
    Program.Wrapped (combine name answers) (combine name answers') := by
  induction h with
  | nil => exact .nil
  | @cons answer answer' rest rest' hanswer hrest ih =>
    cases hrest with
    | nil => exact lastSteps_wrapped name hanswer
    | cons hsecond hlater => exact List.rel_append (earlierStep?_wrapped hanswer) ih

end FanOut

/-- Handlers are alike if one of them has some steps deferred in what it answers and in what it asks
the rest of the composite to be replaced by. -/
def Likeness.wrapping : Likeness σ where
  answers := Answer.Wrapped
  steps := Program.Wrapped
  combine name _ _ h := .sequence (FanOut.combine_wrapped name h)

/-! ## Resolving a wrapped step -/

mutual

/-- A step and a wrapped one are unwrapped in the same way, to an operation and a wrapped one. In
the wrapped step more deferred steps are computed. -/
theorem Step.Wrapped.unwrap {s s' : Step σ} (h : s.Wrapped s') (env : Environment)
    (binding : Option String) (world : σ) :
    Agree (fun found found' => found.1 = found'.1 ∧ found.2.Wrapped found'.2)
        (s.unwrap env binding world).1 (s'.unwrap env binding world).1 ∧
      (s.unwrap env binding world).2 = (s'.unwrap env binding world).2 ∧
      Act.Missing (·.isCompute) (s'.acts env binding world) (s.acts env binding world) := by
  cases h with
  | op ho => exact ⟨.ok ⟨rfl, ho⟩, rfl, .nil⟩
  | bind name hinner =>
    unfold Step.unwrap Step.acts
    cases env.accept binding name with
    | error f => exact ⟨.error f, rfl, .nil⟩
    | ok u => exact hinner.unwrap env (some name) world
  | deferred hf =>
    unfold Step.unwrap Step.acts
    obtain ⟨hagree, hworld, hacts⟩ := (hf env world).unwrap env binding
    exact ⟨hagree, hworld, .kept _ hacts⟩
  | around hf =>
    -- What is deferred is unwrapped in the same environment and under the same name as before.
    obtain ⟨hagree, hworld, hacts⟩ := (hf env world).unwrap env binding
    exact ⟨hagree, hworld, .missing rfl hacts⟩

/-- The same for what a deferred step comes to. -/
theorem Deferral.Wrapped.unwrap {d d' : Deferral σ} (h : d.Wrapped d') (env : Environment)
    (binding : Option String) :
    Agree (fun found found' => found.1 = found'.1 ∧ found.2.Wrapped found'.2)
        (d.unwrap env binding).1 (d'.unwrap env binding).1 ∧
      (d.unwrap env binding).2 = (d'.unwrap env binding).2 ∧
      Act.Missing (·.isCompute) (d'.acts env binding) (d.acts env binding) := by
  cases h with
  | fault f world => exact ⟨.error f, rfl, .kept _ .nil⟩
  | yields world hs =>
    unfold Deferral.unwrap Deferral.acts
    exact hs.unwrap env binding world

end

/-- A step and a wrapped one are unwrapped alike. -/
theorem Step.Wrapped.sameUnwrapping {s s' : Step σ} (h : s.Wrapped s') :
    s.SameUnwrapping Operation.Wrapped (flip (Act.Missing (·.isCompute))) s' :=
  fun env world => h.unwrap env none world

/-! ## Resolving a wrapped operation -/

/-- An operation and a wrapped one are the same request, or need no interpreter. -/
theorem Operation.Wrapped.standAlike {o o' : Operation σ} (h : o.Wrapped o') :
    o.StandAlike Step.Wrapped o' := by
  cases h with
  | request r => exact .request r
  | io io => exact .verdict rfl rfl (.suspend io)
  | composite hsteps => exact .verdict rfl rfl (.enter hsteps)
  | returning v => exact .verdict rfl rfl (.escape v)

/-- An answer and a wrapped one come to the same. -/
theorem Answer.Wrapped.goAlike {answer answer' : Answer σ} (h : answer.Wrapped answer') :
    answer.GoAlike Step.Wrapped Operation.Wrapped answer' := by
  cases h with
  | unit => exact .ends rfl rfl (.value .null)
  | value v => exact .ends rfl rfl (.value v)
  | sequence hsteps => exact .ends rfl rfl (.enter hsteps)
  | operation ho =>
    cases ho with
    | request r => exact .goesOn (.request r) (by simp) (by simp)
    | io io => exact .ends rfl rfl (.suspend io)
    | composite hsteps => exact .ends rfl rfl (.enter hsteps)
    | returning v => exact .ends rfl rfl (.value v)

namespace Registry.Alike

variable {registry registry' : Registry σ}

/-- Where registries are alike up to wrappings, so is what they make of a request. -/
theorem follow_wrapped (h : registry.Alike .wrapping registry') (r : Request)
    {rest rest' : List (Step σ)} (world : σ) (hrest : Program.Wrapped rest rest') :
    EndsAlike Step.Wrapped registry registry' r rest rest' world ∨
      GoesOnAlike Step.Wrapped Operation.Wrapped registry registry' r rest rest' world :=
  h.endsAlike_or_goesOnAlike (fun _ _ hanswer => Answer.Wrapped.goAlike hanswer) (fun _ _ => id) r
    hrest world

/-- A step is resolved in lockstep with a wrapped one. -/
theorem lockstep_wrapped (h : registry.Alike .wrapping registry') :
    Lockstep Step.Wrapped (flip (Act.Missing (·.isCompute))) id registry registry' := by
  have htolerance := (Act.tolerance_missing (σ := σ) (·.isCompute)).flip
  exact .of_copies (fun s s' hs => hs.sameUnwrapping)
    (fun fuel o o' ho => copies_of_follow htolerance (fun o o' ho => ho.standAlike) h.follow_wrapped
      fuel ho) htolerance

/-- A wrapped step is resolved in lockstep with the one that is not. -/
theorem lockstep_unwrapped (h : registry.Alike .wrapping registry') :
    Lockstep (flip Step.Wrapped) (Act.Missing (·.isCompute)) id registry' registry := by
  have htolerance := Act.tolerance_missing (σ := σ) (·.isCompute)
  refine .of_copies (E := flip Operation.Wrapped) (fun s' s hs => hs.sameUnwrapping.flip)
    (fun fuel o' o ho => copies_of_follow htolerance (fun o' o ho => ho.standAlike.flip)
      (fun r rest' rest world hrest => ?_) fuel ho) htolerance
  exact (h.follow_wrapped r world (List.Forall₂.flip hrest)).imp EndsAlike.flip GoesOnAlike.flip

end Registry.Alike

/-! ## Whole programs -/

namespace Executor

/-- To defer steps as constants makes no difference, wherever and how often it is done in a program
and in what interpreters come to. Both programs come to the same, call by call and whatever the io
deliver: the same events and faults, the same number of open composites with the same bindings, the
same requests are dispatched and the same io asked for. All that is done more is to compute the
steps that were put in. If a step of the one does not return, neither does that of the other. -/
theorem wrapping_invisible (x : Executor σ) {registry' : Registry σ}
    (hregistry : x.registry.Alike .wrapping registry') {program program' : Program σ}
    (hprogram : Program.Wrapped program program') (surroundings : Surroundings σ) (fuel n : Nat) :
    Session.KeepsUp (flip (Act.Missing (·.isCompute)))
        (x.machine.sessionAfter program surroundings fuel n)
        ((x.over registry').machine.sessionAfter program' surroundings fuel n) ∧
      Session.KeepsUp (Act.Missing (·.isCompute))
        ((x.over registry').machine.sessionAfter program' surroundings fuel n)
        (x.machine.sessionAfter program surroundings fuel n) :=
  ⟨hregistry.lockstep_wrapped.keepsUp x hprogram surroundings fuel n,
    hregistry.lockstep_unwrapped.keepsUp x (List.Forall₂.flip hprogram) surroundings fuel n⟩

end Executor

/-! ## An example with a desk -/

/-- A desk at which a paper is stamped before it is filed, and then to be registered under a name
that stands around another one. All steps are put together by a function. -/
def Registry.desk (put : Step Unit → Step Unit) : Registry Unit :=
  ⟨[.table "desk"
    [("stamp", fun _ => pure .unit),
      ("file", fun _ => (Dialogue.replace
        [put (.bind "register" (put (.bind "page" (put (.returning (.bool true))))))]
        (.finish (.sequence [.bind "stamped" (put (.request ⟨"desk", "stamp", []⟩)),
          put (.returning (.bool true))]))).run)]]⟩

/-- Computes a composite with nothing much to do, and files a paper. -/
def Program.filing (put : Step Unit → Step Unit) : Program Unit :=
  [.deferred fun _ world => .yields (put (.composite [put (.composite [])])) world,
    put (.bind "filed" (put (put (.request ⟨"desk", "file", []⟩))))]

/-- Runs programs at the desk where nothing is put around a step. -/
def Executor.clerk : Executor Unit := { registry := .desk id }

/-- With all steps deferred as constants the second name is found in the first one as before, after
nine steps more have been computed. -/
theorem Executor.wrapping_invisible_desk :
    clerk.registry.Alike .wrapping (.desk Step.constant) ∧
      Program.Wrapped (Program.filing id) (Program.filing Step.constant) ∧
      Session.KeepsUp (flip (Act.Missing (·.isCompute)))
        (clerk.machine.sessionAfter (.filing id) ⟨(), []⟩ 3 9)
        ((clerk.over (.desk Step.constant)).machine.sessionAfter (.filing Step.constant)
          ⟨(), []⟩ 3 9) ∧
      ((clerk.over (.desk Step.constant)).machine.sessionAfter (.filing Step.constant)
        ⟨(), []⟩ 3 9).ending =
          .error (.fault (.invalidStep (.nestedBinding "register" "page"))) ∧
      (clerk.machine.sessionAfter (.filing id) ⟨(), []⟩ 3 9).acts.length = 3 ∧
      ((clerk.over (.desk Step.constant)).machine.sessionAfter (.filing Step.constant)
        ⟨(), []⟩ 3 9).acts.length = 12 := by
  have hconstant : ∀ s : Step Unit, s.Wrapped s.constant := fun s => s.wrapped_self.constant
  have halike : clerk.registry.Alike .wrapping (.desk Step.constant) := by
    refine .cons (.table "desk" (.cons ⟨rfl, fun r => ?_⟩ (.cons ⟨rfl, fun r => ?_⟩ .nil))) .nil
    · exact .pure .unit
    · refine (Dialogue.Alike.replace ?_ (.finish (.sequence ?_))).run
      · exact .cons (.constant (.bind _ (.constant (.bind _ (hconstant _))))) .nil
      · exact .cons (.bind _ (hconstant _)) (.cons (hconstant _) .nil)
  have hprogram : Program.Wrapped (Program.filing id) (Program.filing Step.constant) := by
    refine .cons (.deferred fun env world => .yields world ?_) (.cons ?_ .nil)
    · exact .constant (.op (.composite (.cons (hconstant _) .nil)))
    · exact .constant (.bind _ (.constant (hconstant _)))
  exact ⟨halike, hprogram, (clerk.wrapping_invisible halike hprogram ⟨(), []⟩ 3 9).1, rfl, rfl, rfl⟩

end EffectPrograms
