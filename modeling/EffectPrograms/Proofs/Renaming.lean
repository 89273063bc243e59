import EffectPrograms.Proofs.Lockstep
import EffectPrograms.Proofs.Routing

/-!
# Another name within fan-outs

A fan-out binds the value of its last branch under a name of its own, `"last"`, in the composite
that it answers with. Here another name stands in its place (`Interpreter.naming`), and what one
step comes to over both registries is compared: a request is answered with the same, except for the
name in composites of fan-outs (`Registry.follow_naming`).

Nobody else is to use the other name, or to tell the two apart (`Step.Discreet`). The environments
in which both runs unwrap a step are then the same except for a renaming (`Environment.renamed`),
and the steps of a composite and its environment go together (`Scope.Renamed`).
-/

namespace EffectPrograms

variable {σ : Type} {n : String}

/-! ## Renamed environments -/

namespace Environment

/-- The environment with another name in the place of `"last"`. -/
def renamed (n : String) (env : Environment) : Environment :=
  ⟨env.bindings.map fun binding => (if binding.1 = "last" then n else binding.1, binding.2)⟩

/-- What is bound after the renaming, if the other name was not in use. -/
theorem get?_renamed {env : Environment} (hother : n ≠ "last") (hfresh : env.contains n = false)
    (name : String) :
    (env.renamed n).get? name =
      if name = n then env.get? "last" else if name = "last" then none else env.get? name := by
  obtain ⟨bindings⟩ := env
  simp only [contains, Entries.contains, renamed, get?] at hfresh ⊢
  induction bindings with
  | nil => simp
  | cons binding rest ih =>
    obtain ⟨known, v⟩ := binding
    rw [Entries.get?_cons] at hfresh
    by_cases hknown : n = known
    · simp [hknown] at hfresh
    · rw [if_neg hknown] at hfresh
      rw [List.map_cons, Entries.get?_cons, ih hfresh, Entries.get?_cons, Entries.get?_cons]
      by_cases hlast : known = "last"
      · subst hlast
        by_cases hname : name = n
        · simp [hname]
        · by_cases hname' : name = "last" <;> simp [hname, hname', Ne.symm hother]
      · by_cases hname : name = n
        · simp [hname, hknown, hlast, Ne.symm hlast]
        · by_cases hname' : name = known
          · simp [hname', hlast, Ne.symm hknown]
          · simp [hname, hname', hlast]

variable {env : Environment} (hother : n ≠ "last") (hfresh : env.contains n = false)
include hother hfresh

/-- Every name but these two is bound or not as before. -/
theorem contains_renamed {name : String} (hlast : name ≠ "last") (hne : name ≠ n) :
    (env.renamed n).contains name = env.contains name := by
  have hget := get?_renamed hother hfresh name
  rw [if_neg hne, if_neg hlast] at hget
  exact congrArg Option.isSome hget

/-- The other name is bound just if `"last"` was. -/
theorem contains_renamed_self : (env.renamed n).contains n = env.contains "last" := by
  have hget := get?_renamed hother hfresh n
  rw [if_pos rfl] at hget
  exact congrArg Option.isSome hget

/-- It is bound to the same value. -/
theorem valueOf_renamed : (env.renamed n).valueOf n = env.valueOf "last" := by
  rw [valueOf, valueOf, get?_renamed hother hfresh, if_pos rfl]

/-- Under any other name a value is bound as before the renaming, or the name is taken as before. -/
theorem bindAs_renamed {binding : Option String} (hne : binding ≠ some n)
    (hlast : binding ≠ some "last") (v : Value) :
    (env.renamed n).bindAs binding v = (env.bindAs binding v).map (renamed n) := by
  cases binding with
  | none => rfl
  | some name =>
    have hne : name ≠ n := fun h => hne (congrArg some h)
    have hlast : name ≠ "last" := fun h => hlast (congrArg some h)
    rw [bindAs, bindAs, bind, bind, contains_renamed hother hfresh hlast hne]
    cases env.contains name with
    | true => rfl
    | false => simp [renamed, hlast, Except.map]

end Environment

/-! ## Steps that keep off both names -/

mutual

/-- Nothing in the operation binds under the other name, or tells it from `"last"`. -/
inductive Operation.Discreet (n : String) : Operation σ → Prop where
  | request (r : Request) : Operation.Discreet n (.request r)
  | io (io : Io σ) : Operation.Discreet n (.io io)
  | composite {steps : List (Step σ)} : (∀ s ∈ steps, Step.Discreet n s) →
      Operation.Discreet n (.composite steps)
  | returning (v : Value) : Operation.Discreet n (.returning v)

/-- The same for a step. It may bind under `"last"`, and a deferred step may look at everything but
which of both names something is bound under. -/
inductive Step.Discreet (n : String) : Step σ → Prop where
  | op {o : Operation σ} : Operation.Discreet n o → Step.Discreet n (.op o)
  | bind {name : String} {inner : Step σ} : name ≠ n → Step.Discreet n inner →
      Step.Discreet n (.bind name inner)
  | deferred {f : Environment → σ → Deferral σ} :
      (∀ env world, env.contains n = false → f (env.renamed n) world = f env world) →
        (∀ env world, Deferral.Discreet n (f env world)) → Step.Discreet n (.deferred f)

/-- The same for what a deferred step comes to. -/
inductive Deferral.Discreet (n : String) : Deferral σ → Prop where
  | fault (f : Fault) (world : σ) : Deferral.Discreet n (.fault f world)
  | yields {s : Step σ} (world : σ) : Step.Discreet n s → Deferral.Discreet n (.yields s world)

end

/-- The same for all steps of a composite. -/
def Program.Discreet (n : String) (steps : List (Step σ)) : Prop := ∀ s ∈ steps, s.Discreet n

/-- The same for an answer. -/
inductive Answer.Discreet (n : String) : Answer σ → Prop where
  | unit : Answer.Discreet n .unit
  | value (v : Value) : Answer.Discreet n (.value v)
  | operation {o : Operation σ} : o.Discreet n → Answer.Discreet n (.operation o)
  | sequence {steps : List (Step σ)} :
      Program.Discreet n steps → Answer.Discreet n (.sequence steps)

/-- The same for the steps that a pass has for the rest of the composite. -/
def Pass.Discreet (n : String) (pass : Pass σ) : Prop :=
  ∀ steps ∈ pass.replacement, Program.Discreet n steps

/-- The handler's computation answers, and asks for the rest of the composite to be replaced, with
such steps only. -/
def Handling.Discreet (n : String) (h : Handling σ (Answer σ)) : Prop :=
  ∀ pass, pass.Discreet n → ∀ answer next, h pass = (.ok answer, next) →
    answer.Discreet n ∧ next.Discreet n

/-- All handlers of the interpreter do. -/
inductive Interpreter.Discreet (n : String) : Interpreter σ → Prop where
  | table {algebra : String} {handlers : List (String × Handler σ)} :
      (∀ entry ∈ handlers, ∀ r, (entry.2 r).Discreet n) →
        Interpreter.Discreet n (.table algebra handlers)
  | typed {algebra : String} {handle : Request → Except Fault (Handling σ (Answer σ))} :
      (∀ r h, handle r = .ok h → h.Discreet n) → Interpreter.Discreet n (.typed algebra handle)
  | fanOut {algebra resultName : String} {branches : List (Interpreter σ)} :
      (∀ branch ∈ branches, Interpreter.Discreet n branch) →
        Interpreter.Discreet n (.fanOut algebra resultName branches)

/-- All interpreters of the registry do. -/
def Registry.Discreet (n : String) (registry : Registry σ) : Prop :=
  ∀ i ∈ registry.interpreters, i.Discreet n

/-! ## Fan-outs with another name -/

mutual

/-- The interpreter with a name for the results of all its fan-outs. -/
def Interpreter.naming (n : String) : Interpreter σ → Interpreter σ
  | .table algebra handlers => .table algebra handlers
  | .typed algebra handle => .typed algebra handle
  | .fanOut algebra _ branches => .fanOut algebra n (Interpreter.namingEach n branches)

/-- The same for each of several interpreters. -/
def Interpreter.namingEach (n : String) : List (Interpreter σ) → List (Interpreter σ)
  | [] => []
  | i :: later => i.naming n :: Interpreter.namingEach n later

end

/-- The registry with a name for the results of all fan-outs. -/
def Registry.naming (n : String) (registry : Registry σ) : Registry σ :=
  ⟨Interpreter.namingEach n registry.interpreters⟩

mutual

/-- The operation stands in a program, the same over both registries, or it is a composite of a
fan-out, with the one and the other name. -/
inductive Operation.Renamed (n : String) : Operation σ → Operation σ → Prop where
  | plain {o : Operation σ} : o.Discreet n → Operation.Renamed n o o
  | own {steps steps' : List (Step σ)} : FanOut.Renamed n steps steps' →
      Operation.Renamed n (.composite steps) (.composite steps')

/-- What is left of the sequence that a fan-out answers with, with the one and the other name. -/
inductive FanOut.Renamed (n : String) : List (Step σ) → List (Step σ) → Prop where
  | nil : FanOut.Renamed n [] []
  | returning (v : Value) : FanOut.Renamed n [.returning v] [.returning v]
  | last {o o' : Operation σ} : Operation.Renamed n o o' →
      FanOut.Renamed n [.bind "last" (.op o), FanOut.returnBound "last"]
        [.bind n (.op o'), FanOut.returnBound n]
  | earlier {o o' : Operation σ} {steps steps' : List (Step σ)} : Operation.Renamed n o o' →
      FanOut.Renamed n steps steps' → FanOut.Renamed n (.op o :: steps) (.op o' :: steps')

end

/-- The answer is the same over both registries, or it is the sequence of a fan-out. -/
inductive Answer.Renamed (n : String) : Answer σ → Answer σ → Prop where
  | plain {answer : Answer σ} : answer.Discreet n → Answer.Renamed n answer answer
  | own {steps steps' : List (Step σ)} : FanOut.Renamed n steps steps' →
      Answer.Renamed n (.sequence steps) (.sequence steps')

namespace FanOut

/-- A branch that is not the last has a step over both registries, or over neither. -/
theorem earlierStep?_renamed {answer answer' : Answer σ} (h : answer.Renamed n answer') :
    (earlierStep? answer = none ∧ earlierStep? answer' = none) ∨
      ∃ o o' : Operation σ, o.Renamed n o' ∧ earlierStep? answer = some (.op o) ∧
        earlierStep? answer' = some (.op o') := by
  cases h with
  | own hsteps => exact .inr ⟨_, _, .own hsteps, rfl, rfl⟩
  | plain hanswer =>
    cases hanswer with
    | unit | value _ => exact .inl ⟨rfl, rfl⟩
    | sequence hsteps => exact .inr ⟨_, _, .plain (.composite hsteps), rfl, rfl⟩
    | @operation o ho =>
      cases o with
      | request _ | io _ | composite _ => exact .inr ⟨_, _, .plain ho, rfl, rfl⟩
      | returning v => exact .inl ⟨rfl, rfl⟩

/-- The steps of the last branch bind its value under the name. -/
theorem lastSteps_renamed {answer answer' : Answer σ} (h : answer.Renamed n answer') :
    FanOut.Renamed n (lastSteps "last" answer) (lastSteps n answer') := by
  cases h with
  | own hsteps => exact .last (.own hsteps)
  | plain hanswer =>
    cases hanswer with
    | unit => exact .nil
    | value v => exact .returning v
    | sequence hsteps => exact .last (.plain (.composite hsteps))
    | @operation o ho =>
      cases o with
      | request _ | io _ | composite _ => exact .last (.plain ho)
      | returning v => exact .returning v

/-- Answers are put together to sequences that are the same except for the name. -/
theorem combine_renamed {answers answers' : List (Answer σ)}
    (h : List.Forall₂ (Answer.Renamed n) answers answers') :
    FanOut.Renamed n (combine "last" answers) (combine n answers') := by
  induction h with
  | nil => exact .nil
  | @cons answer answer' rest rest' hanswer hrest ih =>
    cases hrest with
    | nil => exact lastSteps_renamed hanswer
    | @cons second second' later later' _ _ =>
      show FanOut.Renamed n ((earlierStep? answer).toList ++ combine "last" (second :: later))
        ((earlierStep? answer').toList ++ combine n (second' :: later'))
      rcases earlierStep?_renamed hanswer with ⟨hstep, hstep'⟩ | ⟨o, o', ho, hstep, hstep'⟩
      · rw [hstep, hstep']
        exact ih
      · rw [hstep, hstep']
        exact .earlier ho ih

end FanOut

/-! ## Dispatching -/

namespace Interpreter

variable {i : Interpreter σ} {r : Request} {pass next : Pass σ}

/-- The other name does not change which algebra is served. -/
theorem algebra_naming (n : String) (i : Interpreter σ) : (i.naming n).algebra = i.algebra := by
  cases i <;> rfl

/-- What is found for an algebra is the same with the other name. -/
theorem find?_namingEach (n algebra : String) (interpreters : List (Interpreter σ)) :
    (namingEach n interpreters).find? (fun i => i.algebra == algebra) =
      (interpreters.find? fun i => i.algebra == algebra).map (naming n) := by
  induction interpreters with
  | nil => rfl
  | cons i later ih =>
    rw [namingEach, List.find?_cons, List.find?_cons, algebra_naming, ih]
    cases i.algebra == algebra <;> rfl

/-- What the interpreter makes of a request with the one and with the other name: it fails alike, or
the passes are the same and the answers only differ in the name. -/
def NamesAlike (n : String) (r : Request) (i : Interpreter σ) : Prop :=
  ∀ pass, pass.Discreet n →
    (∃ answer answer' next, i.interpret r pass = (.ok answer, next) ∧
      (i.naming n).interpret r pass = (.ok answer', next) ∧ answer.Renamed n answer' ∧
        next.Discreet n) ∨
    ∃ f next, i.interpret r pass = (.error f, next) ∧
      (i.naming n).interpret r pass = (.error f, next)

/-- An interpreter that has no name of its own names alike if its handler is discreet. -/
theorem namesAlike_of_same (hsame : i.naming n = i)
    (hdiscreet : ∀ pass answer next, pass.Discreet n → i.interpret r pass = (.ok answer, next) →
      answer.Discreet n ∧ next.Discreet n) : i.NamesAlike n r := by
  intro pass hpass
  rw [hsame]
  rcases hanswer : i.interpret r pass with ⟨f | answer, next⟩
  · exact .inr ⟨f, next, rfl, rfl⟩
  · obtain ⟨hgiven, hnext⟩ := hdiscreet pass answer next hpass hanswer
    exact .inl ⟨answer, answer, next, rfl, rfl, .plain hgiven, hnext⟩

/-- A handler that is run as part of a dispatch is as discreet as before. -/
theorem discreet_of_dispatching {h : Handling σ (Answer σ)} (hdiscreet : h.Discreet n)
    (hpass : pass.Discreet n) {answer : Answer σ}
    (hanswer : h.dispatching r pass = (.ok answer, next)) :
    answer.Discreet n ∧ next.Discreet n := by
  rw [Handling.dispatching_apply] at hanswer
  rcases hrun : h pass with ⟨x | given, left⟩
  · rw [hrun] at hanswer
    cases hanswer
  · rw [hrun] at hanswer
    obtain ⟨hgiven, rfl⟩ := Prod.mk.inj hanswer
    obtain rfl := Except.ok.inj hgiven
    exact hdiscreet pass hpass _ _ hrun

/-- Branches that name alike answer in turn alike, or one of them fails alike. -/
theorem inTurn_naming {branches : List (Interpreter σ)}
    (h : ∀ branch ∈ branches, branch.NamesAlike n r) (hpass : pass.Discreet n) :
    (∃ answers answers' last, AnswerInTurn r branches pass answers last ∧
      AnswerInTurn r (namingEach n branches) pass answers' last ∧
        List.Forall₂ (Answer.Renamed n) answers answers' ∧ last.Discreet n) ∨
    ∃ f last, FailInTurn r branches pass f last ∧
      FailInTurn r (namingEach n branches) pass f last := by
  induction branches generalizing pass with
  | nil => exact .inl ⟨[], [], pass, .nil pass, .nil pass, .nil, hpass⟩
  | cons branch later ih =>
    rcases h branch (List.mem_cons_self ..) pass hpass with
      ⟨answer, answer', next, hanswer, hanswer', hrenamed, hnext⟩ | ⟨f, next, hfail, hfail'⟩
    · rcases ih (fun branch hbranch => h branch (List.mem_cons_of_mem _ hbranch)) hnext with
        ⟨answers, answers', last, hturn, hturn', hall, hlast⟩ |
        ⟨f, last, ⟨earlier, failing, rest, given, before, rfl, hturn, hfail⟩,
          ⟨earlier', failing', rest', given', before', hsplit, hturn', hfail'⟩⟩
      · exact .inl ⟨_, _, last, .cons hanswer hturn, .cons hanswer' hturn', .cons hrenamed hall,
          hlast⟩
      · refine .inr ⟨f, last, ⟨branch :: earlier, failing, rest, _, before, rfl,
          .cons hanswer hturn, hfail⟩,
          ⟨branch.naming n :: earlier', failing', rest', _, before', ?_,
          .cons hanswer' hturn', hfail'⟩⟩
        rw [namingEach, hsplit, List.cons_append]
    · exact .inr ⟨f, next, ⟨[], branch, later, [], pass, rfl, .nil pass, hfail⟩,
        ⟨[], branch.naming n, namingEach n later, [], pass, rfl, .nil pass, hfail'⟩⟩

/-- An interpreter whose handlers are discreet names alike. -/
theorem Assembled.namesAlike (h : i.Assembled) (hdiscreet : i.Discreet n) (r : Request) :
    i.NamesAlike n r := by
  induction h with
  | table algebra handlers =>
    obtain ⟨hhandlers⟩ := hdiscreet
    refine namesAlike_of_same rfl fun pass answer next hpass hanswer => ?_
    rw [interpret] at hanswer
    by_cases hserves : r.algebra = algebra
    · rw [if_neg (not_not_intro hserves)] at hanswer
      cases hlookup : handlers.lookup r.operation with
      | some handler =>
        rw [hlookup] at hanswer
        obtain ⟨earlier, later, rfl, -⟩ := List.lookup_eq_some_iff.1 hlookup
        have hmem : (r.operation, handler) ∈ earlier ++ (r.operation, handler) :: later := by simp
        exact discreet_of_dispatching (hhandlers _ hmem r) hpass hanswer
      | none =>
        rw [hlookup] at hanswer
        cases hanswer
    · rw [if_pos hserves] at hanswer
      cases hanswer
  | typed t handle =>
    obtain - | ⟨hhandle⟩ := hdiscreet
    refine namesAlike_of_same rfl fun pass answer next hpass hanswer => ?_
    rw [TypedAlgebra.interpreter, interpret] at hanswer
    cases hrun : (t.recover r).map handle with
    | ok run =>
      rw [hrun] at hanswer
      exact discreet_of_dispatching (hhandle r run hrun) hpass hanswer
    | error f =>
      rw [hrun] at hanswer
      cases hanswer
  | fanOut _ hbuilt ih =>
    obtain rfl := fanOut_of_fanOut? hbuilt
    obtain - | - | ⟨hbranches⟩ := hdiscreet
    intro pass hpass
    rcases inTurn_naming (fun branch hbranch => ih branch hbranch (hbranches branch hbranch))
        hpass with
      ⟨answers, answers', last, hturn, hturn', hall, hlast⟩ | ⟨f, last, hfail, hfail'⟩
    · exact .inl ⟨_, _, last, hturn.interpret_fanOut, hturn'.interpret_fanOut,
        .own (FanOut.combine_renamed hall), hlast⟩
    · exact .inr ⟨f, last, hfail.interpret_fanOut, hfail'.interpret_fanOut⟩

end Interpreter

/-- The composites that a step opens with the one and with the other name. -/
def Composite.Renamed (n : String) (steps steps' : List (Step σ)) : Prop :=
  (steps = steps' ∧ Program.Discreet n steps) ∨ FanOut.Renamed n steps steps'

/-- What an operation comes to with the one and with the other name is the same, in the same world,
except for the name in composites of fan-outs, and the steps that are left are related. Or it comes
to nothing with either. -/
def FoundAlike (n : String) (T : List (Step σ) → List (Step σ) → Prop)
    (found found' : Option (Except Fault (Verdict σ × List (Step σ)) × σ)) : Prop :=
  Option.Rel (fun found found' =>
    Agree (SameResult (Composite.Renamed n) T) found.1 found'.1 ∧ found.2 = found'.2) found found'

namespace Registry

variable {registry : Registry σ}

/-- A request is dispatched alike with the one and with the other name. -/
theorem dispatch_naming (hassembled : registry.Assembled) (hdiscreet : registry.Discreet n)
    (r : Request) (world : σ) :
    (∃ answer answer' replacement world',
      registry.dispatch r world = (.ok (answer, replacement), world') ∧
        (registry.naming n).dispatch r world = (.ok (answer', replacement), world') ∧
        answer.Renamed n answer' ∧ ∀ steps ∈ replacement, Program.Discreet n steps) ∨
    ∃ f world', registry.dispatch r world = (.error f, world') ∧
      (registry.naming n).dispatch r world = (.error f, world') ∧
      (registry.naming n).acts 1 r world = registry.acts 1 r world := by
  have hfind : (registry.naming n).find? r.algebra =
      (registry.find? r.algebra).map (Interpreter.naming n) :=
    Interpreter.find?_namingEach n r.algebra registry.interpreters
  cases hfound : registry.find? r.algebra with
  | none =>
    rw [hfound] at hfind
    refine .inr ⟨.noInterpreter r, world, ?_, ?_, ?_⟩
    · rw [dispatch, hfound]
    · rw [dispatch, hfind, Option.map_none]
    · rw [acts, acts, hfound, hfind, Option.map_none]
  | some i =>
    rw [hfound] at hfind
    have hnames := (hassembled _ i hfound).namesAlike
      (hdiscreet i (List.mem_of_find?_eq_some hfound)) r
    rcases hnames { world } (by simp [Pass.Discreet]) with
      ⟨answer, answer', next, hanswer, hanswer', hrenamed, hnext⟩ | ⟨f, next, hfail, hfail'⟩
    · refine .inl ⟨answer, answer', next.replacement, next.world, ?_, ?_, hrenamed, hnext⟩
      · simp [dispatch, hfound, hanswer, Except.map]
      · simp [dispatch, hfind, hanswer', Except.map]
    · have hdispatch : registry.dispatch r world = (.error f, next.world) := by
        simp [dispatch, hfound, hfail, Except.map]
      have hdispatch' : (registry.naming n).dispatch r world = (.error f, next.world) := by
        simp [dispatch, hfind, hfail', Except.map]
      refine .inr ⟨f, next.world, hdispatch, hdispatch', ?_⟩
      rw [acts, acts, hfound, hfind, hdispatch, hdispatch']
      rfl

variable {T : List (Step σ) → List (Step σ) → Prop} {rest rest' : List (Step σ)}

/-- A request comes to the same with the one and with the other name, except for the name in
composites of fan-outs, and the same is done on the way. The steps that are left are related as
before, or they were replaced by the same steps. -/
theorem follow_naming (hassembled : registry.Assembled) (hdiscreet : registry.Discreet n)
    (hT : ∀ steps, Program.Discreet n steps → T steps steps) (hrest : T rest rest') (fuel : Nat)
    (r : Request) (world : σ) :
    FoundAlike n T (registry.follow fuel r rest world)
        ((registry.naming n).follow fuel r rest' world) ∧
      (registry.naming n).acts fuel r world = registry.acts fuel r world := by
  induction fuel generalizing r rest rest' world with
  | zero => exact ⟨.none, rfl⟩
  | succ fuel ih =>
    rcases dispatch_naming hassembled hdiscreet r world with
      ⟨answer, answer', replacement, world', hd, hd', hanswer, hreplacement⟩ |
      ⟨f, world', hd, hd', hacts⟩
    · have hleft : T (replacement.getD rest) (replacement.getD rest') := by
        cases replacement with
        | none => exact hrest
        | some steps => exact hT steps (hreplacement steps rfl)
      have hends : ∀ {verdict verdict' : Verdict σ}, answer.verdict? = some verdict →
          answer'.verdict? = some verdict' → verdict.Paired (Composite.Renamed n) verdict' →
          FoundAlike n T (registry.follow (fuel + 1) r rest world)
              ((registry.naming n).follow (fuel + 1) r rest' world) ∧
            (registry.naming n).acts (fuel + 1) r world = registry.acts (fuel + 1) r world := by
        intro verdict verdict' hverdict hverdict' hsame
        obtain ⟨hfollow, hacts⟩ := follow_of_verdict hd hverdict fuel rest
        obtain ⟨hfollow', hacts'⟩ := follow_of_verdict hd' hverdict' fuel rest'
        rw [hfollow, hfollow', hacts, hacts']
        exact ⟨.some ⟨.ok ⟨hsame, hleft⟩, rfl⟩, rfl⟩
      cases hanswer with
      | own hsteps => exact hends rfl rfl (.enter (.inr hsteps))
      | plain hplain =>
        cases hplain with
        | unit => exact hends rfl rfl (.value .null)
        | value v => exact hends rfl rfl (.value v)
        | sequence hsteps => exact hends rfl rfl (.enter (.inl ⟨rfl, hsteps⟩))
        | operation ho =>
          cases ho with
          | io io => exact hends rfl rfl (.suspend io)
          | composite hsteps => exact hends rfl rfl (.enter (.inl ⟨rfl, hsteps⟩))
          | returning v => exact hends rfl rfl (.value v)
          | request next =>
            obtain ⟨hfollow, hacts⟩ := follow_of_request hd fuel rest
            obtain ⟨hfollow', hacts'⟩ := follow_of_request hd' fuel rest'
            obtain ⟨hnext, hmore⟩ := ih hleft next world'
            rw [hfollow, hfollow', hacts, hacts', hmore]
            exact ⟨hnext, rfl⟩
    · obtain ⟨hfollow, hdone⟩ := follow_of_dispatch_error hd fuel rest
      obtain ⟨hfollow', hdone'⟩ := follow_of_dispatch_error hd' fuel rest'
      rw [hfollow, hfollow', hdone, hdone', hacts]
      exact ⟨.some ⟨.error f, rfl⟩, rfl⟩

/-- So does an operation. -/
theorem resolveOperation_naming (hassembled : registry.Assembled) (hdiscreet : registry.Discreet n)
    (hT : ∀ steps, Program.Discreet n steps → T steps steps) (hrest : T rest rest') (fuel : Nat)
    {o o' : Operation σ} (ho : o.Renamed n o') (world : σ) :
    FoundAlike n T (registry.resolveOperation fuel o rest world)
        ((registry.naming n).resolveOperation fuel o' rest' world) ∧
      (registry.naming n).operationActs fuel world o' = registry.operationActs fuel world o := by
  cases ho with
  | own hsteps => exact ⟨.some ⟨.ok ⟨.enter (.inr hsteps), hrest⟩, rfl⟩, rfl⟩
  | plain hplain =>
    cases hplain with
    | request r => exact follow_naming hassembled hdiscreet hT hrest fuel r world
    | io io => exact ⟨.some ⟨.ok ⟨.suspend io, hrest⟩, rfl⟩, rfl⟩
    | composite hsteps => exact ⟨.some ⟨.ok ⟨.enter (.inl ⟨rfl, hsteps⟩), hrest⟩, rfl⟩, rfl⟩
    | returning v => exact ⟨.some ⟨.ok ⟨.escape v, hrest⟩, rfl⟩, rfl⟩

end Registry

/-! ## What is left of a composite -/

/-- What is left of one composite with the one and with the other name: its steps, and its
environment, in which a value is going to be bound under a name. Only an inner composite can be that
of a fan-out. -/
inductive Scope.Renamed (n : String) : Bool → Option String → Option String → List (Step σ) →
    Environment → List (Step σ) → Environment → Prop where
  /-- The composite has nothing to do with a fan-out, or not any more. -/
  | plain {inner : Bool} {binding : Option String} {steps : List (Step σ)} {env : Environment} :
      binding ≠ some n → Program.Discreet n steps → env.contains n = false →
        Scope.Renamed n inner binding binding steps env steps env
  /-- A fan-out has bound the value of its last branch, and other steps were put after that. -/
  | marked {binding : Option String} {steps : List (Step σ)} {env : Environment} :
      binding ≠ some n → binding ≠ some "last" → Program.Discreet n steps →
        env.contains n = false → env.contains "last" = true →
          Scope.Renamed n true binding binding steps env steps (env.renamed n)
  /-- The composite is that of a fan-out, whose last branch has not started. -/
  | own {steps steps' : List (Step σ)} : FanOut.Renamed n steps steps' →
      Scope.Renamed n true none none steps .empty steps' .empty
  /-- The last branch runs, and its value is going to be returned. -/
  | started : Scope.Renamed n true (some "last") (some n) [FanOut.returnBound "last"] .empty
      [FanOut.returnBound n] .empty
  /-- The last branch runs, and other steps were put after that. -/
  | replaced {steps : List (Step σ)} : Program.Discreet n steps →
      Scope.Renamed n true (some "last") (some n) steps .empty steps .empty
  /-- The value of the last branch is returned next. -/
  | returns {env : Environment} : env.contains n = false → env.contains "last" = true →
      Scope.Renamed n true none none [FanOut.returnBound "last"] env [FanOut.returnBound n]
        (env.renamed n)

namespace Scope.Renamed

variable {inner : Bool} {binding binding' : Option String} {steps steps' : List (Step σ)}
  {env env' : Environment}

/-- The steps that are left may be replaced by others, the same with both names. -/
theorem replace (h : Renamed n inner binding binding' steps env steps' env')
    {others : List (Step σ)} (hothers : Program.Discreet n others) :
    Renamed n inner binding binding' others env others env' := by
  have hempty : Environment.empty.contains n = false := rfl
  cases h with
  | plain hbinding _ hfresh => exact .plain hbinding hothers hfresh
  | marked hbinding hlast _ hfresh hbound => exact .marked hbinding hlast hothers hfresh hbound
  | own _ => exact .plain (by simp) hothers hempty
  | started | replaced _ => exact .replaced hothers
  | returns hfresh hbound => exact .marked (by simp) (by simp) hothers hfresh hbound

/-- A value is bound in both environments, or its name is taken in both. -/
theorem bindAs (hother : n ≠ "last")
    (h : Renamed n inner binding binding' steps env steps' env') (v : Value) :
    Agree (fun next next' => Renamed n inner none none steps next steps' next')
      (env.bindAs binding v) (env'.bindAs binding' v) := by
  have hstart : ∀ name, (⟨[(name, v)]⟩ : Environment).contains name = true := by
    intro name
    simp [Environment.contains, Entries.contains, Entries.get?_cons]
  have hfirst : (⟨[("last", v)]⟩ : Environment).contains n = false := by
    simp [Environment.contains, Entries.contains, Entries.get?_cons, hother]
  have hrenamed : (⟨[(n, v)]⟩ : Environment) = (⟨[("last", v)]⟩ : Environment).renamed n := rfl
  have hopened : ∀ name, Environment.empty.bindAs (some name) v = .ok ⟨[(name, v)]⟩ := fun _ => rfl
  cases h with
  | plain hbinding hsteps hfresh =>
    rcases env.bindAs_cases binding v with hbound | ⟨name, -, -, htaken⟩
    · rw [hbound]
      exact .ok (.plain (by simp) hsteps (Environment.contains_bound hfresh hbinding v))
    · rw [htaken]
      exact .error _
  | marked hbinding hlast hsteps hfresh hbound =>
    -- The name is neither of both, so that it is taken after the renaming just if it is before.
    rw [Environment.bindAs_renamed hother hfresh hbinding hlast]
    rcases env.bindAs_cases binding v with hgiven | ⟨name, -, -, htaken⟩
    · rw [hgiven]
      exact .ok (.marked (by simp) (by simp) hsteps
        (Environment.contains_bound hfresh hbinding v)
        (Environment.contains_bound_of_contains hbound binding v))
    · rw [htaken]
      exact .error _
  | own hsteps => exact .ok (.own hsteps)
  | started =>
    rw [hopened, hopened, hrenamed]
    exact .ok (.returns hfirst (hstart "last"))
  | replaced hsteps =>
    rw [hopened, hopened, hrenamed]
    exact .ok (.marked (by simp) (by simp) hsteps hfirst (hstart "last"))
  | returns hfresh hbound => exact .ok (.returns hfresh hbound)

end Scope.Renamed

/-! ## Unwrapping a step -/

mutual

/-- The name that a step binds its value to, after the deferred steps around it are computed. -/
def Step.name? (env : Environment) (world : σ) : Step σ → Option String
  | .op _ => none
  | .bind name _ => some name
  | .deferred f => (f env world).name? env

/-- The same for what a deferred step comes to. -/
def Deferral.name? (env : Environment) : Deferral σ → Option String
  | .fault _ _ => none
  | .yields s world => s.name? env world

end

mutual

/-- A discreet step makes an operation that is discreet, and does not bind it to the other name. -/
theorem Step.Discreet.unwrap {s : Step σ} (h : s.Discreet n) {env : Environment}
    {binding found : Option String} {world world' : σ} {o : Operation σ}
    (hbinding : binding ≠ some n)
    (hunwrap : s.unwrap env binding world = (.ok (found, o), world')) :
    found ≠ some n ∧ o.Discreet n := by
  cases s with
  | op o =>
    cases h with
    | op ho =>
      simp only [Step.unwrap, Prod.mk.injEq, Except.ok.injEq] at hunwrap
      obtain ⟨⟨rfl, rfl⟩, -⟩ := hunwrap
      exact ⟨hbinding, ho⟩
  | bind name inner =>
    cases h with
    | bind hname hinner =>
      simp only [Step.unwrap] at hunwrap
      cases haccept : env.accept binding name with
      | error f => simp [haccept] at hunwrap
      | ok u =>
        rw [haccept] at hunwrap
        exact hinner.unwrap (by simpa using hname) hunwrap
  | deferred f =>
    cases h with
    | deferred _ hyields =>
      simp only [Step.unwrap] at hunwrap
      exact (hyields env world).unwrap hbinding hunwrap

/-- The same for what a deferred step comes to. -/
theorem Deferral.Discreet.unwrap {d : Deferral σ} (h : d.Discreet n) {env : Environment}
    {binding found : Option String} {world' : σ} {o : Operation σ} (hbinding : binding ≠ some n)
    (hunwrap : d.unwrap env binding = (.ok (found, o), world')) :
    found ≠ some n ∧ o.Discreet n := by
  cases d with
  | fault f world => simp [Deferral.unwrap] at hunwrap
  | yields s world =>
    cases h with
    | yields _ hs =>
      simp only [Deferral.unwrap] at hunwrap
      exact hs.unwrap hbinding hunwrap

end

section Unwrap

variable {env : Environment}

/-- Any name but these two is accepted as before the renaming. -/
theorem Environment.accept_renamed (hother : n ≠ "last") (hfresh : env.contains n = false)
    {binding : Option String} {name : String} (hne : name ≠ n)
    (hlast : binding = none → name ≠ "last") :
    (env.renamed n).accept binding name = env.accept binding name := by
  cases binding with
  | some outer => rfl
  | none =>
    simp only [Environment.accept, Environment.contains_renamed hother hfresh (hlast rfl) hne]

mutual

/-- A discreet step is unwrapped after the renaming as before, unless it binds to `"last"`. -/
theorem Step.Discreet.unwrap_renamed {s : Step σ} (h : s.Discreet n) (hother : n ≠ "last")
    (hfresh : env.contains n = false) (binding : Option String) (world : σ)
    (hname : binding = none → s.name? env world ≠ some "last") :
    s.unwrap (env.renamed n) binding world = s.unwrap env binding world ∧
      Act.logged (s.acts (env.renamed n) binding world) =
        Act.logged (s.acts env binding world) := by
  cases s with
  | op o => exact ⟨rfl, rfl⟩
  | bind name inner =>
    cases h with
    | bind hne hinner =>
      have haccept := env.accept_renamed hother hfresh hne
        fun hnone heq => hname hnone (congrArg some heq)
      unfold Step.unwrap Step.acts
      rw [haccept]
      cases env.accept binding name with
      | error f => exact ⟨rfl, rfl⟩
      | ok u => exact hinner.unwrap_renamed hother hfresh (some name) world (by simp)
  | deferred f =>
    cases h with
    | deferred hkeeps hyields =>
      unfold Step.unwrap Step.acts
      rw [hkeeps env world hfresh]
      exact (hyields env world).unwrap_renamed hother hfresh binding hname

/-- The same for what a deferred step comes to. -/
theorem Deferral.Discreet.unwrap_renamed {d : Deferral σ} (h : d.Discreet n) (hother : n ≠ "last")
    (hfresh : env.contains n = false) (binding : Option String)
    (hname : binding = none → d.name? env ≠ some "last") :
    d.unwrap (env.renamed n) binding = d.unwrap env binding ∧
      Act.logged (d.acts (env.renamed n) binding) = Act.logged (d.acts env binding) := by
  cases d with
  | fault f world => exact ⟨rfl, rfl⟩
  | yields s world =>
    cases h with
    | yields _ hs => exact hs.unwrap_renamed hother hfresh binding world hname

end

mutual

/-- The name that a discreet step binds to is the same after the renaming. -/
theorem Step.Discreet.name?_renamed {s : Step σ} (h : s.Discreet n)
    (hfresh : env.contains n = false) (world : σ) :
    s.name? (env.renamed n) world = s.name? env world := by
  cases s with
  | op _ | bind _ _ => rfl
  | deferred f =>
    cases h with
    | deferred hkeeps hyields =>
      unfold Step.name?
      rw [hkeeps env world hfresh]
      exact (hyields env world).name?_renamed hfresh

/-- The same for what a deferred step comes to. -/
theorem Deferral.Discreet.name?_renamed {d : Deferral σ} (h : d.Discreet n)
    (hfresh : env.contains n = false) : d.name? (env.renamed n) = d.name? env := by
  cases d with
  | fault f world => rfl
  | yields s world =>
    cases h with
    | yields _ hs => exact hs.name?_renamed hfresh world

end

mutual

/-- A step that binds to a name which is taken cannot be unwrapped. -/
theorem Step.unwrap_of_taken {name : String} (hne : name ≠ "") (htaken : env.contains name = true)
    (s : Step σ) (world : σ) (hname : s.name? env world = some name) :
    ∃ between, s.unwrap env none world = (.error (.nameTaken name), between) := by
  cases s with
  | op o => simp [Step.name?] at hname
  | bind other inner =>
    obtain rfl : other = name := by simpa [Step.name?] using hname
    exact ⟨world, by simp [Step.unwrap, Environment.accept, hne, htaken]⟩
  | deferred f => exact (f env world).unwrap_of_taken hne htaken hname

/-- The same for what a deferred step comes to. -/
theorem Deferral.unwrap_of_taken {name : String} (hne : name ≠ "")
    (htaken : env.contains name = true) (d : Deferral σ) (hname : d.name? env = some name) :
    ∃ between, d.unwrap env none = (.error (.nameTaken name), between) := by
  cases d with
  | fault f world => simp [Deferral.name?] at hname
  | yields s world => exact s.unwrap_of_taken hne htaken world hname

end

end Unwrap

/-- Nothing is done while a step is unwrapped that only makes an operation. -/
theorem Step.acts_named (env : Environment) (binding : Option String) (o : Operation σ)
    (world : σ) : (Step.named binding o).acts env none world = [] := by
  cases binding with
  | none => rfl
  | some name =>
    rw [named, acts]
    cases env.accept none name <;> rfl

/-- The front steps of one composite are unwrapped with the one and with the other name to
operations that are the same except for the name, or with the same fault, unless they bind to
`"last"` where the other name is bound. -/
theorem Scope.Renamed.unwrap (hn : n ≠ "") (hother : n ≠ "last") {inner : Bool} {s s' : Step σ}
    {rest rest' : List (Step σ)} {env env' : Environment}
    (h : Scope.Renamed n inner none none (s :: rest) env (s' :: rest') env') {world : σ}
    (hfree : env'.contains n = true → s'.name? env' world ≠ some "last") :
    (∃ binding binding' o o' between, s.unwrap env none world = (.ok (binding, o), between) ∧
      s'.unwrap env' none world = (.ok (binding', o'), between) ∧ o.Renamed n o' ∧
        Scope.Renamed n inner binding binding' rest env rest' env' ∧
        Act.logged (s'.acts env' none world) = Act.logged (s.acts env none world)) ∨
    ∃ f between, s.unwrap env none world = (.error f, between) ∧
      s'.unwrap env' none world = (.error f, between) ∧
        Act.logged (s'.acts env' none world) = Act.logged (s.acts env none world) := by
  cases h with
  | plain _ hsteps hfresh =>
    have hs := hsteps s (List.mem_cons_self ..)
    have hrest : Program.Discreet n rest := fun later hlater =>
      hsteps later (List.mem_cons_of_mem _ hlater)
    rcases hunwrap : s.unwrap env none world with ⟨f | ⟨binding, o⟩, between⟩
    · exact .inr ⟨f, between, rfl, rfl, rfl⟩
    · obtain ⟨hbinding, ho⟩ := hs.unwrap (by simp) hunwrap
      exact .inl ⟨binding, binding, o, o, between, rfl, rfl, .plain ho,
        .plain hbinding hrest hfresh, rfl⟩
  | marked _ _ hsteps hfresh hbound =>
    have hs := hsteps s (List.mem_cons_self ..)
    have hrest : Program.Discreet n rest := fun later hlater =>
      hsteps later (List.mem_cons_of_mem _ hlater)
    have hname : s.name? env world ≠ some "last" := by
      rw [← hs.name?_renamed hfresh]
      exact hfree (by rwa [Environment.contains_renamed_self hother hfresh])
    obtain ⟨hsame, hacts⟩ := hs.unwrap_renamed hother hfresh none world fun _ => hname
    rw [hsame, hacts]
    rcases hunwrap : s.unwrap env none world with ⟨f | ⟨binding, o⟩, between⟩
    · exact .inr ⟨f, between, rfl, rfl, rfl⟩
    · obtain ⟨hbinding, ho⟩ := hs.unwrap (by simp) hunwrap
      have hlast : binding ≠ some "last" := by
        rintro rfl
        have hunbound := (s.unwrap_free env.free_none hunwrap "last" rfl).2
        simp [hbound] at hunbound
      exact .inl ⟨binding, binding, o, o, between, rfl, rfl, .plain ho,
        .marked hbinding hlast hrest hfresh hbound, rfl⟩
  | own hsteps =>
    cases hsteps with
    | returning v =>
      exact .inl ⟨none, none, _, _, world, rfl, rfl, .plain (.returning v), .own .nil, rfl⟩
    | last ho =>
      have hfree : ∀ {name : String}, name ≠ "" → Environment.empty.Free (some name) := by
        rintro name hname _ ⟨⟩
        exact ⟨hname, rfl⟩
      refine .inl ⟨some "last", some n, _, _, world, Step.unwrap_named (hfree (by simp)) _ world,
        Step.unwrap_named (hfree hn) _ world, ho, .started, ?_⟩
      have hacts := fun name o => Step.acts_named (σ := σ) .empty (some name) o world
      simp only [Step.named] at hacts
      rw [hacts, hacts]
    | earlier ho hlater => exact .inl ⟨none, none, _, _, world, rfl, rfl, ho, .own hlater, rfl⟩
  | returns hfresh hbound =>
    have hreturns : (FanOut.returnBound n).unwrap (env.renamed n) none world =
        (.ok (none, .returning (env.valueOf "last")), world) := by
      rw [← Environment.valueOf_renamed hother hfresh]
      rfl
    have hrest : Program.Discreet n ([] : List (Step σ)) := by simp [Program.Discreet]
    exact .inl ⟨none, none, _, _, world, rfl, hreturns, .plain (.returning _),
      .marked (by simp) (by simp) hrest hfresh hbound, rfl⟩

/-- Where the other name is bound, a step that binds to `"last"` cannot be unwrapped with that name
for the fan-out. -/
theorem Scope.Renamed.unwrap_of_collision {inner : Bool} {s s' : Step σ}
    {rest rest' : List (Step σ)} {env env' : Environment}
    (h : Scope.Renamed n inner none none (s :: rest) env (s' :: rest') env') {world : σ}
    (hbound : env'.contains n = true) (hname : s'.name? env' world = some "last") :
    ∃ between, s.unwrap env none world = (.error (.nameTaken "last"), between) := by
  cases h with
  | plain _ _ hfresh => simp [hfresh] at hbound
  | own _ => cases hbound
  | marked _ _ hsteps hfresh hlast =>
    rw [(hsteps s (List.mem_cons_self ..)).name?_renamed hfresh] at hname
    exact s.unwrap_of_taken (by simp) hlast world hname
  | returns _ _ => cases hname

end EffectPrograms
