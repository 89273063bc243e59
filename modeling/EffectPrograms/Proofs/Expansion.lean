import EffectPrograms.Proofs.Lockstep

/-!
# Expanding requests in advance

If a request is always answered with an operation to resolve in its place, or with steps, then it
may as well be replaced by that operation, or by a composite of those steps, before anything runs.
Such an expansion may be made at any set of places: in programs, and in whatever deferred steps and
interpreters come to (`Operation.Expanded`, `Expansion.likeness`).

The two programs run in lockstep. To resolve the request takes one answer more, and after that what
is resolved is the same (`Registry.Unfolds.resolveOperation`). So the fuel that is enough with the
requests is enough without them. In the other direction it may have to be twice as much, because
every other answer of a chain may be an expansion.
-/

namespace EffectPrograms

variable {σ : Type}

/-! ## Expanded programs -/

/-- A request and the operation that may stand in its place. -/
structure Expansion (σ : Type) where
  request : Request
  operation : Operation σ
  /-- In a program `returning` leaves the composite, and in an answer it does not. -/
  resolved : ∀ v, operation ≠ .returning v

section Expanded

variable (c : Expansion σ)

mutual

/-- The second operation is the first one with the expansion in the place of some of its requests,
those in its composites included. -/
inductive Operation.Expanded : Operation σ → Operation σ → Prop where
  | expand : Operation.Expanded (.request c.request) c.operation
  | request (r : Request) : Operation.Expanded (.request r) (.request r)
  | io (io : Io σ) : Operation.Expanded (.io io) (.io io)
  | composite {steps steps' : List (Step σ)} : List.Forall₂ Step.Expanded steps steps' →
      Operation.Expanded (.composite steps) (.composite steps')
  | returning (v : Value) : Operation.Expanded (.returning v) (.returning v)

/-- The same for a step. -/
inductive Step.Expanded : Step σ → Step σ → Prop where
  | op {o o' : Operation σ} : Operation.Expanded o o' → Step.Expanded (.op o) (.op o')
  | bind (name : String) {inner inner' : Step σ} : Step.Expanded inner inner' →
      Step.Expanded (.bind name inner) (.bind name inner')
  | deferred {f f' : Environment → σ → Deferral σ} :
      (∀ env world, Deferral.Expanded (f env world) (f' env world)) →
        Step.Expanded (.deferred f) (.deferred f')

/-- The same for what a deferred step comes to. -/
inductive Deferral.Expanded : Deferral σ → Deferral σ → Prop where
  | fault (f : Fault) (world : σ) : Deferral.Expanded (.fault f world) (.fault f world)
  | yields {s s' : Step σ} (world : σ) : Step.Expanded s s' →
      Deferral.Expanded (.yields s world) (.yields s' world)

end

/-- The same for each step of a composite. -/
abbrev Program.Expanded (steps steps' : List (Step σ)) : Prop :=
  List.Forall₂ (Step.Expanded c) steps steps'

/-- The same for what an interpreter answers. -/
inductive Answer.Expanded : Answer σ → Answer σ → Prop where
  | unit : Answer.Expanded .unit .unit
  | value (v : Value) : Answer.Expanded (.value v) (.value v)
  | operation {o o' : Operation σ} : o.Expanded c o' →
      Answer.Expanded (.operation o) (.operation o')
  | sequence {steps steps' : List (Step σ)} : Program.Expanded c steps steps' →
      Answer.Expanded (.sequence steps) (.sequence steps')

mutual

/-- Nothing has to be expanded in an operation. -/
theorem Operation.expanded_self (o : Operation σ) : o.Expanded c o := by
  cases o with
  | request r => exact .request r
  | io io => exact .io io
  | composite steps => exact .composite (Program.expanded_self steps)
  | returning v => exact .returning v

/-- Nor in a step. -/
theorem Step.expanded_self (s : Step σ) : s.Expanded c s := by
  cases s with
  | op o => exact .op o.expanded_self
  | bind name inner => exact .bind name inner.expanded_self
  | deferred f => exact .deferred fun env world => (f env world).expanded_self

/-- Nor in what a deferred step comes to. -/
theorem Deferral.expanded_self (d : Deferral σ) : d.Expanded c d := by
  cases d with
  | fault f world => exact .fault f world
  | yields s world => exact .yields world s.expanded_self

/-- Nor in a composite. -/
theorem Program.expanded_self (steps : List (Step σ)) : Program.Expanded c steps steps := by
  cases steps with
  | nil => exact .nil
  | cons s rest => exact .cons s.expanded_self (Program.expanded_self rest)

end

end Expanded

variable {c : Expansion σ}

/-! ## Expanded answers of a fan-out -/

namespace FanOut

/-- An operation that a branch answers with is a step, unless it only returns. -/
theorem earlierStep?_operation {o : Operation σ} (ho : ∀ v, o ≠ .returning v) :
    earlierStep? (.operation o) = some (.op o) := by
  cases o with
  | request _ | io _ | composite _ => rfl
  | returning v => exact absurd rfl (ho v)

/-- In the last branch its value leaves the composite. -/
theorem lastSteps_operation {o : Operation σ} (ho : ∀ v, o ≠ .returning v) (name : String) :
    lastSteps name (.operation o) = [.bind name (.op o), returnBound name] := by
  cases o with
  | request _ | io _ | composite _ => rfl
  | returning v => exact absurd rfl (ho v)

/-- A branch has a step whether its answer is expanded or not. -/
theorem earlierStep?_expanded {answer answer' : Answer σ} (h : answer.Expanded c answer') :
    Option.Rel (Step.Expanded c) (earlierStep? answer) (earlierStep? answer') := by
  cases h with
  | unit | value _ => exact .none
  | sequence hsteps => exact .some (.op (.composite hsteps))
  | operation ho =>
    cases ho with
    | expand =>
      rw [earlierStep?_operation c.resolved]
      exact .some (.op .expand)
    | request r => exact .some (.op (.request r))
    | io io => exact .some (.op (.io io))
    | composite hsteps => exact .some (.op (.composite hsteps))
    | returning v => exact .none

/-- The same for the steps of the last branch. -/
theorem lastSteps_expanded (name : String) {answer answer' : Answer σ}
    (h : answer.Expanded c answer') :
    Program.Expanded c (lastSteps name answer) (lastSteps name answer') := by
  have hbound : ∀ {s s' : Step σ}, s.Expanded c s' →
      Program.Expanded c [.bind name s, returnBound name] [.bind name s', returnBound name] :=
    fun hs => .cons (.bind name hs) (.cons (Step.expanded_self c _) .nil)
  cases h with
  | unit => exact .nil
  | value v => exact .cons (.op (.returning v)) .nil
  | sequence hsteps => exact hbound (.op (.composite hsteps))
  | operation ho =>
    cases ho with
    | expand =>
      rw [lastSteps_operation c.resolved]
      exact hbound (.op .expand)
    | request r => exact hbound (.op (.request r))
    | io io => exact hbound (.op (.io io))
    | composite hsteps => exact hbound (.op (.composite hsteps))
    | returning v => exact .cons (.op (.returning v)) .nil

/-- Expanded answers are put together to an expanded sequence. -/
theorem combine_expanded (name : String) {answers answers' : List (Answer σ)}
    (h : List.Forall₂ (Answer.Expanded c) answers answers') :
    Program.Expanded c (combine name answers) (combine name answers') := by
  induction h with
  | nil => exact .nil
  | @cons answer answer' rest rest' hanswer hrest ih =>
    cases hrest with
    | nil => exact lastSteps_expanded name hanswer
    | cons hsecond hlater =>
      have hfirst :
          Program.Expanded c (earlierStep? answer).toList (earlierStep? answer').toList := by
        have hstep := earlierStep?_expanded hanswer
        generalize earlierStep? answer = s, earlierStep? answer' = s' at hstep
        cases hstep with
        | none => exact .nil
        | some hs => exact .cons hs .nil
      exact List.rel_append hfirst ih

end FanOut

/-- Handlers are alike if one of them has some requests expanded in what it answers and in what it
asks the rest of the composite to be replaced by. -/
def Expansion.likeness (c : Expansion σ) : Likeness σ where
  answers := Answer.Expanded c
  steps := Program.Expanded c
  combine name _ _ h := .sequence (FanOut.combine_expanded name h)

/-! ## Resolving an expanded step -/

mutual

/-- A step and an expanded one are unwrapped in the same way, to an operation and an expanded
one. -/
theorem Step.Expanded.unwrap {s s' : Step σ} (h : s.Expanded c s') (env : Environment)
    (binding : Option String) (world : σ) :
    Agree (fun found found' => found.1 = found'.1 ∧ found.2.Expanded c found'.2)
        (s.unwrap env binding world).1 (s'.unwrap env binding world).1 ∧
      (s.unwrap env binding world).2 = (s'.unwrap env binding world).2 ∧
      s.acts env binding world = s'.acts env binding world := by
  cases h with
  | op ho => exact ⟨.ok ⟨rfl, ho⟩, rfl, rfl⟩
  | bind name hinner =>
    unfold Step.unwrap Step.acts
    cases env.accept binding name with
    | error f => exact ⟨.error f, rfl, rfl⟩
    | ok u => exact hinner.unwrap env (some name) world
  | deferred hf =>
    unfold Step.unwrap Step.acts
    obtain ⟨hagree, hworld, hacts⟩ := (hf env world).unwrap env binding
    exact ⟨hagree, hworld, congrArg _ hacts⟩

/-- The same for what a deferred step comes to. -/
theorem Deferral.Expanded.unwrap {d d' : Deferral σ} (h : d.Expanded c d') (env : Environment)
    (binding : Option String) :
    Agree (fun found found' => found.1 = found'.1 ∧ found.2.Expanded c found'.2)
        (d.unwrap env binding).1 (d'.unwrap env binding).1 ∧
      (d.unwrap env binding).2 = (d'.unwrap env binding).2 ∧
      d.acts env binding = d'.acts env binding := by
  cases h with
  | fault f world => exact ⟨.error f, rfl, rfl⟩
  | yields world hs =>
    unfold Deferral.unwrap Deferral.acts
    exact hs.unwrap env binding world

end

/-! ## Resolving an expanded operation -/

/-- The answer has an operation resolved in the place of the request. -/
inductive Answer.InPlace : Answer σ → Operation σ → Prop where
  | operation (o : Operation σ) : Answer.InPlace (.operation o) o
  | sequence (steps : List (Step σ)) : Answer.InPlace (.sequence steps) (.composite steps)

namespace Registry

/-- In every world the request is answered with its expansion, and nothing else happens. -/
def Unfolds (registry : Registry σ) (c : Expansion σ) : Prop :=
  ∀ world, ∃ answer : Answer σ, answer.InPlace c.operation ∧
    registry.dispatch c.request world = (.ok (answer, none), world)

variable {registry registry' : Registry σ}

/-- The request comes to what its expansion comes to, one answer later. -/
theorem Unfolds.resolveOperation (h : registry.Unfolds c) (fuel : Nat) (rest : List (Step σ))
    (world : σ) :
    registry.resolveOperation (fuel + 1) (.request c.request) rest world =
        registry.resolveOperation fuel c.operation rest world ∧
      registry.operationActs (fuel + 1) world (.request c.request) =
        .dispatch c.request :: registry.operationActs fuel world c.operation := by
  obtain ⟨answer, hplace, hdispatch⟩ := h world
  have hresolved := c.resolved
  generalize c.operation = o at hplace hresolved
  cases hplace with
  | operation o => exact follow_of_operation hdispatch hresolved fuel rest
  | sequence steps => exact follow_of_verdict hdispatch rfl fuel rest

/-- Where registries are alike up to an expansion, so is what they make of a request. -/
theorem Alike.follow_cases (h : registry.Alike c.likeness registry') (r : Request)
    {rest rest' : List (Step σ)} (hrest : Program.Expanded c rest rest') (world : σ) :
    EndsAlike (Step.Expanded c) registry registry' r rest rest' world ∨
      GoesOnAlike (Step.Expanded c) (Operation.Expanded c) registry registry' r rest rest'
        world := by
  refine h.endsAlike_or_goesOnAlike (fun answer answer' hanswer => ?_) (fun _ _ => id) r hrest world
  have hanswer : answer.Expanded c answer' := hanswer
  cases hanswer with
  | unit => exact .ends rfl rfl (.value .null)
  | value v => exact .ends rfl rfl (.value v)
  | sequence hsteps => exact .ends rfl rfl (.enter hsteps)
  | @operation o o' ho =>
    -- Only `returning` is not resolved in the place of the request but has a value at once.
    by_cases hreturning : ∃ v, o = .returning v
    · obtain ⟨v, rfl⟩ := hreturning
      cases ho
      exact .ends rfl rfl (.value v)
    · have hresolved : ∀ v, o ≠ .returning v := fun v hv => hreturning ⟨v, hv⟩
      have hresolved' : ∀ v, o' ≠ .returning v := by
        cases ho with
        | expand => exact c.resolved
        | request _ | io _ | composite _ => simp
        | returning v => exact absurd rfl (hresolved v)
      exact .goesOn ho hresolved hresolved'

/-- With the fuel that is enough for an operation, the expanded one comes to the same. -/
theorem Alike.copies_expanded (h : registry.Alike c.likeness registry')
    (hunfolds : registry.Unfolds c) (fuel : Nat) {o o' : Operation σ} (ho : o.Expanded c o') :
    registry.Copies (Step.Expanded c) (Act.Missing (· = .dispatch c.request)) registry' fuel fuel
      o o' := by
  have htolerance := Act.tolerance_missing (· = Act.dispatch (σ := σ) c.request)
  induction fuel generalizing o o' with
  | zero =>
    cases ho with
    | expand | request _ => exact copies_request_zero htolerance _ _ _
    | io io => exact copies_of_verdict htolerance rfl rfl (.suspend io) 0 0
    | composite hsteps => exact copies_of_verdict htolerance rfl rfl (.enter hsteps) 0 0
    | returning v => exact copies_of_verdict htolerance rfl rfl (.escape v) 0 0
  | succ fuel ih =>
    cases ho with
    | expand =>
      -- One answer later the request has become its expansion, in which nothing is expanded.
      have hnext := (ih (c.operation.expanded_self c)).mono (Nat.le_succ fuel)
      constructor
      · intro rest rest' world result world' hrest hresolve
        obtain ⟨hsame, hacts⟩ := hunfolds.resolveOperation fuel rest world
        rw [hsame] at hresolve
        obtain ⟨result', hresolve', hagree, hdone⟩ := hnext.resolves hrest hresolve
        refine ⟨result', hresolve', hagree, ?_⟩
        rw [hacts]
        exact .missing rfl hdone
      · intro world
        obtain ⟨-, hacts⟩ := hunfolds.resolveOperation fuel [] world
        obtain ⟨acts, hdone, hprefix⟩ := hnext.begins world
        refine ⟨acts, ?_, hprefix⟩
        rw [hacts]
        exact .missing rfl hdone
    | request r =>
      exact copies_request htolerance (fun world hrest => h.follow_cases r hrest world)
        fun o o' ho => ih ho
    | io io => exact copies_of_verdict htolerance rfl rfl (.suspend io) _ _
    | composite hsteps => exact copies_of_verdict htolerance rfl rfl (.enter hsteps) _ _
    | returning v => exact copies_of_verdict htolerance rfl rfl (.escape v) _ _

/-- What an operation comes to in which nothing is expanded takes at most twice the fuel where
answers may be unexpanded, if what expansions come to takes at most one more. -/
theorem Alike.copies_unexpanded_self (h : registry.Alike c.likeness registry') {p : Act σ → Prop}
    (fuel : Nat) (hpairs : ∀ fuel' < fuel, ∀ o o' : Operation σ, o.Expanded c o' →
      registry'.Copies (flip (Step.Expanded c)) (flip (Act.Missing p)) registry fuel'
        (2 * fuel' + 1) o' o) (o : Operation σ) :
    registry'.Copies (flip (Step.Expanded c)) (flip (Act.Missing p)) registry fuel (2 * fuel)
      o o := by
  have htolerance := (Act.tolerance_missing p).flip
  cases o with
  | request r =>
    cases fuel with
    | zero => exact copies_request_zero htolerance r 0 _
    | succ fuel =>
      refine copies_request (E := flip (Operation.Expanded c)) htolerance ?_
        fun o' o ho => hpairs fuel (Nat.lt_succ_self fuel) o o' ho
      intro rest' rest world hrest
      rcases h.follow_cases r (List.Forall₂.flip hrest) world with hends | hgoes
      · exact .inl hends.flip
      · exact .inr hgoes.flip
  | io io => exact copies_of_verdict htolerance rfl rfl (.suspend io) _ _
  | composite steps =>
    have hsteps : List.Forall₂ (flip (Step.Expanded c)) steps steps :=
      List.Forall₂.flip (Program.expanded_self c steps)
    exact copies_of_verdict htolerance rfl rfl (.enter hsteps) _ _
  | returning v => exact copies_of_verdict htolerance rfl rfl (.escape v) _ _

/-- With a little more than twice the fuel that is enough for an expanded operation, the one that is
not expanded comes to the same. -/
theorem Alike.copies_unexpanded (h : registry.Alike c.likeness registry')
    (hunfolds : registry.Unfolds c) (fuel : Nat) {o o' : Operation σ} (ho : o.Expanded c o') :
    registry'.Copies (flip (Step.Expanded c)) (flip (Act.Missing (· = .dispatch c.request)))
      registry fuel (2 * fuel + 1) o' o := by
  have htolerance := (Act.tolerance_missing (· = Act.dispatch (σ := σ) c.request)).flip
  induction fuel using Nat.strongRecOn generalizing o o' with
  | ind fuel ih =>
    have hself := h.copies_unexpanded_self fuel fun fuel' hlt o o' ho => ih fuel' hlt ho
    cases ho with
    | expand =>
      -- The request takes one answer more than its expansion, for which twice the fuel is enough.
      have hnext := hself c.operation
      constructor
      · intro rest rest' world result world' hrest hresolve
        obtain ⟨hsame, hacts⟩ := hunfolds.resolveOperation (2 * fuel) rest' world
        obtain ⟨result', hresolve', hagree, hdone⟩ := hnext.resolves hrest hresolve
        rw [hsame, hacts]
        exact ⟨result', hresolve', hagree, .missing rfl hdone⟩
      · intro world
        obtain ⟨-, hacts⟩ := hunfolds.resolveOperation (2 * fuel) [] world
        obtain ⟨acts, hdone, hprefix⟩ := hnext.begins world
        rw [hacts]
        exact ⟨_, .missing rfl hdone, (List.prefix_cons_inj _).2 hprefix⟩
    | request r => exact (hself (.request r)).mono (Nat.le_succ _)
    | io io => exact (hself (.io io)).mono (Nat.le_succ _)
    | composite hsteps =>
      exact copies_of_verdict htolerance rfl rfl (.enter (List.Forall₂.flip hsteps)) _ _
    | returning v => exact (hself (.returning v)).mono (Nat.le_succ _)

end Registry

/-! ## Whole programs -/

namespace Executor

/-- To expand a request makes no difference, wherever it is done in a program and in what
interpreters come to. Both programs come to the same, call by call and whatever the io deliver: the
same events and faults, the same number of open composites with the same bindings, and the same io
are asked for. All that is done is the same except for dispatches of the request that was expanded.
A step that returns for one of the programs does so for the other, which may need more fuel if it is
the one that is not expanded. -/
theorem expansion_invisible (x : Executor σ) {c : Expansion σ} (hunfolds : x.registry.Unfolds c)
    {registry' : Registry σ} (hregistry : x.registry.Alike c.likeness registry')
    {program program' : Program σ} (hprogram : Program.Expanded c program program')
    (surroundings : Surroundings σ) (fuel n : Nat) :
    Session.KeepsUp (Act.Missing (· = .dispatch c.request))
        (x.machine.sessionAfter program surroundings fuel n)
        ((x.over registry').machine.sessionAfter program' surroundings fuel n) ∧
      Session.KeepsUp (flip (Act.Missing (· = .dispatch c.request)))
        ((x.over registry').machine.sessionAfter program' surroundings fuel n)
        (x.machine.sessionAfter program surroundings (2 * fuel + 1) n) := by
  have htolerance := Act.tolerance_missing (· = Act.dispatch (σ := σ) c.request)
  have hforth : Lockstep (Step.Expanded c) (Act.Missing (· = .dispatch c.request)) id x.registry
      registry' := by
    refine .of_copies (E := Operation.Expanded c) (fun s s' hs env world => ?_)
      (fun fuel o o' ho => hregistry.copies_expanded hunfolds fuel ho) htolerance
    obtain ⟨hagree, hworld, hacts⟩ := hs.unwrap env none world
    exact ⟨hagree, hworld, hacts ▸ htolerance.same _⟩
  have hback : Lockstep (flip (Step.Expanded c)) (flip (Act.Missing (· = .dispatch c.request)))
      (2 * · + 1) registry' x.registry := by
    refine .of_copies (E := flip (Operation.Expanded c)) (fun s' s hs env world => ?_)
      (fun fuel o' o ho => hregistry.copies_unexpanded hunfolds fuel ho) htolerance.flip
    obtain ⟨hagree, hworld, hacts⟩ := Step.Expanded.unwrap hs env none world
    refine ⟨?_, hworld.symm, hacts ▸ htolerance.same _⟩
    rcases hagree.elim with ⟨found, found', hfound, hfound', hbinding, ho⟩ | ⟨f, hf, hf'⟩
    · rw [hfound, hfound']
      exact .ok ⟨hbinding.symm, ho⟩
    · rw [hf, hf']
      exact .error f
  exact ⟨hforth.keepsUp x hprogram surroundings fuel n,
    hback.keepsUp x (List.Forall₂.flip hprogram) surroundings fuel n⟩

end Executor

/-! ## An example with a shop -/

/-- An order is a composite that returns. -/
def Expansion.order : Expansion Unit where
  request := ⟨"shop", "order", []⟩
  operation := .composite [.returning (.bool true)]
  resolved := by simp

/-- A shop in which a sale comes to an order, and another order is placed after it. It is left open
how these orders are written. -/
def Registry.shop (order : Operation Unit) : Registry Unit :=
  ⟨[.table "shop"
    [("order", fun _ => pure (.sequence [.returning (.bool true)])),
      ("sell", fun _ => (Dialogue.replace [.op order] (.finish (.operation order))).run)]]⟩

/-- Sells something, and then places an order of its own. -/
def Program.sellAndOrder (order : Operation Unit) : Program Unit :=
  [.bind "sold" (.request ⟨"shop", "sell", []⟩), .deferred fun _ world => .yields (.op order) world]

/-- Runs programs over the shop in which orders are placed by requests. -/
def Executor.selling : Executor Unit := { registry := .shop (.request Expansion.order.request) }

/-- With all orders written out the shop is dispatched only once, and that is the difference. -/
theorem Executor.expansion_invisible_selling :
    selling.registry.Unfolds .order ∧
      selling.registry.Alike Expansion.order.likeness (.shop Expansion.order.operation) ∧
      Program.Expanded .order (Program.sellAndOrder (.request Expansion.order.request))
        (Program.sellAndOrder Expansion.order.operation) ∧
      Session.KeepsUp (Act.Missing (· = .dispatch Expansion.order.request))
        (selling.machine.sessionAfter (.sellAndOrder (.request Expansion.order.request))
          ⟨(), []⟩ 3 5)
        ((selling.over (.shop Expansion.order.operation)).machine.sessionAfter
          (.sellAndOrder Expansion.order.operation) ⟨(), []⟩ 3 5) ∧
      (selling.machine.sessionAfter (.sellAndOrder (.request Expansion.order.request))
        ⟨(), []⟩ 3 5).acts.length = 3 ∧
      ((selling.over (.shop Expansion.order.operation)).machine.sessionAfter
        (.sellAndOrder Expansion.order.operation) ⟨(), []⟩ 3 5).acts.length = 1 := by
  have hunfolds : selling.registry.Unfolds .order := fun world => ⟨_, .sequence _, rfl⟩
  have halike : selling.registry.Alike Expansion.order.likeness
      (.shop Expansion.order.operation) := by
    refine .cons (.table "shop" (.cons ⟨rfl, fun r => ?_⟩ (.cons ⟨rfl, fun r => ?_⟩ .nil))) .nil
    · exact .pure (.sequence (Program.expanded_self _ _))
    · have horder : Program.Expanded .order [.op (.request Expansion.order.request)]
          [.op Expansion.order.operation] := .cons (.op .expand) .nil
      exact (Dialogue.Alike.replace horder (.finish (.operation .expand))).run
  have hprogram : Program.Expanded .order (Program.sellAndOrder (.request Expansion.order.request))
      (Program.sellAndOrder Expansion.order.operation) :=
    .cons (Step.expanded_self _ _)
      (.cons (.deferred fun env world => .yields world (.op .expand)) .nil)
  exact ⟨hunfolds, halike, hprogram,
    (selling.expansion_invisible hunfolds halike hprogram ⟨(), []⟩ 3 5).1, rfl, rfl⟩

end EffectPrograms
