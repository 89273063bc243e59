import EffectPrograms.Proofs.Answers
import EffectPrograms.Proofs.Likeness
import EffectPrograms.Proofs.Session
import EffectPrograms.Proofs.Soundness

/-!
# Sessions in lockstep

Two programs run in lockstep if one step of each comes to the same, again and again, up to steps
that correspond. The stacks are then the same except for such steps (`Execution.Paired`), and
whatever is carried out on them keeps this so. What has to be shown of the two programs and their
registries is only how a single step is resolved: that is `Lockstep`. It leaves open what the two
may do differently on the way, as a relation between lists of acts, and how much fuel the second
needs.

What follows is that each session keeps up with the other (`Session.KeepsUp`): after every number of
calls they look alike, unless the first has come to a step that does not return; then the second has
come at least as far.
-/

namespace EffectPrograms

variable {σ : Type}

section Paired

variable (R : Step σ → Step σ → Prop)

/-- The frames are the same except for steps that correspond. -/
structure Frame.Paired (frame frame' : Frame σ) : Prop where
  steps : List.Forall₂ R frame.steps frame'.steps
  env : frame.env = frame'.env
  binding : frame.binding = frame'.binding
  discards : frame.discards = frame'.discards

/-- The stacks are the same except for steps that correspond. -/
structure Stack.Paired (stack stack' : Stack σ) : Prop where
  top : stack.top.Paired R stack'.top
  below : List.Forall₂ (Frame.Paired R) stack.below stack'.below

/-- The executions are the same except for steps that correspond. -/
inductive Execution.Paired : Execution σ → Execution σ → Prop where
  | running {stack stack' : Stack σ} : stack.Paired R stack' →
      Execution.Paired (.running stack) (.running stack')
  | awaitingIo (binding : Option String) {stack stack' : Stack σ} : stack.Paired R stack' →
      Execution.Paired (.awaitingIo binding stack) (.awaitingIo binding stack')
  | done : Execution.Paired .done .done
  | failed : Execution.Paired .failed .failed

/-- Two operations on a stack come to the same event, and to executions that correspond. -/
def SameEvent (made made' : Event σ × Execution σ) : Prop :=
  made.1 = made'.1 ∧ made.2.Paired R made'.2

/-- Two transitions have the same result in the same world, and lead to executions that
correspond. -/
structure Transition.Paired (t t' : Transition σ (Event σ)) : Prop where
  result : t.result = t'.result
  execution : t.execution.Paired R t'.execution
  world : t.world = t'.world

end Paired

/-- Two steps come to the same, except that the composites which they open are related. -/
inductive Verdict.Paired (S : List (Step σ) → List (Step σ) → Prop) :
    Verdict σ → Verdict σ → Prop where
  | value (v : Value) : Verdict.Paired S (.value v) (.value v)
  | escape (v : Value) : Verdict.Paired S (.escape v) (.escape v)
  | suspend (io : Io σ) : Verdict.Paired S (.suspend io) (.suspend io)
  | enter {steps steps' : List (Step σ)} : S steps steps' →
      Verdict.Paired S (.enter steps) (.enter steps')

/-- Two steps come to the same under the same name, and the steps that are left are related, too. -/
structure Resolution.Paired (S T : List (Step σ) → List (Step σ) → Prop) (x x' : Resolution σ) :
    Prop where
  binding : x.binding = x'.binding
  verdict : x.verdict.Paired S x'.verdict
  rest : T x.rest x'.rest

/-- Two operations come to the same, except for composites that they open and steps that they leave
of the composite. -/
def SameResult (S T : List (Step σ) → List (Step σ) → Prop)
    (found found' : Verdict σ × List (Step σ)) : Prop :=
  found.1.Paired S found'.1 ∧ T found.2 found'.2

variable {R : Step σ → Step σ → Prop}

/-! ## Operations on paired stacks -/

namespace Stack.Paired

variable {stack stack' : Stack σ} (h : stack.Paired R stack')
include h

/-- Other steps can be left if they correspond. -/
theorem withSteps {steps steps' : List (Step σ)} (hsteps : List.Forall₂ R steps steps') :
    (⟨{ stack.top with steps }, stack.below⟩ : Stack σ).Paired R
      ⟨{ stack'.top with steps := steps' }, stack'.below⟩ :=
  ⟨⟨hsteps, h.top.env, h.top.binding, h.top.discards⟩, h.below⟩

/-- As many composites are open. -/
theorem depth_eq : stack.depth = stack'.depth := by
  unfold depth
  rw [h.below.length_eq]

/-- A value is bound in both. -/
theorem bind (binding : Option String) (v : Value) :
    Agree (Stack.Paired R) (stack.bind binding v) (stack'.bind binding v) := by
  unfold Stack.bind
  rw [h.top.env]
  cases stack'.top.env.bindAs binding v with
  | error f => exact .error f
  | ok env => exact .ok ⟨⟨h.top.steps, rfl, h.top.binding, h.top.discards⟩, h.below⟩

/-- Both are left with the same. -/
theorem leave (escaped : Option Value) :
    Agree (SameEvent R) (stack.leave escaped) (stack'.leave escaped) := by
  obtain ⟨top, below⟩ := stack
  obtain ⟨top', below'⟩ := stack'
  obtain ⟨htop, hbelow⟩ := h
  have henv : top.env = top'.env := htop.env
  have hbinding : top.binding = top'.binding := htop.binding
  have hdiscards : top.discards = top'.discards := htop.discards
  cases hbelow with
  | nil =>
    simp only [Stack.leave, henv]
    exact .ok ⟨rfl, .done⟩
  | cons hparent hrest =>
    simp only [Stack.leave, hbinding, hdiscards]
    refine (Paired.bind ⟨hparent, hrest⟩ _ _).bind fun bound bound' hbound => ?_
    exact .ok ⟨rfl, .running hbound⟩

/-- A composite is opened in the place of an exhausted one in both, or on top in both, or in
neither. -/
theorem enter (limit : Option Nat) (binding : Option String) {steps steps' : List (Step σ)}
    (hsteps : List.Forall₂ R steps steps') :
    Agree (Stack.Paired R) (stack.enter limit binding steps)
      (stack'.enter limit binding steps') := by
  -- Whether a composite gives its place away only depends on how many steps and frames there are.
  have hexhausted : (stack.below ≠ [] ∧ stack.top.steps = []) ↔
      (stack'.below ≠ [] ∧ stack'.top.steps = []) := by
    have hbelow := h.below.length_eq
    have hlength := h.top.steps.length_eq
    rw [← List.length_eq_zero_iff, ← List.length_eq_zero_iff (l := stack'.top.steps), hlength,
      ← List.length_pos_iff, ← List.length_pos_iff, hbelow]
  have hframes : List.Forall₂ (Frame.Paired R) stack.frames stack'.frames := .cons h.top h.below
  rw [enter_eq, enter_eq]
  by_cases hgives : stack'.below ≠ [] ∧ stack'.top.steps = []
  · rw [if_pos hgives, if_pos (hexhausted.2 hgives)]
    exact .ok ⟨⟨hsteps, rfl, h.top.binding, rfl⟩, h.below⟩
  · rw [if_neg hgives, if_neg (hexhausted.not.2 hgives)]
    unfold push
    cases limit with
    | none => exact .ok ⟨⟨hsteps, rfl, rfl, rfl⟩, hframes⟩
    | some depth =>
      rw [h.depth_eq]
      by_cases hdepth : depth ≤ stack'.depth
      · simp only [if_pos hdepth]
        exact .error _
      · simp only [if_neg hdepth]
        exact .ok ⟨⟨hsteps, rfl, rfl, rfl⟩, hframes⟩

/-- What a step came to is carried out in both alike. -/
theorem commit (limit : Option Nat) {x x' : Resolution σ}
    (hx : x.Paired (List.Forall₂ R) (List.Forall₂ R) x') :
    Agree (SameEvent R) (stack.commit limit x) (stack'.commit limit x') := by
  have hrest := h.withSteps hx.rest
  have hverdict := hx.verdict
  unfold Stack.commit
  rw [hx.binding]
  generalize x.verdict = verdict at hverdict
  generalize x'.verdict = verdict' at hverdict
  cases hverdict with
  | value v =>
    exact (hrest.bind x'.binding v).bind fun bound bound' hbound => .ok ⟨rfl, .running hbound⟩
  | escape v => exact hrest.leave (some v)
  | suspend io => exact .ok ⟨rfl, .awaitingIo _ hrest⟩
  | enter hsteps =>
    refine (hrest.enter limit x'.binding hsteps).bind fun entered entered' hentered => ?_
    exact .ok ⟨rfl, .running hentered⟩

end Stack.Paired

/-- Results that agree make transitions that do. -/
theorem Agree.transition {result result' : Except Fault (Event σ × Execution σ)}
    (h : Agree (SameEvent R) result result') (world : σ) :
    (Transition.ofResult result world).Paired R (Transition.ofResult result' world) := by
  cases h with
  | ok hmade => exact ⟨congrArg Except.ok hmade.1, hmade.2, rfl⟩
  | error f => exact ⟨rfl, .failed, rfl⟩

namespace Execution.Paired

variable {e e' : Execution σ} (h : e.Paired R e')
include h

/-- They stand at the same point. -/
theorem status_eq : e.status = e'.status := by
  cases h <;> rfl

/-- As many composites are open. -/
theorem depth_eq : e.depth = e'.depth := by
  cases h with
  | running hstack | awaitingIo _ hstack => exact hstack.depth_eq
  | done | failed => rfl

/-- The same names are bound to the same values in all open composites. -/
theorem environments_eq : e.frames.map Frame.env = e'.frames.map Frame.env := by
  have hframes : List.Forall₂ (Frame.Paired R) e.frames e'.frames := by
    cases h with
    | running hstack | awaitingIo _ hstack => exact .cons hstack.top hstack.below
    | done | failed => exact .nil
  generalize e.frames = frames, e'.frames = frames' at hframes
  induction hframes with
  | nil => rfl
  | cons hframe _ ih => rw [List.map_cons, List.map_cons, hframe.env, ih]

/-- A delivery is received by both alike. -/
theorem receive (delivery : Except Fault Value) :
    (e.receive delivery).1 = (e'.receive delivery).1 ∧
      (e.receive delivery).2.Paired R (e'.receive delivery).2 := by
  cases delivery with
  | error f => exact ⟨rfl, .failed⟩
  | ok v =>
    cases h with
    | running hstack => exact ⟨rfl, .running hstack⟩
    | awaitingIo binding hstack =>
      simp only [Execution.receive, Execution.resume]
      rcases (hstack.bind binding v).elim with ⟨bound, bound', hb, hb', hbound⟩ | ⟨f, hf, hf'⟩
      · rw [hb, hb']
        exact ⟨rfl, .running hbound⟩
      · rw [hf, hf']
        exact ⟨rfl, .failed⟩
    | done => exact ⟨rfl, .done⟩
    | failed => exact ⟨rfl, .failed⟩

end Execution.Paired

/-! ## Steps in lockstep -/

/-- By how much lists of acts may differ: not at all, and in each of several parts. -/
structure Act.Tolerance (D : List (Act σ) → List (Act σ) → Prop) : Prop where
  same : ∀ acts, D acts acts
  append : ∀ {first first' second second'}, D first first' → D second second' →
    D (first ++ second) (first' ++ second')

/-- What is tolerated in one direction is tolerated in the other, the other way round. -/
theorem Act.Tolerance.flip {D : List (Act σ) → List (Act σ) → Prop} (h : Act.Tolerance D) :
    Act.Tolerance (flip D) :=
  ⟨h.same, h.append⟩

/-- Some acts that have a property are missing from the second list. -/
inductive Act.Missing (p : Act σ → Prop) : List (Act σ) → List (Act σ) → Prop where
  | nil : Missing p [] []
  | kept (act : Act σ) {acts acts' : List (Act σ)} : Missing p acts acts' →
      Missing p (act :: acts) (act :: acts')
  | missing {act : Act σ} {acts acts' : List (Act σ)} : p act → Missing p acts acts' →
      Missing p (act :: acts) acts'

/-- Acts may be missing. -/
theorem Act.tolerance_missing (p : Act σ → Prop) : Act.Tolerance (Act.Missing p) where
  same acts := by
    induction acts with
    | nil => exact .nil
    | cons act acts ih => exact .kept act ih
  append := by
    intro first first' second second' hfirst hsecond
    induction hfirst with
    | nil => exact hsecond
    | kept act _ ih => exact .kept act ih
    | missing hp _ ih => exact .missing hp ih

/-- Steps that correspond come to the same over two registries. The second may need more fuel, and
what is done on the way may differ by `D`. -/
structure Lockstep (R : Step σ → Step σ → Prop) (D : List (Act σ) → List (Act σ) → Prop)
    (slow : Nat → Nat) (registry registry' : Registry σ) : Prop where
  /-- A step that is resolved comes to the same as any that corresponds to it. -/
  resolves : ∀ {s s' rest rest' fuel env world result world'}, R s s' →
    List.Forall₂ R rest rest' →
    registry.resolve fuel env s rest world = some (result, world') →
      ∃ result', registry'.resolve (slow fuel) env s' rest' world = some (result', world') ∧
        Agree (Resolution.Paired (List.Forall₂ R) (List.Forall₂ R)) result result' ∧
        D (registry.resolveActs fuel env s world) (registry'.resolveActs (slow fuel) env s' world)
  /-- Whether it is or not, the other one does what it does, and perhaps more. -/
  begins : ∀ {s s' fuel env world}, R s s' →
    ∃ acts, D (registry.resolveActs fuel env s world) acts ∧
      acts <+: registry'.resolveActs (slow fuel) env s' world
  tolerance : Act.Tolerance D

/-- With that much fuel one operation comes to the same as the other over another registry. -/
structure Registry.Copies (R : Step σ → Step σ → Prop) (D : List (Act σ) → List (Act σ) → Prop)
    (registry registry' : Registry σ) (fuel fuel' : Nat) (o o' : Operation σ) : Prop where
  /-- If it is resolved, the other one comes to the same. -/
  resolves : ∀ {rest rest' world result world'}, List.Forall₂ R rest rest' →
    registry.resolveOperation fuel o rest world = some (result, world') →
      ∃ result', registry'.resolveOperation fuel' o' rest' world = some (result', world') ∧
        Agree (SameResult (List.Forall₂ R) (List.Forall₂ R)) result result' ∧
        D (registry.operationActs fuel world o) (registry'.operationActs fuel' world o')
  /-- Whether it is or not, the other one does what it does, and perhaps more. -/
  begins : ∀ world, ∃ acts, D (registry.operationActs fuel world o) acts ∧
    acts <+: registry'.operationActs fuel' world o'

/-- What comes to the same up to steps that correspond does so the other way round. -/
theorem Verdict.Paired.flip {verdict verdict' : Verdict σ}
    (h : verdict.Paired (List.Forall₂ R) verdict') :
    verdict'.Paired (List.Forall₂ (flip R)) verdict := by
  cases h with
  | value v => exact .value v
  | escape v => exact .escape v
  | suspend io => exact .suspend io
  | enter hsteps => exact .enter (List.Forall₂.flip hsteps)

/-- Results that are the same up to steps that correspond are so the other way round. -/
theorem SameResult.flip {found found' : Verdict σ × List (Step σ)}
    (h : SameResult (List.Forall₂ R) (List.Forall₂ R) found found') :
    SameResult (List.Forall₂ (flip R)) (List.Forall₂ (flip R)) found' found :=
  ⟨h.1.flip, List.Forall₂.flip h.2⟩

/-- The answers come to the same at once, or they are operations that correspond, to be resolved in
the place of a request. -/
inductive Answer.GoAlike (R : Step σ → Step σ → Prop) (E : Operation σ → Operation σ → Prop) :
    Answer σ → Answer σ → Prop where
  | ends {answer answer' : Answer σ} {verdict verdict' : Verdict σ} :
      answer.verdict? = some verdict → answer'.verdict? = some verdict' →
        verdict.Paired (List.Forall₂ R) verdict' → Answer.GoAlike R E answer answer'
  | goesOn {o o' : Operation σ} : E o o' → (∀ v, o ≠ .returning v) → (∀ v, o' ≠ .returning v) →
      Answer.GoAlike R E (.operation o) (.operation o')

/-- The operations are the same request, or they come to the same without an interpreter. -/
inductive Operation.StandAlike (R : Step σ → Step σ → Prop) : Operation σ → Operation σ → Prop where
  | request (r : Request) : Operation.StandAlike R (.request r) (.request r)
  | verdict {o o' : Operation σ} {verdict verdict' : Verdict σ} : o.verdict? = some verdict →
      o'.verdict? = some verdict' → verdict.Paired (List.Forall₂ R) verdict' →
        Operation.StandAlike R o o'

/-- What stands alike does so the other way round. -/
theorem Operation.StandAlike.flip {o o' : Operation σ} (h : o.StandAlike R o') :
    o'.StandAlike (flip R) o := by
  cases h with
  | request r => exact .request r
  | verdict hverdict hverdict' hsame => exact .verdict hverdict' hverdict hsame.flip

namespace Registry

/-- Over both registries a request comes to the same at once. -/
def EndsAlike (R : Step σ → Step σ → Prop) (registry registry' : Registry σ) (r : Request)
    (rest rest' : List (Step σ)) (world : σ) : Prop :=
  ∃ result result' world' acts,
    Agree (SameResult (List.Forall₂ R) (List.Forall₂ R)) result result' ∧
    (∀ fuel, registry.follow (fuel + 1) r rest world = some (result, world') ∧
      registry.acts (fuel + 1) r world = acts) ∧
    ∀ fuel, registry'.follow (fuel + 1) r rest' world = some (result', world') ∧
      registry'.acts (fuel + 1) r world = acts

/-- Over both registries a request is answered with operations that correspond, to be resolved in
its place. -/
def GoesOnAlike (R : Step σ → Step σ → Prop) (E : Operation σ → Operation σ → Prop)
    (registry registry' : Registry σ) (r : Request) (rest rest' : List (Step σ)) (world : σ) :
    Prop :=
  ∃ o o' left left' world', E o o' ∧ List.Forall₂ R left left' ∧
    (∀ fuel, registry.follow (fuel + 1) r rest world =
        registry.resolveOperation fuel o left world' ∧
      registry.acts (fuel + 1) r world = .dispatch r :: registry.operationActs fuel world' o) ∧
    ∀ fuel, registry'.follow (fuel + 1) r rest' world =
        registry'.resolveOperation fuel o' left' world' ∧
      registry'.acts (fuel + 1) r world = .dispatch r :: registry'.operationActs fuel world' o'

variable {E : Operation σ → Operation σ → Prop} {D : List (Act σ) → List (Act σ) → Prop}
  {registry registry' : Registry σ} {fuel fuel' : Nat} {o o' : Operation σ} {r : Request}
  {rest rest' : List (Step σ)} {world : σ}

/-- What ends alike does so the other way round. -/
theorem EndsAlike.flip (h : EndsAlike R registry registry' r rest rest' world) :
    EndsAlike (flip R) registry' registry r rest' rest world := by
  obtain ⟨result, result', world', acts, hagree, hends, hends'⟩ := h
  refine ⟨result', result, world', acts, ?_, hends', hends⟩
  rcases hagree.elim with ⟨a, b, rfl, rfl, hsame⟩ | ⟨f, rfl, rfl⟩
  · exact .ok hsame.flip
  · exact .error f

/-- What goes on alike does so the other way round. -/
theorem GoesOnAlike.flip (h : GoesOnAlike R E registry registry' r rest rest' world) :
    GoesOnAlike (flip R) (flip E) registry' registry r rest' rest world := by
  obtain ⟨o, o', left, left', world', ho, hleft, hgoes, hgoes'⟩ := h
  exact ⟨o', o, left', left, world', ho, List.Forall₂.flip hleft, hgoes', hgoes⟩

/-- Over registries that are alike a request ends or goes on alike if alike answers go alike, and
steps that are to replace the rest correspond. -/
theorem Alike.endsAlike_or_goesOnAlike {l : Likeness σ} (h : registry.Alike l registry')
    (hanswers : ∀ answer answer', l.answers answer answer' → answer.GoAlike R E answer')
    (hsteps : ∀ steps steps', l.steps steps steps' → List.Forall₂ R steps steps')
    (r : Request) (hrest : List.Forall₂ R rest rest') (world : σ) :
    EndsAlike R registry registry' r rest rest' world ∨
      GoesOnAlike R E registry registry' r rest rest' world := by
  rcases h.dispatch_cases r world with
    ⟨answer, answer', replacement, replacement', world', hd, hd', hanswer, hreplacement⟩ |
    ⟨f, world', hd, hd'⟩
  · have hleft : List.Forall₂ R (replacement.getD rest) (replacement'.getD rest') := by
      cases hreplacement with
      | none => exact hrest
      | some hrelated => exact hsteps _ _ hrelated
    cases hanswers answer answer' hanswer with
    | ends hverdict hverdict' hsame =>
      exact .inl ⟨_, _, world', _, .ok ⟨hsame, hleft⟩,
        fun fuel => follow_of_verdict hd hverdict fuel rest,
        fun fuel => follow_of_verdict hd' hverdict' fuel rest'⟩
    | @goesOn o o' ho hresolved hresolved' =>
      exact .inr ⟨o, o', _, _, world', ho, hleft,
        fun fuel => follow_of_operation hd hresolved fuel rest,
        fun fuel => follow_of_operation hd' hresolved' fuel rest'⟩
  · refine .inl ⟨.error f, .error f, world', registry.acts 1 r world, .error f,
      fun fuel => follow_of_dispatch_error hd fuel rest, fun fuel => ?_⟩
    obtain ⟨hfollow, hacts⟩ := follow_of_dispatch_error hd' fuel rest'
    exact ⟨hfollow, hacts.trans (h.acts_of_dispatch_error hd hd')⟩

/-- A request comes to the same over both registries if every answer to it ends or goes on alike. -/
theorem copies_request (htolerance : Act.Tolerance D)
    (hfollow : ∀ {rest rest'} world, List.Forall₂ R rest rest' →
      EndsAlike R registry registry' r rest rest' world ∨
        GoesOnAlike R E registry registry' r rest rest' world)
    (hpairs : ∀ o o', E o o' → registry.Copies R D registry' fuel fuel' o o') :
    registry.Copies R D registry' (fuel + 1) (fuel' + 1) (.request r) (.request r) where
  resolves := by
    intro rest rest' world result last hrest hresolve
    unfold resolveOperation at hresolve ⊢
    unfold operationActs
    dsimp only at hresolve ⊢
    rcases hfollow world hrest with
      ⟨found, found', world', acts, hagree, hends, hends'⟩ |
      ⟨o, o', left, left', world', ho, hleft, hgoes, hgoes'⟩
    · rw [(hends fuel).1] at hresolve
      obtain ⟨rfl, rfl⟩ := Prod.mk.inj (Option.some.inj hresolve)
      rw [(hends fuel).2, (hends' fuel').2]
      exact ⟨found', (hends' fuel').1, hagree, htolerance.same acts⟩
    · rw [(hgoes fuel).1] at hresolve
      obtain ⟨found', hresolve', hagree, hacts⟩ := (hpairs o o' ho).resolves hleft hresolve
      rw [(hgoes fuel).2, (hgoes' fuel').2, (hgoes' fuel').1]
      exact ⟨found', hresolve', hagree, htolerance.append (htolerance.same [.dispatch r]) hacts⟩
  begins world := by
    unfold operationActs
    dsimp only
    rcases hfollow world .nil with
      ⟨found, found', world', acts, -, hends, hends'⟩ |
      ⟨o, o', left, left', world', ho, -, hgoes, hgoes'⟩
    · rw [(hends fuel).2, (hends' fuel').2]
      exact ⟨acts, htolerance.same acts, List.prefix_rfl⟩
    · obtain ⟨acts, hacts, hprefix⟩ := (hpairs o o' ho).begins world'
      rw [(hgoes fuel).2, (hgoes' fuel').2]
      exact ⟨_, htolerance.append (htolerance.same [.dispatch r]) hacts,
        (List.prefix_cons_inj _).2 hprefix⟩

/-- Operations that need no interpreter come to the same if that is so without one. -/
theorem copies_of_verdict (htolerance : Act.Tolerance D) {verdict verdict' : Verdict σ}
    (hverdict : o.verdict? = some verdict) (hverdict' : o'.verdict? = some verdict')
    (hsame : verdict.Paired (List.Forall₂ R) verdict') (fuel fuel' : Nat) :
    registry.Copies R D registry' fuel fuel' o o' where
  resolves := by
    intro rest rest' world result world' hrest hresolve
    rw [resolveOperation_of_verdict hverdict] at hresolve
    obtain ⟨rfl, rfl⟩ := Prod.mk.inj (Option.some.inj hresolve)
    refine ⟨_, resolveOperation_of_verdict hverdict' fuel' rest' world, .ok ⟨hsame, hrest⟩, ?_⟩
    rw [operationActs_of_verdict hverdict, operationActs_of_verdict hverdict']
    exact htolerance.same []
  begins world := by
    rw [operationActs_of_verdict hverdict]
    exact ⟨[], htolerance.same [], List.nil_prefix⟩

/-- Without fuel no request is resolved, and nothing is done. -/
theorem copies_request_zero (htolerance : Act.Tolerance D) (r : Request) (fuel' : Nat)
    (o' : Operation σ) :
    registry.Copies R D registry' 0 fuel' (.request r) o' where
  resolves := by
    intro rest rest' world result world' hrest hresolve
    simp [resolveOperation, follow] at hresolve
  begins _ := ⟨[], htolerance.same [], List.nil_prefix⟩

/-- Operations that correspond come to the same with the same fuel if they are the same request or
need no interpreter, and requests end or go on alike. -/
theorem copies_of_follow (htolerance : Act.Tolerance D)
    (hstand : ∀ o o', E o o' → o.StandAlike R o')
    (hfollow : ∀ r {rest rest'} world, List.Forall₂ R rest rest' →
      EndsAlike R registry registry' r rest rest' world ∨
        GoesOnAlike R E registry registry' r rest rest' world)
    (fuel : Nat) {o o' : Operation σ} (ho : E o o') :
    registry.Copies R D registry' fuel fuel o o' := by
  induction fuel generalizing o o' with
  | zero =>
    cases hstand o o' ho with
    | request r => exact copies_request_zero htolerance r 0 _
    | verdict hverdict hverdict' hsame =>
      exact copies_of_verdict htolerance hverdict hverdict' hsame 0 0
  | succ fuel ih =>
    cases hstand o o' ho with
    | request r =>
      exact copies_request htolerance (fun world hrest => hfollow r world hrest)
        fun o o' ho => ih ho
    | verdict hverdict hverdict' hsame =>
      exact copies_of_verdict htolerance hverdict hverdict' hsame _ _

/-- More fuel for the second operation does no harm. -/
theorem Copies.mono (h : registry.Copies R D registry' fuel fuel' o o') {more : Nat}
    (hle : fuel' ≤ more) : registry.Copies R D registry' fuel more o o' where
  resolves := by
    intro rest rest' world result world' hrest hresolve
    obtain ⟨result', hresolve', hagree, hacts⟩ := h.resolves hrest hresolve
    obtain ⟨hmore, hsame⟩ := resolveOperation_mono hle hresolve'
    exact ⟨result', hmore, hagree, hsame ▸ hacts⟩
  begins world := by
    obtain ⟨acts, hacts, hprefix⟩ := h.begins world
    have hmore := registry'.operationActs_prefix hle o' world
    exact ⟨acts, hacts, hprefix.trans hmore⟩

end Registry

/-- Two steps are unwrapped to operations that correspond under the same name, or fail in the same
way. -/
def Step.SameUnwrapping (E : Operation σ → Operation σ → Prop)
    (D : List (Act σ) → List (Act σ) → Prop) (s s' : Step σ) : Prop :=
  ∀ env world,
    Agree (fun found found' => found.1 = found'.1 ∧ E found.2 found'.2)
        (s.unwrap env none world).1 (s'.unwrap env none world).1 ∧
      (s.unwrap env none world).2 = (s'.unwrap env none world).2 ∧
      D (s.acts env none world) (s'.acts env none world)

/-- What is unwrapped alike is so the other way round. -/
theorem Step.SameUnwrapping.flip {E : Operation σ → Operation σ → Prop}
    {D : List (Act σ) → List (Act σ) → Prop} {s s' : Step σ} (h : s.SameUnwrapping E D s') :
    s'.SameUnwrapping (flip E) (flip D) s := by
  intro env world
  obtain ⟨hagree, hworld, hacts⟩ := h env world
  exact ⟨hagree.flip.mono fun _ _ hfound => ⟨hfound.1.symm, hfound.2⟩, hworld.symm, hacts⟩

/-- Either both steps are unwrapped, or both fail. -/
theorem Step.SameUnwrapping.cases {E : Operation σ → Operation σ → Prop}
    {D : List (Act σ) → List (Act σ) → Prop} {s s' : Step σ} (h : s.SameUnwrapping E D s')
    (env : Environment) (world : σ) :
    (∃ binding o o' between, s.unwrap env none world = (.ok (binding, o), between) ∧
      s'.unwrap env none world = (.ok (binding, o'), between) ∧ E o o') ∨
    ∃ f between, s.unwrap env none world = (.error f, between) ∧
      s'.unwrap env none world = (.error f, between) := by
  obtain ⟨hagree, hworld, -⟩ := h env world
  rcases hunwrap : s.unwrap env none world with ⟨found, between⟩
  rcases hunwrap' : s'.unwrap env none world with ⟨found', between'⟩
  rw [hunwrap, hunwrap'] at hagree hworld
  obtain rfl : between = between' := hworld
  rcases hagree.elim with ⟨⟨binding, o⟩, ⟨binding', o'⟩, rfl, rfl, hbinding, ho⟩ | ⟨f, rfl, rfl⟩
  · obtain rfl : binding = binding' := hbinding
    exact .inl ⟨binding, o, o', between, rfl, rfl, ho⟩
  · exact .inr ⟨f, between, rfl, rfl⟩

/-- Steps are resolved in lockstep if the operations are that they are unwrapped to. -/
theorem Lockstep.of_copies {R : Step σ → Step σ → Prop} {E : Operation σ → Operation σ → Prop}
    {D : List (Act σ) → List (Act σ) → Prop} {slow : Nat → Nat} {registry registry' : Registry σ}
    (hunwrap : ∀ s s', R s s' → s.SameUnwrapping E D s')
    (hcopies : ∀ fuel o o', E o o' → registry.Copies R D registry' fuel (slow fuel) o o')
    (htolerance : Act.Tolerance D) : Lockstep R D slow registry registry' where
  tolerance := htolerance
  resolves := by
    intro s s' rest rest' fuel env world result world' hs hrest hresolve
    obtain ⟨-, -, hacts⟩ := hunwrap s s' hs env world
    rcases (hunwrap s s' hs).cases env world with
      ⟨binding, o, o', between, hu, hu', ho⟩ | ⟨f, between, hu, hu'⟩
    · obtain ⟨hfound, hdone⟩ := registry.resolve_of_unwrap hu fuel rest
      obtain ⟨hfound', hdone'⟩ := registry'.resolve_of_unwrap hu' (slow fuel) rest'
      rw [hfound] at hresolve
      obtain ⟨⟨given, last⟩, hgiven, hresult⟩ := Option.map_eq_some_iff.1 hresolve
      obtain ⟨rfl, rfl⟩ := Prod.mk.inj hresult
      obtain ⟨given', hgiven', hsame, hmore⟩ := (hcopies fuel o o' ho).resolves hrest hgiven
      rw [hfound', hgiven', hdone, hdone']
      exact ⟨_, rfl, hsame.map fun _ _ hfound => ⟨rfl, hfound.1, hfound.2⟩,
        htolerance.append hacts hmore⟩
    · obtain ⟨hfault, hdone⟩ := registry.resolve_of_unwrap_error hu fuel rest
      obtain ⟨hfault', hdone'⟩ := registry'.resolve_of_unwrap_error hu' (slow fuel) rest'
      rw [hfault] at hresolve
      obtain ⟨rfl, rfl⟩ := Prod.mk.inj (Option.some.inj hresolve)
      rw [hdone, hdone']
      exact ⟨_, hfault', .error f, hacts⟩
  begins := by
    intro s s' fuel env world hs
    obtain ⟨-, -, hacts⟩ := hunwrap s s' hs env world
    rcases (hunwrap s s' hs).cases env world with
      ⟨binding, o, o', between, hu, hu', ho⟩ | ⟨f, between, hu, hu'⟩
    · obtain ⟨acts, hbegun, hprefix⟩ := (hcopies fuel o o' ho).begins between
      rw [(registry.resolve_of_unwrap hu fuel []).2,
        (registry'.resolve_of_unwrap hu' (slow fuel) []).2]
      exact ⟨_, htolerance.append hacts hbegun, (List.prefix_append_right_inj _).2 hprefix⟩
    · rw [(registry.resolve_of_unwrap_error hu fuel []).2,
        (registry'.resolve_of_unwrap_error hu' (slow fuel) []).2]
      exact ⟨_, hacts, List.prefix_rfl⟩

/-- The executor with other interpreters. -/
def Executor.over (x : Executor σ) (registry : Registry σ) : Executor σ := { x with registry }

/-- Two sessions look alike, except that what was done may differ by `D`. -/
structure Session.LooksLike (D : List (Act σ) → List (Act σ) → Prop) (s s' : Session σ) : Prop where
  /-- All calls came to the same events and faults. -/
  replies : s.replies = s'.replies
  status : s.execution.status = s'.execution.status
  depth : s.execution.depth = s'.execution.depth
  environments : s.execution.frames.map Frame.env = s'.execution.frames.map Frame.env
  surroundings : s.surroundings = s'.surroundings
  ending : s.ending = s'.ending
  acts : D s.acts s'.acts

/-- The first session has come to a step that does not return, and the second at least as far. -/
structure Session.Overtaken (D : List (Act σ) → List (Act σ) → Prop) (s s' : Session σ) : Prop where
  hung : s.hung = true
  replies : s.replies <+: s'.replies
  acts : ∃ acts, D s.acts acts ∧ acts <+: s'.acts

/-- A session keeps up with a first one. -/
inductive Session.KeepsUp (D : List (Act σ) → List (Act σ) → Prop) (s s' : Session σ) : Prop where
  | alike : s.hung = false → s'.hung = false → s.LooksLike D s' → KeepsUp D s s'
  | ahead : s.Overtaken D s' → KeepsUp D s s'

namespace Lockstep

variable {D : List (Act σ) → List (Act σ) → Prop} {slow : Nat → Nat}
  {registry registry' : Registry σ}

/-- Two sessions that go on correspond: their executions do, and they look alike otherwise. -/
structure Corresponding (R : Step σ → Step σ → Prop) (D : List (Act σ) → List (Act σ) → Prop)
    (s s' : Session σ) : Prop where
  execution : s.execution.Paired R s'.execution
  surroundings : s.surroundings = s'.surroundings
  replies : s.replies = s'.replies
  acts : D s.acts s'.acts
  awake : s.hung = false
  awake' : s'.hung = false

/-- Sessions that correspond look alike. -/
theorem Corresponding.looksLike {s s' : Session σ} (h : Corresponding R D s s') :
    s.LooksLike D s' where
  replies := h.replies
  status := h.execution.status_eq
  depth := h.execution.depth_eq
  environments := h.execution.environments_eq
  surroundings := h.surroundings
  ending := by
    have hexecution := h.execution
    unfold Session.ending
    rw [h.replies, h.surroundings]
    generalize s.execution = e at hexecution
    generalize s'.execution = e' at hexecution
    cases hexecution <;> rfl
  acts := h.acts

variable (h : Lockstep R D slow registry registry') (x : Executor σ)
include h

/-- Steps on stacks that correspond have the same result. -/
theorem step {stack stack' : Stack σ} (hstack : stack.Paired R stack') {fuel : Nat} {world : σ}
    {t : Transition σ (Event σ)}
    (hstep : (x.over registry).step fuel (.running stack) world = some t) :
    ∃ t', (x.over registry').step (slow fuel) (.running stack') world = some t' ∧ t.Paired R t' ∧
      D (registry.stepActs fuel stack world) (registry'.stepActs (slow fuel) stack' world) := by
  have hpaired : List.Forall₂ R stack.top.steps stack'.top.steps := hstack.top.steps
  rw [Executor.step_eq_stepBy] at hstep
  rcases Executor.stepBy_cases hstep with ⟨hsteps, rfl⟩ | ⟨s, rest, hsteps, hcases⟩
  · rw [hsteps, List.forall₂_nil_left_iff] at hpaired
    refine ⟨_, (x.over registry').step_of_leaves (.exhausted hpaired),
      (hstack.leave none).transition world, ?_⟩
    simp only [Registry.stepActs, hsteps, hpaired]
    exact h.tolerance.same []
  · rw [hsteps, List.forall₂_cons_left_iff] at hpaired
    obtain ⟨s', rest', hs, hrest, hsteps'⟩ := hpaired
    rw [registry.stepActs_of_steps hsteps, registry'.stepActs_of_steps hsteps', ← hstack.top.env]
    rcases hcases with ⟨f, world', hresolve, rfl⟩ | ⟨resolution, world', hresolve, rfl⟩
    · obtain ⟨result', hresolve', hagree, hacts⟩ := h.resolves hs hrest hresolve
      rw [hstack.top.env] at hresolve'
      rcases hagree.elim with ⟨a, b, ha, -⟩ | ⟨g, hg, rfl⟩
      · simp at ha
      obtain rfl := Except.error.inj hg
      exact ⟨_, (x.over registry').step_of_resolve_error hsteps' hresolve',
        ⟨rfl, .failed, rfl⟩, hacts⟩
    · obtain ⟨result', hresolve', hagree, hacts⟩ := h.resolves hs hrest hresolve
      rw [hstack.top.env] at hresolve'
      rcases hagree.elim with ⟨a, resolution', ha, rfl, hresolution⟩ | ⟨g, hg, -⟩
      · obtain rfl := Except.ok.inj ha
        exact ⟨_, (x.over registry').step_of_resolve hsteps' hresolve',
          (hstack.commit x.settings.maxDepth hresolution).transition world', hacts⟩
      · simp at hg

/-- What is done in a step, whether it returns or not, is done in the other one, and perhaps more.
-/
theorem stepActs {stack stack' : Stack σ} (hstack : stack.Paired R stack') (fuel : Nat)
    (world : σ) : ∃ acts, D (registry.stepActs fuel stack world) acts ∧
      acts <+: registry'.stepActs (slow fuel) stack' world := by
  have hpaired : List.Forall₂ R stack.top.steps stack'.top.steps := hstack.top.steps
  cases hsteps : stack.top.steps with
  | nil =>
    rw [Registry.stepActs, hsteps]
    exact ⟨[], h.tolerance.same [], List.nil_prefix⟩
  | cons s rest =>
    rw [hsteps, List.forall₂_cons_left_iff] at hpaired
    obtain ⟨s', rest', hs, -, hsteps'⟩ := hpaired
    rw [registry.stepActs_of_steps hsteps, registry'.stepActs_of_steps hsteps', ← hstack.top.env]
    exact h.begins hs

/-- After a call sessions that correspond still do, or the first has been overtaken. -/
theorem advance {s s' : Session σ} (hs : Corresponding R D s s') (fuel : Nat) :
    Corresponding R D ((x.over registry).machine.advance fuel s)
        ((x.over registry').machine.advance (slow fuel) s') ∨
      ((x.over registry).machine.advance fuel s).Overtaken D
        ((x.over registry').machine.advance (slow fuel) s') := by
  have hexecution := hs.execution
  have hsurroundings := hs.surroundings
  generalize he : s.execution = e, he' : s'.execution = e' at hexecution
  cases hexecution with
  | @running stack stack' hstack =>
    rw [Machine.advance_of_running hs.awake he]
    cases hstep : (x.over registry).machine.step fuel (.running stack) s.surroundings.world with
    | none =>
      -- The first session hangs. The second one has made the same calls before, and in this one it
      -- does whatever the first has done.
      refine .inr ⟨rfl, ?_, ?_⟩
      · have hreplies : s.replies = s'.replies := hs.replies
        rw [Session.hang, hreplies]
        exact (Machine.prefix_advance _ _ s').2
      · obtain ⟨acts, hacts, hprefix⟩ := h.stepActs hstack fuel s.surroundings.world
        refine ⟨s'.acts ++ acts, h.tolerance.append hs.acts hacts, ?_⟩
        rw [hsurroundings] at hprefix
        exact ((List.prefix_append_right_inj _).2 hprefix).trans
          (Machine.stepActs_prefix_advance (m := (x.over registry').machine) hs.awake' he')
    | some t =>
      obtain ⟨t', hstep', ht, hacts⟩ := h.step x hstack hstep
      rw [hsurroundings] at hstep' hacts
      have hmade : (x.over registry').machine.step (slow fuel) (.running stack')
          s'.surroundings.world = some t' := hstep'
      rw [Machine.advance_of_running hs.awake' he', hmade]
      refine .inl ⟨ht.execution, ?_, ?_, ?_, hs.awake, hs.awake'⟩
      · simp only [Session.stepped, hsurroundings, ht.world]
      · simp only [Session.stepped, hs.replies, ht.result]
      · simp only [Session.stepped, ht.result]
        rw [hsurroundings]
        exact h.tolerance.append (h.tolerance.append hs.acts hacts) (h.tolerance.same _)
  | @awaitingIo binding stack stack' hstack =>
    refine .inl ?_
    cases hnext : s.surroundings.deliveries with
    | nil =>
      rw [Machine.advance_of_starved he hnext,
        Machine.advance_of_starved he' (hsurroundings ▸ hnext)]
      exact hs
    | cons first later =>
      obtain ⟨delivery, world⟩ := first
      rw [Machine.advance_of_awaiting hs.awake he hnext,
        Machine.advance_of_awaiting hs.awake' he' (hsurroundings ▸ hnext)]
      obtain ⟨hresult, hreceived⟩ := (Execution.Paired.awaitingIo binding hstack).receive delivery
      refine ⟨hreceived, rfl, ?_, hs.acts, hs.awake, hs.awake'⟩
      simp only [Session.resumed, hs.replies, hresult]
  | done =>
    rw [Machine.advance_of_ended (.inl he), Machine.advance_of_ended (.inl he')]
    exact .inl hs
  | failed =>
    rw [Machine.advance_of_ended (.inr he), Machine.advance_of_ended (.inr he')]
    exact .inl hs

/-- A program keeps up with one whose steps correspond, for any number of calls and whatever the
surroundings deliver. -/
theorem keepsUp {program program' : Program σ} (hprogram : List.Forall₂ R program program')
    (surroundings : Surroundings σ) (fuel n : Nat) :
    Session.KeepsUp D ((x.over registry).machine.sessionAfter program surroundings fuel n)
      ((x.over registry').machine.sessionAfter program' surroundings (slow fuel) n) := by
  suffices hcalls : Corresponding R D
      ((x.over registry).machine.sessionAfter program surroundings fuel n)
      ((x.over registry').machine.sessionAfter program' surroundings (slow fuel) n) ∨
        ((x.over registry).machine.sessionAfter program surroundings fuel n).Overtaken D
          ((x.over registry').machine.sessionAfter program' surroundings (slow fuel) n) by
    rcases hcalls with hs | hs
    · exact .alike hs.awake hs.awake' hs.looksLike
    · exact .ahead hs
  induction n with
  | zero =>
    exact .inl
      ⟨.running ⟨⟨hprogram, rfl, rfl, rfl⟩, .nil⟩, rfl, rfl, h.tolerance.same [], rfl, rfl⟩
  | succ n ih =>
    rw [Machine.sessionAfter_succ, Machine.sessionAfter_succ]
    rcases ih with hs | hs
    · exact h.advance x hs fuel
    · -- The first session stays where it is, and the second only goes on.
      rw [Machine.advance_of_hung hs.hung]
      obtain ⟨acts, hacts, hprefix⟩ := hs.acts
      obtain ⟨hmore, hreplies⟩ := Machine.prefix_advance (x.over registry').machine (slow fuel)
        ((x.over registry').machine.sessionAfter program' surroundings (slow fuel) n)
      exact .inr ⟨hs.hung, hs.replies.trans hreplies, acts, hacts, hprefix.trans hmore⟩

end Lockstep

end EffectPrograms
