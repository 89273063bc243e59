import EffectPrograms.Proofs.Renaming
import EffectPrograms.Proofs.Session

/-!
# The name within fan-outs and the names of programs

The composite that a fan-out answers with has an environment of its own, so that the name which it
binds there should not meet any other. It can: a handler of a request in that composite may ask for
the rest of it to be replaced, and the steps that it puts there find the name bound
(`Session.Collides`).

Runs with the one and with the other name are compared call by call. They look the same from outside
as long as no such step is reached (`Executor.advance_naming`), and when the first one is reached
the run with the name `"last"` fails (`Executor.failedFrom_of_collides`).
-/

namespace EffectPrograms

variable {σ : Type} {n : String}

/-! ## Stacks -/

/-- Composites that a step opens start alike. -/
theorem Composite.Renamed.scope {steps steps' : List (Step σ)}
    (h : Composite.Renamed n steps steps') :
    Scope.Renamed n true none none steps .empty steps' .empty := by
  rcases h with ⟨rfl, hsteps⟩ | hsteps
  · exact .plain (by simp) hsteps rfl
  · exact .own hsteps

/-- As long as there are steps left with the one name, so are with the other. -/
theorem Scope.Renamed.steps_eq_nil_iff {inner : Bool} {binding binding' : Option String}
    {steps steps' : List (Step σ)} {env env' : Environment}
    (h : Scope.Renamed n inner binding binding' steps env steps' env') :
    steps = [] ↔ steps' = [] := by
  cases h with
  | own hsteps => cases hsteps <;> simp
  | plain _ _ _ | marked _ _ _ _ _ | replaced _ => rfl
  | started | returns _ _ => simp

/-- The environment of the outermost composite is the same. -/
theorem Scope.Renamed.env_eq_of_outermost {binding binding' : Option String}
    {steps steps' : List (Step σ)} {env env' : Environment}
    (h : Scope.Renamed n false binding binding' steps env steps' env') : env = env' := by
  cases h
  rfl

namespace Stack

/-- The open composites with the one and with the other name, when a value is going to be bound in
the innermost one. -/
inductive Renamed (n : String) : Option String → Option String → Stack σ → Stack σ → Prop where
  | outermost {binding binding' : Option String} {frame frame' : Frame σ} :
      Scope.Renamed n false binding binding' frame.steps frame.env frame'.steps frame'.env →
        Renamed n binding binding' ⟨frame, []⟩ ⟨frame', []⟩
  | inner {binding binding' : Option String} {frame frame' : Frame σ} {parent parent' : Stack σ} :
      Scope.Renamed n true binding binding' frame.steps frame.env frame'.steps frame'.env →
        frame.discards = frame'.discards →
          Renamed n frame.binding frame'.binding parent parent' →
            Renamed n binding binding' ⟨frame, parent.frames⟩ ⟨frame', parent'.frames⟩

end Stack

/-- The executions are the same except for the name. -/
inductive Execution.Renamed (n : String) : Execution σ → Execution σ → Prop where
  | running {stack stack' : Stack σ} : stack.Renamed n none none stack' →
      Execution.Renamed n (.running stack) (.running stack')
  | awaitingIo {binding binding' : Option String} {stack stack' : Stack σ} :
      Stack.Renamed n binding binding' stack stack' →
        Execution.Renamed n (.awaitingIo binding stack) (.awaitingIo binding' stack')
  | done : Execution.Renamed n .done .done
  | failed : Execution.Renamed n .failed .failed

/-- An event and the execution after it are the same except for the name. -/
def SameMade (n : String) (made made' : Event σ × Execution σ) : Prop :=
  made.1 = made'.1 ∧ made.2.Renamed n made'.2

/-- Transitions with the same result, in the same world and to executions that are the same except
for the name. -/
structure Transition.Renamed (n : String) (t t' : Transition σ (Event σ)) : Prop where
  result : t.result = t'.result
  execution : t.execution.Renamed n t'.execution
  world : t.world = t'.world

/-- What a step comes to is the same except for the name. -/
structure Resolution.Renamed (n : String) (inner : Bool) (env env' : Environment)
    (x x' : Resolution σ) : Prop where
  scope : Scope.Renamed n inner x.binding x'.binding x.rest env x'.rest env'
  verdict : x.verdict.Paired (Composite.Renamed n) x'.verdict

namespace Stack.Renamed

variable {binding binding' : Option String} {stack stack' : Stack σ}

/-- What is left of the innermost composite. -/
theorem scope (h : stack.Renamed n binding binding' stack') :
    ∃ inner, Scope.Renamed n inner binding binding' stack.top.steps stack.top.env stack'.top.steps
        stack'.top.env ∧
      ∀ {next next' steps steps' env env'}, Scope.Renamed n inner next next' steps env steps' env' →
        Stack.Renamed n next next' ⟨{ stack.top with steps, env }, stack.below⟩
          ⟨{ stack'.top with steps := steps', env := env' }, stack'.below⟩ := by
  cases h with
  | outermost hscope => exact ⟨false, hscope, fun hnext => .outermost hnext⟩
  | inner hscope hdiscards hparent =>
    exact ⟨true, hscope, fun hnext => .inner hnext hdiscards hparent⟩

/-- As many composites are open. -/
theorem depth_eq (h : stack.Renamed n binding binding' stack') : stack.depth = stack'.depth := by
  induction h with
  | outermost _ => rfl
  | inner _ _ _ ih => exact congrArg (· + 1) ih

/-- There is a composite around the innermost one, or not. -/
theorem below_eq_nil_iff (h : stack.Renamed n binding binding' stack') :
    stack.below = [] ↔ stack'.below = [] := by
  cases h with
  | outermost _ => rfl
  | inner _ _ _ => simp [frames]

/-- A value is bound under both names, or under the same. -/
theorem bind (hother : n ≠ "last") (h : stack.Renamed n binding binding' stack') (v : Value) :
    Agree (Stack.Renamed n none none) (stack.bind binding v) (stack'.bind binding' v) := by
  obtain ⟨inner, hscope, hupdate⟩ := h.scope
  unfold Stack.bind
  exact (hscope.bindAs hother v).bind fun env env' henv => .ok (hupdate henv)

/-- The innermost composite is left alike. -/
theorem leave (hother : n ≠ "last") (h : stack.Renamed n binding binding' stack')
    (escaped : Option Value) :
    Agree (SameMade n) (stack.leave escaped) (stack'.leave escaped) := by
  cases h with
  | @outermost _ _ frame frame' hscope =>
    simp only [Stack.leave, hscope.env_eq_of_outermost]
    exact .ok ⟨rfl, .done⟩
  | inner _ hdiscards hparent =>
    rw [leave_frames, leave_frames, hdiscards]
    exact (hparent.bind hother _).map fun next next' hnext => ⟨rfl, .running hnext⟩

/-- A composite is opened alike. -/
theorem enter (h : stack.Renamed n binding binding' stack') (limit : Option Nat)
    {steps steps' : List (Step σ)} (hsteps : Composite.Renamed n steps steps') :
    Agree (Stack.Renamed n none none) (stack.enter limit binding steps)
      (stack'.enter limit binding' steps') := by
  obtain ⟨inner, hscope, -⟩ := h.scope
  have hpushed : Stack.Renamed n none none ⟨{ steps, binding }, stack.frames⟩
      ⟨{ steps := steps', binding := binding' }, stack'.frames⟩ := .inner hsteps.scope rfl h
  rw [enter_eq, enter_eq]
  by_cases hgives : stack.below ≠ [] ∧ stack.top.steps = []
  · have hgives' : stack'.below ≠ [] ∧ stack'.top.steps = [] :=
      ⟨h.below_eq_nil_iff.not.1 hgives.1, hscope.steps_eq_nil_iff.1 hgives.2⟩
    rw [if_pos hgives, if_pos hgives']
    cases h with
    | outermost _ => exact absurd rfl hgives.1
    | inner _ _ hparent => exact .ok (.inner hsteps.scope rfl hparent)
  · have hgoes : ¬ (stack'.below ≠ [] ∧ stack'.top.steps = []) := by
      rwa [Ne, ← h.below_eq_nil_iff, ← hscope.steps_eq_nil_iff]
    rw [if_neg hgives, if_neg hgoes]
    unfold push
    cases limit with
    | none => exact .ok hpushed
    | some depth =>
      dsimp only
      rw [h.depth_eq]
      split
      · exact .error _
      · exact .ok hpushed

/-- What a step came to is carried out alike on what it left. -/
theorem commit (hother : n ≠ "last") {x x' : Resolution σ} {stack stack' : Stack σ}
    (hrest : Stack.Renamed n x.binding x'.binding ⟨{ stack.top with steps := x.rest }, stack.below⟩
      ⟨{ stack'.top with steps := x'.rest }, stack'.below⟩)
    (hverdict : x.verdict.Paired (Composite.Renamed n) x'.verdict) (limit : Option Nat) :
    Agree (SameMade n) (stack.commit limit x) (stack'.commit limit x') := by
  unfold Stack.commit
  generalize x.verdict = verdict at hverdict
  generalize x'.verdict = verdict' at hverdict
  cases hverdict with
  | value v => exact (hrest.bind hother v).bind fun next next' hnext => .ok ⟨rfl, .running hnext⟩
  | escape v => exact hrest.leave hother (some v)
  | suspend io => exact .ok ⟨rfl, .awaitingIo hrest⟩
  | enter hsteps =>
    exact (hrest.enter limit hsteps).bind fun next next' hnext => .ok ⟨rfl, .running hnext⟩

end Stack.Renamed

/-- Results that are the same except for the name make transitions that are. -/
theorem SameMade.transition {result result' : Except Fault (Event σ × Execution σ)}
    (h : Agree (SameMade n) result result') (world : σ) :
    (Transition.ofResult result world).Renamed n (Transition.ofResult result' world) := by
  cases h with
  | ok hmade => exact ⟨congrArg Except.ok hmade.1, hmade.2, rfl⟩
  | error f => exact ⟨rfl, .failed, rfl⟩

namespace Execution.Renamed

variable {e e' : Execution σ}

/-- They stand at the same point. -/
theorem status_eq (h : e.Renamed n e') : e.status = e'.status := by
  cases h <;> rfl

/-- As many composites are open. -/
theorem depth_eq (h : e.Renamed n e') : e.depth = e'.depth := by
  cases h with
  | running hstack | awaitingIo hstack => exact hstack.depth_eq
  | done | failed => rfl

/-- A delivery is received alike. -/
theorem receive (hother : n ≠ "last") (h : e.Renamed n e') (delivery : Except Fault Value) :
    (e.receive delivery).1 = (e'.receive delivery).1 ∧
      (e.receive delivery).2.Renamed n (e'.receive delivery).2 := by
  cases delivery with
  | error f => exact ⟨rfl, .failed⟩
  | ok v =>
    cases h with
    | running hstack => exact ⟨rfl, .running hstack⟩
    | @awaitingIo binding binding' stack stack' hstack =>
      simp only [Execution.receive, Execution.resume]
      rcases (hstack.bind hother v).elim with ⟨bound, bound', hb, hb', hbound⟩ | ⟨f, hf, hf'⟩
      · rw [hb, hb']
        exact ⟨rfl, .running hbound⟩
      · rw [hf, hf']
        exact ⟨rfl, .failed⟩
    | done => exact ⟨rfl, .done⟩
    | failed => exact ⟨rfl, .failed⟩

end Execution.Renamed

/-! ## Steps -/

/-- The next step is to bind to `"last"` where the value of a last branch is bound already, under
the other name. -/
def Execution.Collides (n : String) (world : σ) : Execution σ → Prop
  | .running stack => stack.top.env.contains n = true ∧
      ∃ s ∈ stack.top.steps.head?, s.name? stack.top.env world = some "last"
  | _ => False

instance (n : String) (world : σ) (e : Execution σ) : Decidable (e.Collides n world) :=
  match e with
  | .running stack => inferInstanceAs (Decidable (stack.top.env.contains n = true ∧
      ∃ s ∈ stack.top.steps.head?, s.name? stack.top.env world = some "last"))
  | .awaitingIo _ _ | .done | .failed => inferInstanceAs (Decidable False)

/-- The front steps of one composite are resolved alike over both registries, unless they bind to
`"last"` where the other name is bound. -/
theorem Registry.resolve_naming {registry : Registry σ} (hassembled : registry.Assembled)
    (hdiscreet : registry.Discreet n) (hn : n ≠ "") (hother : n ≠ "last") {inner : Bool}
    {s s' : Step σ} {rest rest' : List (Step σ)} {env env' : Environment}
    (h : Scope.Renamed n inner none none (s :: rest) env (s' :: rest') env') {world : σ}
    (hfree : env'.contains n = true → s'.name? env' world ≠ some "last") (fuel : Nat) :
    Option.Rel (fun found found' =>
        Agree (Resolution.Renamed n inner env env') found.1 found'.1 ∧ found.2 = found'.2)
      (registry.resolve fuel env s rest world)
      ((registry.naming n).resolve fuel env' s' rest' world) ∧
    Act.logged ((registry.naming n).resolveActs fuel env' s' world) =
      Act.logged (registry.resolveActs fuel env s world) := by
  rcases h.unwrap hn hother hfree with
    ⟨binding, binding', o, o', between, hu, hu', ho, hscope, hacts⟩ |
    ⟨f, between, hu, hu', hacts⟩
  · obtain ⟨hresolve, hdone⟩ := registry.resolve_of_unwrap hu fuel rest
    obtain ⟨hresolve', hdone'⟩ := (registry.naming n).resolve_of_unwrap hu' fuel rest'
    obtain ⟨hfound, hmore⟩ := registry.resolveOperation_naming hassembled hdiscreet
      (T := fun left left' => Scope.Renamed n inner binding binding' left env left' env')
      (fun _ hsteps => hscope.replace hsteps) hscope fuel ho between
    rw [hresolve, hresolve', hdone, hdone', Act.logged_append, Act.logged_append, hacts, hmore]
    refine ⟨?_, rfl⟩
    revert hfound
    generalize registry.resolveOperation fuel o rest between = found
    generalize (registry.naming n).resolveOperation fuel o' rest' between = found'
    rintro (⟨hagree, hworld⟩ | -)
    · exact .some ⟨hagree.map fun _ _ hsame => ⟨hsame.2, hsame.1⟩, hworld⟩
    · exact .none
  · obtain ⟨hresolve, hdone⟩ := registry.resolve_of_unwrap_error hu fuel rest
    obtain ⟨hresolve', hdone'⟩ := (registry.naming n).resolve_of_unwrap_error hu' fuel rest'
    rw [hresolve, hresolve', hdone, hdone', hacts]
    exact ⟨.some ⟨.error f, rfl⟩, rfl⟩

namespace Executor

variable (x : Executor σ) (hassembled : x.registry.Assembled) (hdiscreet : x.registry.Discreet n)
  (hn : n ≠ "") (hother : n ≠ "last")
include hassembled hdiscreet hn hother

/-- Executions that are the same except for the name are stepped alike, unless they collide. -/
theorem step_naming {stack stack' : Stack σ} (hstack : stack.Renamed n none none stack') {world : σ}
    (hfree : ¬ (Execution.running stack').Collides n world) (fuel : Nat) :
    Option.Rel (Transition.Renamed n) (x.step fuel (.running stack) world)
        ((x.over (x.registry.naming n)).step fuel (.running stack') world) ∧
      Act.logged ((x.registry.naming n).stepActs fuel stack' world) =
        Act.logged (x.registry.stepActs fuel stack world) := by
  obtain ⟨inner, hscope, hupdate⟩ := hstack.scope
  cases hsteps : stack.top.steps with
  | nil =>
    have hsteps' := hscope.steps_eq_nil_iff.1 hsteps
    rw [x.step_of_leaves (.exhausted hsteps),
      (x.over (x.registry.naming n)).step_of_leaves (.exhausted hsteps'), Registry.stepActs,
      Registry.stepActs, hsteps, hsteps']
    exact ⟨.some (SameMade.transition (hstack.leave hother none) world), rfl⟩
  | cons s rest =>
    obtain ⟨s', rest', hsteps'⟩ := List.exists_cons_of_ne_nil
      (hscope.steps_eq_nil_iff.not.1 (by simp [hsteps]))
    have hname : stack'.top.env.contains n = true →
        s'.name? stack'.top.env world ≠ some "last" :=
      fun hbound hname => hfree ⟨hbound, s', by simp [hsteps'], hname⟩
    rw [hsteps, hsteps'] at hscope
    obtain ⟨hfound, hacts⟩ :=
      x.registry.resolve_naming hassembled hdiscreet hn hother hscope hname fuel
    rw [Registry.stepActs_of_steps _ hsteps, Registry.stepActs_of_steps _ hsteps']
    refine ⟨?_, hacts⟩
    simp only [step, hsteps, hsteps', Executor.over]
    generalize x.registry.resolve fuel stack.top.env s rest world = found at hfound
    generalize (x.registry.naming n).resolve fuel stack'.top.env s' rest' world = found' at hfound
    cases hfound with
    | none => exact .none
    | @some found found' hfound =>
      obtain ⟨result, world'⟩ := found
      obtain ⟨result', world''⟩ := found'
      obtain ⟨hagree, rfl⟩ : _ ∧ world' = world'' := hfound
      rcases hagree.elim with ⟨resolution, resolution', rfl, rfl, hmade⟩ | ⟨f, rfl, rfl⟩
      · have hcommit := Stack.Renamed.commit hother (hupdate hmade.scope) hmade.verdict
          x.settings.maxDepth
        exact .some (SameMade.transition hcommit world')
      · exact .some ⟨rfl, .failed, rfl⟩

omit hassembled hdiscreet hn hother in
/-- If they collide, the one with the name `"last"` fails, for the name is taken. -/
theorem step_of_collides {stack stack' : Stack σ} (hstack : stack.Renamed n none none stack')
    {world : σ} (hcollides : (Execution.running stack').Collides n world) (fuel : Nat) :
    ∃ between, x.step fuel (.running stack) world = some (.fail (.nameTaken "last") between) := by
  obtain ⟨inner, hscope, -⟩ := hstack.scope
  obtain ⟨hbound, s', hfront, hname⟩ := hcollides
  cases hsteps' : stack'.top.steps with
  | nil => simp [hsteps'] at hfront
  | cons first' rest' =>
    obtain rfl : first' = s' := by simpa [hsteps'] using hfront
    obtain ⟨s, rest, hsteps⟩ := List.exists_cons_of_ne_nil
      (hscope.steps_eq_nil_iff.not.2 (by simp [hsteps']))
    rw [hsteps, hsteps'] at hscope
    obtain ⟨between, hunwrap⟩ := hscope.unwrap_of_collision hbound hname
    exact ⟨between, x.step_of_resolve_error hsteps
      (x.registry.resolve_of_unwrap_error hunwrap fuel rest).1⟩

end Executor

/-! ## Sessions -/

namespace Session

/-- The next call steps the execution to a binding to `"last"` where the value of a last branch is
bound already, under the other name. -/
def Collides (n : String) (s : Session σ) : Prop :=
  s.hung = false ∧ s.execution.Collides n s.surroundings.world

instance (n : String) (s : Session σ) : Decidable (s.Collides n) :=
  inferInstanceAs (Decidable (s.hung = false ∧ s.execution.Collides n s.surroundings.world))

/-- Two sessions look the same from outside. -/
structure SeemsLike (s s' : Session σ) : Prop where
  hung : s.hung = s'.hung
  /-- All calls came to the same events and faults. -/
  replies : s.replies = s'.replies
  status : s.execution.status = s'.execution.status
  depth : s.execution.depth = s'.execution.depth
  surroundings : s.surroundings = s'.surroundings
  ending : s.ending = s'.ending
  /-- The same requests were dispatched, the same faults raised and the same io asked for. -/
  log : Act.logged s.acts = Act.logged s'.acts

/-- Two sessions are the same except for the name. -/
structure Renamed (n : String) (s s' : Session σ) : Prop where
  execution : s.execution.Renamed n s'.execution
  surroundings : s.surroundings = s'.surroundings
  replies : s.replies = s'.replies
  log : Act.logged s.acts = Act.logged s'.acts
  hung : s.hung = s'.hung

/-- Sessions that are the same except for the name look the same. -/
theorem Renamed.seemsLike {s s' : Session σ} (h : s.Renamed n s') : s.SeemsLike s' where
  hung := h.hung
  replies := h.replies
  status := h.execution.status_eq
  depth := h.execution.depth_eq
  surroundings := h.surroundings
  ending := by
    have hexecution := h.execution
    unfold Session.ending
    rw [h.replies, h.surroundings]
    generalize s.execution = e at hexecution
    generalize s'.execution = e' at hexecution
    cases hexecution <;> rfl
  log := h.log

end Session

namespace Executor

variable (x : Executor σ) (hassembled : x.registry.Assembled) (hdiscreet : x.registry.Discreet n)
  (hn : n ≠ "") (hother : n ≠ "last")
include hassembled hdiscreet hn hother

/-- After a call sessions are the same except for the name that were so before, unless the second
one was about to collide. -/
theorem advance_naming {s s' : Session σ} (hs : s.Renamed n s') (hfree : ¬ s'.Collides n)
    (fuel : Nat) :
    (x.machine.advance fuel s).Renamed n
      ((x.over (x.registry.naming n)).machine.advance fuel s') := by
  by_cases hhung : s.hung = true
  · rw [Machine.advance_of_hung hhung, Machine.advance_of_hung (hs.hung ▸ hhung)]
    exact hs
  have hawake : s.hung = false := by simpa using hhung
  have hawake' : s'.hung = false := hs.hung ▸ hawake
  have hexecution := hs.execution
  have hsurroundings := hs.surroundings
  generalize he : s.execution = e, he' : s'.execution = e' at hexecution
  cases hexecution with
  | @running stack stack' hstack =>
    have hnot : ¬ (Execution.running stack').Collides n s.surroundings.world :=
      fun hcollides => hfree ⟨hawake', by rwa [he', ← hsurroundings]⟩
    obtain ⟨hstep, hacts⟩ := x.step_naming hassembled hdiscreet hn hother hstack hnot fuel
    have hlog : Act.logged (s.acts ++
          x.machine.registry.stepActs fuel stack s.surroundings.world) =
        Act.logged (s'.acts ++ (x.over (x.registry.naming n)).machine.registry.stepActs fuel stack'
          s.surroundings.world) := by
      rw [Act.logged_append, Act.logged_append, hs.log]
      exact congrArg _ hacts.symm
    rw [Machine.advance_of_running hawake he, Machine.advance_of_running hawake' he',
      ← hsurroundings]
    change Option.Rel (Transition.Renamed n) (x.machine.step fuel (.running stack) _)
      ((x.over (x.registry.naming n)).machine.step fuel (.running stack') _) at hstep
    generalize x.machine.step fuel (.running stack) s.surroundings.world = t at hstep
    generalize (x.over (x.registry.naming n)).machine.step fuel (.running stack')
      s.surroundings.world = t' at hstep
    cases hstep with
    | none => exact ⟨hs.execution, hsurroundings, hs.replies, hlog, rfl⟩
    | some ht =>
      refine ⟨ht.execution, ?_, ?_, ?_, hs.hung⟩
      · simp only [Session.stepped, hsurroundings, ht.world]
      · simp only [Session.stepped, hs.replies, ht.result]
      · simp only [Session.stepped, ht.result]
        rw [Act.logged_append, hlog, ← Act.logged_append]
  | @awaitingIo binding binding' stack stack' hstack =>
    cases hnext : s.surroundings.deliveries with
    | nil =>
      rw [Machine.advance_of_starved he hnext,
        Machine.advance_of_starved he' (hsurroundings ▸ hnext)]
      exact hs
    | cons first later =>
      obtain ⟨delivery, world⟩ := first
      rw [Machine.advance_of_awaiting hawake he hnext,
        Machine.advance_of_awaiting hawake' he' (hsurroundings ▸ hnext)]
      obtain ⟨hresult, hreceived⟩ :=
        (Execution.Renamed.awaitingIo hstack).receive hother delivery
      refine ⟨hreceived, rfl, ?_, hs.log, hs.hung⟩
      simp only [Session.resumed, hs.replies, hresult]
  | done =>
    rw [Machine.advance_of_ended (.inl he), Machine.advance_of_ended (.inl he')]
    exact hs
  | failed =>
    rw [Machine.advance_of_ended (.inr he), Machine.advance_of_ended (.inr he')]
    exact hs

omit hassembled hdiscreet hn hother in
/-- The session with the name `"last"` fails where the other one is about to collide. -/
theorem failedFrom_of_collides {s s' : Session σ} (hs : s.Renamed n s')
    (hcollides : s'.Collides n) (fuel : Nat) :
    ∃ acts world, s.FailedFrom acts (.nameTaken "last") world (x.machine.advance fuel s) := by
  obtain ⟨hawake', hstands⟩ := hcollides
  have hawake : s.hung = false := hs.hung.trans hawake'
  have hexecution := hs.execution
  generalize he : s.execution = e, s'.execution = e' at hexecution hstands
  cases hexecution with
  | running hstack =>
    rw [← hs.surroundings] at hstands
    obtain ⟨between, hfails⟩ := x.step_of_collides hstack hstands fuel
    exact ⟨_, between, x.machine.failedFrom_of_step hawake he hfails Nat.one_pos⟩
  | awaitingIo _ | done | failed => exact hstands.elim

omit hassembled hdiscreet hn hother in
/-- Which name fan-outs bind the values of their last branches under cannot be seen from outside, at
whatever depth they are nested, as long as nobody else binds under the other name or tells the two
apart, and no step is reached that binds to `"last"` where such a value is bound. Call by call and
whatever the io deliver, the same events and faults are met, as many composites are open, and the
log is the same.

When such a step is reached, the run with the name `"last"` fails. -/
theorem renaming_invisible (x : Executor σ) (hassembled : x.registry.Assembled) (hn : n ≠ "")
    (hother : n ≠ "last") (hdiscreet : x.registry.Discreet n) {program : Program σ}
    (hprogram : Program.Discreet n program) (surroundings : Surroundings σ) (fuel calls : Nat)
    (hfree : ∀ earlier < calls, ¬ ((x.over (x.registry.naming n)).machine.sessionAfter program
      surroundings fuel earlier).Collides n) :
    (x.machine.sessionAfter program surroundings fuel calls).SeemsLike
        ((x.over (x.registry.naming n)).machine.sessionAfter program surroundings fuel calls) ∧
      (((x.over (x.registry.naming n)).machine.sessionAfter program surroundings fuel
          calls).Collides n →
        ∃ acts world, (x.machine.sessionAfter program surroundings fuel calls).FailedFrom acts
          (.nameTaken "last") world
          (x.machine.sessionAfter program surroundings fuel (calls + 1))) := by
  have hrenamed : (x.machine.sessionAfter program surroundings fuel calls).Renamed n
      ((x.over (x.registry.naming n)).machine.sessionAfter program surroundings fuel calls) := by
    induction calls with
    | zero =>
      have hscope : Scope.Renamed n false none none program .empty program .empty :=
        .plain (by simp) hprogram rfl
      exact ⟨.running (.outermost hscope), rfl, rfl, rfl, rfl⟩
    | succ calls ih =>
      rw [Machine.sessionAfter_succ, Machine.sessionAfter_succ]
      exact x.advance_naming hassembled hdiscreet hn hother
        (ih fun earlier hlt => hfree earlier (Nat.lt_succ_of_lt hlt))
        (hfree calls (Nat.lt_succ_self calls)) fuel
  refine ⟨hrenamed.seemsLike, fun hcollides => ?_⟩
  rw [Machine.sessionAfter_succ]
  exact x.failedFrom_of_collides hrenamed hcollides fuel

end Executor

/-! ## An example of a collision -/

/-- Mail goes to the log by a fan-out with one branch, and whoever writes to the log puts a binding
in the place of what was to come after it. -/
def Registry.rewriting (name : String) : Registry Unit :=
  .ofAttempts [
    .fanOut "mail" "last"
      [.table "mail" [("send", fun _ => pure (.operation (.request ⟨"log", "write", []⟩)))]],
    .table "log" [("write", fun _ => do
      Handling.replaceRemainder [.bind name (.composite [])]
      return .value (.bool true))]]

/-- Runs programs over it. -/
def Executor.rewriting (name : String) : Executor Unit := { registry := .rewriting name }

/-- Sends mail. -/
def Program.mailing : Program Unit := [.bind "sent" (.request ⟨"mail", "send", []⟩)]

/-- The fan-out is built over a branch of its algebra. -/
theorem Registry.assembled_rewriting (name : String) : (Registry.rewriting name).Assembled := by
  refine assembled_ofAttempts (List.forall_mem_cons.2 ⟨?_, List.forall_mem_singleton.2
    (.table "log" _)⟩)
  exact .fanOut (List.forall_mem_singleton.2 (.table "mail" _))
    (rfl : Interpreter.fanOut? "mail" [_] = _)

/-- Nobody uses a name but the one that is put in. -/
theorem Registry.discreet_rewriting {n name : String} (hne : name ≠ n) :
    (Registry.rewriting name).Discreet n := by
  have hput : Program.Discreet n [(.bind name (.composite []) : Step Unit)] :=
    List.forall_mem_singleton.2 (.bind hne (.op (.composite (by simp))))
  refine List.forall_mem_cons.2 ⟨.fanOut (List.forall_mem_singleton.2 (.table ?_)),
    List.forall_mem_singleton.2 (.table ?_)⟩
  · refine List.forall_mem_singleton.2 fun r pass hpass answer next hanswer => ?_
    obtain ⟨hgiven, rfl⟩ := Prod.mk.inj hanswer
    obtain rfl := Except.ok.inj hgiven
    exact ⟨.operation (.request _), hpass⟩
  · refine List.forall_mem_singleton.2 fun r pass _ answer next hanswer => ?_
    obtain ⟨hgiven, rfl⟩ := Prod.mk.inj hanswer
    obtain rfl := Except.ok.inj hgiven
    exact ⟨.value _, by rintro _ ⟨⟩; exact hput⟩

/-- Sending mail uses none either. -/
theorem Program.discreet_mailing : Program.Discreet "final" Program.mailing :=
  List.forall_mem_singleton.2 (.bind (by decide) (.op (.request _)))

/-- If what is put in is bound to a name of its own, the whole runs look the same. If it is bound to
`"last"`, they do up to there, after two calls, and then the one with that name fails. -/
theorem Executor.renaming_invisible_rewriting :
    ((rewriting "copy").machine.sessionAfter .mailing ⟨(), []⟩ 2 6).SeemsLike
        (((rewriting "copy").over ((Registry.rewriting "copy").naming "final")).machine.sessionAfter
          .mailing ⟨(), []⟩ 2 6) ∧
      ((rewriting "copy").machine.sessionAfter .mailing ⟨(), []⟩ 2 6).ending =
        .ok (.environment ⟨[("sent", .null)]⟩) ∧
      ((rewriting "last").machine.sessionAfter .mailing ⟨(), []⟩ 2 2).SeemsLike
        (((rewriting "last").over ((Registry.rewriting "last").naming "final")).machine.sessionAfter
          .mailing ⟨(), []⟩ 2 2) ∧
      ∃ acts world, ((rewriting "last").machine.sessionAfter .mailing ⟨(), []⟩ 2 2).FailedFrom acts
        (.nameTaken "last") world
        ((rewriting "last").machine.sessionAfter .mailing ⟨(), []⟩ 2 3) := by
  have hcopy := (rewriting "copy").renaming_invisible (n := "final")
    (Registry.assembled_rewriting _) (by decide) (by decide)
    (Registry.discreet_rewriting (by decide)) Program.discreet_mailing ⟨(), []⟩ 2 6
    (by decide +kernel)
  have hlast := (rewriting "last").renaming_invisible (n := "final")
    (Registry.assembled_rewriting _) (by decide) (by decide)
    (Registry.discreet_rewriting (by decide)) Program.discreet_mailing ⟨(), []⟩ 2 2
    (by decide +kernel)
  exact ⟨hcopy.1, rfl, hlast.1, hlast.2 (by decide +kernel)⟩

/-- The name is not invisible to every program that keeps off the other name: this one fails with
the name `"last"` and comes to its end with the other. -/
theorem Executor.collision_rewriting :
    (Registry.rewriting "last").Assembled ∧ (Registry.rewriting "last").Discreet "final" ∧
      Program.Discreet "final" Program.mailing ∧
      ((rewriting "last").machine.sessionAfter .mailing ⟨(), []⟩ 2 6).ending =
        .error (.fault (.nameTaken "last")) ∧
      (((rewriting "last").over ((Registry.rewriting "last").naming "final")).machine.sessionAfter
        .mailing ⟨(), []⟩ 2 6).ending = .ok (.environment ⟨[("sent", .null)]⟩) :=
  ⟨Registry.assembled_rewriting _, Registry.discreet_rewriting (by decide),
    Program.discreet_mailing, rfl, rfl⟩

end EffectPrograms
