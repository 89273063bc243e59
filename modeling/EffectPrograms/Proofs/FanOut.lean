import EffectPrograms.Proofs.Branches
import EffectPrograms.Proofs.Continuation
import Mathlib.Logic.Relation

/-!
# Fan-outs

A fan-out asks all its branches before anything that they answer is done: each of them is
interpreted once and in order (`Interpreter.AnswerInTurn`), and if one fails, then so does the step
that made the request. Otherwise their answers become the steps of one composite, in which every
answer takes its turn. What the composite means is said here without its steps: each answer is
resolved on its own, and the value of the last one is the value of the whole (`Registry.inTurn`).

The two agree for every sequence of answers of whatever kinds (`combine_le_inTurn`,
`inTurn_le_combine`), as long as none of the requests among the answers has the rest of the
fan-out's own composite replaced (`Registry.LeaveRest`). Together with what is known of a composite
that a run opens, this gives the course of a run from wherever a fan-out is asked
(`Executor.Reachable.fan_out`).
-/

namespace EffectPrograms

variable {σ : Type}

open Evaluation FanOut Interpreter

namespace Registry

variable {registry : Registry σ} {algebra name : String} {branches : List (Interpreter σ)}
  {r : Request} {world : σ} {last : Pass σ}

/-- What comes of a request to a fan-out if all branches answer. -/
theorem dispatch_of_answerInTurn
    (hfind : registry.find? r.algebra = some (.fanOut algebra name branches))
    {answers : List (Answer σ)} (h : AnswerInTurn r branches { world } answers last) :
    registry.dispatch r world =
      (.ok (.sequence (combine name answers), last.replacement), last.world) := by
  rw [dispatch, hfind]
  dsimp only
  rw [h.interpret_fanOut]
  rfl

/-- What comes of a request to a fan-out if a branch fails. -/
theorem dispatch_of_failInTurn
    (hfind : registry.find? r.algebra = some (.fanOut algebra name branches))
    {f : Fault} (h : FailInTurn r branches { world } f last) :
    registry.dispatch r world = (.error f, last.world) := by
  rw [dispatch, hfind]
  dsimp only
  rw [h.interpret_fanOut]
  rfl

end Registry

/-! ## Answers on their own -/

namespace Registry

variable (registry : Registry σ)

/-- What an answer resolves to on its own, in a composite where nothing else is. -/
def resolveAnswer (fuel : Nat) : Answer σ → Evaluation σ Value
  | .unit => pure .null
  | .value v | .operation (.returning v) => pure v
  | .operation (.io io) => perform io
  | .operation (.composite steps) | .sequence steps => (registry.evaluate fuel .empty steps).valued
  | .operation (.request r) => do
    let nested steps := (registry.evaluate fuel .empty steps).valued
    return (← registry.value nested fuel r []).1

/-- Resolves each answer in turn, to the value of the last one. A deferred step of the fan-out reads
that value back from the composite of the answers, unless it was there from the start. -/
def inTurn (fuel : Nat) : List (Answer σ) → Evaluation σ Value
  | [] => pure .null
  | [answer] => do
    let v ← registry.resolveAnswer fuel answer
    if (earlierStep? answer).isSome then note (.compute ⟨[("last", v)]⟩)
    return v
  | answer :: next :: later => do
    let _ ← registry.resolveAnswer fuel answer
    inTurn fuel (next :: later)

/-- With more fuel an answer is not cut short so soon. -/
theorem resolveAnswer_mono {fuel more : Nat} (hle : fuel ≤ more) (answer : Answer σ) :
    registry.resolveAnswer fuel answer ≤ registry.resolveAnswer more answer := by
  have hnested : ∀ steps, (registry.evaluate fuel .empty steps).valued ≤
      (registry.evaluate more .empty steps).valued :=
    fun steps => bind_le_bind (registry.evaluate_mono hle .empty steps) fun _ => le_rfl
  rcases answer with - | v | (r | io | steps | v) | steps
  · exact le_rfl
  · exact le_rfl
  · exact bind_le_bind (registry.value_mono hnested hle r []) fun _ => le_rfl
  · exact le_rfl
  · exact hnested steps
  · exact le_rfl
  · exact hnested steps

/-! ## Handlers that leave the rest alone -/

/-- A request is answered with another one in its place. -/
def HandsOn (asked next : Request × σ) : Prop :=
  ∃ replacement,
    registry.dispatch asked.1 asked.2 = (.ok (.operation (.request next.1), replacement), next.2)

/-- None of the interpreters that are asked from the request on, one in the place of the other,
wants the rest of the composite to be replaced. -/
def KeepsRest (r : Request) (world : σ) : Prop :=
  ∀ asked, Relation.ReflTransGen registry.HandsOn (r, world) asked →
    ∀ answer replacement world',
      registry.dispatch asked.1 asked.2 = (.ok (answer, replacement), world') → replacement = none

/-- The answer leaves the rest alone, if it is a request. -/
def LeavesRest (answer : Answer σ) (surroundings : Surroundings σ) : Prop :=
  ∀ r, answer = .operation (.request r) → registry.KeepsRest r surroundings.world

/-- Each answer that is a request leaves the rest alone when its turn comes. -/
def LeaveRest : List (Answer σ) → Surroundings σ → Prop
  | [], _ => True
  | answer :: later, surroundings =>
    (∀ r, answer = .operation (.request r) → registry.KeepsRest r surroundings.world) ∧
      ∀ fuel acts v next, (registry.resolveAnswer fuel answer).course surroundings =
        ⟨acts, .ok v, next⟩ → LeaveRest later next

variable {registry}

/-- Requests that leave the rest alone in every world do so when their turn comes. -/
theorem leaveRest_of_keepsRest {answers : List (Answer σ)} (surroundings : Surroundings σ)
    (h : ∀ r, .operation (.request r) ∈ answers → ∀ world, registry.KeepsRest r world) :
    registry.LeaveRest answers surroundings := by
  induction answers generalizing surroundings with
  | nil => trivial
  | cons answer later ih =>
    refine ⟨?_, fun _ _ _ next _ => ih next fun r hr => h r (List.mem_cons_of_mem _ hr)⟩
    rintro r rfl
    exact h r (List.mem_cons_self ..) _

/-- A request that is answered with a value leaves the rest alone if that is not to be replaced. -/
theorem keepsRest_of_value {r : Request} {world world' : σ} {v : Value}
    (h : registry.dispatch r world = (.ok (.value v, none), world')) :
    registry.KeepsRest r world := by
  intro asked hasked answer replacement last hdispatch
  rcases hasked.cases_head with rfl | ⟨next, ⟨replacement', hhandsOn⟩, -⟩
  · obtain ⟨hanswer, -⟩ := Prod.mk.inj (h.symm.trans hdispatch)
    exact (Prod.mk.inj (Except.ok.inj hanswer)).2.symm
  · simp [h] at hhandsOn

/-- The steps after a request have no part in its value, and stay if they are left alone. -/
theorem KeepsRest.value_eq {nested : List (Step σ) → Evaluation σ Value} (fuel : Nat) {r : Request}
    {surroundings : Surroundings σ} (h : registry.KeepsRest r surroundings.world)
    (rest : List (Step σ)) :
    (registry.value nested fuel r rest).course surroundings =
      (registry.value nested fuel r [] >>= fun found => pure (found.1, rest)).course
        surroundings := by
  induction fuel generalizing r surroundings with
  | zero => rfl
  | succ fuel ih =>
    rw [value, value, bind_assoc]
    cases hfind : registry.find? r.algebra with
    | none =>
      have hconsult : (registry.consult r).course surroundings =
          ⟨[], .error (.fault (.noInterpreter r)), surroundings⟩ := by
        rw [consult, hfind]
        rfl
      rw [bind_of_error hconsult, bind_of_error hconsult]
    | some i =>
      have hconsult := consult_eq hfind surroundings
      rcases hdispatch : registry.dispatch r surroundings.world with
        ⟨f | ⟨answer, replacement⟩, world⟩
      · rw [hdispatch] at hconsult
        rw [bind_of_error hconsult, bind_of_error hconsult]
      · obtain rfl : replacement = none := h _ .refl _ _ _ hdispatch
        rw [hdispatch] at hconsult
        rw [bind_of_ok hconsult, bind_of_ok hconsult]
        rcases answer with - | v | (next | io | steps | v) | steps
        · rfl
        · rfl
        · -- The request that takes the place of this one leaves the rest alone as well.
          have hnext : registry.KeepsRest next
              ({ surroundings with world } : Surroundings σ).world :=
            fun asked hasked => h asked (.head ⟨none, hdispatch⟩ hasked)
          exact congrArg _ (ih hnext)
        · simp only [Option.getD_none, bind_assoc, pure_bind]
        · simp only [Option.getD_none, bind_assoc, pure_bind]
        · rfl
        · simp only [Option.getD_none, bind_assoc, pure_bind]

/-! ## Answers in one composite -/

/-- An answer has its value at once, or it is an operation that stands in a step. -/
theorem answer_cases (registry : Registry σ) (answer : Answer σ) :
    (∃ v, earlierStep? answer = none ∧ (∀ fuel, registry.resolveAnswer fuel answer = pure v) ∧
      (lastSteps "last" answer = [] ∧ v = .null ∨ lastSteps "last" answer = [.returning v])) ∨
    ∃ o, earlierStep? answer = some (.op o) ∧
      lastSteps "last" answer = [.bind "last" (.op o), returnBound "last"] := by
  rcases answer with - | v | (r | io | steps | v) | steps
  · exact .inl ⟨.null, rfl, fun _ => rfl, .inl ⟨rfl, rfl⟩⟩
  · exact .inl ⟨v, rfl, fun _ => rfl, .inr rfl⟩
  · exact .inr ⟨_, rfl, rfl⟩
  · exact .inr ⟨_, rfl, rfl⟩
  · exact .inr ⟨_, rfl, rfl⟩
  · exact .inl ⟨v, rfl, fun _ => rfl, .inr rfl⟩
  · exact .inr ⟨_, rfl, rfl⟩

/-- Such an answer is that operation or the sequence that it runs, and does not leave the composite.
-/
theorem eq_of_earlierStep? {answer : Answer σ} {o : Operation σ}
    (ho : earlierStep? answer = some (.op o)) :
    (∀ v, o ≠ .returning v) ∧
      (answer = .operation o ∨ ∃ steps, answer = .sequence steps ∧ o = .composite steps) := by
  rcases answer with - | v | (r | io | steps | v) | steps
  case unit | value | operation.returning => simp [earlierStep?] at ho
  case sequence =>
    obtain rfl : .composite steps = o := Step.op.inj (Option.some.inj ho)
    exact ⟨by simp, .inr ⟨steps, rfl, rfl⟩⟩
  all_goals
    obtain rfl := Step.op.inj (Option.some.inj ho)
    exact ⟨by simp, .inl rfl⟩

section

variable {answer : Answer σ} {o : Operation σ} (ho : earlierStep? answer = some (.op o))
  (fuel : Nat)

include ho

/-- It has the value of the operation. -/
theorem resolveAnswer_eq (registry : Registry σ) :
    registry.resolveAnswer fuel answer =
      registry.operationValue fuel [] o >>= fun found => pure found.1 := by
  obtain ⟨hstays, rfl | ⟨steps, rfl, rfl⟩⟩ := eq_of_earlierStep? ho
  · cases o with
    | request r => rfl
    | io io | composite steps => simp [resolveAnswer, operationValue]
    | returning v => exact absurd rfl (hstays v)
  · simp [resolveAnswer, operationValue]

variable {surroundings : Surroundings σ} (hleaves : registry.LeavesRest answer surroundings)

include hleaves

/-- If it leaves the rest alone, that is the rest after it. -/
theorem operationValue_eq (rest : List (Step σ)) :
    (registry.operationValue fuel rest o).course surroundings =
      (registry.resolveAnswer fuel answer >>= fun v => pure (v, rest)).course surroundings := by
  obtain ⟨hstays, rfl | ⟨steps, rfl, rfl⟩⟩ := eq_of_earlierStep? ho
  · cases o with
    | request r =>
      rw [resolveAnswer, bind_assoc]
      exact (hleaves r rfl).value_eq fuel rest
    | io io | composite steps => rfl
    | returning v => exact absurd rfl (hstays v)
  · rfl

/-- A step that makes the operation of an answer has the value of the answer, and the steps after it
follow with that. -/
theorem evaluate_answer {s : Step σ} {env : Environment} {binding : Option String}
    (hs : s.operation env none = pure (binding, o)) (rest : List (Step σ)) :
    (registry.evaluate (fuel + 1) env (s :: rest)).course surroundings =
      (registry.resolveAnswer fuel answer >>= fun v =>
        registry.goOn fuel env binding v rest).course surroundings := by
  rw [evaluate_cons, hs, pure_bind]
  rcases proceed_cases o with ⟨v, rfl⟩ | hgoesOn
  · exact absurd rfl ((eq_of_earlierStep? ho).1 v)
  · rw [hgoesOn, course_bind_congr (operationValue_eq ho fuel hleaves rest), bind_assoc]
    rfl

end

/-- In a composite of its own the value that the last answer has is found again. -/
theorem valued_goOn_last (registry : Registry σ) (fuel : Nat) (v : Value) :
    (registry.goOn (fuel + 1) .empty (some "last") v [returnBound "last"]).valued =
      (do
        note (.compute ⟨[("last", v)]⟩)
        return v) := by
  rfl

/-- Up to there the value is found, or the evaluation is cut short. -/
theorem valued_goOn_last_le (registry : Registry σ) (fuel : Nat) (v : Value) :
    (registry.goOn fuel .empty (some "last") v [returnBound "last"]).valued ≤
      (do
        note (.compute ⟨[("last", v)]⟩)
        return v) := by
  cases fuel with
  | zero => exact unfinished_le _
  | succ fuel => exact (valued_goOn_last registry fuel v).le

/-- An answer that has its value at once leaves no step before those of the later ones. -/
theorem combine_of_value {answer : Answer σ} (h : earlierStep? answer = none) (next : Answer σ)
    (later : List (Answer σ)) :
    combine "last" (answer :: next :: later) = combine "last" (next :: later) := by
  simp [combine, h]

section

variable {answer : Answer σ} {o : Operation σ} (ho : earlierStep? answer = some (.op o))
  (fuel : Nat) {surroundings : Surroundings σ}
  (hkeeps : registry.LeavesRest answer surroundings)

include ho hkeeps

/-- The last answer is resolved, and then its value is found again. -/
theorem valued_combine_last (hlast : lastSteps "last" answer =
      [.bind "last" (.op o), returnBound "last"]) :
    (registry.evaluate (fuel + 1) .empty (combine "last" [answer])).valued.course surroundings =
      (registry.resolveAnswer fuel answer >>= fun v =>
        (registry.goOn fuel .empty (some "last") v [returnBound "last"]).valued).course
          surroundings := by
  have hoperation : (Step.bind "last" (.op o)).operation .empty none = pure (some "last", o) := rfl
  have hfront := evaluate_answer ho fuel hkeeps hoperation [returnBound "last"]
  rw [combine, hlast, valued, course_bind_congr hfront, bind_assoc]
  rfl

/-- An earlier answer is resolved, and then come the later ones. -/
theorem valued_combine_earlier (next : Answer σ) (later : List (Answer σ)) :
    (registry.evaluate (fuel + 1) .empty (combine "last" (answer :: next :: later))).valued.course
        surroundings =
      (registry.resolveAnswer fuel answer >>= fun _ =>
        (registry.evaluate fuel .empty (combine "last" (next :: later))).valued).course
          surroundings := by
  have hcombine : combine "last" (answer :: next :: later) =
      .op o :: combine "last" (next :: later) := by simp [combine, ho]
  have hoperation : (Step.op o).operation .empty none = pure (none, o) := rfl
  have hfront := evaluate_answer ho fuel hkeeps hoperation (combine "last" (next :: later))
  rw [hcombine, valued, course_bind_congr hfront, bind_assoc]
  rfl

end

/-- The composite of a fan-out does nothing but resolve the answers in turn, each with less fuel
than there is for the composite. -/
theorem combine_le_inTurn {fuel more : Nat} (hle : fuel ≤ more + 1) (answers : List (Answer σ))
    {surroundings : Surroundings σ} (h : registry.LeaveRest answers surroundings) :
    (registry.evaluate fuel .empty (combine "last" answers)).valued.course surroundings ≤
      (registry.inTurn more answers).course surroundings := by
  induction answers generalizing fuel surroundings with
  | nil =>
    rcases fuel with - | fuel
    · exact unfinished_le _ surroundings
    · exact le_rfl
  | cons answer later ih =>
    rcases fuel with - | fuel
    · exact unfinished_le _ surroundings
    obtain ⟨hkeeps, hlater⟩ := h
    have hmono := registry.resolveAnswer_mono (Nat.le_of_succ_le_succ hle) answer
    rcases registry.answer_cases answer with ⟨v, hstep, hvalue, hlast⟩ | ⟨o, ho, hlast⟩
    -- An answer that is a value takes no step of the composite, any other one its first step.
    · cases later with
      | nil =>
        rw [combine, inTurn, hvalue, hstep]
        rcases hlast with ⟨hlast, rfl⟩ | hlast
        · exact hlast ▸ le_rfl
        · exact hlast ▸ le_rfl
      | cons next later =>
        rw [combine_of_value hstep, inTurn, hvalue, pure_bind]
        exact ih hle (hlater 0 [] v surroundings (by rw [hvalue]; rfl))
    · cases later with
      | nil =>
        rw [valued_combine_last ho fuel hkeeps hlast, inTurn, ho]
        exact bind_le_bind hmono (fun v => registry.valued_goOn_last_le fuel v) surroundings
      | cons next later =>
        rw [valued_combine_earlier ho fuel hkeeps, inTurn]
        refine course_bind_le (hmono surroundings) fun acts v rest hturn => ?_
        exact ih (Nat.le_of_succ_le hle) (hlater fuel acts v rest hturn)

/-- It does resolve all of them. -/
theorem inTurn_le_combine (fuel : Nat) (answers : List (Answer σ))
    {surroundings : Surroundings σ} (h : registry.LeaveRest answers surroundings) :
    (registry.inTurn fuel answers).course surroundings ≤
      (registry.evaluate (fuel + answers.length + 1) .empty
        (combine "last" answers)).valued.course surroundings := by
  induction answers generalizing surroundings with
  | nil => exact le_rfl
  | cons answer later ih =>
    obtain ⟨hkeeps, hlater⟩ := h
    have hmono := registry.resolveAnswer_mono (Nat.le_add_right fuel (later.length + 1)) answer
    rcases registry.answer_cases answer with ⟨v, hstep, hvalue, hlast⟩ | ⟨o, ho, hlast⟩
    · cases later with
      | nil =>
        rw [combine, inTurn, hvalue, hstep]
        rcases hlast with ⟨hlast, rfl⟩ | hlast
        · exact hlast ▸ le_rfl
        · exact hlast ▸ le_rfl
      | cons next later =>
        rw [combine_of_value hstep, inTurn, hvalue, pure_bind]
        refine (ih (hlater 0 [] v surroundings (by rw [hvalue]; rfl))).trans ?_
        exact bind_le_bind (registry.evaluate_mono (by simp) .empty _) (fun _ => le_rfl)
          surroundings
    · cases later with
      | nil =>
        rw [valued_combine_last ho _ hkeeps hlast, inTurn, ho]
        exact bind_le_bind hmono (fun v => (registry.valued_goOn_last fuel v).ge) surroundings
      | cons next later =>
        rw [valued_combine_earlier ho _ hkeeps, inTurn]
        refine course_bind_le (hmono surroundings) fun acts v rest hturn => ?_
        exact ih (hlater fuel acts v rest hturn)

/-! ## Where a fan-out is asked -/

section

variable {env : Environment} {s : Step σ} {rest rest' : List (Step σ)} {world world' : σ}
  {binding : Option String} {r : Request} {acts : List (Act σ)} {algebra name : String}
  {branches : List (Interpreter σ)} {last : Pass σ}

/-- A step that comes to a fan-out opens the composite of the answers, if all branches answer. -/
theorem ComesTo.resolve_of_answerInTurn
    (h : registry.ComesTo env s rest world binding r rest' world' acts)
    (hfind : registry.find? r.algebra = some (.fanOut algebra name branches))
    {answers : List (Answer σ)}
    (hanswers : AnswerInTurn r branches { world := world' } answers last) :
    ∃ n, registry.resolve n env s rest world = some (.ok
        ⟨binding, .enter (combine name answers), last.replacement.getD rest'⟩, last.world) ∧
      registry.resolveActs n env s world = acts ++ [.dispatch r] := by
  obtain ⟨n, hn⟩ := h.resolve
  obtain ⟨hresolve, hacts⟩ := hn 1
  have hdispatch := dispatch_of_answerInTurn hfind hanswers
  refine ⟨n + 1, ?_, ?_⟩
  · rw [hresolve, follow, hdispatch]
    rfl
  · rw [hacts, Registry.acts, hfind, hdispatch]

/-- It cannot be resolved if a branch fails. -/
theorem ComesTo.resolve_of_failInTurn
    (h : registry.ComesTo env s rest world binding r rest' world' acts)
    (hfind : registry.find? r.algebra = some (.fanOut algebra name branches))
    {f : Fault} (hfail : FailInTurn r branches { world := world' } f last) :
    ∃ n, registry.resolve n env s rest world = some (.error f, last.world) ∧
      registry.resolveActs n env s world = acts ++ [.dispatch r, .raise f] := by
  have hdispatch := dispatch_of_failInTurn hfind hfail
  obtain ⟨n, hn⟩ := h.resolve_of_dispatch_error hdispatch
  obtain ⟨hresolve, hacts⟩ := hn n le_rfl
  refine ⟨n, hresolve, ?_⟩
  rw [hacts, Registry.acts, hfind, hdispatch]

end

end Registry

/-! ## Runs -/

namespace Executor

variable {x : Executor σ}

/-- Resolves the answers of a fan-out in turn, and goes on with the value in the composite that the
fan-out was asked in. -/
def finishFanOut (x : Executor σ) (answers : List (Answer σ)) (stack : Stack σ)
    (rest : List (Step σ)) (binding : Option String) (depth fuel calls : Nat) :
    Evaluation σ Outcome := do
  let v ← x.registry.inTurn depth answers
  x.machine.run fuel calls (.running (stack.proceed rest binding v))

/-- Without a limit the answers that the composite of a fan-out consists of are resolved in turn,
and then the run goes on around it. -/
theorem fanOut_sameRun (hlimit : x.settings.maxDepth = none) {stack : Stack σ}
    (hsound : stack.Sound) {s : Step σ} {rest rest' : List (Step σ)}
    (hsteps : stack.top.steps = s :: rest) {n : Nat} {binding : Option String}
    {surroundings : Surroundings σ} {world : σ} {answers : List (Answer σ)}
    (h : x.registry.resolve n stack.top.env s rest surroundings.world =
      some (.ok ⟨binding, .enter (combine "last" answers), rest'⟩, world))
    (hleave : x.registry.LeaveRest answers { surroundings with world }) :
    Course.SameRun
      (fun (fuel, calls) => (x.machine.run fuel calls (.running stack)).course surroundings)
      fun (depth, fuel, calls) =>
        ((x.finishFanOut answers stack rest' binding depth fuel calls).course
          { surroundings with world }).after
            (x.registry.resolveActs n stack.top.env s surroundings.world) := by
  have hx : x.limited none = x := by
    unfold limited
    rw [← hlimit]
  have hopened := x.opened_sameRun hsound hsteps h
  rw [hx] at hopened
  refine hopened.trans ⟨fun (depth, fuel, calls) => ⟨(depth, fuel, calls), ?_⟩,
    fun (depth, fuel, calls) => ⟨(depth + answers.length + 1, fuel, calls), ?_⟩⟩
  · refine Course.after_le_after _ (course_bind_le ?_ fun _ _ _ _ => le_rfl)
    exact Registry.combine_le_inTurn (Nat.le_succ depth) answers hleave
  · refine Course.after_le_after _ (course_bind_le ?_ fun _ _ _ _ => le_rfl)
    exact Registry.inTurn_le_combine depth answers hleave

/-- A fan-out runs every branch, and comes to the value of the last one. Wherever in a run a step
comes to a fan-out, its branches are interpreted first, once each and in order. If one fails, the
execution fails with its fault in this step, in which nothing was done but to ask. Otherwise the run
goes on as if each answer were resolved on its own, completely and one after the other, and the
value of the last one were bound in the composite of the step. That composite goes on with the steps
that it had left, or with those that a handler of a branch asked for last, whatever was returned in
an answer: the run does the same in the same order in both cases, also if it does not end, and it
ends in the same way. -/
theorem Reachable.fan_out (hlimit : x.settings.maxDepth = none) {program : Program σ}
    {stack : Stack σ} (h : x.Reachable program (.running stack)) {s : Step σ}
    {rest rest' : List (Step σ)} (hsteps : stack.top.steps = s :: rest)
    (surroundings : Surroundings σ) {binding : Option String} {r : Request} {world : σ}
    {acts : List (Act σ)}
    (hcomes : x.registry.ComesTo stack.top.env s rest surroundings.world binding r rest' world acts)
    {algebra : String} {branches : List (Interpreter σ)} {i : Interpreter σ}
    (hbuilt : fanOut? algebra branches = .ok i) (hfind : x.registry.find? r.algebra = some i) :
    ((∃ answers last, AnswerInTurn r branches { world } answers last) ∨
      ∃ f last, FailInTurn r branches { world } f last) ∧
    (∀ f last, FailInTurn r branches { world } f last → ∃ n, ∀ fuel ≥ n,
      x.step fuel (.running stack) surroundings.world = some (.fail f last.world) ∧
        x.registry.stepActs fuel stack surroundings.world = acts ++ [.dispatch r, .raise f]) ∧
    ∀ answers last, AnswerInTurn r branches { world } answers last →
      x.registry.LeaveRest answers { surroundings with world := last.world } →
        Course.SameRun
          (fun (fuel, calls) => (x.machine.run fuel calls (.running stack)).course surroundings)
          fun (depth, fuel, calls) =>
            ((x.finishFanOut answers stack (last.replacement.getD rest') binding depth fuel
              calls).course { surroundings with world := last.world }).after
                (acts ++ [Act.dispatch r]) := by
  obtain rfl := fanOut_of_fanOut? hbuilt
  refine ⟨answerInTurn_or_failInTurn r branches _, fun f last hfail => ?_,
    fun answers last hanswers hleave => ?_⟩
  · obtain ⟨n, hresolve, hacts⟩ := hcomes.resolve_of_failInTurn hfind hfail
    refine ⟨n, fun fuel hfuel => ?_⟩
    obtain ⟨hmore, hmoreActs⟩ := Registry.resolve_mono hfuel hresolve
    refine ⟨x.step_of_resolve_error hsteps hmore, ?_⟩
    rw [Registry.stepActs, hsteps]
    exact hmoreActs.trans hacts
  · obtain ⟨n, hresolve, hacts⟩ := hcomes.resolve_of_answerInTurn hfind hanswers
    rw [← hacts]
    exact fanOut_sameRun hlimit (h.sound.stack rfl) hsteps hresolve hleave

end Executor

/-! ## An example of a fan-out -/

/-- A branch that answers with an operation which returns a value. -/
def Interpreter.returnsEarly : Interpreter Unit :=
  .table "mail" [("send", fun _ => pure (.operation (.returning (.bool false))))]

/-- An io that goes on for a while. -/
def Io.late : Io Unit := ⟨fun c w => (c, w), .late⟩

/-- A branch that asks for an io, and for a step that is to come after the request. -/
def Interpreter.replacesRest : Interpreter Unit :=
  .table "mail" [("send", fun _ => do
    Handling.replaceRemainder [.bind "then" (.composite [])]
    return .operation (.io .late))]

/-- A branch that hands the request on to another algebra. -/
def Interpreter.handsOn : Interpreter Unit :=
  .table "mail" [("send", fun _ => pure (.operation (.request ⟨"log", "write", []⟩)))]

/-- Sends mail by all three, of which the last one leaves it to a log. -/
def Executor.mailing : Executor Unit where
  registry := ⟨[
    .fanOut "mail" "last" [.returnsEarly, .fanOut "mail" "last" [.replacesRest], .handsOn],
    .table "log" [("write", fun _ => pure (.value (.bool true)))]]⟩

/-- Sends mail and then returns, unless there is something else to do. -/
def Program.sendMail : Program Unit :=
  [.bind "sent" (.request ⟨"mail", "send", []⟩), .returning (.bool false)]

/-- What is seen of it: nothing of the branch that returns, an io, and the request to the log. -/
def Course.ofSendMail : Course Unit Outcome where
  acts := [.dispatch ⟨"mail", "send", []⟩, .ask .late, .compute ⟨[("last", .null)]⟩,
    .dispatch ⟨"log", "write", []⟩, .compute ⟨[("last", .bool true)]⟩]
  ending := .ok (.environment ⟨[("sent", .bool true), ("then", .null)]⟩)
  surroundings := ⟨(), []⟩

/-- No branch is cut short by the first one, the value is that of the log, and the step that one of
the branches asked for takes the place of the one that returns. -/
theorem Executor.Reachable.fan_out_mail :
    ∃ fuel calls, (mailing.machine.run fuel calls (.start Program.sendMail)).course
      ⟨(), [(.ok .null, ())]⟩ = .ofSendMail := by
  have hstart : mailing.Reachable Program.sendMail (.running ⟨{ steps := Program.sendMail }, []⟩) :=
    .start
  have hcomes : mailing.registry.ComesTo .empty (.bind "sent" (.request ⟨"mail", "send", []⟩))
      [.returning (.bool false)] () (some "sent") _ _ _ _ := .unwrapped rfl
  have hbuilt : fanOut? "mail" [.returnsEarly, .fanOut "mail" "last" [.replacesRest], .handsOn] =
      .ok _ := rfl
  have hanswers : AnswerInTurn ⟨"mail", "send", []⟩
      [.returnsEarly, .fanOut "mail" "last" [.replacesRest], .handsOn] { world := () }
      [.operation (.returning (.bool false)), .sequence (combine "last" [.operation (.io .late)]),
        .operation (.request ⟨"log", "write", []⟩)]
      { replacement := some [.bind "then" (.composite [])], world := () } :=
    .cons rfl (.cons rfl (.cons rfl (.nil _)))
  have hlog : mailing.registry.dispatch ⟨"log", "write", []⟩ () =
      (.ok (.value (.bool true), none), ()) := rfl
  have hkeeps : ∀ world, mailing.registry.KeepsRest ⟨"log", "write", []⟩ world := by
    intro world asked hasked answer replacement world' hdispatch
    rcases hasked.cases_head with rfl | ⟨next, ⟨replacement', hhandsOn⟩, -⟩
    · obtain ⟨-, hnone⟩ : answer = .value (.bool true) ∧ replacement = none := by
        simpa using hdispatch.symm.trans hlog
      exact hnone
    · simp [hlog] at hhandsOn
  have hleave : mailing.registry.LeaveRest
      [.operation (.returning (.bool false)), .sequence (combine "last" [.operation (.io .late)]),
        .operation (.request ⟨"log", "write", []⟩)] ⟨(), [(.ok .null, ())]⟩ := by
    refine Registry.leaveRest_of_keepsRest _ fun r hr => ?_
    obtain rfl : r = ⟨"log", "write", []⟩ := by simpa using hr
    exact hkeeps
  have hsame := (hstart.fan_out rfl rfl ⟨(), [(.ok .null, ())]⟩ hcomes hbuilt rfl).2.2 _ _ hanswers
    hleave
  have hended : Course.ofSendMail.ending ≠ .error .unfinished := by simp [Course.ofSendMail]
  obtain ⟨⟨fuel, calls⟩, h⟩ := (hsame.ended_iff hended).2 ⟨(3, 3, 5), rfl⟩
  exact ⟨fuel, calls, h⟩

end EffectPrograms
