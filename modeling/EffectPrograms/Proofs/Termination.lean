import EffectPrograms.Proofs.LifeCycle
import EffectPrograms.Proofs.Runs

/-!
# Ranked interpreters

If every request has a rank, and whatever an interpreter makes of a request asks only for requests
of lower rank (`Registry.Descends`), then nothing goes on for ever: every step returns, and only
finitely many calls bring a program to its end.

No number goes down with every move. A step may put many in its place, and the frames below come
back with steps that are still to do. `Executor.Finite` says instead that only finitely many moves
can follow, whichever they are, and goes by the structure of what is left. A composite is finite if,
wherever it is opened, only finitely many moves can follow provided that this holds once it is left
(`Executor.FiniteComposite`). That is so if each of its steps comes to something finite and leaves
something finite to do (`finiteComposite_cons`). For the composites that stand in a step this goes
by recursion on the step, for what is made of a request by induction on the rank.
-/

namespace EffectPrograms

variable {σ : Type}

/-! ## Requests that occur in programs -/

mutual

/-- All requests that occur in the operation have a property: those of its composites as well, and
those that deferred steps come to in any environment and any world. -/
def Operation.AsksOnly (p : Request → Prop) : Operation σ → Prop
  | .request r => p r
  | .io _ | .returning _ => True
  | .composite steps => Program.AsksOnly p steps

/-- The same for the requests that occur in a step. -/
def Step.AsksOnly (p : Request → Prop) : Step σ → Prop
  | .op o => o.AsksOnly p
  | .bind _ inner => inner.AsksOnly p
  | .deferred f => ∀ env world, (f env world).AsksOnly p

/-- The same for the requests that occur in the step that a deferred step comes to. -/
def Deferral.AsksOnly (p : Request → Prop) : Deferral σ → Prop
  | .fault _ _ => True
  | .yields s _ => s.AsksOnly p

/-- The same for the requests that occur in a composite. -/
def Program.AsksOnly (p : Request → Prop) : List (Step σ) → Prop
  | [] => True
  | s :: rest => s.AsksOnly p ∧ Program.AsksOnly p rest

end

/-- The same for the requests that occur in what an interpreter makes of a request. -/
def Answer.AsksOnly (p : Request → Prop) : Answer σ → Prop
  | .unit | .value _ => True
  | .operation o => o.AsksOnly p
  | .sequence steps => Program.AsksOnly p steps

/-- Whatever is made of a request asks only for requests of lower rank, in the answer and in the
steps that are to replace the rest of the composite. -/
def Registry.Descends (registry : Registry σ) (rank : Request → Nat) : Prop :=
  ∀ {r world answer replacement world'},
    registry.dispatch r world = (.ok (answer, replacement), world') →
      answer.AsksOnly (fun next => rank next < rank r) ∧
        ∀ steps ∈ replacement, Program.AsksOnly (fun next => rank next < rank r) steps

/-! ## Steps return -/

/-- A request is followed to its end by as many answers as its rank allows. -/
theorem Registry.Descends.follow_isSome {registry : Registry σ} {rank : Request → Nat}
    (h : registry.Descends rank) {fuel : Nat} {r : Request} (hrank : rank r < fuel)
    (rest : List (Step σ)) (world : σ) : (registry.follow fuel r rest world).isSome := by
  induction fuel generalizing r rest world with
  | zero => exact absurd hrank (Nat.not_lt_zero _)
  | succ fuel ih =>
    rcases hdispatch : registry.dispatch r world with ⟨f | ⟨answer, replacement⟩, world'⟩
    · rw [(follow_of_dispatch_error hdispatch fuel rest).1]
      rfl
    · rcases answer.verdict?_cases with ⟨verdict, hverdict⟩ | ⟨next, rfl⟩
      · rw [(follow_of_verdict hdispatch hverdict fuel rest).1]
        rfl
      · have hlower : rank next < rank r := (h hdispatch).1
        rw [(follow_of_request hdispatch fuel rest).1]
        exact ih (by omega) _ world'

/-- Every step of an execution returns. -/
theorem Registry.Descends.step_returns {x : Executor σ} {rank : Request → Nat}
    (h : x.registry.Descends rank) (e : Execution σ) (world : σ) :
    ∃ fuel t, x.step fuel e world = some t := by
  cases e with
  | running stack =>
    cases hsteps : stack.top.steps with
    | nil => exact ⟨0, _, by simp only [Executor.step, hsteps]; rfl⟩
    | cons s rest =>
      -- Only a request takes fuel, and its rank is enough.
      have hresolve : ∃ fuel found,
          x.registry.resolve fuel stack.top.env s rest world = some found := by
        rcases x.registry.resolve_cases stack.top.env s rest world with
          ⟨result, world', hend⟩ | ⟨binding, r, world', hfollow⟩
        · exact ⟨0, _, (hend 0).1⟩
        · obtain ⟨found, hfound⟩ := Option.isSome_iff_exists.1
            (h.follow_isSome (Nat.lt_succ_self (rank r)) rest world')
          exact ⟨rank r + 1, _, by rw [(hfollow _).1, hfound]; rfl⟩
      obtain ⟨fuel, ⟨f | resolution, world'⟩, hfound⟩ := hresolve
      · exact ⟨fuel, _, x.step_of_resolve_error hsteps hfound⟩
      · exact ⟨fuel, _, x.step_of_resolve hsteps hfound⟩
  | awaitingIo _ _ | done | failed => exact ⟨0, _, rfl⟩

/-! ## Only finitely many moves -/

namespace Executor

variable (x : Executor σ)

/-- Only finitely many moves can follow. -/
def Finite (e : Execution σ) : Prop := Acc (fun next e => x.Moves e next) e

/-- Only finitely many moves can follow once the composite on top is left, whatever it delivers. -/
def FiniteBelow (below : List (Frame σ)) : Prop :=
  ∀ parent rest, below = parent :: rest → ∀ env, x.Finite (.running ⟨{ parent with env }, rest⟩)

/-- Wherever a composite with these steps is open, only finitely many moves can follow if that holds
once it is left. -/
def FiniteComposite (steps : List (Step σ)) : Prop :=
  ∀ top below, top.steps = steps → x.FiniteBelow below → x.Finite (.running ⟨top, below⟩)

/-- What a step comes to is finite: the composite that it opens, and the steps that are left. -/
def FiniteResult (verdict : Verdict σ) (rest : List (Step σ)) : Prop :=
  x.FiniteComposite rest ∧ ∀ steps, verdict = .enter steps → x.FiniteComposite steps

/-- In a finite composite a request comes to something finite. -/
def FiniteRequest (r : Request) : Prop :=
  ∀ fuel rest world verdict rest' world', x.FiniteComposite rest →
    x.registry.follow fuel r rest world = some (.ok (verdict, rest'), world') →
      x.FiniteResult verdict rest'

/-- In a finite composite an operation comes to something finite. -/
def FiniteOperation : Operation σ → Prop
  | .request r => x.FiniteRequest r
  | .composite steps => x.FiniteComposite steps
  | .io _ | .returning _ => True

variable {x}

/-- Nothing follows where nothing is open. -/
theorem finite_of_ended {e : Execution σ} (h : e.depth = 0) : x.Finite e :=
  ⟨_, fun _ hmove => absurd h hmove.depth_ne_zero⟩

/-- Only finitely many moves follow a step if that holds wherever it leads. -/
theorem finite_running {stack : Stack σ}
    (h : ∀ fuel world t, x.step fuel (.running stack) world = some t → x.Finite t.execution) :
    x.Finite (.running stack) := by
  refine ⟨_, fun next hmove => ?_⟩
  cases hmove with
  | step hstep => exact h _ _ _ hstep

/-- Only finitely many moves follow an io if that holds whatever is bound. -/
theorem finite_awaitingIo {binding : Option String} {top : Frame σ} {below : List (Frame σ)}
    (h : ∀ env, x.Finite (.running ⟨{ top with env }, below⟩)) :
    x.Finite (.awaitingIo binding ⟨top, below⟩) := by
  refine ⟨_, fun next hmove => ?_⟩
  cases hmove with
  | resume hresume =>
    obtain ⟨env, rfl⟩ := exists_env_of_resume hresume
    exact h env
  | breach _ _ => exact finite_of_ended rfl

/-- Only finitely many moves follow after a composite is left, if that holds for what is below. -/
theorem FiniteBelow.leave {top : Frame σ} {below : List (Frame σ)} (h : x.FiniteBelow below)
    {escaped : Option Value} {event : Event σ} {next : Execution σ}
    (hleave : Stack.leave ⟨top, below⟩ escaped = .ok (event, next)) : x.Finite next := by
  rcases Stack.leave_cases hleave with ⟨-, rfl, -⟩ | ⟨parent, rest, bound, hbelow, hbind, -, rfl⟩
  · exact finite_of_ended rfl
  · obtain ⟨env, -, rfl⟩ := Stack.bind_cases hbind
    exact h parent rest hbelow env

/-- Only finitely many moves follow after what a step came to is carried out, if that was finite. -/
theorem FiniteResult.commit {stack : Stack σ} {resolution : Resolution σ}
    (h : x.FiniteResult resolution.verdict resolution.rest) (hbelow : x.FiniteBelow stack.below)
    {limit : Option Nat} {event : Event σ} {next : Execution σ}
    (hcommit : stack.commit limit resolution = .ok (event, next)) : x.Finite next := by
  obtain ⟨hrest, hentered⟩ := h
  rcases Stack.commit_cases hcommit with ⟨v, bound, -, hbind, -, rfl⟩ | ⟨v, -, hleave⟩ |
    ⟨io, -, -, rfl⟩ | ⟨steps, entered, hverdict, henter, -, rfl⟩
  · obtain ⟨env, -, rfl⟩ := Stack.bind_cases hbind
    exact hrest _ _ rfl hbelow
  · exact hbelow.leave hleave
  · exact finite_awaitingIo fun env => hrest _ _ rfl hbelow
  · have hsteps := hentered steps hverdict
    rw [Stack.enter_eq] at henter
    split at henter
    -- A composite that takes the place of another one has the same below it.
    · rw [← Except.ok.inj henter]
      exact hsteps _ _ rfl hbelow
    · have hpushed : entered = ⟨{ steps := steps, binding := resolution.binding },
          { stack.top with steps := resolution.rest } :: stack.below⟩ := by
        unfold Stack.push at henter
        split at henter
        · split at henter
          · simp at henter
          · exact (Except.ok.inj henter).symm
        · exact (Except.ok.inj henter).symm
      rw [hpushed]
      refine hsteps _ _ rfl ?_
      rintro parent rest ⟨⟩ env
      exact hrest _ _ rfl hbelow

/-- A composite without steps is finite. -/
theorem finiteComposite_nil : x.FiniteComposite [] := by
  intro top below hsteps hbelow
  refine finite_running fun fuel world t hstep => ?_
  simp only [step, hsteps, Option.some.injEq] at hstep
  rw [← hstep]
  cases hleave : Stack.leave ⟨top, below⟩ none with
  | error f => exact finite_of_ended rfl
  | ok left => exact hbelow.leave hleave

/-- A composite is finite if its front step always comes to something finite. -/
theorem finiteComposite_cons {s : Step σ} {rest : List (Step σ)}
    (h : ∀ fuel env world resolution world',
      x.registry.resolve fuel env s rest world = some (.ok resolution, world') →
        x.FiniteResult resolution.verdict resolution.rest) :
    x.FiniteComposite (s :: rest) := by
  intro top below hsteps hbelow
  refine finite_running fun fuel world t hstep => ?_
  rw [step_eq_stepBy] at hstep
  rcases stepBy_cases hstep with ⟨hnil, -⟩ |
    ⟨s', rest', hcons, ⟨f, world', -, rfl⟩ | ⟨resolution, world', hresolve, rfl⟩⟩
  · simp [hsteps] at hnil
  · exact finite_of_ended rfl
  · obtain ⟨rfl, rfl⟩ : s = s' ∧ rest = rest' := by simpa [hsteps] using hcons
    cases hcommit : Stack.commit x.settings.maxDepth ⟨top, below⟩ resolution with
    | error f => exact finite_of_ended rfl
    | ok committed => exact (h _ _ _ _ _ hresolve).commit hbelow hcommit

/-- In a finite composite a step whose operation is finite comes to something finite. -/
theorem finiteResult_of_resolve {fuel : Nat} {env : Environment} {s : Step σ}
    {rest : List (Step σ)} {world world' : σ} {resolution : Resolution σ}
    (hoperation : ∀ binding o world', s.unwrap env none world = (.ok (binding, o), world') →
      x.FiniteOperation o)
    (hrest : x.FiniteComposite rest)
    (h : x.registry.resolve fuel env s rest world = some (.ok resolution, world')) :
    x.FiniteResult resolution.verdict resolution.rest := by
  obtain ⟨o, between, hunwrap, hfound⟩ := Registry.resolve_eq_ok h
  have ho := hoperation _ o between hunwrap
  rcases o.verdict?_cases with ⟨verdict, hverdict⟩ | ⟨r, rfl⟩
  · rw [Registry.resolveOperation_of_verdict hverdict] at hfound
    obtain ⟨hsame, -⟩ := Prod.mk.inj (Option.some.inj hfound)
    obtain ⟨rfl, hleft⟩ := Prod.mk.inj (Except.ok.inj hsame)
    refine ⟨hleft ▸ hrest, ?_⟩
    intro steps hsteps
    obtain rfl := Operation.verdict?_eq_enter (hsteps ▸ hverdict)
    exact ho
  · exact ho _ _ _ _ _ _ hrest hfound

end Executor

/-! ## Ranks -/

mutual

/-- An operation is finite if the requests are that it asks for. -/
theorem Operation.finite_of_asksOnly {x : Executor σ} {p : Request → Prop}
    (hp : ∀ r, p r → x.FiniteRequest r) (o : Operation σ) (h : o.AsksOnly p) :
    x.FiniteOperation o := by
  cases o with
  | request r => exact hp r h
  | io io => trivial
  | composite steps => exact Program.finite_of_asksOnly hp steps h
  | returning v => trivial

/-- So is the operation that a step is unwrapped to. -/
theorem Step.finite_of_asksOnly {x : Executor σ} {p : Request → Prop}
    (hp : ∀ r, p r → x.FiniteRequest r) (s : Step σ) (h : s.AsksOnly p) {env : Environment}
    {binding found : Option String} {world world' : σ} {o : Operation σ}
    (hunwrap : s.unwrap env binding world = (.ok (found, o), world')) : x.FiniteOperation o := by
  cases s with
  | op o' =>
    simp only [Step.unwrap, Prod.mk.injEq, Except.ok.injEq] at hunwrap
    obtain ⟨⟨-, rfl⟩, -⟩ := hunwrap
    exact o'.finite_of_asksOnly hp h
  | bind name inner =>
    simp only [Step.unwrap] at hunwrap
    cases haccept : env.accept binding name with
    | error f => simp [haccept] at hunwrap
    | ok u =>
      rw [haccept] at hunwrap
      exact inner.finite_of_asksOnly hp h hunwrap
  | deferred f =>
    simp only [Step.unwrap] at hunwrap
    exact (f env world).finite_of_asksOnly hp (h env world) hunwrap

/-- So is the operation that is found in the step which a deferred step comes to. -/
theorem Deferral.finite_of_asksOnly {x : Executor σ} {p : Request → Prop}
    (hp : ∀ r, p r → x.FiniteRequest r) (d : Deferral σ) (h : d.AsksOnly p) {env : Environment}
    {binding found : Option String} {world' : σ} {o : Operation σ}
    (hunwrap : d.unwrap env binding = (.ok (found, o), world')) : x.FiniteOperation o := by
  cases d with
  | fault f world => simp [Deferral.unwrap] at hunwrap
  | yields s world =>
    simp only [Deferral.unwrap] at hunwrap
    exact s.finite_of_asksOnly hp h hunwrap

/-- So is a composite. -/
theorem Program.finite_of_asksOnly {x : Executor σ} {p : Request → Prop}
    (hp : ∀ r, p r → x.FiniteRequest r) (steps : List (Step σ)) (h : Program.AsksOnly p steps) :
    x.FiniteComposite steps := by
  cases steps with
  | nil => exact Executor.finiteComposite_nil
  | cons s rest =>
    have hrest := Program.finite_of_asksOnly hp rest h.2
    refine Executor.finiteComposite_cons fun fuel env world resolution world' hresolve => ?_
    refine Executor.finiteResult_of_resolve (fun binding o world' hunwrap => ?_) hrest hresolve
    exact s.finite_of_asksOnly hp h.1 hunwrap

end

mutual

/-- What holds of all requests holds of those that an operation asks for. -/
theorem Operation.asksOnly_of_forall {p : Request → Prop} (hp : ∀ r, p r) (o : Operation σ) :
    o.AsksOnly p := by
  cases o with
  | request r => exact hp r
  | io io => trivial
  | composite steps => exact Program.asksOnly_of_forall hp steps
  | returning v => trivial

/-- The same for a step. -/
theorem Step.asksOnly_of_forall {p : Request → Prop} (hp : ∀ r, p r) (s : Step σ) :
    s.AsksOnly p := by
  cases s with
  | op o => exact o.asksOnly_of_forall hp
  | bind name inner => exact inner.asksOnly_of_forall hp
  | deferred f => exact fun env world => (f env world).asksOnly_of_forall hp

/-- The same for what a deferred step comes to. -/
theorem Deferral.asksOnly_of_forall {p : Request → Prop} (hp : ∀ r, p r) (d : Deferral σ) :
    d.AsksOnly p := by
  cases d with
  | fault f world => trivial
  | yields s world => exact s.asksOnly_of_forall hp

/-- The same for a composite. -/
theorem Program.asksOnly_of_forall {p : Request → Prop} (hp : ∀ r, p r) (steps : List (Step σ)) :
    Program.AsksOnly p steps := by
  cases steps with
  | nil => trivial
  | cons s rest => exact ⟨s.asksOnly_of_forall hp, Program.asksOnly_of_forall hp rest⟩

end

namespace Registry.Descends

variable {x : Executor σ} {rank : Request → Nat}

/-- If ranks go down, every request is finite: what is made of it only asks for requests that are.
-/
theorem finiteRequest (h : x.registry.Descends rank) (r : Request) : x.FiniteRequest r := by
  induction hrank : rank r using Nat.strongRecOn generalizing r with
  | ind n ih =>
    subst hrank
    have hlower : ∀ next, rank next < rank r → x.FiniteRequest next :=
      fun next hnext => ih (rank next) hnext next rfl
    intro fuel rest world verdict rest' world' hrest hfollow
    cases fuel with
    | zero => simp [follow] at hfollow
    | succ fuel =>
      -- The rest of the composite stays, or it is replaced by steps of lower rank.
      have hleft : ∀ {answer replacement world₁},
          x.registry.dispatch r world = (.ok (answer, replacement), world₁) →
            x.FiniteComposite (replacement.getD rest) := by
        intro answer replacement world₁ hdispatch
        cases replacement with
        | none => exact hrest
        | some steps =>
          exact Program.finite_of_asksOnly hlower steps ((h hdispatch).2 steps rfl)
      rcases follow_succ_cases hfollow with
        ⟨f, -, hresult⟩ | ⟨answer, replacement, _, hdispatch, hverdict, hresult⟩ |
        ⟨next, replacement, _, hdispatch, hnext⟩
      · simp at hresult
      · obtain ⟨rfl, rfl⟩ := Prod.mk.inj (Except.ok.inj hresult)
        refine ⟨hleft hdispatch, ?_⟩
        rintro steps rfl
        have hanswer := (h hdispatch).1
        rcases Answer.verdict?_eq_enter hverdict with rfl | rfl
        · exact Program.finite_of_asksOnly hlower steps hanswer
        · exact Program.finite_of_asksOnly hlower steps hanswer
      · exact hlower next (h hdispatch).1 _ _ _ _ _ _ (hleft hdispatch) hnext

/-- If ranks go down, only finitely many moves follow the start of a program. -/
theorem finite_start (h : x.registry.Descends rank) (program : Program σ) :
    x.Finite (.start program) := by
  have hprogram : Program.AsksOnly (fun _ => True) program :=
    Program.asksOnly_of_forall (fun _ => trivial) program
  refine Program.finite_of_asksOnly (fun r _ => h.finiteRequest r) program hprogram _ _ rfl ?_
  rintro parent rest ⟨⟩

end Registry.Descends

/-! ## Whole programs -/

namespace Executor

variable {x : Executor σ} {e : Execution σ}

/-- Calls in turn bring the execution to its end: steps, the one that is the `i`-th call in the
`i`-th world, and deliveries, each of the `i`-th value. The last one is a step that finishes the
program or meets a fault. -/
def EndsUnder (x : Executor σ) (e : Execution σ) (worlds : Nat → σ) (values : Nat → Value) : Prop :=
  ∃ history next, x.Drives e history next ∧
    (∀ i c, history[i]? = some c → c.InTurn ∧
      (c.call = .step ∧ c.world = worlds i ∨ c.call = .resume (values i))) ∧
    ∃ last, history.getLast? = some last ∧
      ((∃ outcome, last.result = .stepped (.ok (.finished outcome))) ∨
        ∃ f, last.result = .stepped (.error f))

/-- A call in turn is followed by those that bring the execution to its end from there. -/
theorem EndsUnder.cons {c : Exchange σ} {worlds : Nat → σ} {values : Nat → Value}
    (h : x.EndsUnder c.after (fun i => worlds (i + 1)) fun i => values (i + 1))
    (hreturn : x.Returns c) (hturn : c.InTurn)
    (hcall : c.call = .step ∧ c.world = worlds 0 ∨ c.call = .resume (values 0)) :
    x.EndsUnder c.before worlds values := by
  obtain ⟨history, next, hdrives, hinputs, last, hlast, hend⟩ := h
  refine ⟨c :: history, next, .cons hreturn hdrives, ?_, last, ?_, hend⟩
  · rintro (- | i) c' hc'
    · obtain rfl : c = c' := by simpa using hc'
      exact ⟨hturn, hcall⟩
    · exact hinputs i c' (by simpa using hc')
  · rw [List.getLast?_cons, hlast]
    rfl

/-- A step that leaves nothing open brings the execution to its end. -/
theorem endsUnder_of_step {stack : Stack σ} {fuel : Nat} {t : Transition σ (Event σ)}
    {worlds : Nat → σ} (hstep : x.step fuel (.running stack) (worlds 0) = some t)
    (hend : t.execution.depth = 0) (values : Nat → Value) :
    x.EndsUnder (.running stack) worlds values := by
  refine ⟨[_], t.execution, .cons (.step hstep) (.nil _), ?_, _, rfl, ?_⟩
  · rintro (- | i) c hc
    · obtain rfl := Option.some.inj hc
      exact ⟨rfl, .inl ⟨rfl, rfl⟩⟩
    · simp at hc
  · rw [Execution.depth_eq_zero_iff, status_of_step hstep] at hend
    rcases t with ⟨f | (- | io | outcome), next, world'⟩
    · exact .inr ⟨f, rfl⟩
    · simp [Transition.status, Event.status] at hend
    · simp [Transition.status, Event.status] at hend
    · exact .inl ⟨outcome, rfl⟩

/-- An execution from which only finitely many moves can follow is brought to its end, whatever the
worlds are that it is stepped in and the values that it is resumed with. -/
theorem Finite.endsUnder (hfinite : x.Finite e)
    (hreturns : ∀ e world, ∃ fuel t, x.step fuel e world = some t) (hsound : e.Sound)
    (hopen : e.depth ≠ 0) (worlds : Nat → σ) (values : Nat → Value) :
    x.EndsUnder e worlds values := by
  induction hfinite generalizing worlds values with
  | intro e _ ih =>
    cases e with
    | running stack =>
      obtain ⟨fuel, t, hstep⟩ := hreturns (.running stack) (worlds 0)
      by_cases hnext : t.execution.depth = 0
      · exact endsUnder_of_step hstep hnext values
      · have hmove := Moves.step hstep
        have hlater := ih _ hmove (hmove.sound hsound) hnext (fun i => worlds (i + 1))
          fun i => values (i + 1)
        exact .cons (c := ⟨.step, _, _, _, _, _⟩) hlater (.step hstep) rfl (.inl ⟨rfl, rfl⟩)
    | awaitingIo binding stack =>
      have hresume := hsound.resume_awaitingIo (values 0)
      have htaken := Moves.resume (x := x) hresume
      have hlater := ih _ htaken (htaken.sound hsound) (Nat.succ_ne_zero _)
        (fun i => worlds (i + 1)) fun i => values (i + 1)
      have hreturn := Returns.resume (x := x) (.awaitingIo binding stack) (values 0) (worlds 0)
      rw [hresume] at hreturn
      exact .cons hlater hreturn rfl (.inr rfl)
    | done | failed => exact absurd rfl hopen

/-- In a history without end some call comes out of turn, if only finitely many moves can follow. -/
theorem Finite.exists_out_of_turn (hfinite : x.Finite e) (hsound : e.Sound)
    (calls : Nat → Exchange σ) (hstart : (calls 0).before = e)
    (hcalls : ∀ n, x.Returns (calls n) ∧ (calls (n + 1)).before = (calls n).after) :
    ∃ n, ¬ (calls n).InTurn := by
  by_contra hall
  replace hall : ∀ n, (calls n).InTurn := by simpa using hall
  -- A call in turn is one move or a chain of moves, so that it goes down in their order.
  have hmoves : ∀ c, x.Returns c → c.InTurn → c.before.Sound →
      Relation.TransGen x.Moves c.before c.after := by
    intro c hreturn hturn hbefore
    have hlawful := hreturn.lawful hbefore
    cases hcall : c.call with
    | step => exact .single (hlawful.stepped hcall hturn).1
    | resume v => exact .single (hlawful.resumed v hcall hturn).1
    | run => exact (hlawful.ran hcall hturn).1
  have hchains := Acc.transGen hfinite
  clear hfinite
  induction hchains generalizing calls with
  | intro e _ ih =>
    subst hstart
    have hmove := hmoves _ (hcalls 0).1 (hall 0) hsound
    exact ih (calls 0).after (Relation.transGen_swap.1 hmove) ((hcalls 0).1.sound hsound)
      (fun n => calls (n + 1)) (hcalls 0).2 (fun n => hcalls (n + 1)) (fun n => hall (n + 1))

/-- A run from an execution that is running ends, if only finitely many moves can follow. -/
theorem Finite.exists_ends (hfinite : x.Finite e)
    (hreturns : ∀ e world, ∃ fuel t, x.step fuel e world = some t) (hsound : e.Sound)
    (hrunning : e.status = .running) (world : σ) : ∃ t, x.Ends e world t := by
  -- A run goes on after two moves if it performs an io.
  have hchains := Acc.transGen hfinite
  clear hfinite
  induction hchains generalizing world with
  | intro e _ ih =>
    obtain ⟨stack, rfl⟩ := exists_running_of_status hrunning
    obtain ⟨fuel, t, hstep⟩ := hreturns (.running stack) world
    have hmove := Moves.step hstep
    have hstatus := status_of_step hstep
    have hnext := hmove.sound hsound
    obtain ⟨result, next, world'⟩ := t
    rcases result with f | (- | io | outcome)
    · exact ⟨_, .fault hstep⟩
    · obtain ⟨t, hends⟩ := ih next (.single hmove) hnext hstatus world'
      exact ⟨t, .progress hstep hends⟩
    · obtain ⟨binding, stack', rfl⟩ := exists_awaitingIo_of_status hstatus
      rcases hperform : io.perform world' with ⟨f | v, world''⟩
      · exact ⟨_, .breach hstep hperform⟩
      · have hresume := hnext.resume_awaitingIo v
        have htaken := Moves.resume (x := x) hresume
        obtain ⟨t, hends⟩ :=
          ih _ (.head htaken (.single hmove)) (htaken.sound hnext) rfl world''
        exact ⟨t, .io hstep hperform hresume hends⟩
    · exact ⟨_, .finished hstep⟩

/-- With ranked interpreters everything ends, whatever the program and the settings. Every step
returns. Whatever the worlds and the values that it meets, the program is brought to its end by
finitely many steps and deliveries, the last of which gives its outcome or a fault; nobody can go on
calling it in turn for ever, by hand or by runs. Every run of the program ends as well. -/
theorem terminates (x : Executor σ) {rank : Request → Nat} (h : x.registry.Descends rank)
    (program : Program σ) :
    (∀ e world, ∃ fuel t, x.step fuel e world = some t) ∧
    (∀ worlds values, x.EndsUnder (.start program) worlds values) ∧
    (∀ calls : Nat → Exchange σ, (calls 0).before = .start program →
      (∀ n, x.Returns (calls n) ∧ (calls (n + 1)).before = (calls n).after) →
        ∃ n, ¬ (calls n).InTurn) ∧
    ∀ world, ∃ t, x.Ends (.start program) world t := by
  have hfinite : x.Finite (.start program) := h.finite_start program
  have hsound : (Execution.start program).Sound := Execution.sound_start program
  refine ⟨h.step_returns, fun worlds values => ?_, ?_, fun world => ?_⟩
  · exact hfinite.endsUnder h.step_returns hsound (Nat.succ_ne_zero _) worlds values
  · exact hfinite.exists_out_of_turn hsound
  · exact hfinite.exists_ends h.step_returns hsound rfl world

end Executor

/-- Answers one request with another one, and has that also replace the rest of the composite. -/
def Registry.relay : Registry Unit :=
  ⟨[.table "relay"
    [("far", fun _ => do
        Handling.replaceRemainder [.bind "again" (.request ⟨"relay", "near", []⟩)]
        return .operation (.request ⟨"relay", "near", []⟩)),
      ("near", fun _ => return .unit)]]⟩

/-- The rank of a request to the relay: the one that is answered with another is above it. -/
def Registry.relayRank (r : Request) : Nat := if r.operation = "far" then 1 else 0

/-- What the relay makes of a request asks only for requests of lower rank. -/
theorem Registry.relay_descends : relay.Descends relayRank := by
  rintro ⟨algebra, operation, arguments⟩ world answer replacement world' h
  by_cases halgebra : algebra = "relay"
  · subst halgebra
    by_cases hfar : operation = "far"
    · subst hfar
      obtain ⟨hgiven, -⟩ := Prod.mk.inj h
      obtain ⟨rfl, rfl⟩ := Prod.mk.inj (Except.ok.inj hgiven)
      refine ⟨by simp [Answer.AsksOnly, Operation.AsksOnly, relayRank], ?_⟩
      rintro steps ⟨⟩
      simp [Program.AsksOnly, Step.AsksOnly, Operation.AsksOnly, Step.request, relayRank]
    by_cases hnear : operation = "near"
    · subst hnear
      obtain ⟨hgiven, -⟩ := Prod.mk.inj h
      obtain ⟨rfl, rfl⟩ := Prod.mk.inj (Except.ok.inj hgiven)
      exact ⟨trivial, by simp⟩
    · -- There is no other handler, so that nothing is answered.
      have hfar : (operation == "far") = false := beq_false_of_ne hfar
      have hnear : (operation == "near") = false := beq_false_of_ne hnear
      simp only [dispatch, relay, find?, Interpreter.algebra, List.find?_cons, beq_self_eq_true,
        Interpreter.interpret, List.lookup_cons, hfar, hnear, List.lookup_nil, ne_eq,
        not_true_eq_false, if_false] at h
      cases h
  · have hnone : ("relay" == algebra) = false := by simpa using Ne.symm halgebra
    simp [dispatch, relay, find?, Interpreter.algebra, hnone] at h

/-- Asks the relay, in a composite that has the answer again by a deferred step. -/
def Program.askRelay : Program Unit :=
  [.bind "answer" (.composite [.request ⟨"relay", "far", []⟩, .returning (.bool true)]),
    .deferred fun _ world => .yields (.request ⟨"relay", "near", []⟩) world]

/-- A program with requests of both ranks is brought to its end. -/
theorem Executor.terminates_relay :
    Registry.relay.Descends Registry.relayRank ∧
      ({ registry := .relay } : Executor Unit).EndsUnder (.start .askRelay) (fun _ => ())
        fun _ => .null := by
  refine ⟨Registry.relay_descends, ?_⟩
  exact (Executor.terminates { registry := .relay } Registry.relay_descends .askRelay).2.1 _ _

end EffectPrograms
