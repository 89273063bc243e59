import EffectPrograms.Proofs.Session
import EffectPrograms.Proofs.Soundness

/-!
# The depth limit

A limit changes nothing as long as the unlimited session stays within it. From an execution within
the limit one call is the unlimited call, unless that opens a composite too many: then the call
fails instead (`advance_limited`). Hence a limited session is the unlimited one up to the first call
after which too many composites would be open, and that call reports the limit
(`sessionUnder_some_cases`).

Faults that name a limit can also be raised by deferred steps and interpreters. What tells the
execution's own report apart is that nothing was raised (`Session.Found`): `Session.Accounted` says
that a fault which was not raised is the execution's own, and that nothing is raised while
composites are open.
-/

namespace EffectPrograms

variable {σ : Type}

/-! ## One call under a limit -/

namespace Stack

/-- From within the limit only the number of composites after opening one decides. -/
theorem enter_limited {stack : Stack σ} {limit : Nat} (h : stack.depth ≤ limit)
    (binding : Option String) (steps : List (Step σ)) :
    ∃ next, stack.enter none binding steps = .ok next ∧
      stack.enter (some limit) binding steps =
        if limit < next.depth then .error (.tooDeep limit) else .ok next := by
  rw [enter_eq, enter_eq]
  by_cases hexhausted : stack.below ≠ [] ∧ stack.top.steps = []
  · -- The exhausted composite gives its place away, so that the depth stays.
    rw [if_pos hexhausted, if_pos hexhausted]
    refine ⟨_, rfl, ?_⟩
    have hdepth : ¬ limit < stack.below.length + 1 := Nat.not_lt_of_le h
    exact (if_neg hdepth).symm
  · rw [if_neg hexhausted, if_neg hexhausted]
    refine ⟨_, rfl, ?_⟩
    have hdepth : (⟨{ steps := steps, binding := binding }, stack.frames⟩ : Stack σ).depth =
        stack.depth + 1 := rfl
    rw [hdepth]
    by_cases hfull : limit ≤ stack.depth
    · rw [push_of_le hfull, if_pos (by omega)]
    · have hwithin : ∀ depth ∈ some limit, stack.depth < depth := by
        rintro depth ⟨⟩
        omega
      rw [push_of_lt hwithin, if_neg (by omega)]

/-- Without opening a composite nothing that a step comes to adds one. -/
theorem depth_of_commit {stack : Stack σ} {limit : Option Nat} {x : Resolution σ}
    {event : Event σ} {next : Execution σ} (henter : ∀ steps, x.verdict ≠ .enter steps)
    (h : stack.commit limit x = .ok (event, next)) : next.depth ≤ stack.depth := by
  rcases commit_cases h with ⟨v, bound, -, hbind, -, rfl⟩ | ⟨v, -, hleave⟩ | ⟨io, -, -, rfl⟩ |
    ⟨steps, entered, hverdict, -⟩
  · exact (depth_of_bind hbind).le
  · exact (depth_of_leave hleave).le
  · exact le_rfl
  · exact absurd hverdict (henter steps)

/-- What a step came to is carried out under a limit as without, unless that opens a composite too
many. -/
theorem commit_limited {stack : Stack σ} {limit : Nat} (h : stack.depth ≤ limit)
    (x : Resolution σ) :
    (stack.commit (some limit) x = stack.commit none x ∧
      ∀ event next, stack.commit none x = .ok (event, next) → next.depth ≤ limit) ∨
    ∃ next : Execution σ, stack.commit none x = .ok (.progress, next) ∧ limit < next.depth ∧
      stack.commit (some limit) x = .error (.tooDeep limit) := by
  have hdepth : (∀ steps, x.verdict ≠ .enter steps) →
      ∀ event next, stack.commit none x = .ok (event, next) → next.depth ≤ limit :=
    fun henter event next hnext => (depth_of_commit henter hnext).trans h
  -- Nothing but opening a composite asks for the limit.
  rcases hverdict : x.verdict with v | v | io | steps
  · exact .inl ⟨by simp [commit, hverdict], hdepth (by simp [hverdict])⟩
  · exact .inl ⟨by simp [commit, hverdict], hdepth (by simp [hverdict])⟩
  · exact .inl ⟨by simp [commit, hverdict], hdepth (by simp [hverdict])⟩
  have hwithin : Stack.depth ⟨{ stack.top with steps := x.rest }, stack.below⟩ ≤ limit := h
  obtain ⟨next, hnone, hsome⟩ := enter_limited hwithin x.binding steps
  simp only [commit, hverdict]
  rw [hnone, hsome]
  by_cases hdeep : limit < next.depth
  · rw [if_pos hdeep]
    exact .inr ⟨.running next, rfl, hdeep, rfl⟩
  · rw [if_neg hdeep]
    refine .inl ⟨rfl, fun event e he => ?_⟩
    obtain ⟨-, rfl⟩ := Prod.mk.inj (Except.ok.inj he)
    exact Nat.le_of_not_lt hdeep

end Stack

/-- A step of an execution within the limit is the unlimited step, unless that opens a composite too
many. -/
theorem Executor.step_limited (x : Executor σ) {limit : Nat} (fuel : Nat) {e : Execution σ}
    (h : e.depth ≤ limit) (world : σ) :
    ((x.limited (some limit)).step fuel e world = (x.limited none).step fuel e world ∧
      ∀ t, (x.limited none).step fuel e world = some t → t.execution.depth ≤ limit) ∨
    ∃ next world', (x.limited none).step fuel e world = some ⟨.ok .progress, next, world'⟩ ∧
      limit < next.depth ∧
      (x.limited (some limit)).step fuel e world = some (.fail (.tooDeep limit) world') := by
  cases e with
  | running stack =>
    simp only [step, limited]
    -- The limit is not known before the step is resolved, so that both resolve it alike.
    cases hsteps : stack.top.steps with
    | nil =>
      refine .inl ⟨rfl, fun t ht => ?_⟩
      simp only [Option.some.injEq] at ht
      subst ht
      cases hleave : stack.leave none with
      | error f => simp [Transition.ofResult, Transition.fail, Execution.depth]
      | ok result => exact (Stack.depth_of_leave hleave).le.trans h
    | cons s rest =>
      dsimp only
      cases hresolve : x.registry.resolve fuel stack.top.env s rest world with
      | none => exact .inl ⟨rfl, by simp⟩
      | some found =>
        obtain ⟨result, world'⟩ := found
        cases result with
        | error f =>
          refine .inl ⟨rfl, fun t ht => ?_⟩
          simp only [Option.some.injEq] at ht
          subst ht
          simp [Transition.fail, Execution.depth]
        | ok resolution =>
          dsimp only
          have hdepth : stack.depth ≤ limit := h
          rcases Stack.commit_limited hdepth resolution with
            ⟨hsame, hstays⟩ | ⟨next, hnone, hdeep, hsome⟩
          · rw [hsame]
            refine .inl ⟨rfl, fun t ht => ?_⟩
            simp only [Option.some.injEq] at ht
            subst ht
            cases hcommit : stack.commit none resolution with
            | error f => simp [Transition.ofResult, Transition.fail, Execution.depth]
            | ok result => exact hstays result.1 result.2 hcommit
          · rw [hnone, hsome]
            exact .inr ⟨next, world', rfl, hdeep, rfl⟩
  | awaitingIo _ _ | done | failed =>
    refine .inl ⟨rfl, fun t ht => ?_⟩
    simp only [step, Option.some.injEq] at ht
    subst ht
    exact h

/-- Whatever a limited execution is led to, in turn or not, stays within its limit. -/
theorem Executor.Reachable.depth_le {x : Executor σ} {limit : Nat}
    (hlimit : x.settings.maxDepth = some limit) (hpositive : 1 ≤ limit) {program : Program σ}
    {e : Execution σ} (h : x.Reachable program e) : e.depth ≤ limit := by
  induction h with
  | start => exact hpositive
  | @step e fuel world t _ hstep ih =>
    have hx : x.limited (some limit) = x := by rw [limited, ← hlimit]
    rcases x.step_limited fuel ih world with ⟨hsame, hdepth⟩ | ⟨next, world', -, -, hrefused⟩
    · exact hdepth t (hsame ▸ hx.symm ▸ hstep)
    · rw [hx, hstep] at hrefused
      obtain rfl := Option.some.inj hrefused
      exact Nat.zero_le limit
  | @resume e v _ ih =>
    cases e with
    | awaitingIo binding stack =>
      -- A delivery binds a value, which opens no composite.
      cases hbind : stack.bind binding v with
      | error f => simp [Execution.resume, hbind, Execution.depth]
      | ok next =>
        simp only [Execution.resume, hbind]
        exact (Stack.depth_of_bind hbind).le.trans ih
    | running _ | done | failed => exact ih

/-- The session in which the last call was refused instead of leading to the next session. -/
def Session.refuse (s next : Session σ) (f : Fault) : Session σ :=
  { next with execution := .failed, replies := s.replies ++ [.stepped (.error f)] }

/-- One call on an execution within the limit is the unlimited call, unless that opens a composite
too many. -/
theorem Machine.advance_limited (x : Executor σ) {limit : Nat} (fuel : Nat) {s : Session σ}
    (h : s.execution.depth ≤ limit) :
    ((x.limited (some limit)).machine.advance fuel s = (x.limited none).machine.advance fuel s ∧
      ((x.limited none).machine.advance fuel s).execution.depth ≤ limit) ∨
    (limit < ((x.limited none).machine.advance fuel s).execution.depth ∧
      (x.limited (some limit)).machine.advance fuel s =
        s.refuse ((x.limited none).machine.advance fuel s) (.tooDeep limit)) := by
  by_cases hhung : s.hung = true
  · rw [advance_of_hung hhung, advance_of_hung hhung]
    exact .inl ⟨rfl, h⟩
  replace hhung : s.hung = false := by simpa using hhung
  cases he : s.execution with
  | running stack =>
    rw [advance_of_running hhung he, advance_of_running hhung he]
    rcases x.step_limited fuel h s.surroundings.world with
      ⟨hsame, hdepth⟩ | ⟨next, world', hnone, hdeep, hsome⟩
    · rw [he] at hsame hdepth
      refine .inl ⟨?_, ?_⟩
      · simp only [Executor.machine, hsame]
        rfl
      · cases hstep : (x.limited none).step fuel (.running stack) s.surroundings.world with
        | none =>
          simp only [Executor.machine, hstep, Session.hang]
          exact h
        | some t =>
          simp only [Executor.machine, hstep, Session.stepped]
          exact hdepth t hstep
    · rw [he] at hnone hsome
      simp only [Executor.machine, hnone, hsome]
      exact .inr ⟨hdeep, by
        simp [Session.stepped, Session.refuse, Transition.fail, Event.acts, Executor.limited]⟩
  | awaitingIo binding stack =>
    -- A delivery binds a value, which opens no composite.
    refine .inl ⟨by simp [advance, he], ?_⟩
    cases hnext : s.surroundings.deliveries with
    | nil => rwa [advance_of_starved he hnext]
    | cons first later =>
      obtain ⟨delivery, world⟩ := first
      rw [advance_of_awaiting hhung he hnext]
      rw [he] at h
      cases delivery with
      | error f => simp [Session.resumed, Execution.receive, Execution.depth]
      | ok v =>
        simp only [Session.resumed, Execution.receive, Execution.resume]
        cases hbind : stack.bind binding v with
        | error f => simp [Execution.depth]
        | ok next =>
          show Stack.depth _ ≤ _
          rw [Stack.depth_of_bind hbind]
          exact h
  | done =>
    rw [advance_of_ended (.inl he), advance_of_ended (.inl he)]
    exact .inl ⟨rfl, h⟩
  | failed =>
    rw [advance_of_ended (.inr he), advance_of_ended (.inr he)]
    exact .inl ⟨rfl, h⟩

/-! ## Which faults are the execution's own -/

namespace Session

/-- The last call was a step that met a fault of the execution's own. -/
def Found (s : Session σ) (f : Fault) : Prop :=
  s.replies.getLast? = some (.stepped (.error f)) ∧ ∀ raised, .raise raised ∉ s.acts

/-- Every fault that a step met is accounted for. -/
structure Accounted (limit : Option Nat) (s : Session σ) : Prop where
  sound : s.execution.Sound
  /-- While composites are open nothing has been raised. -/
  quiet : s.hung = false → s.execution.depth ≠ 0 → ∀ f, .raise f ∉ s.acts
  /-- A fault of the last step was raised or is the execution's own. -/
  fault : ∀ f, s.replies.getLast? = some (.stepped (.error f)) → .raise f ∈ s.acts ∨ f.Own limit

end Session

/-- Nothing is raised in a step after which composites are open. -/
theorem Executor.raise_notMem_of_step {x : Executor σ} {fuel : Nat} {stack : Stack σ} {world : σ}
    {t : Transition σ (Event σ)} (h : x.step fuel (.running stack) world = some t)
    (hopen : t.execution.depth ≠ 0) (f : Fault) :
    .raise f ∉ x.registry.stepActs fuel stack world := by
  rw [step_eq_stepBy] at h
  rcases stepBy_cases h with ⟨hsteps, -⟩ |
    ⟨s, rest, hsteps, ⟨g, world', -, rfl⟩ | ⟨resolution, world', hresolve, -⟩⟩
  · simp [Registry.stepActs, hsteps]
  · exact absurd rfl hopen
  · rw [x.registry.stepActs_of_steps hsteps]
    exact Registry.raise_notMem_of_resolve f hresolve

/-- A call keeps the faults accounted for. -/
theorem Session.Accounted.advance {x : Executor σ} {s : Session σ}
    (h : s.Accounted x.settings.maxDepth) (fuel : Nat) :
    (x.machine.advance fuel s).Accounted x.settings.maxDepth := by
  by_cases hhung : s.hung = true
  · rwa [Machine.advance_of_hung hhung]
  replace hhung : s.hung = false := by simpa using hhung
  cases he : s.execution with
  | running stack =>
    have hopen : s.execution.depth ≠ 0 := by simp [he, Execution.depth, Stack.depth]
    rw [Machine.advance_of_running hhung he]
    cases hstep : x.machine.step fuel (.running stack) s.surroundings.world with
    | none =>
      refine ⟨h.sound, fun hquiet => by simp [Session.hang] at hquiet, fun f hf => ?_⟩
      exact (h.fault f hf).imp_left (List.mem_append_left _)
    | some t =>
      have hstep' : x.step fuel (.running stack) s.surroundings.world = some t := hstep
      obtain ⟨hsound, hfault⟩ := Executor.step_sound (he ▸ h.sound) hstep'
      refine ⟨hsound, fun _ hdepth f => ?_, fun f hf => ?_⟩
      -- Nothing was raised before the step, nor in it, since composites are open after it.
      · have hbefore := h.quiet hhung hopen f
        have hacts := Executor.raise_notMem_of_step hstep' hdepth f
        have hevent : ∀ event : Event σ, .raise f ∉ event.acts := by
          intro event
          cases event <;> simp [Event.acts]
        simp only [Session.stepped, List.mem_append, not_or]
        refine ⟨⟨hbefore, hacts⟩, ?_⟩
        cases t.result with
        | ok event => exact hevent event
        | error g => simp
      -- The last reply is that of the step, whose faults are accounted for.
      · have hresult : t.result = .error f := by simpa [Session.stepped] using hf
        refine (hfault f hresult).imp_left ?_
        rintro ⟨stack', hstack, hraise⟩
        obtain rfl : stack = stack' := by simpa using hstack
        exact List.mem_append_left _ (List.mem_append_right _ hraise)
  | awaitingIo binding stack =>
    cases hnext : s.surroundings.deliveries with
    | nil => rwa [Machine.advance_of_starved he hnext]
    | cons first later =>
      obtain ⟨delivery, world⟩ := first
      rw [Machine.advance_of_awaiting hhung he hnext]
      have hquiet := h.quiet hhung (by simp [he, Execution.depth, Stack.depth])
      refine ⟨?_, fun _ _ => hquiet, fun f hf => by simp [Session.resumed] at hf⟩
      cases delivery with
      | ok v => exact (Execution.resume_sound (he ▸ h.sound) v).1
      | error f => exact Execution.sound_ended (.inr rfl)
  | done => rwa [Machine.advance_of_ended (.inl he)]
  | failed => rwa [Machine.advance_of_ended (.inr he)]

/-- The faults of a session are accounted for from its start on. -/
theorem Executor.sessionUnder_accounted (x : Executor σ) (limit : Option Nat)
    (program : Program σ) (surroundings : Surroundings σ) (fuel n : Nat) :
    (x.sessionUnder limit program surroundings fuel n).Accounted limit := by
  induction n with
  | zero =>
    refine ⟨Execution.sound_start program, fun _ _ f => List.not_mem_nil, fun f hreply => ?_⟩
    have hnone : (none : Option (Reply σ)) = some (.stepped (.error f)) := hreply
    simp at hnone
  | succ n ih =>
    rw [sessionUnder_succ]
    have hlimit : limit = (x.limited limit).settings.maxDepth := rfl
    rw [hlimit] at ih ⊢
    exact ih.advance fuel

/-! ## A whole session under a limit -/

namespace Executor

variable (x : Executor σ) (program : Program σ) (surroundings : Surroundings σ) (fuel : Nat)
  {limit : Nat}

/-- The unlimited session has stayed within the limit up to a call. -/
def StaysWithin (limit n : Nat) : Prop :=
  ∀ i ≤ n, (x.sessionUnder none program surroundings fuel i).execution.depth ≤ limit

/-- Either the unlimited session has stayed within the limit and the limited one is the same, or
there was a first call that left it and the limited session was refused there. -/
theorem sessionUnder_some_cases (hlimit : 1 ≤ limit) (n : Nat) :
    (x.StaysWithin program surroundings fuel limit n ∧
        x.sessionUnder (some limit) program surroundings fuel n =
          x.sessionUnder none program surroundings fuel n) ∨
      ∃ k < n, x.StaysWithin program surroundings fuel limit k ∧
        limit < (x.sessionUnder none program surroundings fuel (k + 1)).execution.depth ∧
        x.sessionUnder (some limit) program surroundings fuel n =
          (x.sessionUnder none program surroundings fuel k).refuse
            (x.sessionUnder none program surroundings fuel (k + 1)) (.tooDeep limit) := by
  induction n with
  | zero =>
    refine .inl ⟨fun i hi => ?_, rfl⟩
    obtain rfl : i = 0 := by omega
    exact hlimit
  | succ n ih =>
    rw [x.sessionUnder_succ (some limit)]
    rcases ih with ⟨hwithin, hsame⟩ | ⟨k, hk, hwithin, hdeep, hrefused⟩
    · rw [hsame]
      rcases Machine.advance_limited x fuel (hwithin n le_rfl) with
        ⟨hadvance, hdepth⟩ | ⟨hdeep, hadvance⟩
      -- The call keeps within the limit, or it is the first one that does not.
      · rw [← sessionUnder_succ] at hadvance hdepth
        refine .inl ⟨fun i hi => ?_, hadvance⟩
        rcases Nat.le_succ_iff.1 hi with hi | rfl
        · exact hwithin i hi
        · exact hdepth
      · rw [← sessionUnder_succ] at hadvance hdeep
        exact .inr ⟨n, by omega, hwithin, hdeep, hadvance⟩
    · -- The refused session has ended, so that further calls change nothing.
      rw [hrefused, Machine.advance_of_ended (.inr rfl)]
      exact .inr ⟨k, by omega, hwithin, hdeep, rfl⟩

/-- As long as the unlimited session stays within the limit, the limited one is the same. -/
theorem sessionUnder_of_staysWithin (hlimit : 1 ≤ limit) {n : Nat}
    (hwithin : x.StaysWithin program surroundings fuel limit n) :
    x.sessionUnder (some limit) program surroundings fuel n =
      x.sessionUnder none program surroundings fuel n := by
  rcases x.sessionUnder_some_cases program surroundings fuel hlimit n with
    ⟨-, hsame⟩ | ⟨k, hk, -, hdeep, -⟩
  · exact hsame
  · have hle := hwithin (k + 1) hk
    omega

/-- From the first call on in which the unlimited session leaves the limit, the limited one is
refused. -/
theorem sessionUnder_of_lt_depth (hlimit : 1 ≤ limit) {n m : Nat} (hm : n < m)
    (hwithin : x.StaysWithin program surroundings fuel limit n)
    (hdeep : limit < (x.sessionUnder none program surroundings fuel (n + 1)).execution.depth) :
    x.sessionUnder (some limit) program surroundings fuel m =
      (x.sessionUnder none program surroundings fuel n).refuse
        (x.sessionUnder none program surroundings fuel (n + 1)) (.tooDeep limit) := by
  rcases x.sessionUnder_some_cases program surroundings fuel hlimit m with
    ⟨hall, -⟩ | ⟨k, -, hwithin', hdeep', hrefused⟩
  · have hle := hall (n + 1) hm
    omega
  -- There is only one first call.
  have hkn : ¬ k < n := fun hlt => by
    have hle := hwithin (k + 1) hlt
    omega
  have hnk : ¬ n < k := fun hlt => by
    have hle := hwithin' (n + 1) hlt
    omega
  obtain rfl : k = n := by omega
  exact hrefused

/-- If the unlimited session leaves the limit, the limited one finds that it would. -/
theorem found_of_lt_depth (hlimit : 1 ≤ limit) {n : Nat}
    (hdeep : limit < (x.sessionUnder none program surroundings fuel n).execution.depth) :
    (x.sessionUnder (some limit) program surroundings fuel n).Found (.tooDeep limit) := by
  rcases x.sessionUnder_some_cases program surroundings fuel hlimit n with
    ⟨hall, -⟩ | ⟨k, -, hwithin, hdeep, hrefused⟩
  · have hle := hall n le_rfl
    omega
  rw [hrefused]
  refine ⟨by simp [Session.refuse], ?_⟩
  -- The refused call was none that hangs, since such a call opens no composite.
  have hreturns : (x.sessionUnder none program surroundings fuel (k + 1)).hung = false := by
    rw [Bool.eq_false_iff]
    intro hhung
    rw [sessionUnder_succ] at hhung hdeep
    rw [Machine.execution_of_hung hhung] at hdeep
    have hle := hwithin k le_rfl
    omega
  exact (x.sessionUnder_accounted none program surroundings fuel (k + 1)).quiet hreturns
    (by omega)

/-- A limited session only finds its own limit, and only if the unlimited one leaves it. -/
theorem lt_depth_of_found (hlimit : 1 ≤ limit) {n depth : Nat}
    (h : (x.sessionUnder (some limit) program surroundings fuel n).Found (.tooDeep depth)) :
    depth = limit ∧
      ∃ n, limit < (x.sessionUnder none program surroundings fuel n).execution.depth := by
  obtain ⟨hreply, hquiet⟩ := h
  have hown := ((x.sessionUnder_accounted (some limit) program surroundings fuel n).fault _
    hreply).resolve_left (hquiet _)
  obtain rfl : limit = depth := Option.some.inj hown
  refine ⟨rfl, ?_⟩
  rcases x.sessionUnder_some_cases program surroundings fuel hlimit n with
    ⟨-, hsame⟩ | ⟨k, -, -, hdeep, -⟩
  · -- Without a limit no session finds one.
    rw [hsame] at hreply hquiet
    have hnone := ((x.sessionUnder_accounted none program surroundings fuel n).fault _
      hreply).resolve_left (hquiet _)
    exact absurd hnone (by simp [Fault.Own])
  · exact ⟨k + 1, hdeep⟩

/-- A limited session with an outcome never left the limit. -/
theorem staysWithin_of_outcome (hlimit : 1 ≤ limit) {n : Nat} {outcome : Outcome}
    (h : (x.sessionUnder (some limit) program surroundings fuel n).ending = .ok outcome) :
    x.StaysWithin program surroundings fuel limit n := by
  rcases x.sessionUnder_some_cases program surroundings fuel hlimit n with
    ⟨hwithin, -⟩ | ⟨k, -, -, -, hrefused⟩
  · exact hwithin
  · rw [hrefused] at h
    simp [Session.ending, Session.refuse] at h

/-- At every call of a session under a limit the open composites are within it. The session is the
unlimited one until that would first leave the limit; the call in which it would is refused with
the limit, and nothing happens after it. So the limit is found just if the unlimited session leaves
it, and an outcome under the limit is the outcome under any higher limit and under none. -/
theorem limited_session (hlimit : 1 ≤ limit) :
    (∀ n, (x.sessionUnder (some limit) program surroundings fuel n).execution.depth ≤ limit) ∧
    (∀ n, x.StaysWithin program surroundings fuel limit n →
      x.sessionUnder (some limit) program surroundings fuel n =
          x.sessionUnder none program surroundings fuel n ∧
        (limit < (x.sessionUnder none program surroundings fuel (n + 1)).execution.depth →
          ∀ m > n, x.sessionUnder (some limit) program surroundings fuel m =
            (x.sessionUnder none program surroundings fuel n).refuse
              (x.sessionUnder none program surroundings fuel (n + 1)) (.tooDeep limit))) ∧
    (∀ depth,
      (∃ n, (x.sessionUnder (some limit) program surroundings fuel n).Found (.tooDeep depth)) ↔
        depth = limit ∧
          ∃ n, limit < (x.sessionUnder none program surroundings fuel n).execution.depth) ∧
    ∀ n outcome,
      (x.sessionUnder (some limit) program surroundings fuel n).ending = .ok outcome →
        x.sessionUnder none program surroundings fuel n =
            x.sessionUnder (some limit) program surroundings fuel n ∧
          ∀ higher ≥ limit, x.sessionUnder (some higher) program surroundings fuel n =
            x.sessionUnder (some limit) program surroundings fuel n := by
  refine ⟨fun n => ?_, fun n hwithin => ⟨?_, fun hdeep m hm => ?_⟩, fun depth => ?_,
    fun n outcome houtcome => ?_⟩
  · rcases x.sessionUnder_some_cases program surroundings fuel hlimit n with
      ⟨hwithin, hsame⟩ | ⟨k, -, -, -, hrefused⟩
    · rw [hsame]
      exact hwithin n le_rfl
    · rw [hrefused]
      exact Nat.zero_le limit
  · exact x.sessionUnder_of_staysWithin program surroundings fuel hlimit hwithin
  · exact x.sessionUnder_of_lt_depth program surroundings fuel hlimit hm hwithin hdeep
  · constructor
    · rintro ⟨n, hfound⟩
      exact x.lt_depth_of_found program surroundings fuel hlimit hfound
    · rintro ⟨rfl, n, hdeep⟩
      exact ⟨n, x.found_of_lt_depth program surroundings fuel hlimit hdeep⟩
  · have hwithin := x.staysWithin_of_outcome program surroundings fuel hlimit houtcome
    have hsame := x.sessionUnder_of_staysWithin program surroundings fuel hlimit hwithin
    refine ⟨hsame.symm, fun higher hle => ?_⟩
    have hhigher := x.sessionUnder_of_staysWithin program surroundings fuel (hlimit.trans hle)
      fun i hi => (hwithin i hi).trans hle
    rw [hsame, hhigher]

/-- A program with a composite does not keep within the depth of the program alone. -/
theorem limited_session_nested :
    ∃ n, (({ registry := .empty } : Executor Unit).sessionUnder (some 1) Program.nestedQuestion
      ⟨(), []⟩ 0 n).Found (.tooDeep 1) := by
  have h := limited_session { registry := .empty } Program.nestedQuestion ⟨(), []⟩ 0 (le_refl 1)
  exact (h.2.2.1 1).2 ⟨rfl, 1, by decide⟩

end Executor

end EffectPrograms
