import EffectPrograms.Proofs.Shadows

/-!
# Composites that give their place away

Whether an exhausted composite gives its place away cannot be seen from outside. After each call of
the machine that gives no place away its session is at the same point as that of the executor, with
or without a call of the executor (`Session.Shadows.advance`). Without one it has gone down by a
frame, so that the executor waits for it only as long as there are frames (`exists_pace`).
-/

namespace EffectPrograms

variable {σ : Type}

/-- A program's session with the machine that gives no place away, under a limit and after a number
of calls. -/
def Executor.pushingUnder (x : Executor σ) (limit : Option Nat) (program : Program σ)
    (surroundings : Surroundings σ) (fuel n : Nat) : Session σ :=
  (x.limited limit).pushingMachine.sessionAfter program surroundings fuel n

/-! ## Sessions -/

namespace Session

/-- The ending is known from the status, what can be delivered, and the last reply. -/
theorem ending_congr {s t : Session σ} (hstatus : s.execution.status = t.execution.status)
    (hsurroundings : s.surroundings = t.surroundings)
    (hreply : s.replies.getLast? = t.replies.getLast?) : s.ending = t.ending := by
  unfold ending
  rw [hsurroundings, hreply]
  cases hs : s.execution <;> cases ht : t.execution <;>
    simp [hs, ht, Execution.status] at hstatus ⊢

/-- A session is unfinished as long as its execution is running. -/
theorem ending_of_running {s : Session σ} (h : s.execution.status = .running) :
    s.ending = .error .unfinished := by
  unfold ending
  cases hs : s.execution <;> simp [hs, Execution.status] at h ⊢

/-- What can be seen of a session from outside is known from the same and what it has done. -/
theorem course_congr {s t : Session σ} (hacts : s.acts = t.acts)
    (hstatus : s.execution.status = t.execution.status)
    (hsurroundings : s.surroundings = t.surroundings)
    (hreply : s.replies.getLast? = t.replies.getLast?) : s.course = t.course := by
  unfold course
  rw [hacts, ending_congr hstatus hsurroundings hreply, hsurroundings]

/-- The session has ended where it would have opened a composite too many. -/
def Refused (s : Session σ) (depth : Nat) : Prop :=
  s.execution = .failed ∧ s.ending = .error (.fault (.tooDeep depth))

/-- The two sessions are at the same point of a program. -/
structure Shadows (naive real : Session σ) : Prop where
  execution : naive.execution.Shadows real.execution
  course : naive.course = real.course
  hung : naive.hung = real.hung

namespace Shadows

variable {x : Executor σ} {naive real : Session σ}

/-- Both have done the same. -/
theorem acts_eq (h : naive.Shadows real) : naive.acts = real.acts := congrArg Course.acts h.course

/-- Both find the same surroundings. -/
theorem surroundings_eq (h : naive.Shadows real) : naive.surroundings = real.surroundings :=
  congrArg Course.surroundings h.course

/-- Where both are at the same step, both go on to the same point, unless the machine that gives no
place away opens a composite too many. -/
theorem advance_running (h : naive.Shadows real) (hhung : naive.hung = false)
    {stack stack' : Stack σ} (hnaive : naive.execution = .running stack)
    (hreal : real.execution = .running stack') (hstack : stack.Shadows stack') (fuel : Nat) :
    (x.pushingMachine.advance fuel naive).Shadows (x.machine.advance fuel real) ∨
      ∃ depth, x.settings.maxDepth = some depth ∧
        (x.pushingMachine.advance fuel naive).Refused depth := by
  have hacts : x.pushingMachine.registry.stepActs fuel stack naive.surroundings.world =
      x.machine.registry.stepActs fuel stack' naive.surroundings.world := by
    simp only [Registry.stepActs, hstack.steps_eq, hstack.env_eq]
    rfl
  rw [Machine.advance_of_running hhung hnaive,
    Machine.advance_of_running (h.hung ▸ hhung) hreal, ← h.surroundings_eq]
  have hmachine : x.machine.step = x.stepBy (Stack.commit x.settings.maxDepth) :=
    x.step_eq_stepBy
  have hpushing : x.pushingMachine.step = x.stepBy (Stack.commitPushing x.settings.maxDepth) := rfl
  rw [hmachine, hpushing]
  rcases x.stepBy_shadows hstack x.settings.maxDepth fuel naive.surroundings.world with
    ⟨hstep, hstep'⟩ | ⟨result, e, e', world, hstep, hstep', hnext⟩ | ⟨depth, world, hlimit, hstep⟩
  · rw [hstep, hstep']
    refine .inl ⟨h.execution, ?_, rfl⟩
    have hending : naive.ending = real.ending := congrArg Course.ending h.course
    show (⟨naive.acts ++ _, naive.ending, naive.surroundings⟩ : Course σ Outcome) =
      ⟨real.acts ++ _, real.ending, real.surroundings⟩
    rw [h.acts_eq, hacts, hending, h.surroundings_eq]
  · rw [hstep, hstep']
    refine .inl ⟨hnext, course_congr ?_ hnext.status_eq ?_ ?_, h.hung⟩
    · simp only [stepped, h.acts_eq, hacts]
    · simp only [stepped, h.surroundings_eq]
    · simp [stepped]
  · rw [hstep]
    refine .inr ⟨depth, hlimit, rfl, ?_⟩
    simp [stepped, ending, Transition.fail]

/-- A delivery leads both to the same point. -/
theorem advance_awaiting (h : naive.Shadows real) (hhung : naive.hung = false)
    {binding : Option String} {stack stack' : Stack σ}
    (hnaive : naive.execution = .awaitingIo binding stack)
    (hreal : real.execution = .awaitingIo binding stack') (hstack : stack.Shadows stack')
    (fuel : Nat) :
    (x.pushingMachine.advance fuel naive).Shadows (x.machine.advance fuel real) := by
  cases hnext : naive.surroundings.deliveries with
  | nil =>
    rw [Machine.advance_of_starved hnaive hnext,
      Machine.advance_of_starved hreal (h.surroundings_eq ▸ hnext)]
    exact h
  | cons first later =>
    obtain ⟨delivery, world⟩ := first
    rw [Machine.advance_of_awaiting hhung hnaive hnext,
      Machine.advance_of_awaiting (h.hung ▸ hhung) hreal (h.surroundings_eq ▸ hnext)]
    -- Whatever is delivered, both bind it or both fail.
    have hreceive : ∃ result e e',
        (Execution.awaitingIo binding stack).receive delivery = (result, e) ∧
          (Execution.awaitingIo binding stack').receive delivery = (result, e') ∧
          e.Shadows e' := by
      cases delivery with
      | error f => exact ⟨.error f, _, _, rfl, rfl, .failed⟩
      | ok v =>
        simp only [Execution.receive, Execution.resume]
        rcases hstack.bind binding v with
          ⟨f, hbind, hbind'⟩ | ⟨next, next', hbind, hbind', hnext⟩
        · exact ⟨.error f, .failed, .failed, by rw [hbind], by rw [hbind'], .failed⟩
        · exact ⟨.ok (), _, _, by rw [hbind], by rw [hbind'], .running hnext⟩
    obtain ⟨result, e, e', hreceive, hreceive', hnext⟩ := hreceive
    rw [hreceive, hreceive']
    exact ⟨hnext, course_congr h.acts_eq hnext.status_eq rfl (by simp [resumed]), h.hung⟩

/-- Where the executor is ahead, the other machine goes down by one frame towards it. -/
theorem advance_unwinding (h : naive.Shadows real) (hhung : naive.hung = false)
    {stack stack' : Stack σ} (hnaive : naive.execution = .running stack)
    (hstack : stack.Shadows stack') (hsteps : stack.top.steps = [])
    (hleave : stack'.leave none = .ok (.progress, real.execution)) (fuel : Nat) :
    (x.pushingMachine.advance fuel naive).Shadows real ∧
      (x.pushingMachine.advance fuel naive).execution.depth < naive.execution.depth := by
  obtain ⟨event, e, e', hleft, hleft', hnext⟩ := hstack.leave none
  obtain ⟨rfl, rfl⟩ : Event.progress = event ∧ real.execution = e' := by
    simpa [hleave] using hleft'
  have hstep : x.pushingMachine.step fuel (.running stack) naive.surroundings.world =
      some ⟨.ok .progress, e, naive.surroundings.world⟩ := by
    simp [Executor.pushingMachine, Executor.stepBy, hsteps, hleft, Transition.ofResult]
  rw [Machine.advance_of_running hhung hnaive, hstep]
  -- To leave a composite shows nothing.
  have hacts : x.pushingMachine.registry.stepActs fuel stack naive.surroundings.world = [] := by
    simp [Registry.stepActs, hsteps]
  rw [hacts]
  refine ⟨⟨hnext, ?_, h.hung⟩, ?_⟩
  · have hstatus : e.status = .running := by
      rw [hnext.status_eq, ← h.execution.status_eq, hnaive]
      rfl
    rw [← h.course]
    show (⟨naive.acts ++ [] ++ [], ending _, naive.surroundings⟩ : Course σ Outcome) =
      ⟨naive.acts, naive.ending, naive.surroundings⟩
    rw [List.append_nil, List.append_nil, ending_of_running hstatus,
      ending_of_running (by rw [hnaive]; rfl)]
  · rw [hnaive]
    exact Stack.depth_of_leave hleft

/-- After a call of the machine that gives no place away both are at the same point again, with or
without a call of the executor, unless that machine opened a composite too many. -/
theorem advance (x : Executor σ) (h : naive.Shadows real) (fuel : Nat) :
    (x.pushingMachine.advance fuel naive).Shadows (x.machine.advance fuel real) ∨
      ((x.pushingMachine.advance fuel naive).Shadows real ∧
        (x.pushingMachine.advance fuel naive).execution.depth < naive.execution.depth) ∨
      ∃ depth, x.settings.maxDepth = some depth ∧
        (x.pushingMachine.advance fuel naive).Refused depth := by
  by_cases hhung : naive.hung = true
  · rw [Machine.advance_of_hung hhung, Machine.advance_of_hung (h.hung ▸ hhung)]
    exact .inl h
  replace hhung : naive.hung = false := by simpa using hhung
  -- Where the executions stand to each other decides which of the two makes a call.
  have hexecution := h.execution
  generalize hnaive : naive.execution = e at hexecution
  generalize hreal : real.execution = e' at hexecution
  cases hexecution with
  | running hstack =>
    exact (h.advance_running hhung hnaive hreal hstack fuel).imp_right .inr
  | unwinding hstack hsteps hinner hleave =>
    rw [← hnaive]
    exact .inr (.inl (h.advance_unwinding hhung hnaive hstack hsteps (hreal ▸ hleave) fuel))
  | awaitingIo binding hstack =>
    exact .inl (h.advance_awaiting hhung hnaive hreal hstack fuel)
  | done =>
    rw [Machine.advance_of_ended (.inl hnaive), Machine.advance_of_ended (.inl hreal)]
    exact .inl h
  | failed =>
    rw [Machine.advance_of_ended (.inr hnaive), Machine.advance_of_ended (.inr hreal)]
    exact .inl h

/-- Any program starts at the same point. -/
theorem start (program : Program σ) (surroundings : Surroundings σ) :
    Shadows (.start program surroundings) (.start program surroundings) :=
  ⟨.running (.bottom _), rfl, rfl⟩

end Shadows

end Session

/-! ## Whole sessions -/

/-- If each step of a run matches a step of another one or goes down in rank, then the other one
goes at a pace: it makes each of its steps after a step of the first. -/
theorem exists_pace {α β : Type} {step : α → α} {step' : β → β} {Related : α → β → Prop}
    (rank : α → Nat)
    (h : ∀ a b, Related a b →
      Related (step a) (step' b) ∨ Related (step a) b ∧ rank (step a) < rank a)
    {a : α} {b : β} (hstart : Related a b) :
    ∃ pace : Nat → Nat, pace 0 = 0 ∧
      (∀ n, pace (n + 1) = pace n ∨ pace (n + 1) = pace n + 1) ∧
      (∀ k, ∃ n, pace n = k) ∧ ∀ n, Related (step^[n] a) (step'^[pace n] b) := by
  classical
  -- The other run makes a step whenever it may.
  let pace : Nat → Nat := fun n => n.rec 0 fun n k =>
    if Related (step^[n + 1] a) (step'^[k + 1] b) then k + 1 else k
  have hpace : ∀ n, pace (n + 1) =
      if Related (step^[n + 1] a) (step'^[pace n + 1] b) then pace n + 1 else pace n :=
    fun _ => rfl
  have hmatch : ∀ n, Related (step^[n] a) (step'^[pace n] b) := by
    intro n
    induction n with
    | zero => exact hstart
    | succ n ih =>
      rw [hpace]
      split
      · assumption
      · next hstay =>
        rw [Function.iterate_succ_apply', Function.iterate_succ_apply'] at hstay
        rw [Function.iterate_succ_apply']
        exact ((h _ _ ih).resolve_left hstay).1
  -- By the rank the first run cannot make steps of its own for ever.
  have hcatch : ∀ n, ∃ m, pace m = pace n + 1 := by
    intro n
    induction hrank : rank (step^[n] a) using Nat.strongRecOn generalizing n with
    | ind r ih =>
      by_cases hgo : Related (step^[n + 1] a) (step'^[pace n + 1] b)
      · exact ⟨n + 1, by rw [hpace, if_pos hgo]⟩
      · have hstay : pace (n + 1) = pace n := by rw [hpace, if_neg hgo]
        rw [Function.iterate_succ_apply', Function.iterate_succ_apply'] at hgo
        have hlt := ((h _ _ (hmatch n)).resolve_left hgo).2
        rw [← Function.iterate_succ_apply' step, hrank] at hlt
        obtain ⟨m, hm⟩ := ih _ hlt (n + 1) rfl
        exact ⟨m, by rw [hm, hstay]⟩
  refine ⟨pace, rfl, fun n => ?_, fun k => ?_, hmatch⟩
  · rw [hpace]
    split
    · exact .inr rfl
    · exact .inl rfl
  · induction k with
    | zero => exact ⟨0, rfl⟩
    | succ k ih =>
      obtain ⟨n, rfl⟩ := ih
      exact hcatch n

namespace Executor

variable (x : Executor σ) (program : Program σ) (surroundings : Surroundings σ) (fuel : Nat)

/-- The machine that gives no place away is refused at the limit, or the executor has come to the
same point. -/
theorem shadows_or_refused (limit : Option Nat) (n : Nat) :
    (∃ k ≤ n, (x.pushingUnder limit program surroundings fuel n).Shadows
        (x.sessionUnder limit program surroundings fuel k)) ∨
      ∃ depth, limit = some depth ∧
        (x.pushingUnder limit program surroundings fuel n).Refused depth := by
  induction n with
  | zero => exact .inl ⟨0, le_rfl, .start program surroundings⟩
  | succ n ih =>
    unfold pushingUnder at ih ⊢
    rw [Machine.sessionAfter_succ]
    rcases ih with ⟨k, hk, h⟩ | ⟨depth, hlimit, hrefused⟩
    · rcases h.advance (x.limited limit) fuel with hboth | ⟨hone, -⟩ | hrefused
      · rw [← sessionUnder_succ] at hboth
        exact .inl ⟨k + 1, by omega, hboth⟩
      · exact .inl ⟨k, by omega, hone⟩
      · exact .inr hrefused
    · rw [Machine.advance_of_ended (.inr hrefused.1)]
      exact .inr ⟨depth, hlimit, hrefused⟩

/-- Without a limit the executor passes the points that follow one of a session in the same order as
the machine that gives no place away, only that this machine may stay longer at one. -/
theorem exists_pace_of_shadows {naive real : Session σ} (h : naive.Shadows real) :
    ∃ pace : Nat → Nat, pace 0 = 0 ∧
      (∀ n, pace (n + 1) = pace n ∨ pace (n + 1) = pace n + 1) ∧
      (∀ k, ∃ n, pace n = k) ∧
      ∀ n, Session.Shadows (((x.limited none).pushingMachine.advance fuel)^[n] naive)
        (((x.limited none).machine.advance fuel)^[pace n] real) := by
  have hadvance : ∀ naive real : Session σ, naive.Shadows real →
      ((x.limited none).pushingMachine.advance fuel naive).Shadows
          ((x.limited none).machine.advance fuel real) ∨
        ((x.limited none).pushingMachine.advance fuel naive).Shadows real ∧
          ((x.limited none).pushingMachine.advance fuel naive).execution.depth <
            naive.execution.depth := by
    intro naive real h
    rcases h.advance (x.limited none) fuel with hboth | hone | ⟨depth, hlimit, -⟩
    · exact .inl hboth
    · exact .inr hone
    · simp [limited] at hlimit
  exact exists_pace (fun s => s.execution.depth) hadvance h

/-- So it does with those of a whole session. -/
theorem exists_pace_shadows :
    ∃ pace : Nat → Nat, pace 0 = 0 ∧
      (∀ n, pace (n + 1) = pace n ∨ pace (n + 1) = pace n + 1) ∧
      (∀ k, ∃ n, pace n = k) ∧
      ∀ n, (x.pushingUnder none program surroundings fuel n).Shadows
        (x.sessionUnder none program surroundings fuel (pace n)) :=
  x.exists_pace_of_shadows fuel (.start program surroundings)

/-- Nobody can tell that exhausted composites give their places away. Without a limit the executor
passes the points of a session in the same order as the machine that gives no place away, and no
other points, only that this machine may stay longer at one; at each of them the executor has at
most as many composites open. Hence wherever that machine comes to under a limit without meeting it,
to an outcome as well as to a fault or an io, the executor comes to under the same limit, after at
most as many calls. -/
theorem replacement_invisible :
    (∃ pace : Nat → Nat, pace 0 = 0 ∧
      (∀ n, pace (n + 1) = pace n ∨ pace (n + 1) = pace n + 1) ∧
      (∀ k, ∃ n, pace n = k) ∧
      ∀ n,
        (x.sessionUnder none program surroundings fuel (pace n)).course =
            (x.pushingUnder none program surroundings fuel n).course ∧
          (x.sessionUnder none program surroundings fuel (pace n)).hung =
            (x.pushingUnder none program surroundings fuel n).hung ∧
          (x.sessionUnder none program surroundings fuel (pace n)).execution.depth ≤
            (x.pushingUnder none program surroundings fuel n).execution.depth) ∧
    ∀ limit n,
      (x.pushingUnder (some limit) program surroundings fuel n).ending ≠
          .error (.fault (.tooDeep limit)) →
        ∃ k ≤ n, (x.sessionUnder (some limit) program surroundings fuel k).course =
          (x.pushingUnder (some limit) program surroundings fuel n).course := by
  refine ⟨?_, fun limit n hwithin => ?_⟩
  · obtain ⟨pace, hzero, hsucc, hsurjective, hmatch⟩ :=
      x.exists_pace_shadows program surroundings fuel
    refine ⟨pace, hzero, hsucc, hsurjective, fun n => ?_⟩
    exact ⟨(hmatch n).course.symm, (hmatch n).hung.symm, (hmatch n).execution.depth_le⟩
  · rcases x.shadows_or_refused program surroundings fuel (some limit) n with
      ⟨k, hk, h⟩ | ⟨depth, hlimit, -, hending⟩
    · exact ⟨k, hk, h.course.symm⟩
    · obtain rfl : limit = depth := Option.some.inj hlimit
      exact absurd hending hwithin

end Executor

end EffectPrograms
