import EffectPrograms.Proofs.Driving

/-!
# The life of an execution

Whatever a driver calls and in whatever order, an execution runs and waits by turns until it is done
or has failed, and stays so. The two ways to drive it, by hand and by a run, share one machine, and
both go through the same moves, so that it is enough to say where a single move leads
(`Executor.Moves.precedes`) and what each call has to do with moves (`Executor.Lawful`). What a call
out of turn leaves behind is what it found, so that a history means the same without it
(`Drives.inTurn`). An outcome is handed out with the move that ends the execution, and there is only
one of these (`Drives.outcome?_of_ended`).
-/

namespace EffectPrograms

variable {σ : Type}

/-- Where an execution may stand directly after it stood somewhere. -/
inductive Status.Precedes : Status → Status → Prop where
  | step (next : Status) : Precedes .running next
  | resume : Precedes .awaitingIo .running
  | breach : Precedes .awaitingIo .failed

namespace Executor

variable {x : Executor σ} {e next : Execution σ} {c : Exchange σ} {history : List (Exchange σ)}

/-! ## Single calls -/

/-- A value that is taken sets the execution going. -/
theorem Moves.precedes (h : x.Moves e next) : e.status.Precedes next.status := by
  cases h with
  | step _ => exact .step _
  | resume hresume =>
    obtain ⟨env, rfl⟩ := exists_env_of_resume hresume
    exact .resume
  | breach _ _ => exact .breach

/-- Nothing happens to an execution that is done or has failed. -/
theorem Moves.depth_ne_zero (h : x.Moves e next) : e.depth ≠ 0 := by
  cases h <;> exact Nat.succ_ne_zero _

/-- What holds of a call on an execution, in turn and out of turn. -/
structure Lawful (x : Executor σ) (c : Exchange σ) : Prop where
  /-- Out of turn it is refused, with where the execution stands, and changes nothing. -/
  refused : ¬ c.InTurn →
    c.result = c.call.refusal c.before.status ∧ c.after = c.before ∧ c.worldAfter = c.world
  /-- A step is one move, to where its result says. -/
  stepped : c.call = .step → c.InTurn → x.Moves c.before c.after ∧
    ((∃ event, c.result = .stepped (.ok event) ∧ c.after.status = event.status) ∨
      ∃ f, c.result = .stepped (.error f) ∧ c.after = .failed)
  /-- A value that the execution waits for is taken, and sets it going. -/
  resumed : ∀ v, c.call = .resume v → c.InTurn → x.Moves c.before c.after ∧
    c.result = .resumed (.ok ()) ∧ c.after.status = .running
  /-- A run is a chain of moves, and ends with an outcome or with a fault. -/
  ran : c.call = .run → c.InTurn → Relation.TransGen x.Moves c.before c.after ∧
    ((∃ outcome, c.result = .ran (.ok outcome) ∧ c.after = .done) ∨
      ∃ f, c.result = .ran (.error f) ∧ c.after = .failed)

/-- Every call on a sound execution is lawful. -/
theorem Returns.lawful (h : x.Returns c) (hsound : c.before.Sound) : x.Lawful c where
  refused := h.refused
  stepped hcall hturn := by
    cases h with
    | @step fuel e world t hstep =>
      obtain ⟨stack, rfl⟩ := exists_running_of_status hturn
      have hstatus := status_of_step hstep
      refine ⟨.step hstep, ?_⟩
      rcases t with ⟨f | event, next, world'⟩
      · exact .inr ⟨f, rfl, eq_failed_of_status hstatus⟩
      · exact .inl ⟨event, rfl, hstatus⟩
    | resume _ _ _ | run _ => simp at hcall
  resumed v hcall hturn := by
    cases h with
    | resume e v world =>
      obtain ⟨binding, stack, rfl⟩ := exists_awaitingIo_of_status hturn
      have htaken := Moves.resume (x := x) (hsound.resume_awaitingIo v)
      dsimp only at hsound ⊢
      rw [hsound.resume_awaitingIo v]
      exact ⟨htaken, rfl, rfl⟩
    | step _ | run _ => simp at hcall
  ran hcall hturn := by
    cases h with
    | @run fuel e world t hrun =>
      obtain ⟨stack, rfl⟩ := exists_running_of_status hturn
      obtain ⟨hmoves, hend⟩ := moves_of_run (hsound.stack rfl) hrun
      refine ⟨hmoves, hend.imp ?_ ?_⟩
      · rintro ⟨outcome, hresult, hdone⟩
        exact ⟨outcome, congrArg CallResult.ran hresult, hdone⟩
      · rintro ⟨f, hresult, hfailed⟩
        exact ⟨f, congrArg CallResult.ran hresult, hfailed⟩
    | step _ | resume _ _ _ => simp at hcall

/-- Every call leaves a sound execution. -/
theorem Returns.sound (h : x.Returns c) (hsound : c.before.Sound) : c.after.Sound := by
  cases h with
  | step hstep => exact (step_sound hsound hstep).1
  | resume e v world => exact (Execution.resume_sound hsound v).1
  | @run fuel e world t hrun =>
    by_cases hturn : e.status = .running
    · obtain ⟨stack, rfl⟩ := exists_running_of_status hturn
      obtain ⟨-, ⟨outcome, -, hend⟩ | ⟨f, -, hend⟩⟩ := moves_of_run (hsound.stack rfl) hrun
      · exact Execution.sound_ended (.inl hend)
      · exact Execution.sound_ended (.inr hend)
    · have hsame := (Returns.run hrun).refused hturn
      rwa [show t.execution = e from hsame.2.1]

/-- An outcome is handed out by a call after which the execution is done. -/
theorem Lawful.done_of_outcome (h : x.Lawful c) {outcome : Outcome}
    (houtcome : c.result.outcome? = some outcome) : c.after = .done := by
  by_cases hturn : c.InTurn
  · cases hcall : c.call with
    | step =>
      obtain ⟨-, ⟨event, hresult, hstatus⟩ | ⟨f, hresult, -⟩⟩ := h.stepped hcall hturn
      · rw [hresult] at houtcome
        cases event with
        | finished outcome => exact eq_done_of_status hstatus
        | progress | io _ => simp [CallResult.outcome?] at houtcome
      · simp [hresult, CallResult.outcome?] at houtcome
    | resume v =>
      simp [(h.resumed v hcall hturn).2.1, CallResult.outcome?] at houtcome
    | run =>
      obtain ⟨-, ⟨_, -, hdone⟩ | ⟨f, hresult, -⟩⟩ := h.ran hcall hturn
      · exact hdone
      · simp [hresult, CallResult.outcome?] at houtcome
  · rw [(h.refused hturn).1, Call.outcome?_refusal] at houtcome
    exact absurd houtcome (by simp)

/-! ## Histories -/

/-- Every call in the history of a sound execution is lawful. -/
theorem Drives.lawful (h : x.Drives e history next) (hsound : e.Sound) :
    ∀ c ∈ history, x.Lawful c := by
  induction h with
  | nil e => simp
  | cons hreturns _ ih =>
    intro c hc
    rcases List.mem_cons.1 hc with rfl | hlater
    · exact hreturns.lawful hsound
    · exact ih (hreturns.sound hsound) c hlater

/-- Without the calls out of turn a history leads to the same execution, and all the other calls in
it are the same. -/
theorem Drives.inTurn (h : x.Drives e history next) :
    x.Drives e (history.filter fun c => c.InTurn) next := by
  induction h with
  | nil e => exact .nil e
  | @cons c history next hreturns _ ih =>
    by_cases hturn : c.InTurn
    · rw [List.filter_cons_of_pos (by simpa using hturn)]
      exact .cons hreturns ih
    · rw [List.filter_cons_of_neg (by simpa using hturn)]
      rwa [(hreturns.refused hturn).2.1] at ih

/-- An execution that is done or has failed is refused every call, so that it stays as it is and
hands out nothing. -/
theorem Drives.refused_of_ended (h : x.Drives e history next) (hended : e.depth = 0) :
    next = e ∧ ∀ c ∈ history, c.after = e ∧ c.result.outcome? = none := by
  induction h with
  | nil e => exact ⟨rfl, by simp⟩
  | @cons c history next hreturns _ ih =>
    have hturn : ¬ c.InTurn := by
      unfold Exchange.InTurn
      rcases (Execution.depth_eq_zero_iff _).1 hended with hstatus | hstatus
      · rw [hstatus]
        cases c.call <;> simp [Call.turn]
      · rw [hstatus]
        cases c.call <;> simp [Call.turn]
    obtain ⟨hresult, hafter, -⟩ := hreturns.refused hturn
    obtain ⟨hnext, hlater⟩ := ih (hafter ▸ hended)
    refine ⟨hnext.trans hafter, ?_⟩
    rintro later hmem
    rcases List.mem_cons.1 hmem with rfl | hmem
    · exact ⟨hafter, by rw [hresult, Call.outcome?_refusal]⟩
    · exact ⟨(hlater later hmem).1.trans hafter, (hlater later hmem).2⟩

/-- After a call that leaves nothing open every other call finds the execution as it left it, and
hands out nothing. -/
theorem Drives.pairwise_ended (h : x.Drives e history next) :
    history.Pairwise fun c later =>
      c.after.depth = 0 → later.after = c.after ∧ later.result.outcome? = none := by
  induction h with
  | nil e => exact .nil
  | cons hreturns hdrives ih =>
    refine List.pairwise_cons.2 ⟨fun later hmem hended => ?_, ih⟩
    exact (hdrives.refused_of_ended hended).2 later hmem

/-- At most one outcome is handed out. -/
theorem Drives.outcomes_length_le_one (h : x.Drives e history next) (hsound : e.Sound) :
    (history.filterMap fun c => c.result.outcome?).length ≤ 1 := by
  induction h with
  | nil e => simp
  | @cons c history next hreturns hdrives ih =>
    cases houtcome : c.result.outcome? with
    | none =>
      rw [List.filterMap_cons, houtcome]
      exact ih (hreturns.sound hsound)
    | some outcome =>
      -- The execution is done after this call, and all later ones are refused.
      have hdone : c.after = .done := (hreturns.lawful hsound).done_of_outcome houtcome
      have hended : c.after.depth = 0 := by rw [hdone]; rfl
      have hlater : history.filterMap (fun c => c.result.outcome?) = [] :=
        List.filterMap_eq_nil_iff.2 fun later hmem =>
          ((hdrives.refused_of_ended hended).2 later hmem).2
      rw [List.filterMap_cons, houtcome, hlater]
      exact le_rfl

/-- A program that is run with a receiver for its outcome hands it over once if there is one, and in
the world that the run leaves; a fault is the answer and is not handed over. -/
theorem executeWith_eq (x : Executor σ) (fuel : Nat) (program : Program σ)
    (onOutcome : Outcome → σ → σ) (world : σ) :
    x.executeWith fuel program onOutcome world =
      (x.run fuel (.start program) world).map fun t =>
        match t.result with
        | .ok outcome => (.ok (), onOutcome outcome t.world)
        | .error f => (.error f, t.world) := by
  rw [executeWith, execute, Option.map_map]
  congr 1
  funext t
  rcases t with ⟨f | outcome, next, world'⟩ <;> rfl

/-- The life of an execution under any driver, who may step it, resume it and run it in any order.
Every call is lawful: in turn it is one move of the execution or, if it is a run, a chain of them up
to an outcome or a fault, and out of turn it returns with where the execution stands, at once and
without any change. A move only leads where the life of an execution goes on, and there is none once
nothing is open, that is once it is done or has failed. From then on it stays as it is and hands out
nothing, and at most one outcome is handed out in all. The calls out of turn may as well be left
out. A receiver of the outcome is called with it once the run has ended, and not if there is none.
-/
theorem life_cycle (x : Executor σ) (program : Program σ) {history : List (Exchange σ)}
    {e : Execution σ} (h : x.Drives (.start program) history e) :
    (∀ c ∈ history, x.Lawful c) ∧
    (∀ e next, x.Moves e next → e.status.Precedes next.status ∧ e.depth ≠ 0) ∧
    (∀ e : Execution σ, e.depth = 0 ↔ e.status = .done ∨ e.status = .failed) ∧
    (history.Pairwise fun c later =>
      c.after.depth = 0 → later.after = c.after ∧ later.result.outcome? = none) ∧
    (history.filterMap fun c => c.result.outcome?).length ≤ 1 ∧
    x.Drives (.start program) (history.filter fun c => c.InTurn) e ∧
    (∀ e fuel world, e.status ≠ .running →
      x.step fuel e world = some ⟨.error (.notRunning e.status), e, world⟩ ∧
        x.run (fuel + 1) e world = some ⟨.error (.notRunning e.status), e, world⟩) ∧
    ∀ fuel onOutcome world, x.executeWith fuel program onOutcome world =
      (x.run fuel (.start program) world).map fun t =>
        match t.result with
        | .ok outcome => (.ok (), onOutcome outcome t.world)
        | .error f => (.error f, t.world) := by
  have hsound : (Execution.start program).Sound := Execution.sound_start program
  refine ⟨h.lawful hsound, fun e next hmove => ⟨hmove.precedes, hmove.depth_ne_zero⟩,
    Execution.depth_eq_zero_iff, h.pairwise_ended, h.outcomes_length_le_one hsound, h.inTurn,
    fun e fuel world hstatus => ?_, fun fuel => x.executeWith_eq fuel program⟩
  exact ⟨x.step_refused fuel world hstatus, x.run_refused fuel world hstatus⟩

end Executor

/-- Asks for an io under a name and then returns. -/
def Program.askThenReturn : Program Unit :=
  [.bind "answer" (.op (.io ⟨fun c w => (c, w), .late⟩)), .returning (.bool true)]

/-- An execution is resumed too early, stepped while it waits, and stepped once more when a run has
brought it to its end. -/
theorem Executor.life_cycle_misused :
    ∃ history, ({ registry := .empty } : Executor Unit).Drives (.start .askThenReturn) history
        .done ∧
      (history.map fun c => decide c.InTurn) = [false, true, false, true, true, false] ∧
      (history.filterMap fun c => c.result.outcome?) = [.returned (.bool true)] ∧
      ({ registry := .empty } : Executor Unit).Drives (.start .askThenReturn)
        (history.filter fun c => c.InTurn) .done := by
  let x : Executor Unit := { registry := .empty }
  have hdrives : x.Drives (.start .askThenReturn) _ .done :=
    .cons (.resume _ .null ()) <|
    .cons (.step (show _ = some _ from rfl : x.step 0 _ () = some _)) <|
    .cons (.step (show _ = some _ from rfl : x.step 0 _ () = some _)) <|
    .cons (.resume _ .null ()) <|
    .cons (.run (show _ = some _ from rfl : x.run 1 _ () = some _)) <|
    .cons (.step (show _ = some _ from rfl : x.step 0 _ () = some _)) <| .nil _
  exact ⟨_, hdrives, rfl, rfl, (x.life_cycle _ hdrives).2.2.2.2.2.1⟩

end EffectPrograms
