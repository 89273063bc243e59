import EffectPrograms.Execution.Run
import EffectPrograms.Proofs.Resolving

/-!
# Runs that end

A run that ends with some fuel ends in the same way with more (`run_mono`), so that it makes sense
to say how a run ends without a word about the fuel: `Executor.Ends`. Where the run of a program
ends is then found call by call: a step that makes progress leaves the question to the execution
after it (`Ends.progress`), an io to the execution that has received its value (`Ends.io`), and an
outcome or a fault answers it.
-/

namespace EffectPrograms

variable {σ : Type}

namespace Executor

variable {x : Executor σ} {fuel more : Nat} {e next : Execution σ} {world world' : σ}

/-- More fuel does not change what a step comes to. -/
theorem step_mono (hle : fuel ≤ more) {t : Transition σ (Event σ)}
    (h : x.step fuel e world = some t) : x.step more e world = some t := by
  cases e with
  | running stack =>
    simp only [step] at h ⊢
    cases hsteps : stack.top.steps with
    | nil =>
      rw [hsteps] at h
      exact h
    | cons s rest =>
      rw [hsteps] at h
      dsimp only at h ⊢
      cases hresolve : x.registry.resolve fuel stack.top.env s rest world with
      | none => simp [hresolve] at h
      | some found =>
        rw [hresolve] at h
        rw [(Registry.resolve_mono hle hresolve).1]
        exact h
  | awaitingIo _ _ | done | failed => exact h

/-- More fuel does not change how a run ends. -/
theorem run_mono (hle : fuel ≤ more) {t : Transition σ Outcome} (h : x.run fuel e world = some t) :
    x.run more e world = some t := by
  induction fuel generalizing more e world with
  | zero => simp [run] at h
  | succ fuel ih =>
    obtain ⟨more, rfl⟩ : ∃ n, more = n + 1 := ⟨more - 1, by omega⟩
    replace hle : fuel ≤ more := Nat.le_of_succ_le_succ hle
    rw [run] at h ⊢
    cases hstep : x.step fuel e world with
    | none => simp [hstep] at h
    | some made =>
      rw [hstep] at h
      rw [step_mono hle hstep]
      obtain ⟨result, next, world'⟩ := made
      -- Only what makes progress or waits for an io goes on.
      cases result with
      | error f => exact h
      | ok event =>
        cases event with
        | finished outcome => exact h
        | progress => exact ih hle h
        | io io =>
          dsimp only at h ⊢
          cases hperform : next.perform io world' with
          | mk result next world' =>
            rw [hperform] at h
            cases result with
            | error f => exact h
            | ok u => exact ih hle h

/-- A run from the execution ends in this way. -/
def Ends (x : Executor σ) (e : Execution σ) (world : σ) (t : Transition σ Outcome) : Prop :=
  ∃ fuel, x.run fuel e world = some t

namespace Ends

variable {t : Transition σ Outcome}

/-- After a step that makes progress the run ends as it does from there. -/
theorem progress (h : x.step fuel e world = some ⟨.ok .progress, next, world'⟩)
    (hends : x.Ends next world' t) : x.Ends e world t := by
  obtain ⟨n, hn⟩ := hends
  refine ⟨max fuel n + 1, ?_⟩
  rw [run, step_mono (Nat.le_max_left fuel n) h]
  exact run_mono (Nat.le_max_right fuel n) hn

/-- After a step that asks for an io the run ends as it does once the value is delivered. -/
theorem io {io : Io σ} {asking : Execution σ} {v : Value} {asked : σ}
    (h : x.step fuel e world = some ⟨.ok (.io io), asking, asked⟩)
    (hperform : io.perform asked = (.ok v, world')) (hresume : asking.resume v = (.ok (), next))
    (hends : x.Ends next world' t) : x.Ends e world t := by
  obtain ⟨n, hn⟩ := hends
  refine ⟨max fuel n + 1, ?_⟩
  rw [run, step_mono (Nat.le_max_left fuel n) h]
  simp only [Execution.perform, hperform, hresume]
  exact run_mono (Nat.le_max_right fuel n) hn

/-- A step that finishes the program ends the run. -/
theorem finished {outcome : Outcome}
    (h : x.step fuel e world = some ⟨.ok (.finished outcome), next, world'⟩) :
    x.Ends e world ⟨.ok outcome, next, world'⟩ :=
  ⟨fuel + 1, by rw [run, h]⟩

/-- A step that meets a fault ends the run. -/
theorem fault {f : Fault} (h : x.step fuel e world = some ⟨.error f, next, world'⟩) :
    x.Ends e world ⟨.error f, next, world'⟩ :=
  ⟨fuel + 1, by rw [run, h]⟩

/-- A step that asks for an io which breaks its contract ends the run. -/
theorem breach {io : Io σ} {asking : Execution σ} {asked : σ} {f : Fault}
    (h : x.step fuel e world = some ⟨.ok (.io io), asking, asked⟩)
    (hperform : io.perform asked = (.error f, world')) :
    x.Ends e world ⟨.error f, .failed, world'⟩ :=
  ⟨fuel + 1, by simp only [run, h, Execution.perform, hperform]; rfl⟩

/-- With enough fuel the executor gives the result of a run that ends. -/
theorem execute {program : Program σ} (h : x.Ends (.start program) world t) :
    ∃ n, ∀ fuel ≥ n, x.execute fuel program world = some (t.result, t.world) := by
  obtain ⟨n, hn⟩ := h
  refine ⟨n, fun fuel hfuel => ?_⟩
  rw [Executor.execute, run_mono hfuel hn]
  rfl

end Ends

end Executor

end EffectPrograms
