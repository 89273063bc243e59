import EffectPrograms.Proofs.Records
import Mathlib.Data.List.Chain

/-!
# Sound executions

A name is checked in one frame and bound in it later, when the composite above is left or an io is
answered. `Record.Sound` says what has to hold of the frames in between for this to succeed: the
result of each composite can be bound in the one below it, the outermost has nothing to deliver, a
name that waits for an io is free, and composites are open until the end. Each operation on the
stack keeps it (`Stack.Sound.bind`, `.enter`, `.leave`), so it holds of every execution that calls
lead to (`Executor.Reachable.sound`).

A sound stack can always be left and a pending value can always be bound, so what remains of the
faults of an execution's own are defects of the program, the depth limit, and calls out of turn. A
record that is sound is the record of an execution (`Record.Sound.exists_execution`), so a call on
it leaves it sound as well (`Record.step_sound`, `Record.resume_sound`) and never finds that no
composite is open.
-/

namespace EffectPrograms

variable {σ : Type}

namespace Stack

/-- Every composite can deliver its result to the one below it. -/
structure Sound (stack : Stack σ) : Prop where
  /-- The name of a result can be bound in the frame directly below. -/
  linked : stack.frames.IsChain fun inner outer => outer.env.Free inner.binding
  /-- The outermost composite delivers the outcome, under no name and as it is. -/
  outermost : ∀ frame ∈ stack.frames.getLast?, frame.binding = none ∧ frame.discards = false
  /-- All bindings have names of their own. -/
  named : ∀ frame ∈ stack.frames, frame.env.WellNamed

/-- A stack stays sound under another innermost composite that delivers its result in the same
way. -/
theorem Sound.withTop {stack : Stack σ} (h : stack.Sound) {top : Frame σ}
    (hbinding : top.binding = stack.top.binding) (hdiscards : top.discards = stack.top.discards)
    (hnamed : top.env.WellNamed) : (⟨top, stack.below⟩ : Stack σ).Sound := by
  obtain ⟨old, below⟩ := stack
  dsimp only at hbinding hdiscards
  refine ⟨?_, ?_, ?_⟩
  -- The frame below sees only the name of the innermost one.
  · obtain ⟨hlink, hrest⟩ := List.isChain_cons.1 h.linked
    refine List.isChain_cons.2 ⟨fun outer houter => ?_, hrest⟩
    rw [hbinding]
    exact hlink outer houter
  · intro frame hframe
    cases below with
    | nil =>
      obtain rfl : top = frame := by simpa [frames] using hframe
      rw [hbinding, hdiscards]
      exact h.outermost old rfl
    | cons outer rest => exact h.outermost frame (by simpa [frames] using hframe)
  · intro frame hframe
    rcases List.mem_cons.1 hframe with rfl | hbelow
    · exact hnamed
    · exact h.named frame (List.mem_cons_of_mem _ hbelow)

/-- The bindings of the innermost composite have names of their own. -/
theorem Sound.top_named {stack : Stack σ} (h : stack.Sound) : stack.top.env.WellNamed :=
  h.named stack.top (List.mem_cons_self ..)

/-- What is below the innermost composite is sound without it. -/
theorem Sound.tail {top parent : Frame σ} {below : List (Frame σ)}
    (h : (⟨top, parent :: below⟩ : Stack σ).Sound) : (⟨parent, below⟩ : Stack σ).Sound where
  linked := (List.isChain_cons.1 h.linked).2
  outermost frame hframe := h.outermost frame (by simpa [frames] using hframe)
  named frame hframe := h.named frame (List.mem_cons_of_mem _ hframe)

/-- A composite that has not started can be opened on top under a free name. -/
theorem Sound.push {stack : Stack σ} (h : stack.Sound) {binding : Option String}
    (hfree : stack.top.env.Free binding) (steps : List (Step σ)) :
    (⟨{ steps := steps, binding := binding }, stack.frames⟩ : Stack σ).Sound where
  linked := List.isChain_cons.2 ⟨by
    rintro outer ⟨⟩
    exact hfree, h.linked⟩
  outermost frame hframe := h.outermost frame (by simpa [frames] using hframe)
  named frame hframe := by
    rcases List.mem_cons.1 hframe with rfl | hbelow
    · exact Environment.wellNamed_empty
    · exact h.named frame hbelow

/-- An inner composite can be exchanged for one that has not started, under its own name. -/
theorem Sound.replace {top parent : Frame σ} {below : List (Frame σ)}
    (h : (⟨top, parent :: below⟩ : Stack σ).Sound) (steps : List (Step σ)) :
    (⟨{ steps := steps, binding := top.binding, discards := true }, parent :: below⟩ :
      Stack σ).Sound where
  linked := List.isChain_cons.2 (List.isChain_cons.1 h.linked)
  outermost frame hframe := h.outermost frame (by simpa [frames] using hframe)
  named frame hframe := by
    rcases List.mem_cons.1 hframe with rfl | hbelow
    · exact Environment.wellNamed_empty
    · exact h.named frame (List.mem_cons_of_mem _ hbelow)

/-- A free name can be bound in the innermost composite. -/
theorem Sound.bind {stack : Stack σ} (h : stack.Sound) {binding : Option String}
    (hfree : stack.top.env.Free binding) (v : Value) :
    ∃ next : Stack σ, stack.bind binding v = .ok next ∧ next.Sound := by
  refine ⟨{ stack with top := { stack.top with env := stack.top.env.bound binding v } }, ?_, ?_⟩
  · simp only [Stack.bind, hfree.bindAs v]
    rfl
  · exact h.withTop rfl rfl (hfree.wellNamed h.top_named v)

/-- A composite can be opened under a free name unless the limit is reached. -/
theorem Sound.enter {stack : Stack σ} (h : stack.Sound) {binding : Option String}
    (hfree : stack.top.env.Free binding) (limit : Option Nat) (steps : List (Step σ)) :
    (∃ next, stack.enter limit binding steps = .ok next ∧ next.Sound) ∨
      ∃ depth, limit = some depth ∧ stack.enter limit binding steps = .error (.tooDeep depth) := by
  rcases enter_cases limit stack binding steps with ⟨hinner, -, hreplace⟩ | hpush | hdeep
  · refine .inl ⟨_, hreplace, ?_⟩
    -- The name of an exhausted composite is free in the one below, and goes over with its place.
    obtain ⟨top, below⟩ := stack
    cases below with
    | nil => exact absurd rfl hinner
    | cons parent below => exact h.replace steps
  · exact .inl ⟨_, hpush, h.push hfree steps⟩
  · exact .inr hdeep

end Stack

/-- What holds of a record between any two calls. -/
structure Record.Sound (r : Record σ) : Prop where
  /-- Composites are open until the execution has ended. -/
  open_iff : r.frames = [] ↔ r.status = .done ∨ r.status = .failed
  /-- The outermost composite has no name and delivers its result as it is. -/
  outermost : ∀ frame ∈ r.frames.getLast?, frame.binding = none ∧ frame.discards = false
  /-- The name of every other composite can be bound in the frame directly below it. -/
  linked : r.frames.IsChain fun inner outer => outer.env.Free inner.binding
  /-- A name is pending only for an io, and can be bound in the innermost composite. -/
  pending : ∀ name ∈ r.pending, r.status = .awaitingIo ∧
    ∀ frame ∈ r.frames.head?, frame.env.Free (some name)
  /-- The names of every environment are distinct and not empty. -/
  named : ∀ frame ∈ r.frames, frame.env.WellNamed

namespace Execution

/-- What holds of an execution between any two calls: what it holds is sound. -/
def Sound (e : Execution σ) : Prop := e.record.Sound

/-- A running execution is sound if its stack is. -/
theorem sound_running {stack : Stack σ} (h : stack.Sound) : (running stack).Sound where
  open_iff := by simp [record_running, Stack.frames]
  outermost := h.outermost
  linked := h.linked
  pending := by simp [record_running]
  named := h.named

/-- An execution that waits is sound if its stack is and it can bind what it waits for. -/
theorem sound_awaitingIo {stack : Stack σ} (h : stack.Sound) {binding : Option String}
    (hfree : stack.top.env.Free binding) : (awaitingIo binding stack).Sound where
  open_iff := by simp [record_awaitingIo, Stack.frames]
  outermost := h.outermost
  linked := h.linked
  pending name hname := by
    obtain rfl : binding = some name := hname
    refine ⟨rfl, ?_⟩
    rintro frame ⟨⟩
    exact hfree
  named := h.named

/-- An execution that has ended is sound. -/
theorem sound_ended {e : Execution σ} (h : e = .done ∨ e = .failed) : e.Sound := by
  have hempty : e.record.frames = [] ∧ e.record.pending = none ∧
      (e.record.status = .done ∨ e.record.status = .failed) := by
    rcases h with rfl | rfl
    · exact ⟨rfl, rfl, .inl rfl⟩
    · exact ⟨rfl, rfl, .inr rfl⟩
  obtain ⟨hframes, hpending, hstatus⟩ := hempty
  exact ⟨iff_of_true hframes hstatus, by simp [hframes], by simp [hframes], by simp [hpending],
    by simp [hframes]⟩

/-- The frames of a sound execution form a sound stack. -/
theorem Sound.stack {stack : Stack σ} {e : Execution σ} (h : e.Sound)
    (hframes : e.frames = stack.frames) : stack.Sound where
  linked := hframes ▸ h.linked
  outermost := hframes ▸ h.outermost
  named := hframes ▸ h.named

/-- A program at its start is sound. -/
theorem sound_start (program : Program σ) : (start program).Sound := by
  refine sound_running ⟨.singleton _, ?_, ?_⟩
  · rintro frame ⟨⟩
    exact ⟨rfl, rfl⟩
  · intro frame hframe
    obtain rfl : frame = { steps := program } := by simpa [Stack.frames] using hframe
    exact Environment.wellNamed_empty

end Execution

/-- A sound stack can be left, and what is left is sound. -/
theorem Stack.Sound.leave {stack : Stack σ} (h : stack.Sound) (escaped : Option Value) :
    ∃ event next, stack.leave escaped = .ok (event, next) ∧ next.Sound := by
  obtain ⟨top, below⟩ := stack
  cases below with
  | nil => exact ⟨_, .done, rfl, Execution.sound_ended (.inl rfl)⟩
  | cons parent below =>
    -- Nothing was bound in the frame below since the composite on top of it was opened.
    have hfree : parent.env.Free top.binding :=
      (List.isChain_cons.1 h.linked).1 parent (by simp)
    obtain ⟨next, hbind, hnext⟩ :=
      h.tail.bind hfree (if top.discards then .null else escaped.getD .null)
    refine ⟨.progress, .running next, ?_, Execution.sound_running hnext⟩
    simp only [Stack.leave, hbind]
    rfl

/-- Carrying out what a step came to under a free name keeps an execution sound. The only fault that
it can meet is the depth limit. -/
theorem Stack.Sound.commit {stack : Stack σ} (h : stack.Sound) {x : Resolution σ}
    (hfree : stack.top.env.Free x.binding) (limit : Option Nat) :
    (∃ event next, stack.commit limit x = .ok (event, next) ∧ next.Sound) ∨
      ∃ depth, limit = some depth ∧ stack.commit limit x = .error (.tooDeep depth) := by
  have hrest : (⟨{ stack.top with steps := x.rest }, stack.below⟩ : Stack σ).Sound :=
    h.withTop rfl rfl h.top_named
  unfold Stack.commit
  cases hverdict : x.verdict with
  | value v =>
    obtain ⟨next, hbind, hnext⟩ := hrest.bind hfree v
    exact .inl ⟨.progress, .running next, by simp only [hbind]; rfl,
      Execution.sound_running hnext⟩
  | escape v => exact .inl (hrest.leave (some v))
  | suspend io =>
    exact .inl ⟨.io io, _, rfl, Execution.sound_awaitingIo hrest hfree⟩
  | enter steps =>
    rcases hrest.enter hfree limit steps with ⟨next, henter, hnext⟩ | ⟨depth, hlimit, henter⟩
    · exact .inl ⟨.progress, .running next, by simp only [henter]; rfl,
        Execution.sound_running hnext⟩
    · exact .inr ⟨depth, hlimit, by simp only [henter]; rfl⟩

/-! ## Calls -/

/-- A step of a sound execution leaves a sound one. If it fails, its front step could not be
resolved, or the limit does not admit the composite that it was to open. -/
theorem Executor.step_cases {x : Executor σ} {fuel : Nat} {stack : Stack σ} {world : σ}
    {t : Transition σ (Event σ)} (hsound : stack.Sound)
    (h : x.step fuel (.running stack) world = some t) :
    (∃ event, t.result = .ok event ∧ t.execution.Sound) ∨
      ∃ f, t = .fail f t.world ∧
        ((∃ s rest, stack.top.steps = s :: rest ∧
            x.registry.resolve fuel stack.top.env s rest world = some (.error f, t.world)) ∨
          ∃ depth, x.settings.maxDepth = some depth ∧ f = .tooDeep depth) := by
  rw [step_eq_stepBy] at h
  rcases stepBy_cases h with ⟨hsteps, rfl⟩ |
    ⟨s, rest, hsteps, ⟨f, world', hresolve, rfl⟩ | ⟨resolution, world', hresolve, rfl⟩⟩
  · obtain ⟨event, next, hleave, hnext⟩ := hsound.leave none
    rw [hleave]
    exact .inl ⟨event, rfl, hnext⟩
  · exact .inr ⟨f, rfl, .inl ⟨s, rest, hsteps, hresolve⟩⟩
  · -- The name was checked while the step was resolved, in the environment that it is bound in.
    have hfree := Registry.resolve_free hresolve
    rcases hsound.commit hfree x.settings.maxDepth with
      ⟨event, next, hcommit, hnext⟩ | ⟨depth, hlimit, hcommit⟩
    · rw [hcommit]
      exact .inl ⟨event, rfl, hnext⟩
    · rw [hcommit]
      exact .inr ⟨.tooDeep depth, rfl, .inr ⟨depth, hlimit, rfl⟩⟩

/-- A step of a sound execution leaves a sound one. If it meets a fault, the fault was raised by a
deferred step or an interpreter in this step, or is the execution's own. -/
theorem Executor.step_sound {x : Executor σ} {fuel : Nat} {e : Execution σ} {world : σ}
    {t : Transition σ (Event σ)} (he : e.Sound) (h : x.step fuel e world = some t) :
    t.execution.Sound ∧ ∀ f, t.result = .error f →
      (∃ stack, e = .running stack ∧ .raise f ∈ x.registry.stepActs fuel stack world) ∨
        f.Own x.settings.maxDepth := by
  cases e with
  | running stack =>
    rcases step_cases (he.stack rfl) h with ⟨event, hresult, hnext⟩ | ⟨f, ht, hfault⟩
    · exact ⟨hnext, by simp [hresult]⟩
    · rw [ht]
      refine ⟨Execution.sound_ended (.inr rfl), ?_⟩
      rintro g ⟨⟩
      rcases hfault with ⟨s, rest, hsteps, hresolve⟩ | ⟨depth, hlimit, rfl⟩
      · refine (Registry.raise_or_own_of_resolve x.settings.maxDepth hresolve).imp_left ?_
        intro hraise
        exact ⟨stack, rfl, by rwa [x.registry.stepActs_of_steps hsteps]⟩
      · exact .inr hlimit
  | awaitingIo _ _ | done | failed =>
    -- A step out of turn changes nothing.
    simp only [step, Option.some.injEq] at h
    subst h
    refine ⟨he, ?_⟩
    rintro g ⟨⟩
    exact .inr trivial

/-- A value that a sound execution waits for can be bound, and leaves it sound; a value that it does
not wait for is refused. -/
theorem Execution.resume_sound {e : Execution σ} (he : e.Sound) (v : Value) :
    (e.resume v).2.Sound ∧ ∀ f limit, (e.resume v).1 = .error f → f.Own limit := by
  cases e with
  | awaitingIo binding stack =>
    have hstack : stack.Sound := he.stack rfl
    have hfree : stack.top.env.Free binding := by
      intro name hname
      exact (he.pending name hname).2 stack.top rfl name rfl
    obtain ⟨next, hbind, hnext⟩ := hstack.bind hfree v
    simp only [resume, hbind]
    exact ⟨sound_running hnext, by simp⟩
  | running _ | done | failed =>
    refine ⟨he, ?_⟩
    rintro f limit ⟨⟩
    trivial

/-- The executions that calls lead to from the start of a program. Any value may be delivered, the
world may be any other at each call, and calls may come out of turn. -/
inductive Executor.Reachable (x : Executor σ) (program : Program σ) : Execution σ → Prop where
  | start : Reachable x program (.start program)
  | step {e : Execution σ} {fuel : Nat} {world : σ} {t : Transition σ (Event σ)} :
      Reachable x program e → x.step fuel e world = some t → Reachable x program t.execution
  | resume {e : Execution σ} (v : Value) :
      Reachable x program e → Reachable x program (e.resume v).2

/-- Every execution that calls lead to is sound. -/
theorem Executor.Reachable.sound {x : Executor σ} {program : Program σ} {e : Execution σ}
    (h : x.Reachable program e) : e.Sound := by
  induction h with
  | start => exact Execution.sound_start program
  | step _ hstep ih => exact (step_sound ih hstep).1
  | resume v _ ih => exact (Execution.resume_sound ih v).1

/-! ## The words of faults -/

/-- A text does not start with what it does not start with. -/
theorem append_ne_of_not_isPrefix {start rest text : String}
    (h : ¬ start.toList <+: text.toList) : start ++ rest ≠ text := by
  rintro rfl
  exact h (by simp)

/-- An execution never finds by itself that it has no composite open. -/
theorem Fault.Own.message_ne {limit : Option Nat} {f : Fault} (h : f.Own limit) :
    f.message ≠ "Invalid step: execution has no open composite" := by
  -- Only the defects of a step have the first words in common with it.
  cases f with
  | invalidStep defect =>
    cases defect with
    | unnamedBinding =>
      show "Invalid step: " ++ "binding name is empty" ≠ _
      simp
    | nestedBinding outer inner =>
      show "Invalid step: " ++
        ("binding |" ++ outer ++ "| wraps another binding |" ++ inner ++ "|") ≠ _
      have hstart : "Invalid step: " ++ "binding |" = "Invalid step: binding |" := by decide
      simp only [String.append_assoc]
      rw [← String.append_assoc, hstart]
      exact append_ne_of_not_isPrefix (by simp)
    | unencodable _ _ | malformedEncoding _ _ | nothingOpen | stated _ => exact h.elim
  | nameTaken name =>
    show "Tried to bind to variable |" ++ name ++ "|, but it was already defined in this scope" ≠ _
    rw [String.append_assoc]
    exact append_ne_of_not_isPrefix (by simp)
  | noInterpreter r => exact append_ne_of_not_isPrefix (by simp)
  | notRunning status => exact append_ne_of_not_isPrefix (by simp)
  | tooDeep depth =>
    show "Composite nesting exceeded the limit of " ++ toString depth ++ " frames" ≠ _
    rw [String.append_assoc]
    exact append_ne_of_not_isPrefix (by simp)
  | _ => exact h.elim

/-! ## Records -/

namespace Record

/-- A sound record is that of an execution: its composites fit its status, and no name is pending
but for an io. -/
theorem Sound.exists_execution {r : Record σ} (h : r.Sound) :
    ∃ e : Execution σ, e.record = r := by
  obtain ⟨frames, status, pending⟩ := r
  have hopen : frames = [] ↔ status = .done ∨ status = .failed := h.open_iff
  have hpending : status ≠ .awaitingIo → pending = none := by
    intro hstatus
    cases pending with
    | none => rfl
    | some name => exact absurd (h.pending name rfl).1 hstatus
  cases frames with
  | nil =>
    rcases hopen.1 rfl with rfl | rfl
    · obtain rfl := hpending (by decide)
      exact ⟨.done, rfl⟩
    · obtain rfl := hpending (by decide)
      exact ⟨.failed, rfl⟩
  | cons top below =>
    cases status with
    | running =>
      obtain rfl := hpending (by decide)
      exact ⟨.running ⟨top, below⟩, rfl⟩
    | awaitingIo => exact ⟨.awaitingIo pending ⟨top, below⟩, rfl⟩
    | done => exact absurd (hopen.2 (.inl rfl)) (List.cons_ne_nil top below)
    | failed => exact absurd (hopen.2 (.inr rfl)) (List.cons_ne_nil top below)

/-- A step of a sound record leaves a sound one. If it meets a fault, the fault was raised by a
deferred step or an interpreter in this step, or is the execution's own. -/
theorem step_sound {x : Executor σ} {fuel : Nat} {r next : Record σ} {world world' : σ}
    {result : Except Fault (Event σ)} (hr : r.Sound)
    (h : r.step x fuel world = some (result, next, world')) :
    next.Sound ∧ ∀ f, result = .error f →
      (∃ frame below, r.frames = frame :: below ∧
        .raise f ∈ x.registry.stepActs fuel ⟨frame, below⟩ world) ∨ f.Own x.settings.maxDepth := by
  obtain ⟨e, rfl⟩ := hr.exists_execution
  rw [x.record_step] at h
  obtain ⟨t, hstep, hrecorded⟩ := Option.map_eq_some_iff.1 h
  obtain ⟨rfl, hrest⟩ := Prod.mk.inj hrecorded
  obtain ⟨rfl, rfl⟩ := Prod.mk.inj hrest
  obtain ⟨hnext, hfaults⟩ := Executor.step_sound hr hstep
  refine ⟨hnext, fun f hf => (hfaults f hf).imp_left ?_⟩
  rintro ⟨stack, rfl, hraise⟩
  exact ⟨stack.top, stack.below, rfl, hraise⟩

/-- A value that a sound record waits for can be bound, and leaves it sound; a value that it does
not wait for is refused. -/
theorem resume_sound {r : Record σ} (hr : r.Sound) (v : Value) :
    (r.resume v).2.Sound ∧ ∀ f limit, (r.resume v).1 = .error f → f.Own limit := by
  obtain ⟨e, rfl⟩ := hr.exists_execution
  rw [e.record_resume]
  exact Execution.resume_sound hr v

/-- The records that calls lead to from the start of a program. -/
inductive Reachable (x : Executor σ) (program : Program σ) : Record σ → Prop where
  | start : Reachable x program (.start program)
  | step {r next : Record σ} {fuel : Nat} {world world' : σ} {result : Except Fault (Event σ)} :
      Reachable x program r → r.step x fuel world = some (result, next, world') →
        Reachable x program next
  | resume {r : Record σ} (v : Value) :
      Reachable x program r → Reachable x program (r.resume v).2

/-- Every record that calls lead to is sound. -/
theorem Reachable.sound {x : Executor σ} {program : Program σ} {r : Record σ}
    (h : Reachable x program r) : r.Sound := by
  induction h with
  | start => exact Execution.sound_start program
  | step _ hstep ih => exact (step_sound ih hstep).1
  | resume v _ ih => exact (resume_sound ih v).1

/-- The records that calls lead to are those of the executions that calls lead to. -/
theorem Reachable.exists_execution {x : Executor σ} {program : Program σ} {r : Record σ}
    (h : Reachable x program r) : ∃ e, x.Reachable program e ∧ e.record = r := by
  induction h with
  | start => exact ⟨.start program, .start, rfl⟩
  | step _ hstep ih =>
    obtain ⟨e, he, rfl⟩ := ih
    rw [x.record_step] at hstep
    obtain ⟨t, hstep, hrecorded⟩ := Option.map_eq_some_iff.1 hstep
    exact ⟨t.execution, he.step hstep, (Prod.mk.inj (Prod.mk.inj hrecorded).2).1⟩
  | resume v _ ih =>
    obtain ⟨e, he, rfl⟩ := ih
    exact ⟨(e.resume v).2, he.resume v, (congrArg Prod.snd (e.record_resume v)).symm⟩

/-- Between any two calls a record is sound, and is the record of an execution after the same calls.
Hence no call finds that no composite is open: a step whose fault says so had it raised by a
deferred step or an interpreter, and the delivery of a value never meets such a fault. -/
theorem Reachable.sound_and_open {x : Executor σ} {program : Program σ} {r : Record σ}
    (h : Reachable x program r) :
    r.Sound ∧ (∃ e, x.Reachable program e ∧ e.record = r) ∧
      (∀ fuel world f next world', r.step x fuel world = some (.error f, next, world') →
        f.message = "Invalid step: execution has no open composite" →
          ∃ frame below, r.frames = frame :: below ∧
            .raise f ∈ x.registry.stepActs fuel ⟨frame, below⟩ world) ∧
      ∀ v f, (r.resume v).1 = .error f →
        f.message ≠ "Invalid step: execution has no open composite" := by
  refine ⟨h.sound, h.exists_execution, ?_, ?_⟩
  · intro fuel world f next world' hstep hmessage
    rcases (step_sound h.sound hstep).2 f rfl with hraise | hown
    · exact hraise
    · exact absurd hmessage hown.message_ne
  · intro v f hfault
    exact ((resume_sound h.sound v).2 f none hfault).message_ne

end Record

/-- Asks for an io under a name inside two composites, of which the inner one takes the place of the
outer one. -/
def Program.nestedQuestion : Program Unit :=
  [.bind "outer" (.composite [.composite [.bind "inner" (.op (.io ⟨fun c w => (c, w), .late⟩))]])]

/-- The io in two nested composites is waited for in one frame above the outermost. -/
theorem Record.Reachable.sound_and_open_nested :
    ∃ r : Record Unit, Reachable { registry := .empty } Program.nestedQuestion r ∧
      r.status = .awaitingIo ∧ r.pending = some "inner" ∧
      (r.frames.map fun frame => (frame.binding, frame.discards)) =
        [(some "outer", true), (none, false)] ∧ r.Sound := by
  have hstart : Reachable { registry := .empty } Program.nestedQuestion _ := .start
  have houter := hstart.step (show _ = some _ from rfl : Record.step _ 0 _ () = some _)
  have hinner := houter.step (show _ = some _ from rfl : Record.step _ 0 _ () = some _)
  have hwaits := hinner.step (show _ = some _ from rfl : Record.step _ 0 _ () = some _)
  exact ⟨_, hwaits, rfl, rfl, rfl, hwaits.sound_and_open.1⟩

end EffectPrograms
